import GoRedis.Lib.Signed
import GoRedis.Store.HashTableProofs

/-! Values, results and the clock (`store/value.h`, `store/store.h`). -/
namespace GoRedis

inductive ValueType where
  | string | list | hash
  deriving DecidableEq, Repr

/-- A time point: nanoseconds of `steady_clock` or of `system_clock`. -/
abbrev Time := Int

/-- How clock counts are held: as exact integers, or in the 64 bits `std::chrono` gives
them. Everything below is for either, unless it says which. -/
inductive ClockRep where
  | exact | int64
  deriving DecidableEq, Repr

/-- The count a computed duration or time point ends up as. -/
def ClockRep.count : ClockRep → Int → Int
  | .exact, n => n
  | .int64, n => n.bmod (2 ^ 64)

/-- A count that fits in 64 bits is the same either way. -/
theorem ClockRep.count_of_fits {n : Int} (h : Signed.Fits 64 n) (rep : ClockRep) : rep.count n = n := by
  cases rep with
  | exact => rfl
  | int64 => exact Signed.bmod_of_fits (by decide) h

/-- A count as an `int`: what `static_cast<int>` makes of a `size_t`, and an `int` that was
counted up to it. -/
@[irreducible] def asInt (n : Int) : Int := n.bmod (2 ^ 32)

theorem asInt_of_fits {n : Int} (h : Signed.Fits 32 n) : asInt n = n := by
  rw [asInt]
  exact Signed.bmod_of_fits (by decide) h

@[simp] theorem asInt_zero : asInt 0 = 0 := asInt_of_fits (by decide)

/-- `Value`: a type tag and one field for each type, all always present. `expiresAt` is
the deadline, if the key has one; `lastAccessedSeq` is the stamp of its last access. -/
structure Value where
  type : ValueType := .string
  strValue : Bytes := []
  listValue : List Bytes := []
  hashValue : HashTable Bytes := .empty
  expiresAt : Option Time := none
  lastAccessedSeq : Nat := 0

inductive StoreError where
  | none | wrongType
  deriving DecidableEq, Repr

/-- `Result<T>`: a value when the key was there and of the right type. -/
structure Result (α : Type) where
  value : Option α := none
  error : StoreError := .none
  deriving DecidableEq, Repr

namespace Result
variable {α β : Type}

def ok (r : Result α) : Bool := r.error = .none

/-- A result that carries a value. -/
def just (a : α) : Result α := ⟨some a, .none⟩

/-- The key is absent: no value and no error. -/
def missing : Result α := ⟨none, .none⟩

def wrongType : Result α := ⟨none, .wrongType⟩

def map (f : α → β) (r : Result α) : Result β := ⟨r.value.map f, r.error⟩

@[simp] theorem map_just (f : α → β) (a : α) : (just a).map f = just (f a) := rfl

@[simp] theorem map_wrongType (f : α → β) : wrongType.map f = wrongType := rfl

end Result

/-! ### Sizes -/

def kPerEntryOverheadBytes : Nat := 48
def kPerListElementOverheadBytes : Nat := 16
def kPerHashFieldOverheadBytes : Nat := 16

/-- What an entry is charged for. -/
def estimateEntryBytes (key : Bytes) (v : Value) : Nat :=
  key.length + kPerEntryOverheadBytes +
    match v.type with
    | .string => v.strValue.length
    | .list => (v.listValue.map fun elem => elem.length + kPerListElementOverheadBytes).sum
    | .hash => (v.hashValue.nodes.map fun field =>
        field.1.length + field.2.length + kPerHashFieldOverheadBytes).sum

end GoRedis
