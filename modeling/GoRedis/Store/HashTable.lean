import GoRedis.Lib.Buckets

/-! The hand-rolled hash table (`store/hash_table.h`).

A table is a row of chains of nodes and a count. Keys are byte strings, hashed by
64-bit FNV-1a and masked to the row's capacity, which stays a power of two. `Raw` is the
table as the code holds it and the functions on it are the code's; `Raw.WF` is its
representation invariant, and a `HashTable` is a raw table that satisfies it, so every
table the rest of the development meets is a well-formed one. -/
namespace GoRedis

/-- `std::string`: any bytes. -/
abbrev Bytes := List UInt8

/-- `HashTable::Node`, without its link: a chain is a list of nodes. -/
abbrev Node (V : Type) := Sigma fun _ : Bytes => V

def kInitialCapacity : Nat := 16
def kGrowthMultiplier : Nat := 2

/-- 64-bit FNV-1a. -/
def hashKey (key : Bytes) : UInt64 :=
  key.foldl (fun hash c => (hash ^^^ c.toUInt64) * 1099511628211) 14695981039346656037

/-- The bucket of a key in a row of `capacity` buckets: `hash & (capacity - 1)`. -/
def maskedIndex (capacity : Nat) (key : Bytes) : Nat := (hashKey key).toNat &&& (capacity - 1)

namespace HashTable

structure Raw (V : Type) where
  buckets : List (List (Node V))
  numEntries : Nat

namespace Raw
variable {V : Type}

/-- Also what `Clear` leaves. -/
def empty : Raw V := ⟨List.replicate kInitialCapacity [], 0⟩

def bucketIndex (t : Raw V) (key : Bytes) : Nat := maskedIndex t.buckets.length key

def chain (t : Raw V) (key : Bytes) : List (Node V) := t.buckets.getD (t.bucketIndex key) []

/-- `LoadFactor() > kMaxLoadFactor`, with the quotient compared to 3/4 exactly. -/
def overloaded (t : Raw V) : Bool := 4 * t.numEntries > 3 * t.buckets.length

/-- `LoadFactor() < kMaxLoadFactor / 4`, likewise. -/
def underloaded (t : Raw V) : Bool := 16 * t.numEntries < 3 * t.buckets.length

/-- Each node, chain by chain, is moved to the head of its new chain. -/
def rehashTo (t : Raw V) (newCapacity : Nat) : Raw V :=
  { t with
    buckets := t.buckets.foldl (fun new chain => chain.foldl (fun new node =>
        let index := maskedIndex newCapacity node.1
        new.set index (node :: new.getD index [])) new)
      (List.replicate newCapacity []) }

def resize (t : Raw V) : Raw V := t.rehashTo (t.buckets.length * kGrowthMultiplier)

def maybeShrink (t : Raw V) : Raw V :=
  if t.buckets.length ≤ kInitialCapacity then t
  else if !t.underloaded then t
  else t.rehashTo (max (t.buckets.length / kGrowthMultiplier) kInitialCapacity)

/-- `true` when the key was there and its value is updated in place. -/
def set (t : Raw V) (key : Bytes) (value : V) : Raw V × Bool :=
  if key ∈ (t.chain key).keys then
    ({ t with buckets := t.buckets.set (t.bucketIndex key) ((t.chain key).kreplace key value) }, true)
  else
    let t' : Raw V :=
      ⟨t.buckets.set (t.bucketIndex key) (⟨key, value⟩ :: t.chain key), t.numEntries + 1⟩
    (if t'.overloaded then t'.resize else t', false)

def get (t : Raw V) (key : Bytes) : Option V := (t.chain key).dlookup key

/-- A write through the pointer `Get` returns: the node's value, nothing else. -/
def assign (t : Raw V) (key : Bytes) (value : V) : Raw V :=
  { t with buckets := t.buckets.set (t.bucketIndex key) ((t.chain key).kreplace key value) }

def delete (t : Raw V) (key : Bytes) : Raw V × Bool :=
  if key ∈ (t.chain key).keys then
    (maybeShrink ⟨t.buckets.set (t.bucketIndex key) ((t.chain key).kerase key), t.numEntries - 1⟩,
      true)
  else (t, false)

def len (t : Raw V) : Nat := t.numEntries

/-- The nodes in the order `Keys` and `ForEach` walk them. -/
def nodes (t : Raw V) : List (Node V) := t.buckets.flatten

/-- `SampleKeys`' loop. `draw` is what `dist(rng)` gives on each attempt, brought into
the distribution's range; `left` counts the attempts that remain. -/
def sampleLoop (t : Raw V) (count : Nat) (draw : Nat → Nat) :
    (left attempts : Nat) → List (Node V) → List (Node V)
  | 0, _, out => out
  | left + 1, attempts, out =>
    if out.length < count then
      match t.buckets.getD (draw attempts % t.buckets.length) [] with
      | [] => sampleLoop t count draw left (attempts + 1) out
      | head :: _ => sampleLoop t count draw left (attempts + 1) (out ++ [head])
    else out

def sampleKeys (t : Raw V) (count : Nat) (draw : Nat → Nat) : List (Node V) :=
  if t.numEntries = 0 then [] else t.sampleLoop count draw (count * 20) 0 []

end Raw
end HashTable
end GoRedis
