import Mathlib.Logic.Function.Basic

/-! Files written through a buffered stream.

A stream keeps what it is given in a buffer and hands it to the operating system when it likes,
at the latest when it is closed. Handing it over can fail after any part of it has reached the
file. How each operation goes is an argument of it. -/
namespace Files

abbrev Name := List UInt8

/-- What is in the file of each name. -/
abbrev Disk := Name → Option (List UInt8)

/-- How a flush goes: everything reaches the file, or so many bytes do. -/
inductive Flush where
  | succeeds
  | fails (put : Nat)

/-- How a write goes: so many of the bytes that are pending reach the file and the others stay
in the buffer, and either that is all or there was an error. -/
structure Write where
  put : Nat
  ok : Bool

/-- A stream on an open file. -/
structure Out where
  name : Name
  buffer : List UInt8 := []
  good : Bool := true

def Flush.out : Flush → List UInt8 → List UInt8
  | .succeeds, bs => bs
  | .fails put, bs => bs.take put

def append (disk : Disk) (name : Name) (bs : List UInt8) : Disk :=
  Function.update disk name (some ((disk name).getD [] ++ bs))

/-- A file opened for writing; if that succeeds it is empty. -/
def openTrunc (name : Name) (ok : Bool) (disk : Disk) : Disk × Option Out :=
  if ok then (Function.update disk name (some []), some { name := name }) else (disk, none)

def Out.write (out : Out) (w : Write) (bs : List UInt8) (disk : Disk) : Disk × Out :=
  let pending := out.buffer ++ bs
  (append disk out.name (pending.take w.put),
    { out with buffer := pending.drop w.put, good := out.good && w.ok })

/-- The stream is closed; whether its last flush failed is for the caller to find out. -/
def Out.close (out : Out) (flush : Flush) (disk : Disk) : Disk := append disk out.name (flush.out out.buffer)

/-- One name becomes another at once. -/
def rename (source target : Name) (ok : Bool) (disk : Disk) : Disk × Bool :=
  if ok then (Function.update (Function.update disk target (disk source)) source none, true) else (disk, false)

def remove (name : Name) (ok : Bool) (disk : Disk) : Disk := if ok then Function.update disk name none else disk

/-! ### What an operation leaves alone -/

section
variable {name other : Name} (disk : Disk) (h : other ≠ name)
include h

theorem append_of_ne (bs : List UInt8) : append disk name bs other = disk other := Function.update_of_ne h _ _

theorem remove_of_ne (ok : Bool) : remove name ok disk other = disk other := by
  unfold remove
  split
  · exact Function.update_of_ne h _ _
  · rfl

end

/-! ### A new file written by one write -/

/-- The files once a new file has been opened, written to and closed. -/
def written (name : Name) (w : Write) (flush : Flush) (bs : List UInt8) (disk : Disk) : Disk :=
  let r := ({ name := name } : Out).write w bs (Function.update disk name (some []))
  r.2.close flush r.1

theorem written_of_ne {name other : Name} (h : other ≠ name) (w : Write) (flush : Flush) (bs : List UInt8)
    (disk : Disk) : written name w flush bs disk other = disk other := by
  show append (append _ name _) name _ other = _
  rw [append_of_ne _ h, append_of_ne _ h, Function.update_of_ne h]

theorem written_self (name : Name) (w : Write) (flush : Flush) (bs : List UInt8) (disk : Disk) :
    written name w flush bs disk name = some (bs.take w.put ++ flush.out (bs.drop w.put)) := by
  show append (append _ name _) name (flush.out (bs.drop w.put)) name = _
  simp only [append, Function.update_self, Option.getD_some, List.nil_append]

/-- Everything is in the file exactly when the last flush put out all that was left. -/
theorem take_append_out_iff (n : Nat) (flush : Flush) (bs : List UInt8) :
    bs.take n ++ flush.out (bs.drop n) = bs ↔ flush.out (bs.drop n) = bs.drop n := by
  constructor
  · intro h
    rw [← List.append_cancel_left_eq (bs.take n), h, List.take_append_drop]
  · intro h
    rw [h, List.take_append_drop]

end Files
