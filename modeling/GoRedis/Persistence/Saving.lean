import GoRedis.Lib.Files
import GoRedis.Persistence.Rdb
import GoRedis.Resp.RespValue

/-! How `SaveRdb` writes the file.

It writes to a file beside the old one and renames that over it, so a failure before the
rename leaves the old file alone. But it looks at the stream only after the write, which may
have left everything in the buffer: the flush when the stream is closed can fail unseen, and a
good old file is then replaced by a part of the new one. -/
namespace GoRedis
open Files

/-- How the operations of a save go. -/
structure Faults where
  opens : Bool
  write : Write
  close : Flush
  renames : Bool
  removes : Bool

def tmpPath (path : Bytes) : Bytes := path ++ ascii ".tmp"

/-- `SaveRdb`, at one reading of each clock. -/
def saveRdbTo (faults : Faults) (rep : ClockRep) (steadyNow wallNow : Time) (s : Store) (path : Bytes) (disk : Disk) :
    Disk × Bool :=
  match openTrunc (tmpPath path) faults.opens disk with
  | (disk, none) => (disk, false)
  | (disk, some out) =>
    let (disk, out) := out.write faults.write (saveRdb rep steadyNow wallNow s) disk
    if out.good then
      -- the destructor closes the stream
      match rename (tmpPath path) path faults.renames (out.close faults.close disk) with
      | (disk, true) => (disk, true)
      | (disk, false) => (remove (tmpPath path) faults.removes disk, false)
    else (remove (tmpPath path) faults.removes (out.close faults.close disk), false)

/-- What is on the disk when `SaveRdb` is killed before it renames, with so many bytes put out. -/
def saveRdbKilled (put : Nat) (faults : Faults) (rep : ClockRep) (steadyNow wallNow : Time) (s : Store) (path : Bytes)
    (disk : Disk) : Disk :=
  match openTrunc (tmpPath path) faults.opens disk with
  | (disk, none) => disk
  | (disk, some out) => (out.write ⟨put, true⟩ (saveRdb rep steadyNow wallNow s) disk).1

/-- The file is renamed although the flush at the end did not put out all that was in the
buffer. -/
def Faults.Loses (faults : Faults) (bytes : Bytes) : Prop :=
  faults.opens = true ∧ faults.write.ok = true ∧ faults.renames = true ∧
    faults.close.out (bytes.drop faults.write.put) ≠ bytes.drop faults.write.put

theorem tmpPath_ne (path : Bytes) : path ≠ tmpPath path := by
  intro h
  have hlength := congrArg List.length h
  simp [tmpPath, ascii] at hlength

section
variable (faults : Faults) (rep : ClockRep) (steadyNow wallNow : Time) (s : Store) (path : Bytes) (disk : Disk)

/-- The four ways through a save. -/
theorem saveRdbTo_eq :
    let tmp := written (tmpPath path) faults.write faults.close (saveRdb rep steadyNow wallNow s) disk
    saveRdbTo faults rep steadyNow wallNow s path disk =
      if faults.opens = false then (disk, false)
      else if faults.write.ok && faults.renames then ((rename (tmpPath path) path true tmp).1, true)
      else (remove (tmpPath path) faults.removes tmp, false) := by
  intro tmp
  rcases hopens : faults.opens with _ | _
  · simp [saveRdbTo, openTrunc, hopens]
  rcases hok : faults.write.ok with _ | _
  · simp [saveRdbTo, openTrunc, hopens, Out.write, hok, tmp, written]
  rcases hrenames : faults.renames with _ | _
  · simp [saveRdbTo, openTrunc, hopens, Out.write, hok, rename, hrenames, tmp, written]
  · simp [saveRdbTo, openTrunc, hopens, Out.write, hok, rename, hrenames, tmp, written]

/-- A save touches no file but its own two. -/
theorem saveRdbTo_of_ne {other : Bytes} (h : other ≠ path) (htmp : other ≠ tmpPath path) :
    (saveRdbTo faults rep steadyNow wallNow s path disk).1 other = disk other := by
  rw [saveRdbTo_eq]
  split
  · rfl
  split
  · simp only [rename, if_true, Function.update_of_ne htmp, Function.update_of_ne h, written_of_ne htmp]
  · simp only [remove_of_ne _ htmp, written_of_ne htmp]

end

/-- Killed before it renames, it has touched the file beside the path only. -/
theorem saveRdbKilled_of_ne (put : Nat) (faults : Faults) (rep : ClockRep) (steadyNow wallNow : Time) (s : Store)
    (path : Bytes) (disk : Disk) {other : Bytes} (htmp : other ≠ tmpPath path) :
    saveRdbKilled put faults rep steadyNow wallNow s path disk other = disk other := by
  cases hopens : faults.opens with
  | false => simp [saveRdbKilled, openTrunc, hopens]
  | true => simp [saveRdbKilled, openTrunc, hopens, Out.write, append_of_ne _ htmp, Function.update_of_ne htmp]

/-- **What is at the path after a save.** Either the save returns true and the complete file is
there, or it returns false and what was there still is, unless the flush at the end put out
less than was left in the buffer and nothing else went wrong: then the save returns true, and
what is there is a part of the file. -/
theorem saveRdbTo_all_or_nothing_iff (faults : Faults) (rep : ClockRep) (steadyNow wallNow : Time) (s : Store)
    (path : Bytes) (disk : Disk) :
    let r := saveRdbTo faults rep steadyNow wallNow s path disk
    (r.2 = true ∧ r.1 path = some (saveRdb rep steadyNow wallNow s) ∨ r.2 = false ∧ r.1 path = disk path) ↔
      ¬faults.Loses (saveRdb rep steadyNow wallNow s) := by
  have hne := tmpPath_ne path
  intro r
  simp only [r, saveRdbTo_eq, Faults.Loses]
  split
  case isTrue hopens => simp [hopens]
  split
  case isTrue hopens hboth =>
    obtain ⟨hok, hrenames⟩ := Bool.and_eq_true_iff.mp hboth
    simp [hopens, hok, hrenames, rename, Function.update_of_ne hne, written_self, take_append_out_iff]
  case isFalse hopens hboth =>
    have hbranch : ¬(faults.write.ok = true ∧ faults.renames = true) := by simpa using hboth
    simp [remove_of_ne _ hne, written_of_ne hne]
    tauto

/-- A small snapshot is still in the buffer when the stream is looked at. The flush then puts
20 bytes of it out, and they replace the old snapshot. -/
theorem saveRdbTo_truncates :
    let faults : Faults :=
      { opens := true, write := ⟨0, true⟩, close := .fails 20, renames := true, removes := true }
    let path := ascii "dump.rdb"
    let old := saveRdb .exact 0 0 {}
    let s := ({} : Store).set (fun _ _ => 0) (ascii "k") (ascii "v")
    let r := saveRdbTo faults .exact 0 0 s path (Function.update (fun _ => none) path (some old))
    r.2 = true ∧ r.1 path = some ((saveRdb .exact 0 0 s).take 20) ∧
      r.1 path ≠ some (saveRdb .exact 0 0 s) ∧ r.1 path ≠ some old := by
  decide +kernel

end GoRedis
