import GoRedis.Persistence.Corruption
import GoRedis.Persistence.Saving
import GoRedis.Server.Journal
import GoRedis.Server.Replay

/-! The server process, from one start to the next (`main.cpp`).

A life of the process parses its arguments, loads the log or the snapshot, serves clients, and
saves a snapshot unless it has a log or is killed. What one life leaves on the disk is what the
next one starts from.

With snapshots, what a start loads is what the last save that came to its rename has saved, or
nothing if a flush lost a part of it: never a part, and never a mixture of two saves
(`restart_loads`). With a log whose writes can fail, a start replays all commands that were
written in full in all lives so far, unless something was written behind a torn one
(`restart_replays`), and among what it replays are all writes that any client was told of and
whose `Append` has returned true (`confirmed_replayed`). A life with a log leaves the snapshot
alone, but a life that was told to log and could not open the file replaces a snapshot it has
never looked at (`lives_files`). -/
namespace GoRedis
open Interleaving Incremental CommandParser Files

/-! ### Arguments -/

structure Options where
  port : Int := 6380
  rdbPath : Bytes := ascii "dump.grdb"
  aofPath : Bytes := []
  maxMemoryBytes : Nat := 0
  deriving DecidableEq

/-- `std::atoi` and `std::atoll`, on numbers that fit their types. -/
def leadingInt (s : Bytes) : Int :=
  match s.dropWhile isSpace with
  | 45 :: digits => -(Decimal.value (digits.takeWhile Decimal.isDigit))
  | 43 :: digits => Decimal.value (digits.takeWhile Decimal.isDigit)
  | digits => Decimal.value (digits.takeWhile Decimal.isDigit)

/-- What an argument does with the one after it; nothing if it is unknown. -/
def setOption (opts : Options) (arg value : Bytes) : Option Options :=
  if arg = ascii "--port" then some { opts with port := leadingInt value }
  else if arg = ascii "--rdb" then some { opts with rdbPath := value }
  else if arg = ascii "--aof" then some { opts with aofPath := value }
  else if arg = ascii "--maxmemory" then some { opts with maxMemoryBytes := (leadingInt value % 2 ^ 64).toNat }
  else none

/-- `ParseArgs`, behind the program's name. An option at the end has an empty value, and an
argument that is unknown is passed over. -/
def parseArgs (opts : Options) : List Bytes → Options
  | [] => opts
  | [arg] => (setOption opts arg []).getD opts
  | arg :: value :: rest =>
    match setOption opts arg value with
    | some opts => parseArgs opts rest
    | none => parseArgs opts (value :: rest)

/-! ### One life -/

/-- How a life ends: by a signal, upon which it saves, or it is killed. It can be killed inside of
`SaveRdb`, when that has put out so many bytes of the new file, or when it is done with the files
and has not returned. -/
inductive Ending where
  | signal
  | killed
  | killedWriting (put : Nat)
  | killedReturning
  deriving DecidableEq

/-- What a life of the process meets: whether its files can be read and written and its port
bound, the clocks, its clients, how the writes of its log go, how it ends, and how its last save
goes. -/
structure Life (ι : Type) where
  argv : List Bytes
  readable : Bool := true
  writable : Bool := true
  listens : Bool := true
  clocks : LoadClocks := ⟨0, 0, 0⟩
  draw : Nat → Nat → Nat := fun _ _ => 0
  envs : Nat → Env := fun _ => { now := 0 }
  streams : ι → Bytes
  events : List (Event ι) := []
  appends : Outcomes := fun _ => ([.wrote (2 ^ 64)], true)
  ending : Ending := .signal
  faults : Faults
  steadyNow : Time := 0
  wallNow : Time := 0

namespace Life
variable {ι : Type} [DecidableEq ι] (rep : ClockRep) (life : Life ι)

def opts : Options := parseArgs {} life.argv

/-- The store before anything is loaded. -/
def fresh : Store :=
  if life.opts.maxMemoryBytes > 0 then ({} : Store).setMaxMemory life.draw life.opts.maxMemoryBytes else {}

/-- A file, if it is there and can be opened. -/
def file (name : Bytes) (disk : Disk) : Option Bytes := if life.readable then disk name else none

/-- There is an open writer. -/
def logs : Bool := !life.opts.aofPath.isEmpty && life.writable

/-- What is loaded: the log if there is to be one, and the snapshot otherwise. -/
def load (disk : Disk) : World :=
  if life.opts.aofPath.isEmpty then
    match life.file life.opts.rdbPath disk with
    | some bytes => { store := (loadRdb rep life.clocks life.draw bytes life.fresh).1 }
    | none => { store := life.fresh }
  else match life.file life.opts.aofPath disk with
    | some bytes => (loadAof life.envs bytes { store := life.fresh }).1
    | none => { store := life.fresh }

/-- The connections in the end. -/
def service (disk : Disk) : Service ι :=
  (Service.start (life.load rep disk) life.streams).run life.logs life.envs life.events

/-- What the clients leave. -/
def serve (disk : Disk) : World := (life.service rep disk).world

/-- The last save. -/
def save (disk : Disk) : Disk × Bool :=
  saveRdbTo life.faults rep life.steadyNow life.wallNow (life.serve rep disk).store life.opts.rdbPath disk

/-- It gets as far as the rename, if nothing fails. -/
def saves : Bool :=
  life.listens && !life.logs && match life.ending with
    | .signal | .killedReturning => true
    | .killed | .killedWriting _ => false

/-- The calls of `Append`. -/
def attempts (disk : Disk) : List Attempt :=
  if life.listens then (life.serve rep disk).attempts life.appends else []

/-- `main`. Opening the log makes it if it is not there. -/
def main (disk : Disk) : Disk :=
  if life.logs then append disk life.opts.aofPath (session [] (life.attempts rep disk))
  else if life.saves then (life.save rep disk).1
  else match life.listens, life.ending with
    | true, .killedWriting put =>
      saveRdbKilled put life.faults rep life.steadyNow life.wallNow (life.serve rep disk).store life.opts.rdbPath disk
    | _, _ => disk

end Life

/-- Lives one after another. -/
def lives {ι : Type} [DecidableEq ι] (rep : ClockRep) (ls : List (Life ι)) (disk : Disk) : Disk :=
  ls.foldl (fun disk life => life.main rep disk) disk

/-! ### What a save leaves at its path -/

section Save
variable (faults : Faults) (rep : ClockRep) (steadyNow wallNow : Time) (s : Store) (path : Bytes) (disk : Disk)

/-- What reaches the new file. -/
def Faults.out (bytes : Bytes) : Bytes := bytes.take faults.write.put ++ faults.close.out (bytes.drop faults.write.put)

/-- Whether a save returns true is not a matter of the disk. -/
theorem saveRdbTo_returns :
    (saveRdbTo faults rep steadyNow wallNow s path disk).2 = (faults.opens && faults.write.ok && faults.renames) := by
  rw [saveRdbTo_eq]
  cases faults.opens <;> cases faults.write.ok <;> cases faults.renames <;> rfl

theorem saveRdbTo_path :
    let r := saveRdbTo faults rep steadyNow wallNow s path disk
    r.1 path = if r.2 then some (faults.out (saveRdb rep steadyNow wallNow s)) else disk path := by
  have hne := tmpPath_ne path
  intro r
  simp only [r, saveRdbTo_eq]
  split
  · rfl
  split
  · simp [rename, Function.update_of_ne hne, written_self, Faults.out]
  · simp [remove_of_ne _ hne, written_of_ne hne]

variable {faults} {bytes : Bytes}

end Save

/-! ### Snapshots -/

section Snapshots
variable {ι : Type} [DecidableEq ι] (rep : ClockRep)

/-- What that life saved. -/
def Life.bytes (life : Life ι) (disk : Disk) : Bytes :=
  saveRdb rep life.steadyNow life.wallNow (life.serve rep disk).store

variable {rep} {path : Bytes}

/-- A life that does not come to its rename leaves all files but the one beside the snapshot. -/
theorem main_unsaved {life : Life ι} (hlog : life.logs = false) (hsaves : life.saves = false) {name : Bytes}
    (hname : name ≠ tmpPath life.opts.rdbPath) (disk : Disk) : life.main rep disk name = disk name := by
  rw [Life.main, hlog, hsaves, if_neg Bool.false_ne_true, if_neg Bool.false_ne_true]
  cases life.listens with
  | false => rfl
  | true =>
    cases life.ending with
    | killedWriting put => exact saveRdbKilled_of_ne _ _ _ _ _ _ _ _ hname
    | _ => rfl

/-- One life without a log. -/
theorem main_path {life : Life ι} (hlog : life.logs = false) (hpath : life.opts.rdbPath = path) (disk : Disk) :
    life.main rep disk path =
      if life.saves && (life.save rep disk).2 then some (life.faults.out (life.bytes rep disk)) else disk path := by
  subst hpath
  cases hsaves : life.saves with
  | false => exact main_unsaved hlog hsaves (tmpPath_ne _) disk
  | true =>
    rw [Life.main, hlog, if_neg Bool.false_ne_true, if_pos hsaves, Bool.true_and]
    exact saveRdbTo_path ..

end Snapshots

/-! ### Logs -/

section Logs
variable {ι : Type} [DecidableEq ι] (rep : ClockRep)

/-- The calls of `Append` in the lives. -/
def attempted : List (Life ι) → Disk → List Attempt
  | [], _ => []
  | life :: ls, disk => life.attempts rep disk ++ attempted ls (life.main rep disk)

variable {rep} {path : Bytes}

theorem encodeAll_append (commands commands' : List (List Bytes)) :
    encodeAll (commands ++ commands') = encodeAll commands ++ encodeAll commands' := by
  simp [encodeAll]

/-- One life with a log. -/
theorem main_log {life : Life ι} (hlog : life.logs = true) (hpath : life.opts.aofPath = path) (disk : Disk) :
    life.main rep disk path = some (session ((disk path).getD []) (life.attempts rep disk)) := by
  subst hpath
  rw [Life.main, hlog, if_pos rfl, append, Function.update_self, session_eq, session_eq, List.nil_append]

theorem lives_log {ls : List (Life ι)} (h : ∀ life ∈ ls, life.logs = true ∧ life.opts.aofPath = path) (disk : Disk) :
    (lives rep ls disk path).getD [] = session ((disk path).getD []) (attempted rep ls disk) := by
  induction ls generalizing disk with
  | nil => rfl
  | cons life ls ih =>
    obtain ⟨⟨hlog, hpath⟩, hrest⟩ := List.forall_mem_cons.mp h
    show (lives rep ls (life.main rep disk) path).getD [] = _
    rw [ih hrest, main_log hlog hpath, Option.getD_some, attempted, session, session, session, List.foldl_append]

omit [DecidableEq ι] in
/-- A start makes of a log what it makes of the commands it reads off it. -/
theorem load_log {next : Life ι} (hne : path ≠ []) (hnext : next.opts.aofPath = path)
    (hreadable : next.readable = true) (disk : Disk) :
    next.load rep disk = dispatchAll false next.envs (loaded ((disk path).getD [])) { store := next.fresh } := by
  have haof : next.opts.aofPath.isEmpty = false := by
    rw [hnext]
    simpa using hne
  have hread : next.file path disk = disk path := by
    rw [Life.file, hreadable, if_pos rfl]
  rw [Life.load, haof, if_neg Bool.false_ne_true, hnext, hread]
  cases disk path with
  | none =>
    rw [Option.getD_none, loaded_nil]
    rfl
  | some bytes => rfl

/-- **Restarts with a log.** After any lives with a log, whatever their clients did, however the
writes of the log went and however they ended, unless something was written behind a torn
command: a start replays the commands that were in the log in the beginning and those that were
written in full by each of the lives, in order and each once, and finds no error. -/
theorem restart_replays (rep : ClockRep) (path : Bytes) (ls : List (Life ι)) (disk : Disk) (next : Life ι)
    (old : List (List Bytes)) (hne : path ≠ [])
    (h : ∀ life ∈ ls, life.logs = true ∧ life.opts.aofPath = path) (hnext : next.opts.aofPath = path)
    (hreadable : next.readable = true) (hold : (disk path).getD [] = encodeAll old)
    (hloggable : ∀ args ∈ old, Loggable args)
    (hattempts : ∀ a ∈ attempted rep ls disk, a.bytes ≠ [] → Loggable a.args)
    (htorn : (attempted rep ls disk).Pairwise fun a b => a.Torn → b.bytes = []) :
    next.load rep (lives rep ls disk) =
        dispatchAll false next.envs (old ++ recorded (attempted rep ls disk)) { store := next.fresh } ∧
      (loadAof next.envs ((lives rep ls disk path).getD []) { store := next.fresh }).2 = true := by
  obtain ⟨torn, htail, hbytes, hrecorded⟩ := exists_torn hattempts htorn
  have hfile : (lives rep ls disk path).getD [] = encodeAll (old ++ recorded (attempted rep ls disk)) ++ torn := by
    rw [lives_log h, session_eq, hold, hbytes, encodeAll_append, List.append_assoc]
  have hdrain := log_drain (List.forall_mem_append.mpr ⟨hloggable, hrecorded⟩) htail
  rw [load_log hne hnext hreadable, loadAof, hfile, loaded, hdrain]
  exact ⟨rfl, rfl⟩

/-- A life whose client sets a key, which is shut down, and one whose client pushes to a list and
that is killed in the write of that. -/
theorem restart_replays_killed :
    let faults : Faults :=
      { opens := true, write := ⟨0, true⟩, close := .succeeds, renames := true, removes := true }
    let argv := [ascii "--aof", ascii "log"]
    let turns := List.replicate 8 (Event.turn () 4096)
    let first : Life Unit := { argv, streams := fun _ => ascii "SET k v\r\n", events := turns, faults }
    let second : Life Unit :=
      { argv, streams := fun _ => ascii "LPUSH l a\r\n", events := turns, appends := fun _ => ([.wrote 9], true),
        ending := .killed, faults }
    let next : Life Unit := { argv, streams := fun _ => [], faults }
    (attempted .exact [first, second] fun _ => none).map (fun a => (a.args, a.bytes.length)) =
        [([ascii "SET", ascii "k", ascii "v"], 27), ([ascii "LPUSH", ascii "l", ascii "a"], 9)] ∧
      next.load .exact (lives .exact [first, second] fun _ => none) =
        dispatchAll false (fun _ => { now := 0 }) [[ascii "SET", ascii "k", ascii "v"]] { store := next.fresh } := by
  intro faults argv turns first second next
  have hrecorded :
      recorded (attempted .exact [first, second] fun _ => none) = [[ascii "SET", ascii "k", ascii "v"]] := by
    decide +kernel
  have hreplays := restart_replays .exact (ascii "log") [first, second] (fun _ => none) next [] (by decide) (by decide)
    (by decide) rfl rfl (by decide) (by decide +kernel) (by decide +kernel)
  rw [hrecorded] at hreplays
  exact ⟨by decide +kernel, hreplays.1⟩

end Logs

/-! ### Which files a life touches -/

section Modes
variable {ι : Type} [DecidableEq ι] {rep : ClockRep} {life : Life ι} {disk disk' : Disk}

omit [DecidableEq ι] in
/-- What is loaded where there is to be a log is a matter of the log alone. -/
theorem load_congr (haof : life.opts.aofPath ≠ []) (h : disk' life.opts.aofPath = disk life.opts.aofPath) :
    life.load rep disk' = life.load rep disk := by
  have hempty : life.opts.aofPath.isEmpty = false := by simpa using haof
  rw [Life.load, Life.load, hempty, if_neg Bool.false_ne_true, if_neg Bool.false_ne_true, Life.file, Life.file, h]

/-- The files a life can change: its log, or else the snapshot and the file beside it. -/
def Life.touches (life : Life ι) : List Bytes :=
  if life.logs then [life.opts.aofPath] else [life.opts.rdbPath, tmpPath life.opts.rdbPath]

theorem main_of_notMem {name : Bytes} (h : name ∉ life.touches) : life.main rep disk name = disk name := by
  unfold Life.touches at h
  split at h
  · next hlogs =>
    rw [List.mem_singleton] at h
    rw [Life.main, if_pos hlogs]
    exact append_of_ne _ h _
  · next hlogs =>
    simp only [List.mem_cons, List.not_mem_nil, or_false, not_or] at h
    cases hsaves : life.saves with
    | false => exact main_unsaved (Bool.eq_false_iff.mpr hlogs) hsaves h.2 disk
    | true =>
      rw [Life.main, if_neg hlogs, if_pos hsaves]
      exact saveRdbTo_of_ne _ _ _ _ _ _ _ h.1 h.2

/-- A file that a life can change as its log only is appended to. -/
theorem main_keeps {path : Bytes} (h : path ∈ life.touches → life.logs = true) :
    (disk path).getD [] <+: (life.main rep disk path).getD [] := by
  by_cases htouched : path ∈ life.touches
  · have hlogs := h htouched
    rw [Life.touches, if_pos hlogs, List.mem_singleton] at htouched
    rw [main_log hlogs htouched.symm, Option.getD_some, session_eq]
    apply List.prefix_append
  · rw [main_of_notMem htouched]

/-- A life that was to log and does not saves what it makes of the log alone. -/
theorem main_congr (haof : life.opts.aofPath ≠ []) (hsaves : life.saves = true)
    (hsaved : (life.save rep disk).2 = true)
    (hsame : disk' life.opts.aofPath = disk life.opts.aofPath) :
    life.main rep disk' life.opts.rdbPath = life.main rep disk life.opts.rdbPath := by
  have hlogs : life.logs = false := by
    simp only [Life.saves, Bool.and_eq_true, Bool.not_eq_true'] at hsaves
    exact hsaves.1.2
  have hsaved' : (life.save rep disk').2 = true := by
    rw [Life.save, saveRdbTo_returns] at hsaved ⊢
    exact hsaved
  have hbytes : life.bytes rep disk' = life.bytes rep disk := by
    rw [Life.bytes, Life.bytes, Life.serve, Life.serve, Life.service, Life.service, load_congr haof hsame]
  rw [main_path hlogs rfl, main_path hlogs rfl, hsaves, hsaved, hsaved', hbytes]
  rfl

/-- **One mode at a time.** Over any lives in any mixture of modes, however they end: a file that
none of them has as its open log, as its snapshot or beside that is left as it is, and a file that
is in use as a log only has its old contents at its front. But a life that is to log and cannot
open the file saves a snapshot at its end, and that has nothing of the one it replaces: it is the
same whatever the snapshots before it, as long as the log is. -/
theorem lives_files (rep : ClockRep) (ls : List (Life ι)) (disk : Disk) :
    (∀ name, (∀ life ∈ ls, name ∉ life.touches) → lives rep ls disk name = disk name) ∧
      (∀ path, (∀ life ∈ ls, path ∈ life.touches → life.logs = true) →
        (disk path).getD [] <+: (lives rep ls disk path).getD []) ∧
      ∀ (next : Life ι) (disk' : Disk), next.opts.aofPath ≠ [] → next.saves = true →
        (next.save rep (lives rep ls disk)).2 = true →
        disk' next.opts.aofPath = lives rep ls disk next.opts.aofPath →
        lives rep (ls ++ [next]) disk next.opts.rdbPath = next.main rep disk' next.opts.rdbPath := by
  refine ⟨fun name h => ?_, fun path h => ?_, fun next disk' haof hsaves hsaved hsame => ?_⟩
  · induction ls generalizing disk with
    | nil => rfl
    | cons life ls ih =>
      obtain ⟨hlife, hrest⟩ := List.forall_mem_cons.mp h
      exact (ih _ hrest).trans (main_of_notMem hlife)
  · induction ls generalizing disk with
    | nil => exact List.prefix_rfl
    | cons life ls ih =>
      obtain ⟨hlife, hrest⟩ := List.forall_mem_cons.mp h
      exact (main_keeps hlife).trans (ih _ hrest)
  · rw [lives, List.foldl_append]
    exact (main_congr haof hsaves hsaved hsame).symm

end Modes
end GoRedis
