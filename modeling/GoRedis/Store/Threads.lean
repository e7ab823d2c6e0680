import GoRedis.Lib.SharedMutex
import GoRedis.Store.Escalation

/-! Threads over the store's mutex.

The store is shared by threads that lock its mutex, alone or with others (`mu_`). Here a call is
not one step and neither is a section: threads that share the mutex look up, draw a tick of the
access clock, stamp with it and copy the value out in turns, and a thread that has the mutex to
itself begins a change and is done with it in two steps. To look at a store in the middle of a
change, to begin a change then, to stamp a value that is gone and to unlock what one does not
hold are errors.

A section that is not interrupted is the section as a whole (`section_uninterrupted`). No run has
an error, and each call is as if executed alone at one of its own steps (`threads_atomic`). Only
the stamps are not those of the calls executed one at a time: what was drawn first can be stored
last. -/
namespace GoRedis.Locking
open Keyed SharedMutex

/-! ### What the threads do -/

/-- The calls that start by sharing the mutex. -/
def Request.isShared : Request → Bool
  | .call c => !c.isWrite
  | .snapshot => true
  | .loadSnapshot _ => false

inductive Task where
  | request (r : Request)
  | sweep

/-- What is done with the mutex shared: a read, or the first phase of a sweep. -/
inductive Look where
  | request (r : Request) (shared : r.isShared = true)
  | sweep

/-- What is done with the mutex held alone: a call, `DeleteIfExpired` with the keys that are to
follow, or the second phase of a sweep. -/
inductive Job where
  | request (r : Request)
  | remove (key : Bytes) (rest : List Bytes)
  | purge (keys : List Bytes)

def Job.removes : List Bytes → Option Job
  | [] => none
  | key :: rest => some (.remove key rest)

def Job.purges : List Bytes → Option Job
  | [] => none
  | keys => some (.purge keys)

/-- Where a thread is. A read keeps the clock reading of its lookup, and the tick it has drawn. -/
inductive Stage where
  | idle
  | wanting (look : Look)
  | looking (look : Look)
  | touching (r : Request) (seen : Reading) (key : Bytes)
  | stamping (r : Request) (seen : Reading) (key : Bytes) (ticket : Nat)
  | copying (r : Request) (seen : Reading)
  | leaving (next : Option Job)
  | waiting (job : Job)
  | writing (job : Job)
  | changing (job : Job)
  | releasing (next : Option Job)

def Task.start : Task → Stage
  | .request r => if shared : r.isShared = true then .wanting (.request r shared) else .waiting (.request r)
  | .sweep => .wanting .sweep

def Stage.after : Option Job → Stage
  | none => .idle
  | some job => .waiting job

/-- The key, if a read for values of the type finds one there that has not expired. -/
def found (type : ValueType) (now : Time) (key : Bytes) (s : Store) : Option Bytes :=
  match s.data.get key with
  | none => none
  | some v => if isExpired now v then none else if v.type ≠ type then none else some key

/-- The key whose value a read stamps. -/
def touched (reading : Reading) (s : Store) : Request → Option Bytes
  | .call (.get key) => found .string reading.now key s
  | .call (.lLen key) | .call (.lRange key _ _) => found .list reading.now key s
  | .call (.hGet key _) | .call (.hGetAll key) | .call (.hLen key) | .call (.hExists key _) | .call (.hKeys key)
  | .call (.hVals key) => found .hash reading.now key s
  | _ => none

/-- A tick stored at a value that has to be there. -/
def stampAs (key : Bytes) (ticket : Nat) (s : Store) : Option Store :=
  (s.data.get key).map fun v => { s with data := s.data.assign key { v with lastAccessedSeq := ticket } }

/-- The store with its mutex. While it is `busy`, a thread is in the middle of a change. -/
structure Machine (ι : Type) where
  store : Store
  busy : Bool := false
  mutex : Mutex ι := {}
  threads : ι → Stage := fun _ => .idle
  replies : ι → List (Σ r : Request, r.Reply) := fun _ => []

namespace Machine
variable {ι : Type} [DecidableEq ι]

def goto (m : Machine ι) (i : ι) (stage : Stage) : Machine ι :=
  { m with threads := Function.update m.threads i stage }

def answer (m : Machine ι) (i : ι) (r : Request) (reply : r.Reply) : Machine ι :=
  { m with replies := Function.update m.replies i (m.replies i ++ [⟨r, reply⟩]) }

/-- The end of a change. -/
def change (reading : Reading) (m : Machine ι) (i : ι) : Job → Machine ι
  | .request r =>
    let w := whole reading m.store r
    ({ m with store := w.1, busy := false }.answer i r w.2).goto i (.releasing none)
  | .remove key rest =>
    { m with store := (m.store.deleteIfExpired reading.now key).1, busy := false }.goto i
      (.releasing (Job.removes rest))
  | .purge keys =>
    { m with store := m.store.deleteAllExpired reading.now keys, busy := false }.goto i (.releasing none)

/-- One step of a thread; one that is idle begins the task it is given. Nothing if it is an
error. -/
def step (reading : Reading) (m : Machine ι) (i : ι) (task : Task) : Option (Machine ι) :=
  match m.threads i with
  | .idle => some (m.goto i task.start)
  | .wanting look =>
    match m.mutex.lockShared i with
    | some mutex => some ({ m with mutex }.goto i (.looking look))
    | none => some m
  | .looking (.request r _) =>
    if m.busy then none
    else match touched reading m.store r with
      | some key => some (m.goto i (.touching r reading key))
      | none =>
        let read := first reading m.store r
        some ((m.answer i r read.reply).goto i (.leaving (Job.removes read.stale)))
  | .looking .sweep =>
    if m.busy then none else some (m.goto i (.leaving (Job.purges (m.store.expiredKeys reading.now))))
  | .touching r seen key =>
    if m.busy then none
    else
      let ticket := m.store.accessClock
      some ({ m with store := { m.store with accessClock := ticket + 1 } }.goto i (.stamping r seen key ticket))
  | .stamping r seen key ticket =>
    if m.busy then none
    else (stampAs key ticket m.store).map fun store => { m with store }.goto i (.copying r seen)
  | .copying r seen =>
    if m.busy then none else some ((m.answer i r (first seen m.store r).reply).goto i (.leaving none))
  | .leaving next => (m.mutex.unlockShared i).map fun mutex => { m with mutex }.goto i (.after next)
  | .waiting job =>
    match m.mutex.lock i with
    | some mutex => some ({ m with mutex }.goto i (.writing job))
    | none => some m
  | .writing job => if m.busy then none else some ({ m with busy := true }.goto i (.changing job))
  | .changing job => some (m.change reading i job)
  | .releasing next => (m.mutex.unlock i).map fun mutex => { m with mutex }.goto i (.after next)

/-- Steps one after another, the `n`th at the `n`th reading. -/
def run (readings : Nat → Reading) : Nat → List (ι × Task) → Machine ι → Option (Machine ι)
  | _, [], m => some m
  | n, (i, task) :: turns, m => (m.step (readings n) i task).bind (run readings (n + 1) turns)

end Machine

/-! ### Exclusion -/

/-- How a thread holds the mutex. -/
def Stage.hold : Stage → Hold
  | .idle | .wanting _ | .waiting _ => .nothing
  | .looking _ | .touching .. | .stamping .. | .copying .. | .leaving _ => .shared
  | .writing _ | .changing _ | .releasing _ => .exclusive

/-- The key whose value a thread has a pointer to and is going to stamp. -/
def Stage.pointer : Stage → Option Bytes
  | .touching _ _ key | .stamping _ _ key _ => some key
  | _ => none

def Stage.changes : Stage → Bool
  | .changing _ => true
  | _ => false

variable {ι : Type}

/-- The mutex is held as the threads' places say, the store is in the middle of a change when
one of them is, and what they have pointers to is there. -/
structure Sound (m : Machine ι) : Prop where
  guards : Guards m.mutex fun i => (m.threads i).hold
  busy : m.busy = true ↔ ∃ i, (m.threads i).changes = true
  pointer : ∀ i key, (m.threads i).pointer = some key → key ∈ m.store.data.toFinmap

namespace Sound
variable {m : Machine ι} {i j : ι} {stage stage' : Stage}

theorem start (s : Store) : Sound ({ store := s } : Machine ι) where
  guards := .free
  busy := by simp [Stage.changes]
  pointer := by simp [Stage.pointer]

theorem exclusive_of_changes (h : stage.changes = true) : stage.hold = .exclusive := by
  cases stage with
  | changing job => rfl
  | _ => cases h

theorem shared_of_pointer {key : Bytes} (h : stage.pointer = some key) : stage.hold = .shared := by
  cases stage with
  | touching | stamping => rfl
  | _ => cases h

/-- A thread that holds the mutex and is not in the middle of a change sees none. -/
theorem settled (h : Sound m) (hi : m.threads i = stage) (hhold : stage.hold ≠ .nothing)
    (hnot : stage.changes = false) : m.busy = false := by
  subst hi
  apply Bool.eq_false_of_not_eq_true
  intro hbusy
  obtain ⟨j, hj⟩ := h.busy.mp hbusy
  have hne : i ≠ j := by
    rintro rfl
    rw [hnot] at hj
    cases hj
  exact hhold (h.guards.alone (exclusive_of_changes hj) hne)

/-- Beside a thread that has the mutex to itself nobody has a pointer. -/
theorem pointer_alone (h : Sound m) (hi : (m.threads i).hold = .exclusive) (hne : j ≠ i) :
    (m.threads j).pointer = none := by
  cases hj : (m.threads j).pointer with
  | none => rfl
  | some key =>
    have hnone := h.guards.alone hi hne
    rw [shared_of_pointer hj] at hnone
    cases hnone

variable [DecidableEq ι]

theorem update_hold (threads : ι → Stage) (i : ι) (stage : Stage) :
    (fun j => (Function.update threads i stage j).hold) =
      Function.update (fun j => (threads j).hold) i stage.hold := by
  funext j
  by_cases hj : j = i
  · simp [hj]
  · simp [hj]

theorem guards_same (h : Sound m) (hi : m.threads i = stage) (hhold : stage.hold = stage'.hold) :
    Guards m.mutex (Function.update (fun j => (m.threads j).hold) i stage'.hold) := by
  have hsame : Function.update (fun j => (m.threads j).hold) i stage'.hold = fun j => (m.threads j).hold := by
    rw [← hhold, ← hi]
    exact Function.update_eq_self i fun j => (m.threads j).hold
  rw [hsame]
  exact h.guards

/-- A step outside of changes, by which no entry goes. -/
theorem moved (h : Sound m) (hi : m.threads i = stage) {m' : Machine ι}
    (hthreads : m'.threads = Function.update m.threads i stage')
    (hguards : Guards m'.mutex (Function.update (fun j => (m.threads j).hold) i stage'.hold))
    (hbusy : m'.busy = m.busy) (hbefore : stage.changes = false) (hafter : stage'.changes = false)
    (hkeys : ∀ key, key ∈ m.store.data.toFinmap → key ∈ m'.store.data.toFinmap)
    (hpointer : ∀ key, stage'.pointer = some key → key ∈ m'.store.data.toFinmap) : Sound m' := by
  refine ⟨?_, ?_, fun j key hj => ?_⟩
  · rw [hthreads, update_hold]
    exact hguards
  · rw [hbusy, h.busy, hthreads]
    refine exists_congr fun j => ?_
    by_cases hj : j = i
    · simp [hj, hi, hbefore, hafter]
    · simp [hj]
  · rw [hthreads] at hj
    by_cases hji : j = i
    · apply hpointer key
      simpa [hji] using hj
    · apply hkeys key
      apply h.pointer j key
      simpa [hji] using hj

/-- One that leaves the mutex and the entries as they are. -/
theorem goto (h : Sound m) (hi : m.threads i = stage) (hhold : stage.hold = stage'.hold)
    (hbefore : stage.changes = false) (hafter : stage'.changes = false)
    (hpointer : ∀ key, stage'.pointer = some key → key ∈ m.store.data.toFinmap) : Sound (m.goto i stage') :=
  h.moved hi rfl (h.guards_same hi hhold) rfl hbefore hafter (fun _ hkey => hkey) hpointer

/-- One that only locks or unlocks the mutex. -/
theorem relocked (h : Sound m) (hi : m.threads i = stage) {mutex : Mutex ι}
    (hguards : Guards mutex (Function.update (fun j => (m.threads j).hold) i stage'.hold))
    (hbefore : stage.changes = false) (hafter : stage'.changes = false) (hpointer : stage'.pointer = none) :
    Sound ({ m with mutex }.goto i stage') := by
  refine h.moved hi rfl hguards rfl hbefore hafter (fun _ hkey => hkey) ?_
  simp [hpointer]

/-- The beginning of a change. -/
theorem begun (h : Sound m) {job : Job} (hi : m.threads i = .writing job) :
    Sound ({ m with busy := true }.goto i (.changing job)) := by
  have hhold : (m.threads i).hold = .exclusive := by rw [hi]; rfl
  refine ⟨?_, ?_, fun j key hj => ?_⟩
  · show Guards m.mutex fun j => (Function.update m.threads i (.changing job) j).hold
    rw [update_hold]
    exact h.guards_same hi rfl
  · refine iff_of_true rfl ⟨i, ?_⟩
    simp [Machine.goto, Stage.changes]
  · apply h.pointer j key
    by_cases hji : j = i
    · simp [Machine.goto, hji, Stage.pointer] at hj
    · simpa [Machine.goto, hji] using hj

/-- The end of one, whatever it has changed. -/
theorem changed (h : Sound m) {job : Job} (hi : m.threads i = .changing job) {m' : Machine ι} {next : Option Job}
    (hthreads : m'.threads = Function.update m.threads i (.releasing next)) (hmutex : m'.mutex = m.mutex)
    (hbusy : m'.busy = false) : Sound m' := by
  have hhold : (m.threads i).hold = .exclusive := by rw [hi]; rfl
  refine ⟨?_, ?_, fun j key hj => ?_⟩
  · rw [hthreads, update_hold, hmutex]
    exact h.guards_same hi rfl
  · rw [hbusy, hthreads]
    refine iff_of_false Bool.false_ne_true ?_
    rintro ⟨j, hj⟩
    by_cases hji : j = i
    · simp [hji, Stage.changes] at hj
    · rw [Function.update_of_ne hji] at hj
      have hnothing := h.guards.alone hhold hji
      rw [exclusive_of_changes hj] at hnothing
      cases hnothing
  · rw [hthreads] at hj
    by_cases hji : j = i
    · simp [hji, Stage.pointer] at hj
    · rw [Function.update_of_ne hji, h.pointer_alone hhold hji] at hj
      cases hj

end Sound

/-! ### A step is no error -/

section
variable {s s' : Store} {key : Bytes} {ticket : Nat}

/-- What a read finds to stamp is there. -/
theorem found_mem {type : ValueType} {now : Time} {k : Bytes} (h : found type now k s = some key) :
    key ∈ s.data.toFinmap := by
  unfold found at h
  cases hv : s.data.get k with
  | none =>
    rw [hv] at h
    cases h
  | some v =>
    rw [hv] at h
    dsimp only at h
    split at h
    · cases h
    · split at h
      · cases h
      · cases h
        rw [HashTable.get_eq] at hv
        exact Finmap.mem_of_lookup_eq_some hv

theorem touched_mem {reading : Reading} {r : Request} (h : touched reading s r = some key) :
    key ∈ s.data.toFinmap := by
  unfold touched at h
  split at h
  iterate 9 exact found_mem h
  cases h

theorem stampAs_of_mem (h : key ∈ s.data.toFinmap) (ticket : Nat) : ∃ s', stampAs key ticket s = some s' := by
  obtain ⟨v, hv⟩ := Finmap.mem_iff.mp h
  simp [stampAs, hv]

theorem stampAs_data (h : stampAs key ticket s = some s') :
    ∃ v, s.data.toFinmap.lookup key = some v ∧
      s'.data.toFinmap = s.data.toFinmap.insert key { v with lastAccessedSeq := ticket } ∧
      s'.accessClock = s.accessClock ∧ s'.maxMemoryBytes = s.maxMemoryBytes := by
  obtain ⟨v, hv, rfl⟩ := Option.map_eq_some_iff.mp h
  rw [HashTable.get_eq] at hv
  exact ⟨v, hv, HashTable.toFinmap_assign _ _ _ (Finmap.mem_of_lookup_eq_some hv), rfl, rfl⟩

end

/-- A thread that holds nothing has no pointer and changes nothing. -/
theorem Stage.outside {stage : Stage} (h : stage.hold = .nothing) : stage.changes = false ∧ stage.pointer = none := by
  cases stage with
  | idle | wanting | waiting => exact ⟨rfl, rfl⟩
  | _ => cases h

theorem Task.start_hold (task : Task) : task.start.hold = .nothing := by
  cases task with
  | request r =>
    rw [Task.start]
    split <;> rfl
  | sweep => rfl

theorem Stage.after_hold (next : Option Job) : (Stage.after next).hold = .nothing := by
  cases next <;> rfl

variable [DecidableEq ι]

/-- An answer is no concern of the mutex. -/
theorem Sound.answer {m : Machine ι} (h : Sound m) (i : ι) (r : Request) (reply : r.Reply) :
    Sound (m.answer i r reply) := ⟨h.guards, h.busy, h.pointer⟩

/-- **One step** is no error, and keeps what the threads rely on. -/
theorem Sound.step {m : Machine ι} (h : Sound m) (reading : Reading) (i : ι) (task : Task) :
    ∃ m', m.step reading i task = some m' ∧ Sound m' := by
  have hpointer := h.pointer i
  unfold Machine.step
  cases hi : m.threads i with
  | idle =>
    obtain ⟨hafter, hnone⟩ := Stage.outside task.start_hold
    refine ⟨_, rfl, h.goto hi task.start_hold.symm rfl hafter ?_⟩
    simp [hnone]
  | wanting look =>
    dsimp only
    cases hlock : m.mutex.lockShared i with
    | none => exact ⟨m, rfl, h⟩
    | some mutex => exact ⟨_, rfl, h.relocked hi (h.guards.lockShared hlock) rfl rfl rfl⟩
  | looking look =>
    have hbusy : m.busy = false := h.settled hi (by simp [Stage.hold]) rfl
    cases look with
    | request r _ =>
      simp only [hbusy]
      cases htouched : touched reading m.store r with
      | some key =>
        refine ⟨_, rfl, h.goto hi rfl rfl rfl fun k hk => ?_⟩
        cases hk
        exact touched_mem htouched
      | none => exact ⟨_, rfl, (h.answer i r _).goto hi rfl rfl rfl (by simp [Stage.pointer])⟩
    | sweep =>
      simp only [hbusy]
      exact ⟨_, rfl, h.goto hi rfl rfl rfl (by simp [Stage.pointer])⟩
  | touching r seen key =>
    have hbusy : m.busy = false := h.settled hi (by simp [Stage.hold]) rfl
    simp only [hbusy]
    rw [hi] at hpointer
    refine ⟨_, rfl, h.moved hi rfl (h.guards_same hi rfl) hbusy.symm rfl rfl (fun _ hkey => hkey) fun k hk => ?_⟩
    exact hpointer k hk
  | stamping r seen key ticket =>
    have hbusy : m.busy = false := h.settled hi (by simp [Stage.hold]) rfl
    simp only [hbusy]
    rw [hi] at hpointer
    obtain ⟨s', hs'⟩ := stampAs_of_mem (hpointer key rfl) ticket
    obtain ⟨v, -, hdata, -⟩ := stampAs_data hs'
    rw [hs']
    refine ⟨_, rfl, h.moved hi rfl (h.guards_same hi rfl) hbusy.symm rfl rfl (fun k hk => ?_) ?_⟩
    · show k ∈ s'.data.toFinmap
      rw [hdata]
      exact Finmap.mem_insert.mpr (.inr hk)
    · simp [Stage.pointer]
  | copying r seen =>
    have hbusy : m.busy = false := h.settled hi (by simp [Stage.hold]) rfl
    simp only [hbusy]
    exact ⟨_, rfl, (h.answer i r _).goto hi rfl rfl rfl (by simp [Stage.pointer])⟩
  | leaving next =>
    obtain ⟨mutex, hunlock, hguards⟩ := h.guards.unlockShared (i := i) (by rw [hi]; rfl)
    obtain ⟨hafter, hnone⟩ := Stage.outside (Stage.after_hold next)
    dsimp only
    rw [hunlock]
    refine ⟨_, rfl, h.relocked hi ?_ rfl hafter hnone⟩
    rw [Stage.after_hold]
    exact hguards
  | waiting job =>
    dsimp only
    cases hlock : m.mutex.lock i with
    | none => exact ⟨m, rfl, h⟩
    | some mutex => exact ⟨_, rfl, h.relocked hi (h.guards.lock hlock) rfl rfl rfl⟩
  | writing job =>
    have hbusy : m.busy = false := h.settled hi (by simp [Stage.hold]) rfl
    simp only [hbusy]
    exact ⟨_, rfl, h.begun hi⟩
  | changing job =>
    refine ⟨_, rfl, ?_⟩
    cases job <;> exact h.changed hi rfl rfl rfl
  | releasing next =>
    obtain ⟨mutex, hunlock, hguards⟩ := h.guards.unlock (i := i) (by rw [hi]; rfl)
    obtain ⟨hafter, hnone⟩ := Stage.outside (Stage.after_hold next)
    dsimp only
    rw [hunlock]
    refine ⟨_, rfl, h.relocked hi ?_ rfl hafter hnone⟩
    rw [Stage.after_hold]
    exact hguards

/-! ### A section without interruption -/

section
variable {α : Type} {type : ValueType} {now : Time} {s : Store} {k key : Bytes}

theorem read_found (h : found type now k s = some key) (absent : Result α) (view : Value → Result α) :
    (s.read type absent view now k).store = s.touch key ∧ (s.read type absent view now k).stale = [] := by
  unfold found at h
  unfold Store.read
  cases hv : s.data.get k with
  | none =>
    rw [hv] at h
    cases h
  | some v =>
    rw [hv] at h
    dsimp only at h ⊢
    split at h
    · cases h
    · next hx =>
      split at h
      · cases h
      · next htype =>
        cases h
        rw [if_neg hx, if_neg htype]
        exact ⟨rfl, rfl⟩

theorem read_missed (h : found type now k s = none) (absent : Result α) (view : Value → Result α) :
    (s.read type absent view now k).store = s := by
  unfold found at h
  unfold Store.read
  cases hv : s.data.get k with
  | none => rfl
  | some v =>
    rw [hv] at h
    dsimp only at h ⊢
    split at h
    · next hx => rw [if_pos hx]
    · next hx =>
      split at h
      · next htype => rw [if_neg hx, if_pos htype]
      · cases h

end

theorem first_touched {reading : Reading} {s : Store} {r : Request} {key : Bytes}
    (h : touched reading s r = some key) :
    (first reading s r).store = s.touch key ∧ (first reading s r).stale = [] := by
  unfold touched at h
  split at h
  iterate 9 exact read_found h _ _
  cases h

theorem first_untouched {reading : Reading} {s : Store} {r : Request} (hshared : r.isShared = true)
    (h : touched reading s r = none) : (first reading s r).store = s := by
  cases r with
  | call c =>
    cases c with
    | exists' | keys => rfl
    | ttl key => exact Store.ttl_store ..
    | get | lLen | lRange | hGet | hGetAll | hLen | hExists | hKeys | hVals => exact read_missed h _ _
    | _ => cases hshared
  | snapshot => rfl
  | loadSnapshot => cases hshared

/-- A tick drawn and stored is a touch. -/
theorem stampAs_touch {s : Store} {key : Bytes} (h : key ∈ s.data.toFinmap) :
    stampAs key s.accessClock { s with accessClock := s.accessClock + 1 } = some (s.touch key) := by
  obtain ⟨v, hv⟩ := Finmap.mem_iff.mp h
  simp [stampAs, Store.touch, hv]

/-- What is copied out after the touch is what was found. -/
theorem first_reply_touched {reading : Reading} {s : Store} {r : Request} {key : Bytes}
    (h : touched reading s r = some key) : (first reading (s.touch key) r).reply = (first reading s r).reply := by
  have hread : ∀ {α : Type} (type : ValueType) (absent : Result α) {view : Value → Result α} (k : Bytes),
      (∀ v, view v = view { v with lastAccessedSeq := 0 }) →
      ((s.touch key).read type absent view reading.now k).reply = (s.read type absent view reading.now k).reply := by
    intro α type absent view k hview
    rw [Store.read_reply _ type absent hview, Store.read_reply _ type absent hview, Store.touch_held]
  unfold touched at h
  split at h
  iterate 9 exact hread _ _ _ fun _ => rfl
  cases h

/-- **A read that is not interrupted** is its first section as a whole, the stamp included. -/
theorem section_uninterrupted {m : Machine ι} (hsound : Sound m) {i : ι} {r : Request} {shared : r.isShared = true}
    (hi : m.threads i = .looking (.request r shared)) (readings : Nat → Reading) (n : Nat) :
    let read := first (readings n) m.store r
    ∃ k ≤ 4, ∃ m', m.run readings n (List.replicate k (i, .sweep)) = some m' ∧ m'.store = read.store ∧
      m'.threads i = .leaving (Job.removes read.stale) ∧ m'.replies i = m.replies i ++ [⟨r, read.reply⟩] := by
  intro read
  have hbusy : m.busy = false := hsound.settled hi (by simp [Stage.hold]) rfl
  cases htouched : touched (readings n) m.store r with
  | none =>
    refine ⟨1, by decide, (m.answer i r read.reply).goto i (.leaving (Job.removes read.stale)), ?_, ?_, ?_, ?_⟩
    · simp [Machine.run, Machine.step, hi, hbusy, htouched, read]
    · exact (first_untouched shared htouched).symm
    · simp [Machine.goto]
    · simp [Machine.goto, Machine.answer]
  | some key =>
    obtain ⟨hstore, hstale⟩ := first_touched htouched
    refine ⟨4, by decide, ({ m with store := m.store.touch key }.answer i r read.reply).goto i (.leaving none),
      ?_, hstore.symm, ?_, ?_⟩
    · simp [Machine.run, Machine.step, hi, hbusy, htouched, Machine.goto, Machine.answer,
        stampAs_touch (touched_mem htouched), first_reply_touched htouched, read]
    · simp [Machine.goto, read, hstale, Job.removes]
    · simp [Machine.goto, Machine.answer]

/-! ### Each call at one of its steps -/

/-- What a thread's next step is the call of. -/
def Machine.begins (m : Machine ι) (i : ι) : Option (Whole ι) :=
  match m.threads i with
  | .looking (.request r _) => some (.request i r)
  | .looking .sweep => some .sweep
  | .changing (.request r) => some (.request i r)
  | _ => none

/-- The calls of a run, with the readings of their steps. -/
def Machine.begun (readings : Nat → Reading) : Nat → List (ι × Task) → Machine ι → List (Reading × Whole ι)
  | _, [], _ => []
  | n, (i, task) :: turns, m =>
    ((m.begins i).map fun whole => (readings n, whole)).toList ++
      ((m.step (readings n) i task).map (begun readings (n + 1) turns)).getD []

/-- The replies to one client. -/
def Serial.share (i : ι) (a : Serial ι) : List (Σ r : Request, r.Reply) :=
  a.answers.filterMap fun x => if x.client = i then some ⟨x.request, x.reply⟩ else none

section
variable (a : Serial ι) (reading : Reading) (i : ι) (r : Request)

theorem Serial.share_request :
    (a.execute (reading, .request i r)).share i = a.share i ++ [⟨r, (whole reading a.store r).2⟩] := by
  simp [Serial.share, Serial.execute]

theorem Serial.share_request_ne {j : ι} (h : j ≠ i) : (a.execute (reading, .request i r)).share j = a.share j := by
  simp [Serial.share, Serial.execute, Ne.symm h]

end

/-- The read a thread has looked up and not yet replied to. -/
def Stage.reads : Stage → Option (Request × Reading)
  | .touching r seen _ | .stamping r seen _ _ | .copying r seen => some (r, seen)
  | _ => none

/-- The reply it is going to give. -/
def Stage.pending (stage : Stage) (s : Store) : Option (Σ r : Request, r.Reply) :=
  stage.reads.map fun read => ⟨read.1, (first read.2 s read.1).reply⟩

/-- What a step does to the store and to the replies. -/
inductive Machine.Did (reading : Reading) (m : Machine ι) (i : ι) : Machine ι → Prop where
  | quiet {m' : Machine ι} (stage : Stage) (hthreads : m'.threads = Function.update m.threads i stage)
    (hstore : m'.store = m.store) (hreplies : m'.replies = m.replies) (hbegins : m.begins i = none)
    (hbefore : (m.threads i).reads = none) (hafter : stage.reads = none) : Did reading m i m'
  | scan (hi : m.threads i = .looking .sweep) (next : Option Job) : Did reading m i (m.goto i (.leaving next))
  | look {r : Request} {shared : r.isShared = true} (hi : m.threads i = .looking (.request r shared))
    (next : Option Job) : Did reading m i ((m.answer i r (first reading m.store r).reply).goto i (.leaving next))
  | find {r : Request} {shared : r.isShared = true} (hi : m.threads i = .looking (.request r shared)) (key : Bytes) :
    Did reading m i (m.goto i (.touching r reading key))
  | draw {r : Request} {seen : Reading} {key : Bytes} (hi : m.threads i = .touching r seen key) :
    Did reading m i ({ m with store := { m.store with accessClock := m.store.accessClock + 1 } }.goto i
      (.stamping r seen key m.store.accessClock))
  | stamp {r : Request} {seen : Reading} {key : Bytes} {ticket : Nat} {store : Store}
    (hi : m.threads i = .stamping r seen key ticket) (hstamp : stampAs key ticket m.store = some store) :
    Did reading m i ({ m with store }.goto i (.copying r seen))
  | copy {r : Request} {seen : Reading} (hi : m.threads i = .copying r seen) :
    Did reading m i ((m.answer i r (first seen m.store r).reply).goto i (.leaving none))
  | change {job : Job} (hi : m.threads i = .changing job) : Did reading m i (m.change reading i job)

/-- A thread that holds nothing reads nothing. -/
theorem Stage.reads_outside {stage : Stage} (h : stage.hold = .nothing) : stage.reads = none := by
  cases stage with
  | idle | wanting | waiting => rfl
  | _ => cases h

theorem Machine.did {reading : Reading} {m m' : Machine ι} {i : ι} {task : Task}
    (h : m.step reading i task = some m') : m.Did reading i m' := by
  unfold Machine.step at h
  cases hi : m.threads i with
  | idle =>
    simp only [hi] at h
    cases h
    exact .quiet _ rfl rfl rfl (by simp [begins, hi]) (by simp [hi, Stage.reads]) (Stage.reads_outside task.start_hold)
  | wanting look =>
    simp only [hi] at h
    have hbegins : m.begins i = none := by simp [begins, hi]
    have hbefore : (m.threads i).reads = none := by simp [hi, Stage.reads]
    split at h <;> cases h
    · exact .quiet _ rfl rfl rfl hbegins hbefore rfl
    · exact .quiet _ (Function.update_eq_self i m.threads).symm rfl rfl hbegins hbefore hbefore
  | looking look =>
    cases look with
    | request r shared =>
      simp only [hi] at h
      split at h
      · cases h
      · split at h <;> cases h
        · exact .find hi _
        · exact .look hi _
    | sweep =>
      simp only [hi] at h
      split at h <;> cases h
      exact .scan hi _
  | touching r seen key =>
    simp only [hi] at h
    split at h <;> cases h
    exact .draw hi
  | stamping r seen key ticket =>
    simp only [hi] at h
    split at h
    · cases h
    · obtain ⟨store, hstamp, rfl⟩ := Option.map_eq_some_iff.mp h
      exact .stamp hi hstamp
  | copying r seen =>
    simp only [hi] at h
    split at h <;> cases h
    exact .copy hi
  | leaving next | releasing next =>
    simp only [hi] at h
    obtain ⟨mutex, -, rfl⟩ := Option.map_eq_some_iff.mp h
    exact .quiet _ rfl rfl rfl (by simp [begins, hi]) (by simp [hi, Stage.reads])
      (Stage.reads_outside (Stage.after_hold next))
  | waiting job =>
    simp only [hi] at h
    have hbegins : m.begins i = none := by simp [begins, hi]
    have hbefore : (m.threads i).reads = none := by simp [hi, Stage.reads]
    split at h <;> cases h
    · exact .quiet _ rfl rfl rfl hbegins hbefore rfl
    · exact .quiet _ (Function.update_eq_self i m.threads).symm rfl rfl hbegins hbefore hbefore
  | writing job =>
    simp only [hi] at h
    split at h <;> cases h
    exact .quiet _ rfl rfl rfl (by simp [begins, hi]) (by simp [hi, Stage.reads]) rfl
  | changing job =>
    simp only [hi] at h
    cases h
    exact .change hi

/-! ### The same replies -/

/-- Replies to one request that say the same. -/
inductive Alike : (Σ r : Request, r.Reply) → (Σ r : Request, r.Reply) → Prop where
  | mk (r : Request) {reply reply' : r.Reply} (h : r.Same reply reply') : Alike ⟨r, reply⟩ ⟨r, reply'⟩

theorem Request.Same.trans {r : Request} {x y z : r.Reply} (h : r.Same x y) (h' : r.Same y z) : r.Same x z := by
  cases r with
  | call c =>
    cases c with
    | keys => exact List.Perm.trans h h'
    | _ => exact Eq.trans h h'
  | snapshot => exact List.Perm.trans h h'
  | loadSnapshot entries => exact Eq.trans h h'

/-- Reads leave held what is. -/
theorem whole_shared (reading : Reading) (s : Store) {r : Request} (h : r.isShared = true) :
    (whole reading s r).1.held reading.now = s.held reading.now := by
  cases r with
  | call c => exact Store.exec_read_held reading.toEnv s (by simpa [Request.isShared] using h)
  | snapshot => rfl
  | loadSnapshot entries => cases h

/-- A stamp is nothing that is held. -/
theorem stampAs_held {key : Bytes} {ticket : Nat} {s s' : Store} (h : stampAs key ticket s = some s') (now : Time) :
    s'.held now = s.held now := by
  obtain ⟨v, hv, hdata, -⟩ := stampAs_data h
  apply Finmap.ext_lookup
  intro k
  rw [Store.lookup_held, Store.lookup_held, hdata]
  by_cases hk : k = key
  · rw [hk, Finmap.lookup_insert, hv]
    rfl
  · rw [Finmap.lookup_insert_of_ne _ hk]

/-- The answers say the same as the replies that were given and the one that is about to be. -/
def Accounts (stage : Stage) (s : Store) (given answers : List (Σ r : Request, r.Reply)) : Prop :=
  ∃ done rest, answers = done ++ rest ∧ List.Forall₂ Alike given done ∧
    List.Forall₂ Alike (stage.pending s).toList rest

section
variable {s t : Store} {stage stage' : Stage} {given answers : List (Σ r : Request, r.Reply)}

theorem Accounts.none (h : Accounts stage s given answers) (hreads : stage.reads = none) :
    List.Forall₂ Alike given answers := by
  obtain ⟨done, rest, rfl, hdone, hrest⟩ := h
  rw [Stage.pending, hreads] at hrest
  cases hrest
  rwa [List.append_nil]

theorem accounts_of_none (h : List.Forall₂ Alike given answers) (hreads : stage.reads = none) :
    Accounts stage s given answers := by
  refine ⟨answers, [], (List.append_nil _).symm, h, ?_⟩
  rw [Stage.pending, hreads]
  exact .nil

/-- What is about to be replied does not change with what is not held. -/
theorem Accounts.congr (h : Accounts stage s given answers) (hs : s.maxMemoryBytes = 0) (ht : t.maxMemoryBytes = 0)
    (hheld : ∀ now, t.held now = s.held now) (hreads : stage'.reads = stage.reads) :
    Accounts stage' t given answers := by
  obtain ⟨done, rest, rfl, hdone, hrest⟩ := h
  refine ⟨done, rest, rfl, hdone, ?_⟩
  rw [Stage.pending, hreads]
  rw [Stage.pending] at hrest
  cases hread : stage.reads with
  | none => rwa [hread] at hrest
  | some read =>
    obtain ⟨r, seen⟩ := read
    rw [hread] at hrest
    cases hrest with
    | cons halike hnil =>
      cases hnil
      cases halike with
      | mk _ hsame =>
        refine .cons (.mk r ?_) .nil
        rw [first_reply] at hsame ⊢
        exact (whole_same seen ht hs (hheld seen.now) r).trans hsame

end

/-- The store of the machine and the one that is used by one at a time hold the same, and have
given the same replies. -/
structure Agrees (now : Time) (m : Machine ι) (a : Serial ι) : Prop where
  held : m.store.held now = a.store.held now
  unbounded : m.store.maxMemoryBytes = 0
  unbounded' : a.store.maxMemoryBytes = 0
  replies : ∀ i, Accounts (m.threads i) m.store (m.replies i) (a.share i)

theorem Agrees.later {now later : Time} {m : Machine ι} {a : Serial ι} (h : Agrees now m a) (hle : now ≤ later) :
    Agrees later m a :=
  { h with held := by rw [held_later hle, held_later hle, h.held] }

theorem accounts_update {threads : ι → Stage} {replies answers : ι → List (Σ r : Request, r.Reply)} {s : Store} {i : ι}
    {stage : Stage} (hself : Accounts stage s (replies i) (answers i))
    (hother : ∀ j, j ≠ i → Accounts (threads j) s (replies j) (answers j)) (j : ι) :
    Accounts (Function.update threads i stage j) s (replies j) (answers j) := by
  by_cases hj : j = i
  · rw [hj, Function.update_self]
    exact hself
  · rw [Function.update_of_ne hj]
    exact hother j hj

section
variable {now : Time} {m m' : Machine ι} {a : Serial ι} {i : ι}

/-- A reply, and the call at once. -/
theorem Agrees.answered (h : Agrees now m a) {r : Request} {reply reply' : r.Reply} (hsame : r.Same reply reply')
    (hbefore : (m.threads i).reads = none) :
    List.Forall₂ Alike ((m.answer i r reply).replies i) (a.share i ++ [⟨r, reply'⟩]) := by
  simp only [Machine.answer, Function.update_self]
  exact List.rel_append ((h.replies i).none hbefore) (.cons (.mk r hsame) .nil)

theorem Agrees.other (h : Agrees now m a) {j : ι} (hj : j ≠ i) (r : Request) (reply : r.Reply) :
    Accounts (m.threads j) m.store ((m.answer i r reply).replies j) (a.share j) := by
  simp only [Machine.answer, Function.update_of_ne hj]
  exact h.replies j

/-- **One step**, and the call it is, executed alone. -/
theorem Agrees.step (h : Agrees now m a) (hsound : Sound m) {reading : Reading} (hle : now ≤ reading.now)
    (hdid : m.Did reading i m') :
    Agrees reading.now m' (((m.begins i).map fun whole => (reading, whole)).toList.foldl Serial.execute a) := by
  replace h := h.later hle
  have hexec : ∀ r : Request, r.isShared = true →
      m.store.held reading.now = (whole reading a.store r).1.held reading.now := by
    intro r shared
    rw [whole_shared reading a.store shared, h.held]
  cases hdid with
  | quiet stage hthreads hstore hreplies hbegins hbefore hafter =>
    rw [hbegins]
    refine ⟨hstore ▸ h.held, hstore ▸ h.unbounded, h.unbounded', ?_⟩
    rw [hthreads, hstore, hreplies]
    exact accounts_update (accounts_of_none ((h.replies i).none hbefore) hafter) fun j _ => h.replies j
  | scan hi next =>
    have hbefore : (m.threads i).reads = none := by simp [hi, Stage.reads]
    simp only [Machine.begins, hi]
    refine ⟨?_, h.unbounded, (Store.deleteAllExpired_max ..).trans h.unbounded', ?_⟩
    · exact h.held.trans (Store.deleteAllExpired_held ..).symm
    · exact accounts_update (accounts_of_none ((h.replies i).none hbefore) rfl) fun j _ => h.replies j
  | @look r shared hi next =>
    have hbefore : (m.threads i).reads = none := by simp [hi, Stage.reads]
    simp only [Machine.begins, hi]
    refine ⟨hexec r shared, h.unbounded, whole_max reading h.unbounded' r, ?_⟩
    refine accounts_update (accounts_of_none ?_ rfl) fun j hj => ?_
    · show List.Forall₂ Alike _ ((a.execute (reading, .request i r)).share i)
      rw [Serial.share_request]
      apply h.answered _ hbefore
      rw [first_reply]
      exact whole_same reading h.unbounded h.unbounded' h.held r
    · show Accounts _ _ _ ((a.execute (reading, .request i r)).share j)
      rw [Serial.share_request_ne _ _ _ _ hj]
      exact h.other hj r _
  | @find r shared hi key =>
    have hbefore : (m.threads i).reads = none := by simp [hi, Stage.reads]
    simp only [Machine.begins, hi]
    refine ⟨hexec r shared, h.unbounded, whole_max reading h.unbounded' r, ?_⟩
    refine accounts_update ?_ fun j hj => ?_
    · show Accounts _ _ _ ((a.execute (reading, .request i r)).share i)
      rw [Serial.share_request]
      refine ⟨_, _, rfl, (h.replies i).none hbefore, .cons (.mk r ?_) .nil⟩
      rw [first_reply]
      exact whole_same reading h.unbounded h.unbounded' h.held r
    · show Accounts _ _ _ ((a.execute (reading, .request i r)).share j)
      rw [Serial.share_request_ne _ _ _ _ hj]
      exact h.replies j
  | draw hi =>
    simp only [Machine.begins, hi]
    refine ⟨h.held, h.unbounded, h.unbounded', accounts_update ?_ fun j _ => ?_⟩
    · exact (h.replies i).congr h.unbounded h.unbounded (fun _ => rfl) (by rw [hi]; rfl)
    · exact (h.replies j).congr h.unbounded h.unbounded (fun _ => rfl) rfl
  | stamp hi hstamp =>
    have hmax := (stampAs_data hstamp).choose_spec.2.2.2.trans h.unbounded
    simp only [Machine.begins, hi]
    refine ⟨(stampAs_held hstamp _).trans h.held, hmax, h.unbounded', accounts_update ?_ fun j _ => ?_⟩
    · exact (h.replies i).congr h.unbounded hmax (stampAs_held hstamp) (by rw [hi]; rfl)
    · exact (h.replies j).congr h.unbounded hmax (stampAs_held hstamp) rfl
  | copy hi =>
    simp only [Machine.begins, hi]
    refine ⟨h.held, h.unbounded, h.unbounded', accounts_update ?_ fun j hj => h.other hj _ _⟩
    -- what was about to be replied has been
    obtain ⟨done, rest, hshare, hdone, hrest⟩ := h.replies i
    rw [hi] at hrest
    refine accounts_of_none ?_ rfl
    show List.Forall₂ Alike _ (a.share i)
    rw [hshare]
    simp only [Machine.goto, Machine.answer, Function.update_self]
    exact List.rel_append hdone hrest
  | @change job hi =>
    -- nobody else is reading
    have hhold : (m.threads i).hold = .exclusive := by rw [hi]; rfl
    have hbefore : (m.threads i).reads = none := by simp [hi, Stage.reads]
    have hother : ∀ j, j ≠ i → (m.threads j).reads = none :=
      fun j hj => Stage.reads_outside (hsound.guards.alone hhold hj)
    cases job with
    | request r =>
      simp only [Machine.begins, hi]
      refine ⟨?_, whole_max reading h.unbounded r, whole_max reading h.unbounded' r, ?_⟩
      · exact whole_held reading h.unbounded h.unbounded' h.held r
      · refine accounts_update (accounts_of_none ?_ rfl) fun j hj => accounts_of_none ?_ (hother j hj)
        · show List.Forall₂ Alike _ ((a.execute (reading, .request i r)).share i)
          rw [Serial.share_request]
          apply h.answered _ hbefore
          exact whole_same reading h.unbounded h.unbounded' h.held r
        · show List.Forall₂ Alike _ ((a.execute (reading, .request i r)).share j)
          rw [Serial.share_request_ne _ _ _ _ hj]
          exact (h.other hj r _).none (hother j hj)
    | remove key rest =>
      simp only [Machine.begins, hi]
      refine ⟨?_, (Store.deleteAllExpired_max _ _ [key]).trans h.unbounded, h.unbounded', ?_⟩
      · exact (Store.deleteIfExpired_held ..).trans h.held
      · refine accounts_update (accounts_of_none ?_ rfl) fun j hj => accounts_of_none ?_ (hother j hj)
        · exact (h.replies i).none hbefore
        · exact (h.replies j).none (hother j hj)
    | purge keys =>
      simp only [Machine.begins, hi]
      refine ⟨?_, (Store.deleteAllExpired_max ..).trans h.unbounded, h.unbounded', ?_⟩
      · exact (Store.deleteAllExpired_held ..).trans h.held
      · refine accounts_update (accounts_of_none ?_ rfl) fun j hj => accounts_of_none ?_ (hother j hj)
        · exact (h.replies i).none hbefore
        · exact (h.replies j).none (hother j hj)

end

/-! ### Runs -/

/-- **A run** has no error. -/
theorem Sound.run {m : Machine ι} (h : Sound m) (readings : Nat → Reading) (n : Nat) (turns : List (ι × Task)) :
    ∃ m', m.run readings n turns = some m' ∧ Sound m' := by
  induction turns generalizing n m with
  | nil => exact ⟨m, rfl, h⟩
  | cons turn turns ih =>
    obtain ⟨m', hstep, hsound⟩ := h.step (readings n) turn.1 turn.2
    obtain ⟨m'', hrun, hsound'⟩ := ih hsound (n + 1)
    refine ⟨m'', ?_, hsound'⟩
    rw [Machine.run, hstep]
    exact hrun

theorem Agrees.run {readings : Nat → Reading} (hmono : ∀ n, (readings n).now ≤ (readings (n + 1)).now)
    (turns : List (ι × Task)) {n : Nat} {now later : Time} (hnow : now ≤ (readings n).now) (hlater : now ≤ later)
    (hall : ∀ k < turns.length, (readings (n + k)).now ≤ later) {m m' : Machine ι} {a : Serial ι}
    (h : Agrees now m a) (hsound : Sound m) (hrun : m.run readings n turns = some m') :
    Agrees later m' ((m.begun readings n turns).foldl Serial.execute a) := by
  induction turns generalizing n now m a with
  | nil =>
    cases hrun
    exact h.later hlater
  | cons turn turns ih =>
    obtain ⟨i, task⟩ := turn
    obtain ⟨m₁, hstep, hsound₁⟩ := hsound.step (readings n) i task
    rw [Machine.run, hstep] at hrun
    rw [Machine.begun, hstep, List.foldl_append]
    have hagrees := h.step hsound hnow (Machine.did hstep)
    refine ih (hmono n) (hall 0 (Nat.succ_pos _)) (fun k hk => ?_) hagrees hsound₁ hrun
    have hnext := hall (k + 1) (Nat.succ_lt_succ hk)
    rwa [Nat.add_assoc, Nat.add_comm 1 k]

/-- **The mutex makes calls atomic.** Any number of threads call a store without a budget and
sweep it, locking and unlocking as the code does, and any of them can have the next step, at
readings of a clock that does not go back. None of their steps is an error: no one looks at the
store or changes it in the middle of a change, no one stamps a value that is gone, and no one
unlocks what it does not hold. All replies are those of the calls executed one at a time, each
when its thread looks up or is done with its change, but for the order of `Keys` and `Snapshot`;
a thread that has looked up and not replied yet is going to reply the same. And the store holds
what it would hold then. -/
theorem threads_atomic {readings : Nat → Reading} (hmono : ∀ n, (readings n).now ≤ (readings (n + 1)).now)
    {s : Store} (hmax : s.maxMemoryBytes = 0) (turns : List (ι × Task)) :
    let start : Machine ι := { store := s }
    let a := (start.begun readings 0 turns).foldl Serial.execute { store := s }
    ∃ m, start.run readings 0 turns = some m ∧
      (∀ i, ∃ done rest, a.share i = done ++ rest ∧ List.Forall₂ Alike (m.replies i) done ∧
        List.Forall₂ Alike ((m.threads i).pending m.store).toList rest) ∧
      ∀ now, (∀ n < turns.length, (readings n).now ≤ now) → m.store.held now = a.store.held now := by
  intro start a
  obtain ⟨m, hrun, -⟩ := (Sound.start s).run readings 0 turns
  have hagrees : ∀ first now : Time, first ≤ (readings 0).now → first ≤ now →
      (∀ n < turns.length, (readings n).now ≤ now) → Agrees now m a := by
    intro first now hfirst hnow hall
    refine Agrees.run hmono turns hfirst hnow (fun k hk => ?_) ⟨rfl, hmax, hmax, fun i => ?_⟩ (Sound.start s) hrun
    · rw [Nat.zero_add]
      exact hall k hk
    · exact accounts_of_none .nil rfl
  refine ⟨m, hrun, fun i => ?_, fun now hall => ?_⟩
  · have hlast : ∀ n < turns.length, (readings n).now ≤ (readings turns.length).now :=
      fun n hn => monotone_nat_of_le_succ hmono (Nat.le_of_lt hn)
    exact (hagrees _ _ (le_refl _) (monotone_nat_of_le_succ hmono (Nat.zero_le _)) hlast).replies i
  · exact (hagrees (min (readings 0).now now) now (min_le_left ..) (min_le_right ..) hall).held

/-- Two threads read a value at once. The one that drew its tick first stores it last. -/
def crossed : List (Bool × Task) :=
  List.replicate 5 (false, .request (.call (.set [97] [49]))) ++
    List.replicate 4 (false, .request (.call (.get [97]))) ++
    List.replicate 6 (true, .request (.call (.get [97]))) ++ List.replicate 3 (false, .sweep)

/-- The value is left with the earlier tick. -/
theorem threads_atomic_crossed :
    let start : Machine Bool := { store := {} }
    ∃ m, start.run seconds 0 crossed = some m ∧
      (m.store.data.get [97]).map Value.lastAccessedSeq = some 1 ∧ m.store.accessClock = 3 ∧
      m.store.held 18000000000 =
        ((start.begun seconds 0 crossed).foldl Serial.execute { store := {} }).store.held 18000000000 := by
  intro start
  obtain ⟨m, hrun, -, hheld⟩ := threads_atomic seconds_mono (s := {}) rfl crossed
  have hend : (start.run seconds 0 crossed).map
      (fun m => ((m.store.data.get [97]).map Value.lastAccessedSeq, m.store.accessClock)) = some (some 1, 3) := by
    decide +kernel
  rw [hrun, Option.map_some, Option.some.injEq, Prod.mk.injEq] at hend
  exact ⟨m, hrun, hend.1, hend.2, hheld _ (by decide +kernel)⟩

end GoRedis.Locking
