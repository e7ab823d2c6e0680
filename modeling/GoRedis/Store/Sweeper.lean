import GoRedis.Store.Budget

/-! The sweeper thread and the store's destructor (`Store::SweeperRun`, `Store::~Store`).

The sweeper sleeps on a condition variable for an interval, sweeps, and sleeps again, until
a flag is set; the destructor sets the flag, notifies the condition variable and joins the
thread. The mutex of the two protects the flag and is not held during a sweep. The model is
the two threads' steps, one at a time in any order, with the store's other users.

A notification that comes while the sweeper is not asleep is lost. It does not matter: the
flag is set under the mutex, and the sweeper looks at it under the mutex before it falls
asleep, so it never sleeps once the destructor has notified, and it ends after a few steps
of its own. -/
namespace GoRedis.Sweeper

inductive Thread where
  | sweeper | destructor
  deriving DecidableEq

/-- Where `SweeperRun` is. `wait_for` tests its predicate, and falls asleep giving up the
mutex if it does not hold; it wakes up when it is notified, on its own or because the time is
over (`timedOut`), and takes the mutex again. -/
inductive SweeperAt where
  | starting
  | testing
  | predicate
  | asleep
  | waking (timedOut : Bool)
  | woken (timedOut : Bool)
  | checking
  | unlocking
  | scanning
  | deleting (expired : List Bytes)
  | relocking
  | leaving
  | exited

/-- Where `~Store` is. -/
inductive DestructorAt where
  | uncalled | locking | flagging | unlocking | notifying | joining | joined

def SweeperAt.exits : SweeperAt → Bool
  | .exited => true
  | _ => false

/-- `lateScans` counts the sweeps that began with the flag set. -/
structure Lifetime where
  store : Store
  mutex : Option Thread := none
  stopSweeper : Bool := false
  sweeper : SweeperAt := .starting
  destructor : DestructorAt := .uncalled
  lateScans : Nat := 0

namespace Lifetime

/-- One step of the sweeper. A step that has to wait for the mutex, or to be woken up, changes
nothing. -/
def sweeperRun (now : Time) (s : Lifetime) : Lifetime :=
  match s.sweeper with
  | .starting => if s.mutex = none then { s with mutex := some .sweeper, sweeper := .testing } else s
  | .testing => { s with sweeper := if s.stopSweeper then .leaving else .predicate }
  | .predicate =>
    if s.stopSweeper then { s with sweeper := .checking } else { s with mutex := none, sweeper := .asleep }
  | .asleep => s
  | .waking timedOut =>
    if s.mutex = none then { s with mutex := some .sweeper, sweeper := .woken timedOut } else s
  | .woken timedOut => { s with sweeper := if timedOut then .checking else .predicate }
  | .checking => { s with sweeper := if s.stopSweeper then .leaving else .unlocking }
  | .unlocking => { s with mutex := none, sweeper := .scanning }
  | .scanning =>
    { s with
      sweeper := if (s.store.expiredKeys now).isEmpty then .relocking else .deleting (s.store.expiredKeys now)
      lateScans := if s.stopSweeper then s.lateScans + 1 else s.lateScans }
  | .deleting expired => { s with store := s.store.deleteAllExpired now expired, sweeper := .relocking }
  | .relocking => if s.mutex = none then { s with mutex := some .sweeper, sweeper := .testing } else s
  | .leaving => { s with mutex := none, sweeper := .exited }
  | .exited => s

/-- The sweeper, if it is asleep, wakes up. -/
def wake (timedOut : Bool) (s : Lifetime) : Lifetime :=
  match s.sweeper with
  | .asleep => { s with sweeper := .waking timedOut }
  | _ => s

/-- One step of the destructor, the call of it included. -/
def destroy (s : Lifetime) : Lifetime :=
  match s.destructor with
  | .uncalled => { s with destructor := .locking }
  | .locking => if s.mutex = none then { s with mutex := some .destructor, destructor := .flagging } else s
  | .flagging => { s with stopSweeper := true, destructor := .unlocking }
  | .unlocking => { s with mutex := none, destructor := .notifying }
  | .notifying => { s.wake false with destructor := .joining }
  | .joining => if s.sweeper.exits then { s with destructor := .joined } else s
  | .joined => s

/-- Someone else uses the store; nobody does once it is being destroyed. -/
def use (op : Store.Operation) (s : Lifetime) : Lifetime :=
  match s.destructor with
  | .uncalled => { s with store := s.store.operate op }
  | _ => s

inductive Turn where
  | sweeper (now : Time)
  | wake (timedOut : Bool)
  | destructor
  | use (op : Store.Operation)

def turn (s : Lifetime) : Turn → Lifetime
  | .sweeper now => s.sweeperRun now
  | .wake timedOut => s.wake timedOut
  | .destructor => s.destroy
  | .use op => s.use op

def run (s : Lifetime) (turns : List Turn) : Lifetime := turns.foldl turn s

end Lifetime

/-! ### Invariants -/

/-- The sweeper has the mutex. -/
def SweeperAt.holds : SweeperAt → Bool
  | .testing | .predicate | .woken _ | .checking | .unlocking | .leaving => true
  | _ => false

/-- The sweeper is about to scan the table. -/
def SweeperAt.scans : SweeperAt → Bool
  | .scanning => true
  | _ => false

def SweeperAt.sleeps : SweeperAt → Bool
  | .asleep => true
  | _ => false

/-- The sweeper has seen the flag clear, and still has the mutex. -/
def SweeperAt.resumes : SweeperAt → Bool
  | .unlocking => true
  | _ => false

def DestructorAt.holds : DestructorAt → Bool
  | .flagging | .unlocking => true
  | _ => false

def DestructorAt.flagged : DestructorAt → Bool
  | .unlocking | .notifying | .joining | .joined => true
  | _ => false

def DestructorAt.notified : DestructorAt → Bool
  | .joining | .joined => true
  | _ => false

def DestructorAt.returned : DestructorAt → Bool
  | .joined => true
  | _ => false

/-- Neither asleep, nor about to scan, nor at its end. -/
theorem SweeperAt.awake_of_holds {place : SweeperAt} (h : place.holds = true) :
    place.sleeps = false ∧ place.scans = false ∧ place.exits = false := by
  cases place <;> simp_all [holds, sleeps, scans, exits]

theorem SweeperAt.holds_of_resumes {place : SweeperAt} (h : place.resumes = true) : place.holds = true := by
  cases place <;> simp_all [resumes, holds]

theorem DestructorAt.flagged_of_notified {place : DestructorAt} (h : place.notified = true) :
    place.flagged = true := by
  cases place <;> simp_all [notified, flagged]

theorem DestructorAt.free_of_notified {place : DestructorAt} (h : place.notified = true) : place.holds = false := by
  cases place <;> simp_all [notified, holds]

theorem DestructorAt.notified_of_returned {place : DestructorAt} (h : place.returned = true) :
    place.notified = true := by
  cases place <;> simp_all [returned, notified]

/-- The steps that are left to the sweeper once the destructor has notified. -/
def SweeperAt.rank : SweeperAt → Nat
  | .exited | .asleep => 0
  | .leaving => 1
  | .testing | .checking => 2
  | .starting | .predicate | .relocking => 3
  | .deleting _ | .woken _ => 4
  | .scanning | .waking _ => 5
  | .unlocking => 6

namespace Lifetime

/-- What a step of the sweeper can do. -/
inductive Sweeps (s : Lifetime) : Lifetime → Prop where
  | waits : Sweeps s s
  | locks (place : SweeperAt) (hfree : s.mutex = none) (hexits : s.sweeper.exits = false) (hplace : place.holds = true)
      (hresumes : place.resumes = false) : Sweeps s { s with mutex := some .sweeper, sweeper := place }
  | goes (place : SweeperAt) (hheld : s.sweeper.holds = true) (hplace : place.holds = true)
      (hresumes : place.resumes = true → s.stopSweeper = false) : Sweeps s { s with sweeper := place }
  | sleeps (hheld : s.sweeper.holds = true) (hclear : s.stopSweeper = false) :
      Sweeps s { s with mutex := none, sweeper := .asleep }
  | resumes (hheld : s.sweeper.holds = true) (hresumes : s.sweeper.resumes = true) :
      Sweeps s { s with mutex := none, sweeper := .scanning }
  | scans (expired : List Bytes) (hscans : s.sweeper = .scanning) (place : SweeperAt)
      (hplace : place = .relocking ∨ place = .deleting expired) :
      Sweeps s { s with sweeper := place, lateScans := if s.stopSweeper then s.lateScans + 1 else s.lateScans }
  | deletes (expired : List Bytes) (store : Store) (hdeletes : s.sweeper = .deleting expired) :
      Sweeps s { s with store, sweeper := .relocking }
  | leaves (hheld : s.sweeper.holds = true) : Sweeps s { s with mutex := none, sweeper := .exited }

theorem sweeperRun_sweeps (s : Lifetime) (now : Time) : Sweeps s (s.sweeperRun now) := by
  unfold sweeperRun
  split <;> rename_i hat
  · split
    · exact .locks .testing ‹_› (by rw [hat]; rfl) rfl rfl
    · exact .waits
  · refine .goes _ (by rw [hat]; rfl) ?_ ?_ <;> split <;> simp [SweeperAt.holds, SweeperAt.resumes]
  · split
    · exact .goes .checking (by rw [hat]; rfl) rfl (by simp [SweeperAt.resumes])
    · next hclear => exact .sleeps (by rw [hat]; rfl) (Bool.eq_false_iff.mpr hclear)
  · exact .waits
  · split
    · exact .locks (.woken _) ‹_› (by rw [hat]; rfl) rfl rfl
    · exact .waits
  · refine .goes _ (by rw [hat]; rfl) ?_ ?_ <;> split <;> simp [SweeperAt.holds, SweeperAt.resumes]
  · refine .goes _ (by rw [hat]; rfl) ?_ ?_ <;> split <;> simp_all [SweeperAt.holds, SweeperAt.resumes]
  · exact .resumes (by rw [hat]; rfl) (by rw [hat]; rfl)
  · refine .scans (s.store.expiredKeys now) hat _ ?_
    split <;> simp
  · exact .deletes _ _ hat
  · split
    · exact .locks .testing ‹_› (by rw [hat]; rfl) rfl rfl
    · exact .waits
  · exact .leaves (by rw [hat]; rfl)
  · exact .waits

structure Sound (s : Lifetime) : Prop where
  /-- Each thread has the mutex exactly where its code has it locked. -/
  sweeperLock : s.mutex = some .sweeper ↔ s.sweeper.holds = true
  destructorLock : s.mutex = some .destructor ↔ s.destructor.holds = true
  flag : s.stopSweeper = s.destructor.flagged
  /-- The wakeup is not lost. -/
  awake : s.destructor.notified = true → s.sweeper.sleeps = false
  resumed : s.stopSweeper = true → s.sweeper.resumes = false
  early : s.stopSweeper = false → s.lateScans = 0
  late : s.lateScans + s.sweeper.scans.toNat ≤ 1
  joined : s.destructor.returned = true → s.sweeper.exits = true

theorem fresh_sound (store : Store) : Sound { store } := by
  constructor <;> simp [SweeperAt.holds, DestructorAt.holds, DestructorAt.flagged, DestructorAt.notified,
    DestructorAt.returned, SweeperAt.scans, SweeperAt.resumes]

/-- While the sweeper has the mutex, the destructor has not. -/
theorem Sound.excludes {s : Lifetime} (h : s.Sound) (hheld : s.sweeper.holds = true) : s.destructor.holds = false := by
  refine Bool.eq_false_iff.mpr fun hd => ?_
  have hmutex := (h.sweeperLock.mpr hheld).symm.trans (h.destructorLock.mpr hd)
  cases hmutex

/-- The destructor has not returned while the sweeper is somewhere in its code. -/
theorem Sound.unreturned {s : Lifetime} (h : s.Sound) (hexits : s.sweeper.exits = false) :
    s.destructor.returned = false := by
  refine Bool.eq_false_iff.mpr fun hreturned => ?_
  rw [h.joined hreturned] at hexits
  cases hexits

theorem Sound.lateScans_le {s : Lifetime} (h : s.Sound) : s.lateScans ≤ 1 :=
  Nat.le_trans (Nat.le_add_right ..) h.late

theorem Sweeps.sound {s t : Lifetime} (hs : Sweeps s t) (h : s.Sound) : t.Sound := by
  cases hs with
  | waits => exact h
  | locks place hfree hexits hplace hresumes =>
    obtain ⟨hsleeps, hscans, -⟩ := SweeperAt.awake_of_holds hplace
    have hunreturned := h.unreturned hexits
    have hfree' : s.destructor.holds = false := by simpa [hfree] using h.destructorLock
    refine ⟨iff_of_true rfl hplace, ?_, h.flag, fun _ => hsleeps, fun _ => hresumes, h.early, ?_, ?_⟩
    · simp [hfree']
    · rw [hscans]
      exact h.lateScans_le
    · simp [hunreturned]
  | goes place hheld hplace hresumes =>
    obtain ⟨hsleeps, hscans, -⟩ := SweeperAt.awake_of_holds hplace
    have hunreturned := h.unreturned (SweeperAt.awake_of_holds hheld).2.2
    refine ⟨iff_of_true (h.sweeperLock.mpr hheld) hplace, h.destructorLock, h.flag, fun _ => hsleeps, ?_, h.early,
      ?_, ?_⟩
    · exact fun hstop => Bool.eq_false_iff.mpr fun hr => Bool.false_ne_true ((hresumes hr).symm.trans hstop)
    · rw [hscans]
      exact h.lateScans_le
    · simp [hunreturned]
  | sleeps hheld hclear =>
    have hexcluded := h.excludes hheld
    have hunreturned := h.unreturned (SweeperAt.awake_of_holds hheld).2.2
    refine ⟨by simp [SweeperAt.holds], by simp [hexcluded], h.flag, ?_, fun _ => rfl, h.early, h.lateScans_le, ?_⟩
    · -- the flag is set before the notification, and it was clear just now
      intro hnotified
      have hset := h.flag.trans (DestructorAt.flagged_of_notified hnotified)
      exact absurd (hclear.symm.trans hset) Bool.false_ne_true
    · simp [hunreturned]
  | resumes hheld hresumes =>
    have hexcluded := h.excludes hheld
    have hunreturned := h.unreturned (SweeperAt.awake_of_holds hheld).2.2
    have hclear : s.stopSweeper = false :=
      Bool.eq_false_iff.mpr fun hstop => Bool.false_ne_true ((h.resumed hstop).symm.trans hresumes)
    refine ⟨by simp [SweeperAt.holds], by simp [hexcluded], h.flag, fun _ => rfl, fun _ => rfl, h.early, ?_, ?_⟩
    · simp [h.early hclear, SweeperAt.scans]
    · simp [hunreturned]
  | scans expired hscans place hplace =>
    have hunlocked : s.mutex ≠ some .sweeper := fun hm => by simpa [hscans, SweeperAt.holds] using h.sweeperLock.mp hm
    have hunreturned := h.unreturned (by rw [hscans]; rfl)
    have hfirst : s.lateScans = 0 := by simpa [hscans, SweeperAt.scans] using h.late
    rcases hplace with rfl | rfl
    all_goals
      refine ⟨by simp [hunlocked, SweeperAt.holds], h.destructorLock, h.flag, fun _ => rfl, fun _ => rfl, ?_, ?_, ?_⟩
      · intro hclear
        exact (if_neg (Bool.eq_false_iff.mp hclear)).trans hfirst
      · simp only [hfirst, SweeperAt.scans]
        split <;> simp
      · simp [hunreturned]
  | deletes expired store hdeletes =>
    have hunlocked : s.mutex ≠ some .sweeper := fun hm => by
      simpa [hdeletes, SweeperAt.holds] using h.sweeperLock.mp hm
    have hunreturned := h.unreturned (by rw [hdeletes]; rfl)
    refine ⟨by simp [hunlocked, SweeperAt.holds], h.destructorLock, h.flag, fun _ => rfl, fun _ => rfl, h.early,
      h.lateScans_le, ?_⟩
    simp [hunreturned]
  | leaves hheld =>
    have hexcluded := h.excludes hheld
    exact ⟨by simp [SweeperAt.holds], by simp [hexcluded], h.flag, fun _ => rfl, fun _ => rfl, h.early,
      h.lateScans_le, fun _ => rfl⟩

theorem wake_sound {s : Lifetime} (h : s.Sound) (timedOut : Bool) : (s.wake timedOut).Sound := by
  unfold wake
  split
  · next hasleep =>
    have hunlocked : s.mutex ≠ some .sweeper := fun hm => by simpa [hasleep, SweeperAt.holds] using h.sweeperLock.mp hm
    have hunreturned := h.unreturned (by rw [hasleep]; rfl)
    exact ⟨by simp [hunlocked, SweeperAt.holds], h.destructorLock, h.flag, fun _ => rfl, fun _ => rfl, h.early,
      h.lateScans_le, by simp [hunreturned]⟩
  · exact h

theorem wake_destructor (s : Lifetime) (timedOut : Bool) : (s.wake timedOut).destructor = s.destructor := by
  unfold wake
  split <;> rfl

theorem wake_awake (s : Lifetime) (timedOut : Bool) : (s.wake timedOut).sweeper.sleeps = false := by
  unfold wake
  split
  · rfl
  · next hnot =>
    cases hat : s.sweeper <;> first | rfl | exact absurd hat hnot

theorem wake_of_awake {s : Lifetime} (h : s.sweeper.sleeps = false) (timedOut : Bool) : s.wake timedOut = s := by
  unfold wake
  split
  · next hasleep =>
    rw [hasleep] at h
    cases h
  · rfl

theorem destroy_sound {s : Lifetime} (h : s.Sound) : s.destroy.Sound := by
  have hdestructor := h.destructorLock
  have hflag := h.flag
  have hidle : s.destructor.holds = true → s.sweeper.holds = false := fun hd =>
    Bool.eq_false_iff.mpr fun hs => Bool.false_ne_true ((h.excludes hs).symm.trans hd)
  unfold destroy
  split <;> rename_i hat <;> rw [hat] at hdestructor hflag hidle
  · exact ⟨h.sweeperLock, hdestructor, hflag, by simp [DestructorAt.notified], h.resumed, h.early, h.late,
      by simp [DestructorAt.returned]⟩
  · split
    · next hfree =>
      have hunheld : s.sweeper.holds = false := by simpa [hfree] using h.sweeperLock
      exact ⟨by simp [hunheld], by simp [DestructorAt.holds], hflag, by simp [DestructorAt.notified], h.resumed,
        h.early, h.late, by simp [DestructorAt.returned]⟩
    · exact h
  · -- the sweeper does not have the mutex, so it will look at the flag before it does anything
    have hresumed : s.sweeper.resumes = false := Bool.eq_false_iff.mpr fun hr =>
      Bool.false_ne_true ((hidle rfl).symm.trans (SweeperAt.holds_of_resumes hr))
    exact ⟨h.sweeperLock, hdestructor, rfl, by simp [DestructorAt.notified], fun _ => hresumed, by simp, h.late,
      by simp [DestructorAt.returned]⟩
  · exact ⟨by simp [hidle rfl], by simp [DestructorAt.holds], hflag, by simp [DestructorAt.notified], h.resumed,
      h.early, h.late, by simp [DestructorAt.returned]⟩
  · have hwake := wake_sound h false
    have hdestructor' := hwake.destructorLock
    have hflag' := hwake.flag
    rw [wake_destructor, hat] at hdestructor' hflag'
    exact ⟨hwake.sweeperLock, hdestructor', hflag', fun _ => wake_awake s false, hwake.resumed, hwake.early,
      hwake.late, by simp [DestructorAt.returned]⟩
  · split
    · next hexits =>
      refine ⟨h.sweeperLock, hdestructor, hflag, fun _ => ?_, h.resumed, h.early, h.late, fun _ => hexits⟩
      exact h.awake (by rw [hat]; rfl)
    · exact h
  · exact h

theorem turn_sound {s : Lifetime} (h : s.Sound) (t : Turn) : (s.turn t).Sound := by
  cases t with
  | sweeper now => exact (sweeperRun_sweeps s now).sound h
  | wake timedOut => exact wake_sound h timedOut
  | destructor => exact destroy_sound h
  | use op =>
    simp only [turn, use]
    split
    · exact ⟨h.sweeperLock, h.destructorLock, h.flag, h.awake, h.resumed, h.early, h.late, h.joined⟩
    · exact h

theorem run_sound {s : Lifetime} (h : s.Sound) (turns : List Turn) : (s.run turns).Sound := by
  induction turns generalizing s with
  | nil => exact h
  | cons t turns ih => exact ih (turn_sound h t)

/-! ### The end -/

/-- Once the destructor has notified, the mutex is free for the sweeper. -/
theorem Sound.free {s : Lifetime} (h : s.Sound) (hn : s.destructor.notified = true)
    (hunheld : s.sweeper.holds = false) : s.mutex = none := by
  cases hm : s.mutex with
  | none => rfl
  | some thread =>
    cases thread with
    | sweeper => exact absurd ((h.sweeperLock.mp hm).symm.trans hunheld) (by decide)
    | destructor =>
      exact absurd ((h.destructorLock.mp hm).symm.trans (DestructorAt.free_of_notified hn)) (by decide)

theorem Sound.set {s : Lifetime} (h : s.Sound) (hn : s.destructor.notified = true) : s.stopSweeper = true :=
  h.flag.trans (DestructorAt.flagged_of_notified hn)

theorem use_of_notified {s : Lifetime} (hn : s.destructor.notified = true) (op : Store.Operation) : s.use op = s := by
  unfold use
  split
  · next hat =>
    rw [hat] at hn
    cases hn
  · rfl

theorem Sweeps.destructor {s t : Lifetime} (hs : Sweeps s t) : t.destructor = s.destructor := by
  cases hs <;> rfl

/-- Each step of the sweeper's takes it nearer to its end. -/
theorem sweeperRun_rank {s : Lifetime} (h : s.Sound) (hn : s.destructor.notified = true) (now : Time) :
    (s.sweeperRun now).sweeper.rank ≤ s.sweeper.rank - 1 := by
  have hset := h.set hn
  unfold sweeperRun
  split <;> rename_i hat <;> rw [hat]
  · rw [if_pos (h.free hn (by rw [hat]; rfl))]
    exact Nat.le_refl _
  · rw [hset]
    exact Nat.le_refl _
  · rw [if_pos hset]
    exact Nat.le_refl _
  · exact Nat.le_refl _
  · rw [if_pos (h.free hn (by rw [hat]; rfl))]
    exact Nat.le_refl _
  · dsimp only
    split <;> simp [SweeperAt.rank]
  · rw [hset]
    exact Nat.le_refl _
  · exact Nat.le_refl _
  · dsimp only
    split <;> simp [SweeperAt.rank]
  · exact Nat.le_refl _
  · rw [if_pos (h.free hn (by rw [hat]; rfl))]
    exact Nat.le_refl _
  · exact Nat.le_refl _
  · exact Nat.le_refl _

def Turn.sweeps : Turn → Bool
  | .sweeper _ => true
  | _ => false

/-- From the notification on nobody else uses the store, and only the sweeper's own steps
move it. -/
theorem turn_rank {s : Lifetime} (h : s.Sound) (hn : s.destructor.notified = true) (t : Turn) :
    (s.turn t).destructor.notified = true ∧
      (s.turn t).sweeper.rank ≤ s.sweeper.rank - t.sweeps.toNat := by
  cases t with
  | sweeper now => exact ⟨by rw [turn, (sweeperRun_sweeps s now).destructor]; exact hn, sweeperRun_rank h hn now⟩
  | wake timedOut =>
    have hwake : s.wake timedOut = s := wake_of_awake (h.awake hn) timedOut
    rw [turn, hwake]
    exact ⟨hn, Nat.le_refl _⟩
  | destructor =>
    rw [turn]
    unfold destroy
    split <;> rename_i hat <;> rw [hat] at hn <;> simp only [DestructorAt.notified, Bool.false_eq_true] at hn
    · split
      · exact ⟨rfl, Nat.le_refl _⟩
      · exact ⟨by rw [hat]; rfl, Nat.le_refl _⟩
    · exact ⟨by rw [hat]; rfl, Nat.le_refl _⟩
  | use op =>
    have huse : s.use op = s := use_of_notified hn op
    rw [turn, huse]
    exact ⟨hn, Nat.le_refl _⟩

theorem run_rank {s : Lifetime} (h : s.Sound) (hn : s.destructor.notified = true) (turns : List Turn) :
    (s.run turns).destructor.notified = true ∧
      (s.run turns).sweeper.rank ≤ s.sweeper.rank - turns.countP Turn.sweeps := by
  induction turns generalizing s with
  | nil => exact ⟨hn, Nat.le_refl _⟩
  | cons t turns ih =>
    obtain ⟨hturn, hrank⟩ := turn_rank h hn t
    obtain ⟨hrun, hrest⟩ := ih (turn_sound h t) hturn
    refine ⟨hrun, Nat.le_trans hrest ?_⟩
    have hcount : (t :: turns).countP Turn.sweeps = turns.countP Turn.sweeps + t.sweeps.toNat := by
      rw [List.countP_cons]
      cases t.sweeps <;> rfl
    omega

/-- The place a thread with nothing left to do is at. -/
theorem Sound.exited_of_rank {s : Lifetime} (h : s.Sound) (hn : s.destructor.notified = true)
    (hrank : s.sweeper.rank = 0) : s.sweeper = .exited := by
  have hawake := h.awake hn
  cases hat : s.sweeper <;> rw [hat] at hrank hawake <;> simp_all [SweeperAt.rank, SweeperAt.sleeps]

/-- Once the destructor has notified, five steps are left at most. -/
theorem Sound.rank_le {s : Lifetime} (h : s.Sound) (hn : s.destructor.notified = true) : s.sweeper.rank ≤ 5 := by
  have hresumed := h.resumed (h.set hn)
  cases hat : s.sweeper <;> rw [hat] at hresumed <;> simp_all [SweeperAt.rank, SweeperAt.resumes]

/-- After the sweeper's end no turn changes the store. -/
theorem turn_exited {s : Lifetime} (hexited : s.sweeper = .exited) (hn : s.destructor.notified = true) (t : Turn) :
    (s.turn t).sweeper = .exited ∧ (s.turn t).destructor.notified = true ∧ (s.turn t).store = s.store := by
  cases t with
  | sweeper now => simp [turn, sweeperRun, hexited, hn]
  | wake timedOut => simp [turn, wake, hexited, hn]
  | destructor =>
    rw [turn]
    unfold destroy
    split <;> rename_i hat <;> rw [hat] at hn <;> simp only [DestructorAt.notified, Bool.false_eq_true] at hn
    · split
      · exact ⟨hexited, rfl, rfl⟩
      · exact ⟨hexited, by rw [hat]; rfl, rfl⟩
    · exact ⟨hexited, by rw [hat]; rfl, rfl⟩
  | use op =>
    rw [turn, use_of_notified hn op]
    exact ⟨hexited, hn, rfl⟩

theorem run_exited {s : Lifetime} (hexited : s.sweeper = .exited) (hn : s.destructor.notified = true)
    (turns : List Turn) : (s.run turns).store = s.store := by
  induction turns generalizing s with
  | nil => rfl
  | cons t turns ih =>
    obtain ⟨hstill, hstays, hstore⟩ := turn_exited hexited hn t
    exact (ih hstill hstays).trans hstore

theorem eq_exited_of_exits {place : SweeperAt} (h : place.exits = true) : place = .exited := by
  cases place <;> simp_all [SweeperAt.exits]

/-- **No lost wakeup**: however the threads' steps interleave, the sweeper is never asleep once the
destructor has notified, the two never have the mutex together, at most one sweep starts after the
flag is set, and when the destructor has returned the sweeper has ended and nothing changes the
store any more. -/
theorem run_wakeup (store : Store) (turns : List Turn) :
    let s := run { store } turns
    (s.destructor.notified = true → s.sweeper.sleeps = false) ∧
      (s.sweeper.holds = true → s.destructor.holds = false) ∧
      s.lateScans ≤ 1 ∧
      (s.destructor.returned = true → s.sweeper = .exited ∧ ∀ rest, (s.run rest).store = s.store) := by
  intro s
  have h : s.Sound := run_sound (fresh_sound store) turns
  refine ⟨h.awake, h.excludes, h.lateScans_le, fun hreturned => ?_⟩
  have hexited := eq_exited_of_exits (h.joined hreturned)
  exact ⟨hexited, run_exited hexited (DestructorAt.notified_of_returned hreturned)⟩

/-- **The destructor returns**: from wherever a run has the destructor waiting in `join`, any further
turns among which the sweeper has five of its own end the sweeper, and the destructor's next step
returns. -/
theorem run_joins (store : Store) (turns more : List Turn)
    (hjoining : (run { store } turns).destructor = .joining) (hmore : 5 ≤ more.countP Turn.sweeps) :
    let s := run { store } (turns ++ more)
    s.sweeper = .exited ∧ (s.turn .destructor).destructor = .joined := by
  intro s
  have h : (run { store } turns).Sound := run_sound (fresh_sound store) turns
  have hn : (run { store } turns).destructor.notified = true := by rw [hjoining]; rfl
  have happend : s = (run { store } turns).run more := List.foldl_append ..
  have hsound : s.Sound := run_sound (fresh_sound store) (turns ++ more)
  obtain ⟨hnotified, hrank⟩ := run_rank h hn more
  rw [← happend] at hnotified hrank
  have hbound := h.rank_le hn
  have hexited : s.sweeper = .exited := hsound.exited_of_rank hnotified (by omega)
  refine ⟨hexited, ?_⟩
  rw [turn]
  unfold destroy
  split <;> rename_i hat <;> rw [hat] at hnotified <;>
    simp only [DestructorAt.notified, Bool.false_eq_true] at hnotified
  · rw [hexited]
    rfl
  · exact hat

/-- The sweeper is asleep when the destructor begins. -/
theorem run_joins_asleep :
    let asleep : List Turn := [.sweeper 0, .sweeper 0, .sweeper 0]
    let destroyed := asleep ++ List.replicate 5 Turn.destructor
    (run { store := {} } asleep).sweeper = .asleep ∧
      (run { store := {} } (destroyed ++ List.replicate 5 (.sweeper 0))).sweeper = .exited :=
  ⟨rfl, (run_joins {} _ (List.replicate 5 (.sweeper 0)) rfl (by decide)).1⟩

end Lifetime
end GoRedis.Sweeper
