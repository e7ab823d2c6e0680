import Mathlib.Data.Finset.Insert
import Mathlib.Data.Finset.Erase
import Mathlib.Logic.Function.Basic

/-! A mutex that is held by one thread alone or shared by any number of them.

To unlock what one does not hold is an error. A thread holds the mutex as its place in the code
says (`Hold`); that the mutex knows the same (`Guards`) is what every operation keeps, and it is
all that exclusion rests on. -/
namespace SharedMutex

/-- How a thread holds the mutex. -/
inductive Hold where
  | nothing
  | shared
  | exclusive
  deriving DecidableEq

structure Mutex (ι : Type*) where
  owner : Option ι := none
  sharers : Finset ι := ∅

variable {ι : Type*} [DecidableEq ι]

namespace Mutex

/-- The mutex once a thread has it alone; nothing while the thread has to wait. -/
def lock (x : Mutex ι) (i : ι) : Option (Mutex ι) :=
  if x.owner = none ∧ x.sharers = ∅ then some { x with owner := some i } else none

def lockShared (x : Mutex ι) (i : ι) : Option (Mutex ι) :=
  if x.owner = none then some { x with sharers := insert i x.sharers } else none

/-- The mutex once its owner has let it go; nothing if it is not the owner that does. -/
def unlock (x : Mutex ι) (i : ι) : Option (Mutex ι) :=
  if x.owner = some i then some { x with owner := none } else none

def unlockShared (x : Mutex ι) (i : ι) : Option (Mutex ι) :=
  if i ∈ x.sharers then some { x with sharers := x.sharers.erase i } else none

end Mutex

/-! ### Who holds it -/

/-- The mutex is held by the threads that hold it. -/
structure Guards (x : Mutex ι) (hold : ι → Hold) : Prop where
  owner : ∀ i, hold i = .exclusive ↔ x.owner = some i
  sharers : ∀ i, hold i = .shared ↔ i ∈ x.sharers
  excludes : x.owner ≠ none → x.sharers = ∅

namespace Guards
variable {x x' : Mutex ι} {hold : ι → Hold} {i j : ι}

omit [DecidableEq ι] in
theorem free : Guards ({} : Mutex ι) fun _ => .nothing where
  owner _ := by simp
  sharers _ := by simp
  excludes h := absurd rfl h

omit [DecidableEq ι] in
/-- Beside an owner nobody holds the mutex. -/
theorem alone (h : Guards x hold) (hi : hold i = .exclusive) (hne : j ≠ i) : hold j = .nothing := by
  have howner := (h.owner i).mp hi
  cases hj : hold j with
  | nothing => rfl
  | shared =>
    have hmem := (h.sharers j).mp hj
    rw [h.excludes (by simp [howner])] at hmem
    exact absurd hmem (Finset.notMem_empty j)
  | exclusive =>
    have hsame := (h.owner j).mp hj
    rw [howner] at hsame
    exact absurd (Option.some.inj hsame).symm hne

omit [DecidableEq ι] in
/-- Beside one that shares it nobody owns it. -/
theorem shares (h : Guards x hold) (hi : hold i = .shared) : hold j ≠ .exclusive := by
  intro hj
  have hne : i ≠ j := by
    rintro rfl
    rw [hi] at hj
    cases hj
  rw [h.alone hj hne] at hi
  cases hi

/-! ### What the operations do -/

omit [DecidableEq ι] in
/-- A mutex that nobody holds. -/
theorem unheld (h : Guards x hold) (hnone : ∀ j, hold j = .nothing) : x.owner = none ∧ x.sharers = ∅ := by
  constructor
  · refine Option.eq_none_iff_forall_ne_some.mpr fun j hj => ?_
    rw [← h.owner j, hnone j] at hj
    cases hj
  · refine Finset.eq_empty_of_forall_notMem fun j hj => ?_
    rw [← h.sharers j, hnone j] at hj
    cases hj

theorem lock (h : Guards x hold) (hlock : x.lock i = some x') : Guards x' (Function.update hold i .exclusive) := by
  unfold Mutex.lock at hlock
  split at hlock
  · next hfree =>
    cases hlock
    have hnone : ∀ j, hold j ≠ .exclusive := fun j hj => by simp [(h.owner j).mp hj] at hfree
    have hunshared : ∀ j, hold j ≠ .shared := fun j hj => by
      have hmem := (h.sharers j).mp hj
      rw [hfree.2] at hmem
      exact Finset.notMem_empty j hmem
    refine ⟨fun j => ?_, fun j => ?_, fun _ => hfree.2⟩
    · by_cases hj : j = i
      · simp [hj]
      · simp [hj, hnone j, Ne.symm hj]
    · by_cases hj : j = i
      · simp [hj, hfree.2]
      · simp [hj, hunshared j, hfree.2]
  · cases hlock

theorem lockShared (h : Guards x hold) (hlock : x.lockShared i = some x') :
    Guards x' (Function.update hold i .shared) := by
  unfold Mutex.lockShared at hlock
  split at hlock
  · next hfree =>
    cases hlock
    have hnone : ∀ j, hold j ≠ .exclusive := fun j hj => by simp [(h.owner j).mp hj] at hfree
    refine ⟨fun j => ?_, fun j => ?_, fun howner => absurd hfree howner⟩
    · by_cases hj : j = i
      · simp [hj, hfree]
      · simp [hj, hnone j, hfree]
    · by_cases hj : j = i
      · simp [hj]
      · simp [hj, h.sharers j]
  · cases hlock

/-- An owner can let go. -/
theorem unlock (h : Guards x hold) (hi : hold i = .exclusive) :
    ∃ x', x.unlock i = some x' ∧ Guards x' (Function.update hold i .nothing) := by
  have howner := (h.owner i).mp hi
  refine ⟨_, if_pos howner, fun j => ?_, fun j => ?_, fun hnone => absurd rfl hnone⟩
  · by_cases hj : j = i
    · simp [hj]
    · simp [hj, h.alone hi hj]
  · have hempty := h.excludes (by simp [howner])
    by_cases hj : j = i
    · simp [hj, hempty]
    · simp [hj, h.alone hi hj, hempty]

theorem unlockShared (h : Guards x hold) (hi : hold i = .shared) :
    ∃ x', x.unlockShared i = some x' ∧ Guards x' (Function.update hold i .nothing) := by
  have hmem := (h.sharers i).mp hi
  refine ⟨_, if_pos hmem, fun j => ?_, fun j => ?_, fun howner => ?_⟩
  · by_cases hj : j = i
    · have hnot : x.owner ≠ some i := fun howner => h.shares hi ((h.owner i).mpr howner)
      simp [hj, hnot]
    · simp [hj, h.owner j]
  · by_cases hj : j = i
    · simp [hj]
    · simp [hj, h.sharers j]
  · simp [h.excludes howner]

end Guards
end SharedMutex
