import GoRedis.Store.Threads

/-! No thread waits forever for the store's mutex.

A thread that holds the mutex never waits: it lets go after five steps of its own, whatever the
others do in between. And it waits only when it holds nothing: a read that finds a key expired
lets go of what it shares before it asks for the mutex alone. So whatever has happened, all calls
can be brought to their ends (`threads_finish`). -/
namespace GoRedis.Locking
open SharedMutex

variable {ι : Type}

/-! ### Where a step leads -/

/-- What is to be done after a job. -/
def Job.next : Job → Option Job
  | .remove _ rest => Job.removes rest
  | .request _ | .purge _ => none

/-- Where a thread goes by a step. -/
inductive Stage.Steps : Stage → Stage → Prop where
  | start (task : Task) : Steps .idle task.start
  | lockShared (look : Look) : Steps (.wanting look) (.looking look)
  | look (look : Look) (next : Option Job) : Steps (.looking look) (.leaving next)
  | find (look : Look) (r : Request) (seen : Reading) (key : Bytes) : Steps (.looking look) (.touching r seen key)
  | draw (r : Request) (seen : Reading) (key : Bytes) (ticket : Nat) :
    Steps (.touching r seen key) (.stamping r seen key ticket)
  | stamp (r : Request) (seen : Reading) (key : Bytes) (ticket : Nat) :
    Steps (.stamping r seen key ticket) (.copying r seen)
  | copy (r : Request) (seen : Reading) : Steps (.copying r seen) (.leaving none)
  | unlockShared (next : Option Job) : Steps (.leaving next) (.after next)
  | lock (job : Job) : Steps (.waiting job) (.writing job)
  | write (job : Job) : Steps (.writing job) (.changing job)
  | change (job : Job) : Steps (.changing job) (.releasing job.next)
  | unlock (next : Option Job) : Steps (.releasing next) (.after next)

/-- A thread that waits. -/
inductive Stage.Waits : Stage → Prop where
  | wanting (look : Look) : Waits (.wanting look)
  | waiting (job : Job) : Waits (.waiting job)

/-- **Nobody waits while holding the mutex.** -/
theorem Stage.Waits.hold {stage : Stage} (h : stage.Waits) : stage.hold = .nothing := by
  cases h <;> rfl

section
variable [DecidableEq ι] {m m' : Machine ι} {reading : Reading} {i j : ι} {task : Task}

/-- A step moves its own thread and no other, unless the mutex is held and the thread waits. -/
theorem step_steps (h : m.step reading i task = some m') :
    ((m.threads i).Steps (m'.threads i) ∧ ∀ j, j ≠ i → m'.threads j = m.threads j) ∨
      m' = m ∧ (m.threads i).Waits ∧ ¬(m.mutex.owner = none ∧ m.mutex.sharers = ∅) := by
  have hmoved : ∀ {m₁ : Machine ι} {before after : Stage}, m₁.threads = m.threads → before.Steps after →
      before.Steps ((m₁.goto i after).threads i) ∧ ∀ j, j ≠ i → (m₁.goto i after).threads j = m.threads j := by
    intro m₁ before after hthreads hsteps
    simp only [Machine.goto, hthreads, Function.update_self]
    exact ⟨hsteps, fun j hj => Function.update_of_ne hj _ _⟩
  unfold Machine.step at h
  cases hi : m.threads i with
  | idle =>
    simp only [hi] at h
    cases h
    exact .inl (hmoved rfl (.start task))
  | wanting look =>
    simp only [hi] at h
    split at h <;> cases h
    · exact .inl (hmoved rfl (.lockShared look))
    · next hlock =>
      refine .inr ⟨rfl, .wanting look, fun hfree => ?_⟩
      simp [Mutex.lockShared, hfree.1] at hlock
  | looking look =>
    cases look with
    | request r shared =>
      simp only [hi] at h
      split at h
      · cases h
      · split at h <;> cases h
        · exact .inl (hmoved rfl (.find ..))
        · exact .inl (hmoved rfl (.look ..))
    | sweep =>
      simp only [hi] at h
      split at h <;> cases h
      exact .inl (hmoved rfl (.look ..))
  | touching r seen key =>
    simp only [hi] at h
    split at h <;> cases h
    exact .inl (hmoved rfl (.draw ..))
  | stamping r seen key ticket =>
    simp only [hi] at h
    split at h
    · cases h
    · obtain ⟨store, -, rfl⟩ := Option.map_eq_some_iff.mp h
      exact .inl (hmoved rfl (.stamp ..))
  | copying r seen =>
    simp only [hi] at h
    split at h <;> cases h
    exact .inl (hmoved rfl (.copy ..))
  | leaving next =>
    simp only [hi] at h
    obtain ⟨mutex, -, rfl⟩ := Option.map_eq_some_iff.mp h
    exact .inl (hmoved rfl (.unlockShared next))
  | waiting job =>
    simp only [hi] at h
    split at h <;> cases h
    · exact .inl (hmoved rfl (.lock job))
    · next hlock =>
      refine .inr ⟨rfl, .waiting job, fun hfree => ?_⟩
      simp [Mutex.lock, hfree] at hlock
  | writing job =>
    simp only [hi] at h
    split at h <;> cases h
    exact .inl (hmoved rfl (.write job))
  | changing job =>
    simp only [hi] at h
    cases h
    cases job <;> exact .inl (hmoved rfl (.change _))
  | releasing next =>
    simp only [hi] at h
    obtain ⟨mutex, -, rfl⟩ := Option.map_eq_some_iff.mp h
    exact .inl (hmoved rfl (.unlock next))

/-- A step of another thread. -/
theorem step_other (h : m.step reading i task = some m') (hj : j ≠ i) : m'.threads j = m.threads j := by
  rcases step_steps h with ⟨-, hother⟩ | ⟨rfl, -⟩
  · exact hother j hj
  · rfl

theorem run_other {readings : Nat → Reading} {n : Nat} {turns : List (ι × Task)} (h : m.run readings n turns = some m')
    (hj : j ∉ turns.map Prod.fst) : m'.threads j = m.threads j := by
  induction turns generalizing n m with
  | nil =>
    cases h
    rfl
  | cons turn turns ih =>
    obtain ⟨m₁, hstep, hrun⟩ := Option.bind_eq_some_iff.mp h
    rw [List.map_cons, List.mem_cons, not_or] at hj
    exact (ih hrun hj.2).trans (step_other hstep hj.1)

theorem run_append {readings : Nat → Reading} {n : Nat} {turns turns' : List (ι × Task)} :
    m.run readings n (turns ++ turns') =
      (m.run readings n turns).bind fun m' => m'.run readings (n + turns.length) turns' := by
  induction turns generalizing n m with
  | nil => rfl
  | cons turn turns ih =>
    obtain ⟨i, task⟩ := turn
    rw [List.cons_append, Machine.run, Machine.run, Option.bind_assoc]
    congr 1
    funext m₁
    rw [ih, List.length_cons, Nat.add_right_comm, Nat.add_assoc]

/-! ### Letting go -/

/-- How many steps of its own a thread is from letting go. -/
def Stage.rank : Stage → Nat
  | .idle | .wanting _ | .waiting _ => 0
  | .leaving _ | .releasing _ => 1
  | .copying .. | .changing _ => 2
  | .stamping .. | .writing _ => 3
  | .touching .. => 4
  | .looking _ => 5

theorem Stage.rank_le (stage : Stage) : stage.rank ≤ 5 := by
  cases stage <;> simp [Stage.rank]

theorem Stage.rank_eq_zero {stage : Stage} (h : stage.rank = 0) : stage.hold = .nothing := by
  cases stage with
  | idle | wanting | waiting => rfl
  | _ => cases h

theorem Stage.rank_outside {stage : Stage} (h : stage.hold = .nothing) : stage.rank = 0 := by
  cases stage with
  | idle | wanting | waiting => rfl
  | _ => cases h

theorem Stage.Steps.rank {stage stage' : Stage} (h : stage.Steps stage') (hhold : stage.hold ≠ .nothing) :
    stage'.rank < stage.rank := by
  cases h with
  | start | lockShared | lock => exact absurd rfl hhold
  | unlockShared next | unlock next =>
    rw [Stage.rank_outside (Stage.after_hold next)]
    exact Nat.zero_lt_one
  | look | find | draw | stamp | copy | write | change => simp [Stage.rank]

/-- **A thread lets go.** After so many steps of its own it has, whatever the others do. -/
theorem run_releases (hsound : Sound m) (readings : Nat → Reading) (n : Nat) (turns : List (ι × Task))
    (hturns : (m.threads i).rank ≤ (turns.map Prod.fst).count i) :
    ∃ k ≤ turns.length, ∃ m', m.run readings n (turns.take k) = some m' ∧ Sound m' ∧
      (m'.threads i).hold = .nothing := by
  induction turns generalizing n m with
  | nil => exact ⟨0, Nat.le_refl _, m, rfl, hsound, Stage.rank_eq_zero (Nat.le_zero.mp hturns)⟩
  | cons turn turns ih =>
    by_cases hhold : (m.threads i).hold = .nothing
    · exact ⟨0, Nat.zero_le _, m, rfl, hsound, hhold⟩
    · obtain ⟨j, task⟩ := turn
      obtain ⟨m₁, hstep, hsound₁⟩ := hsound.step (readings n) j task
      have hrank : (m₁.threads i).rank ≤ (turns.map Prod.fst).count i := by
        rw [List.map_cons, List.count_cons] at hturns
        by_cases hj : j = i
        · subst hj
          rcases step_steps hstep with ⟨hsteps, -⟩ | ⟨-, hwaits, -⟩
          · have hless := hsteps.rank hhold
            simp only [BEq.rfl, ↓reduceIte] at hturns
            omega
          · exact absurd hwaits.hold hhold
        · rw [step_other hstep (Ne.symm hj)]
          simpa [hj] using hturns
      obtain ⟨k, hk, m', hrun, hsound', hreleased⟩ := ih hsound₁ (n + 1) hrank
      refine ⟨k + 1, Nat.succ_le_succ hk, m', ?_, hsound', hreleased⟩
      rw [List.take_succ_cons, Machine.run, hstep]
      exact hrun

/-! ### Finishing -/

/-- How many times a job and those after it lock the mutex. -/
def Job.size : Job → Nat
  | .remove _ rest => rest.length + 1
  | .request _ | .purge _ => 1

/-- The steps that jobs take. -/
def Job.steps : Option Job → Nat
  | none => 0
  | some job => 4 * job.size

theorem Job.steps_next (job : Job) : Job.steps job.next + 4 = Job.steps (some job) := by
  cases job with
  | remove key rest => cases rest <;> simp [Job.next, Job.removes, Job.steps, Job.size, Nat.mul_add]
  | request | purge => rfl

/-- What a thread has yet to do: up to its lookup, and then as much as that has found. -/
def Stage.left : Stage → Nat × Nat
  | .idle => (0, 0)
  | .wanting _ => (2, 0)
  | .looking _ => (1, 0)
  | .touching .. => (0, 4)
  | .stamping .. => (0, 3)
  | .copying .. => (0, 2)
  | .leaving next | .releasing next => (0, Job.steps next + 1)
  | .waiting job => (0, Job.steps (some job))
  | .writing job => (0, Job.steps job.next + 3)
  | .changing job => (0, Job.steps job.next + 2)

theorem Stage.left_after (next : Option Job) : (Stage.after next).left = (0, Job.steps next) := by
  cases next <;> rfl

theorem Stage.Steps.left {stage stage' : Stage} (h : stage.Steps stage') (hidle : stage ≠ .idle) :
    Prod.Lex (· < ·) (· < ·) stage'.left stage.left := by
  cases h with
  | start => exact absurd rfl hidle
  | lockShared => exact .left _ _ (by decide)
  | look | find => exact .left _ _ (by decide)
  | unlockShared next | unlock next =>
    rw [Stage.left_after]
    exact .right _ (Nat.lt_succ_self _)
  | lock job =>
    rw [Stage.left, Stage.left, ← Job.steps_next]
    exact .right _ (by omega)
  | draw | stamp => exact .right _ (by decide)
  | copy | write | change => exact .right _ (by simp [Job.steps])

/-- A thread that nobody else holds the mutex against comes to the end of its call. -/
theorem run_finishes {m : Machine ι} {i : ι} (hsound : Sound m) (hfree : ∀ j, j ≠ i → (m.threads j).hold = .nothing)
    (readings : Nat → Reading) (n : Nat) : ∃ turns m', m.run readings n turns = some m' ∧ Sound m' ∧
      m'.threads i = .idle ∧ ∀ j, j ≠ i → m'.threads j = m.threads j := by
  by_cases hidle : m.threads i = .idle
  · exact ⟨[], m, rfl, hsound, hidle, fun _ _ => rfl⟩
  · obtain ⟨m₁, hstep, hsound₁⟩ := hsound.step (readings n) i .sweep
    rcases step_steps hstep with ⟨hsteps, hother⟩ | ⟨-, hwaits, hheld⟩
    · have hless := hsteps.left hidle
      obtain ⟨turns, m', hrun, hsound', hidle', hother'⟩ :=
        run_finishes hsound₁ (fun j hj => hother j hj ▸ hfree j hj) readings (n + 1)
      refine ⟨(i, .sweep) :: turns, m', ?_, hsound', hidle', fun j hj => (hother' j hj).trans (hother j hj)⟩
      rw [Machine.run, hstep]
      exact hrun
    · refine absurd (hsound.guards.unheld fun j => ?_) hheld
      by_cases hj : j = i
      · rw [hj, hwaits.hold]
      · exact hfree j hj
termination_by (m.threads i).left
decreasing_by exact hless

/-- What can be done with one thread by its own steps can be done with all of some threads, one
after another. -/
theorem run_each {Q : Machine ι → Prop} {P : Stage → Prop} {readings : Nat → Reading}
    (hone : ∀ {m : Machine ι} (n : Nat) (i : ι), Q m → ∃ turns m', m.run readings n turns = some m' ∧ Q m' ∧
      P (m'.threads i) ∧ ∀ j, j ≠ i → m'.threads j = m.threads j)
    {m : Machine ι} (h : Q m) (n : Nat) (threads : List ι) :
    ∃ turns m', m.run readings n turns = some m' ∧ Q m' ∧ (∀ i ∈ threads, P (m'.threads i)) ∧
      ∀ j, j ∉ threads → m'.threads j = m.threads j := by
  induction threads generalizing n m with
  | nil => exact ⟨[], m, rfl, h, by simp, fun _ _ => rfl⟩
  | cons i threads ih =>
    obtain ⟨turns₁, m₁, hrun₁, h₁, hi, hother⟩ := hone n i h
    obtain ⟨turns, m', hrun, h', hall, hsame⟩ := ih h₁ (n + turns₁.length)
    refine ⟨turns₁ ++ turns, m', ?_, h', ?_, fun j hj => ?_⟩
    · rw [run_append, hrun₁]
      exact hrun
    · intro j hj
      by_cases hmem : j ∈ threads
      · exact hall j hmem
      · rw [hsame j hmem]
        rcases List.mem_cons.mp hj with rfl | hj
        · exact hi
        · exact absurd hj hmem
    · rw [List.mem_cons, not_or] at hj
      rw [hsame j hj.2, hother j hj.1]

theorem run_releases_all (hsound : Sound m) (readings : Nat → Reading) (n : Nat) (threads : List ι) :
    ∃ turns m', m.run readings n turns = some m' ∧ Sound m' ∧ (∀ i ∈ threads, (m'.threads i).hold = .nothing) ∧
      ∀ j, j ∉ threads → m'.threads j = m.threads j := by
  refine run_each (P := fun stage => stage.hold = .nothing) (fun {m} n i hsound => ?_) hsound n threads
  obtain ⟨k, -, m', hrun, hsound', hreleased⟩ :=
    run_releases hsound readings n (i := i) (List.replicate 5 (i, .sweep)) (by simp [Stage.rank_le])
  refine ⟨_, m', hrun, hsound', hreleased, fun j hj => run_other hrun fun hmem => hj ?_⟩
  rw [List.take_replicate, List.map_replicate] at hmem
  exact List.eq_of_mem_replicate hmem

/-- A mutex that is free is free again when a thread has finished. -/
theorem run_finishes_free (h : Sound m ∧ ∀ j, (m.threads j).hold = .nothing) (readings : Nat → Reading) (n : Nat)
    (i : ι) : ∃ turns m', m.run readings n turns = some m' ∧ (Sound m' ∧ ∀ j, (m'.threads j).hold = .nothing) ∧
      m'.threads i = .idle ∧ ∀ j, j ≠ i → m'.threads j = m.threads j := by
  obtain ⟨turns, m', hrun, hsound, hidle, hother⟩ := run_finishes h.1 (i := i) (fun j _ => h.2 j) readings n
  refine ⟨turns, m', hrun, ⟨hsound, fun j => ?_⟩, hidle, hother⟩
  by_cases hj : j = i
  · rw [hj, hidle]
    rfl
  · rw [hother j hj]
    exact h.2 j

/-- **No deadlock.** Whatever any number of threads have done, a thread holds the mutex for five
steps of its own at most, whoever has the steps in between, and there is a way to go on by which
all calls come to their ends. -/
theorem threads_finish (readings : Nat → Reading) (s : Store) (turns : List (ι × Task)) :
    ∃ m, ({ store := s } : Machine ι).run readings 0 turns = some m ∧
      (∀ (i : ι) (n : Nat) (later : List (ι × Task)), 5 ≤ (later.map Prod.fst).count i →
        ∃ k ≤ later.length, ∃ m', m.run readings n (later.take k) = some m' ∧ (m'.threads i).hold = .nothing) ∧
      ∃ rest m', m.run readings turns.length rest = some m' ∧ ∀ i, m'.threads i = .idle := by
  obtain ⟨m, hrun, hsound⟩ := (Sound.start s).run readings 0 turns
  refine ⟨m, hrun, fun i n later hlater => ?_, ?_⟩
  · obtain ⟨k, hk, m', hrun', -, hreleased⟩ :=
      run_releases hsound readings n (i := i) later ((Stage.rank_le _).trans hlater)
    exact ⟨k, hk, m', hrun', hreleased⟩
  · -- a thread without a turn is idle
    have hidle : ∀ j, j ∉ turns.map Prod.fst → m.threads j = .idle := fun j hj => run_other hrun hj
    obtain ⟨turns₁, m₁, hrun₁, hsound₁, hreleased, hsame₁⟩ :=
      run_releases_all hsound readings turns.length (turns.map Prod.fst)
    have hfree : ∀ j, (m₁.threads j).hold = .nothing := by
      intro j
      by_cases hj : j ∈ turns.map Prod.fst
      · exact hreleased j hj
      · rw [hsame₁ j hj, hidle j hj]
        rfl
    obtain ⟨turns₂, m₂, hrun₂, -, hdone, hsame₂⟩ := run_each (P := fun stage => stage = .idle)
      (fun n i h => run_finishes_free h readings n i) ⟨hsound₁, hfree⟩ (turns.length + turns₁.length)
      (turns.map Prod.fst)
    refine ⟨turns₁ ++ turns₂, m₂, ?_, fun j => ?_⟩
    · rw [run_append, hrun₁]
      exact hrun₂
    · by_cases hj : j ∈ turns.map Prod.fst
      · exact hdone j hj
      · rw [hsame₂ j hj, hsame₁ j hj, hidle j hj]

end
end GoRedis.Locking
