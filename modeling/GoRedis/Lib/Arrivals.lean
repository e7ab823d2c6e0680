import GoRedis.Lib.Interleaving

/-! Commands that arrive while others run, and while others than the clients change what they share.

In `Config` a client's commands are known from the start. Where they arrive one by one, what a
machine does until the next one arrives does not depend on it: the machine is reached with any
commands to follow (`Reached`). A command that arrives is then one of those that followed.

Between the clients' turns something else can change the shared state. -/
namespace Interleaving
open Config

universe u v w

variable {Op : Type u} {Ans : Op → Type v} {ρ : Type w} {κ σ ι δ : Type*} [DecidableEq ι]

/-- What happens next: a client has a turn, or the shared state is changed otherwise. -/
inductive Move (ι δ : Type*) where
  | turn (i : ι)
  | disturb (d : δ)

/-- The changes among some moves. -/
def Move.disturbances (moves : List (Move ι δ)) : List δ :=
  moves.filterMap fun
    | .turn _ => none
    | .disturb d => some d

/-- The machine whose clients are told what follows. -/
def Config.expecting (m : Config Op Ans ρ κ σ ι) (more : ι → List κ) : Config Op Ans ρ κ σ ι :=
  ⟨m.shared, fun i => { m.clients i with todo := more i }⟩

variable (prog : κ → Prog Op Ans ρ) (exec : σ → (op : Op) → σ × Ans op) (act : δ → σ → σ)

def Config.move (m : Config Op Ans ρ κ σ ι) : Move ι δ → Config Op Ans ρ κ σ ι
  | .turn i => m.turn prog exec i
  | .disturb d => { m with shared := act d m.shared }

def Config.moves (m : Config Op Ans ρ κ σ ι) (moves : List (Move ι δ)) : Config Op Ans ρ κ σ ι :=
  moves.foldl (move prog exec act) m

/-- The machine is reached, with the changes that were `seen`, when the clients have begun these
commands, whatever follows. -/
def Reached (s : σ) (begun : ι → List κ) (seen : List δ) (m : Config Op Ans ρ κ σ ι) : Prop :=
  ∃ moves, Move.disturbances moves = seen ∧
    ∀ more, (start s fun i => begun i ++ more i).moves prog exec act moves = m.expecting more

variable {prog exec act} {s : σ} {begun : ι → List κ} {seen : List δ} {m : Config Op Ans ρ κ σ ι} {i : ι}

theorem reached_start (s : σ) : Reached prog exec act s (fun _ : ι => []) [] (start s fun _ => []) :=
  ⟨[], rfl, fun _ => rfl⟩

/-- A client exchanged, before and after the clients are told what follows. -/
theorem after_expecting (c : Client Op Ans ρ κ) (s : σ) (more : ι → List κ) (todo : List κ) :
    (m.expecting (Function.update more i todo)).after i { c with todo := more i } s =
      (m.after i c s).expecting more := by
  simp only [expecting, after, Config.mk.injEq, true_and]
  funext j
  by_cases hj : j = i
  · subst hj
    simp
  · simp [hj]

/-- A turn of a client that is at a command does not look at what follows. -/
theorem turn_expecting (hi : (m.clients i).running.isSome = true) (more : ι → List κ) :
    (m.expecting more).turn prog exec i = (m.turn prog exec i).expecting more := by
  obtain ⟨⟨k, p⟩, hp⟩ := Option.isSome_iff_exists.mp hi
  have hsame : Function.update more i (more i) = more := Function.update_eq_self i more
  cases p with
  | ret r =>
    simp only [Config.turn, Client.turn, hp]
    rw [← after_expecting _ _ more (more i), hsame]
    simp only [expecting, hp]
  | step op next =>
    rw [turn_step hp, ← after_expecting _ _ more (more i), hsame]
    exact turn_step (by simp only [expecting, hp])

/-- One more move. -/
theorem moves_concat (m : Config Op Ans ρ κ σ ι) (moves : List (Move ι δ)) (move : Move ι δ) :
    m.moves prog exec act (moves ++ [move]) = (m.moves prog exec act moves).move prog exec act move := by
  simp [Config.moves]

theorem Reached.turn (h : Reached prog exec act s begun seen m) (hi : (m.clients i).running.isSome = true) :
    Reached prog exec act s begun seen (m.turn prog exec i) := by
  obtain ⟨moves, hseen, hmoves⟩ := h
  refine ⟨moves ++ [.turn i], by simpa [Move.disturbances] using hseen, fun more => ?_⟩
  rw [moves_concat, hmoves]
  exact turn_expecting hi more

/-- A command arrives at a client that is at none. -/
theorem Reached.begin (h : Reached prog exec act s begun seen m) (hi : (m.clients i).running = none) (k : κ) :
    Reached prog exec act s (Function.update begun i (begun i ++ [k])) seen
      (m.after i { m.clients i with running := some (k, prog k) } m.shared) := by
  obtain ⟨moves, hseen, hmoves⟩ := h
  refine ⟨moves ++ [.turn i], by simpa [Move.disturbances] using hseen, fun more => ?_⟩
  have hbegun : (fun j => Function.update begun i (begun i ++ [k]) j ++ more j) =
      fun j => begun j ++ Function.update more i (k :: more i) j := by
    funext j
    by_cases hj : j = i
    · subst hj
      simp
    · simp [hj]
  rw [hbegun, moves_concat, hmoves, ← after_expecting _ _ more (k :: more i)]
  simp only [Config.move, Config.turn, Client.turn, expecting, hi, Function.update_self]

theorem Reached.disturb (h : Reached prog exec act s begun seen m) (d : δ) :
    Reached prog exec act s begun (seen ++ [d]) { m with shared := act d m.shared } := by
  obtain ⟨moves, rfl, hmoves⟩ := h
  refine ⟨moves ++ [.disturb d], by simp [Move.disturbances], fun more => ?_⟩
  rw [moves_concat, hmoves]
  rfl

/-- What holds of the clients at the start and after every move holds of a machine that is
reached. -/
theorem Reached.invariant (h : Reached prog exec act s begun seen m) {P : Config Op Ans ρ κ σ ι → Prop}
    (hstart : P (start s begun)) (hturn : ∀ m i, P m → P (m.turn prog exec i))
    (hdisturb : ∀ (m : Config Op Ans ρ κ σ ι) (d : δ), P m → P { m with shared := act d m.shared }) :
    P (m.expecting fun _ => []) := by
  obtain ⟨moves, -, hmoves⟩ := h
  rw [← hmoves]
  simp only [List.append_nil]
  clear hmoves
  generalize start s begun = m₀ at hstart
  induction moves generalizing m₀ with
  | nil => exact hstart
  | cons move moves ih =>
    cases move with
    | turn i => exact ih _ (hturn _ i hstart)
    | disturb d => exact ih _ (hdisturb _ d hstart)

/-- The results of a machine that is reached answer the commands its clients have begun. -/
theorem Reached.answering (h : Reached prog exec act s begun seen m) (i : ι) :
    Answering prog exec (begun i) { m.clients i with todo := [] } := by
  have hall : ∀ i, Answering prog exec (begun i) ((m.expecting fun _ => []).clients i) := by
    refine h.invariant (P := fun m => ∀ i, Answering prog exec (begun i) (m.clients i)) (fun i => ?_)
      (fun m i hm => ?_) fun _ _ hm => hm
    · exact ⟨⟨[], rfl, .nil⟩, fun k p heq => by cases heq⟩
    · exact after_forall (fun j _ => hm j) ((hm i).turn m.shared)
  exact hall i

end Interleaving
