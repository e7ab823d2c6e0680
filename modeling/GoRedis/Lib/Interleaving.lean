import Mathlib.Tactic

/-! Programs that share a state, and their interleavings.

A program is a tree of atomic operations: it asks for one, goes on with the answer, and
ends with a result. Each of a number of clients runs the programs of its commands one after
another, and a schedule says whose turn it is; a turn starts a command, performs one
operation, or ends a command. -/
namespace Interleaving

universe u v w

inductive Prog (Op : Type u) (Ans : Op → Type v) (ρ : Type w) where
  | ret (r : ρ)
  | step (op : Op) (next : Ans op → Prog Op Ans ρ)

section
variable {Op : Type u} {Ans : Op → Type v} {ρ : Type w} {κ σ ι γ : Type*}

/-- A program run alone. -/
def Prog.run (exec : σ → (op : Op) → σ × Ans op) : Prog Op Ans ρ → σ → σ × ρ
  | .ret r, s => (s, r)
  | .step op next, s => (next (exec s op).2).run exec (exec s op).1

/-- A condition on the state and the next operation, met at every operation of a program
run alone. -/
def Prog.Along (exec : σ → (op : Op) → σ × Ans op) (P : σ → Op → Prop) : Prog Op Ans ρ → σ → Prop
  | .ret _, _ => True
  | .step op next, s => P s op ∧ (next (exec s op).2).Along exec P (exec s op).1

/-- It can be tested. -/
instance Prog.decidableAlong (exec : σ → (op : Op) → σ × Ans op) (P : σ → Op → Prop) [∀ s op, Decidable (P s op)] :
    (p : Prog Op Ans ρ) → (s : σ) → Decidable (p.Along exec P s)
  | .ret _, _ => .isTrue trivial
  | .step op next, s =>
    have := decidableAlong exec P (next (exec s op).2) (exec s op).1
    inferInstanceAs (Decidable (P s op ∧ (next (exec s op).2).Along exec P (exec s op).1))

/-- A condition on the operations, met by all that a program can ask for. -/
def Prog.Only (P : Op → Prop) : Prog Op Ans ρ → Prop
  | .ret _ => True
  | .step op next => P op ∧ ∀ a, (next a).Only P

/-- What such operations keep, the program keeps. -/
theorem Prog.Only.run {exec : σ → (op : Op) → σ × Ans op} {P : Op → Prop} {inv : σ → Prop}
    (hstep : ∀ s op, P op → inv s → inv (exec s op).1) {p : Prog Op Ans ρ} (h : p.Only P) {s : σ} (hs : inv s) :
    inv (p.run exec s).1 := by
  induction p generalizing s with
  | ret r => exact hs
  | step op next ih => exact ih _ (h.2 _) (hstep s op h.1 hs)

/-- The program can end with the result, whatever others do to the state between its steps. -/
inductive Prog.Ends (exec : σ → (op : Op) → σ × Ans op) : Prog Op Ans ρ → ρ → Prop where
  | ret (r : ρ) : Ends exec (.ret r) r
  | step {op : Op} {next : Ans op → Prog Op Ans ρ} {r : ρ} (s : σ) (h : Ends exec (next (exec s op).2) r) :
    Ends exec (.step op next) r

theorem Prog.ends_run (exec : σ → (op : Op) → σ × Ans op) (p : Prog Op Ans ρ) (s : σ) :
    p.Ends exec (p.run exec s).2 := by
  induction p generalizing s with
  | ret r => exact .ret r
  | step op next ih => exact .step s (ih _ _)

/-- A client: the commands it has not begun, the one it is at with what is left of its
program, and the results of those that have ended. -/
structure Client (Op : Type u) (Ans : Op → Type v) (ρ : Type w) (κ : Type*) where
  todo : List κ
  running : Option (κ × Prog Op Ans ρ) := none
  results : List ρ := []

/-- The machine: the shared state and the clients. -/
structure Config (Op : Type u) (Ans : Op → Type v) (ρ : Type w) (κ σ ι : Type*) where
  shared : σ
  clients : ι → Client Op Ans ρ κ

variable (prog : κ → Prog Op Ans ρ) (exec : σ → (op : Op) → σ × Ans op)

/-- One turn of a client. -/
def Client.turn (c : Client Op Ans ρ κ) (s : σ) : Client Op Ans ρ κ × σ :=
  match c.running with
  | none =>
    match c.todo with
    | [] => (c, s)
    | k :: todo => ({ c with todo := todo, running := some (k, prog k) }, s)
  | some (_, .ret r) => ({ c with running := none, results := c.results ++ [r] }, s)
  | some (k, .step op next) => ({ c with running := some (k, next (exec s op).2) }, (exec s op).1)

/-- A whole command of a client, with nothing in between. -/
def Client.whole (c : Client Op Ans ρ κ) (s : σ) : Client Op Ans ρ κ × σ :=
  match c.todo with
  | [] => (c, s)
  | k :: todo =>
    ({ c with todo := todo, results := c.results ++ [((prog k).run exec s).2] }, ((prog k).run exec s).1)

namespace Config
variable [DecidableEq ι]

/-- One client and the shared state exchanged. -/
def after (m : Config Op Ans ρ κ σ ι) (i : ι) (c : Client Op Ans ρ κ) (s : σ) : Config Op Ans ρ κ σ ι :=
  ⟨s, Function.update m.clients i c⟩

def turn (m : Config Op Ans ρ κ σ ι) (i : ι) : Config Op Ans ρ κ σ ι :=
  m.after i ((m.clients i).turn prog exec m.shared).1 ((m.clients i).turn prog exec m.shared).2

def run (m : Config Op Ans ρ κ σ ι) (schedule : List ι) : Config Op Ans ρ κ σ ι :=
  schedule.foldl (turn prog exec) m

def whole (m : Config Op Ans ρ κ σ ι) (i : ι) : Config Op Ans ρ κ σ ι :=
  m.after i ((m.clients i).whole prog exec m.shared).1 ((m.clients i).whole prog exec m.shared).2

/-- Commands executed one at a time, in an order that says whose is next. -/
def serial (m : Config Op Ans ρ κ σ ι) (order : List ι) : Config Op Ans ρ κ σ ι :=
  order.foldl (whole prog exec) m

/-- Every client has ended all its commands. -/
def Finished (m : Config Op Ans ρ κ σ ι) : Prop :=
  ∀ i, (m.clients i).running = none ∧ (m.clients i).todo = []

/-- A condition on what an observer of the run has noted, the machine and whose turn it is,
met at every turn. -/
def Along (note : γ → Config Op Ans ρ κ σ ι → ι → γ) (P : γ → Config Op Ans ρ κ σ ι → ι → Prop) (g : γ)
    (m : Config Op Ans ρ κ σ ι) : List ι → Prop
  | [] => True
  | i :: schedule => P g m i ∧ Along note P (note g m i) (m.turn prog exec i) schedule

variable {prog exec}

/-- What every allowed turn keeps, every run of allowed turns keeps. -/
theorem Along.invariant {note : γ → Config Op Ans ρ κ σ ι → ι → γ} {P : γ → Config Op Ans ρ κ σ ι → ι → Prop}
    {inv : γ → Config Op Ans ρ κ σ ι → Prop}
    (hstep : ∀ g m i, inv g m → P g m i → inv (note g m i) (m.turn prog exec i)) {g : γ}
    {m : Config Op Ans ρ κ σ ι} {schedule : List ι} (hm : inv g m) (h : Along prog exec note P g m schedule) :
    ∃ g', inv g' (m.run prog exec schedule) := by
  induction schedule generalizing g m with
  | nil => exact ⟨g, hm⟩
  | cons i schedule ih => exact ih (hstep g m i hm h.1) h.2

/-- A machine before any turn. -/
def start (s : σ) (commands : ι → List κ) : Config Op Ans ρ κ σ ι where
  shared := s
  clients := fun i => { todo := commands i }

/-! ### The client that has the turn, and the others -/

section After
variable {m : Config Op Ans ρ κ σ ι} {i j : ι} {c : Client Op Ans ρ κ} {s : σ}

theorem after_self : (m.after i c s).clients i = c := Function.update_self ..

theorem after_ne (h : j ≠ i) : (m.after i c s).clients j = m.clients j := Function.update_of_ne h ..

theorem after_same : m.after i (m.clients i) m.shared = m := by
  rw [after, Function.update_eq_self]

/-- What holds of the client that had the turn and held of the others, holds of all. -/
theorem after_forall {P : ι → Client Op Ans ρ κ → Prop} (h : ∀ j, j ≠ i → P j (m.clients j)) (hc : P i c) (j : ι) :
    P j ((m.after i c s).clients j) := by
  by_cases hj : j = i
  · rw [hj, after_self]
    exact hc
  · rw [after_ne hj]
    exact h j hj

theorem turn_step {k : κ} {op : Op} {next : Ans op → Prog Op Ans ρ}
    (h : (m.clients i).running = some (k, .step op next)) :
    m.turn prog exec i = m.after i { m.clients i with running := some (k, next (exec m.shared op).2) }
      (exec m.shared op).1 := by
  rw [turn, Client.turn, h]

theorem whole_nil (h : (m.clients i).todo = []) : m.whole prog exec i = m := by
  rw [whole, Client.whole, h]
  exact after_same

theorem whole_cons {k : κ} {todo : List κ} (h : (m.clients i).todo = k :: todo) :
    m.whole prog exec i = m.after i
      { m.clients i with todo := todo, results := (m.clients i).results ++ [((prog k).run exec m.shared).2] }
      ((prog k).run exec m.shared).1 := by
  rw [whole, Client.whole, h]

end After

/-! ### What a client's results are -/

/-- The client's results are those of its commands so far, in order. -/
structure Answering (prog : κ → Prog Op Ans ρ) (exec : σ → (op : Op) → σ × Ans op) (commands : List κ)
    (c : Client Op Ans ρ κ) : Prop where
  done : ∃ done : List κ, commands = done ++ (c.running.map Prod.fst).toList ++ c.todo ∧
    List.Forall₂ (fun k r => (prog k).Ends exec r) done c.results
  running : ∀ k p, c.running = some (k, p) → ∀ r, p.Ends exec r → (prog k).Ends exec r

theorem Answering.turn {commands : List κ} {c : Client Op Ans ρ κ} (h : Answering prog exec commands c) (s : σ) :
    Answering prog exec commands (c.turn prog exec s).1 := by
  obtain ⟨⟨done, hcommands, hresults⟩, hrunning⟩ := h
  unfold Client.turn
  rcases hr : c.running with _ | ⟨k, r | ⟨op, next⟩⟩
  · rw [hr] at hcommands
    rcases ht : c.todo with _ | ⟨k, todo⟩
    · dsimp only
      exact ⟨⟨done, by rw [hr, hcommands], hresults⟩, hrunning⟩
    · refine ⟨⟨done, ?_, hresults⟩, fun k' p' heq r hp => ?_⟩
      · rw [hcommands, ht]
        simp
      · cases heq
        exact hp
  · refine ⟨⟨done ++ [k], ?_, ?_⟩, fun k' p' heq => by cases heq⟩
    · rw [hcommands, hr]
      simp
    · exact List.rel_append hresults (.cons (hrunning _ _ hr _ (.ret r)) .nil)
  · refine ⟨⟨done, by rw [hcommands, hr]; rfl, hresults⟩, fun k' p' heq r hp => ?_⟩
    cases heq
    exact hrunning _ _ hr r (.step s hp)

/-- **Each client's results answer its commands**, one by one, whatever the schedule. -/
theorem run_answering (s : σ) (commands : ι → List κ) (schedule : List ι) (i : ι) :
    Answering prog exec (commands i) (((start s commands).run prog exec schedule).clients i) := by
  suffices h : ∀ m : Config Op Ans ρ κ σ ι, (∀ i, Answering prog exec (commands i) (m.clients i)) →
      ∀ i, Answering prog exec (commands i) ((m.run prog exec schedule).clients i) from
    h _ (fun i => ⟨⟨[], rfl, .nil⟩, fun k p heq => by cases heq⟩) i
  induction schedule with
  | nil => exact fun m hm => hm
  | cons j schedule ih =>
    exact fun m hm => ih _ (after_forall (fun i _ => hm i) ((hm j).turn m.shared))

/-! ### Serial runs that have ended -/

theorem serial_idle {m : Config Op Ans ρ κ σ ι} (h : ∀ i, (m.clients i).todo = []) (order : List ι) :
    m.serial prog exec order = m := by
  induction order with
  | nil => rfl
  | cons i order ih =>
    rw [serial, List.foldl_cons, whole_nil (h i)]
    exact ih

/-- One of two clients has one command left. -/
theorem serial_last {m : Config Op Ans ρ κ σ Bool} {i : Bool} {k : κ} (hi : (m.clients i).todo = [])
    (hk : (m.clients !i).todo = [k]) {order : List Bool}
    (hend : ∀ j, ((m.serial prog exec order).clients j).todo = []) :
    m.serial prog exec order = m.whole prog exec !i := by
  induction order with
  | nil => cases hk.symm.trans (hend !i)
  | cons j order ih =>
    rw [serial, List.foldl_cons] at hend ⊢
    by_cases hj : j = i
    · rw [hj, whole_nil hi] at hend ⊢
      exact ih hend
    · rw [Bool.eq_not.mpr hj]
      refine serial_idle ((Bool.forall_bool' i).mpr ⟨?_, ?_⟩) order
      · rw [whole_cons hk, after_ne (by simp), hi]
      · rw [whole_cons hk, after_self]

/-- Two clients with one command each have but two orders. -/
theorem serial_two {m : Config Op Ans ρ κ σ Bool} {k : Bool → κ} (h : ∀ i, (m.clients i).todo = [k i])
    {order : List Bool} (hend : ∀ j, ((m.serial prog exec order).clients j).todo = []) :
    ∃ i, m.serial prog exec order = m.serial prog exec [i, !i] := by
  cases order with
  | nil => cases (h true).symm.trans (hend true)
  | cons i order =>
    have hi : ((m.whole prog exec i).clients i).todo = [] := by rw [whole_cons (h i), after_self]
    have hk : ((m.whole prog exec i).clients !i).todo = [k !i] := by rw [whole_cons (h i), after_ne (by simp), h]
    exact ⟨i, serial_last hi hk hend⟩

end Config
end

/-- A list that names no client twice, without one of its members. -/
theorem nodup_fst_middle {α β : Type*} {earlier later : List (α × β)} {x : α × β}
    (h : ((earlier ++ x :: later).map Prod.fst).Nodup) :
    x.1 ∉ (earlier ++ later).map Prod.fst ∧ ((earlier ++ later).map Prod.fst).Nodup := by
  rw [List.map_append, List.map_cons, List.nodup_middle, List.nodup_cons, ← List.map_append] at h
  exact h

end Interleaving
