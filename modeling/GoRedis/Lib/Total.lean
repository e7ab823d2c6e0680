import Mathlib.Tactic

/-! Programs with a state that may fail, and what they are certain to do.

`Does p s Q` says that `p` started in the state `s` has a result, and that `Q` holds of the
result and of the state it leaves. There is a rule for each way a program is put together;
the rules are applied from the program's first step on. -/
namespace Total

variable {σ α β : Type}

def Does (p : StateT σ Option α) (s : σ) (Q : α → σ → Prop) : Prop := ∃ r s', p s = some (r, s') ∧ Q r s'

variable {p : StateT σ Option α} {q : α → StateT σ Option β} {s : σ} {Q Q' : α → σ → Prop} {P : β → σ → Prop}

theorem Does.pure {r : α} (h : Q r s) : Does (pure r) s Q := ⟨r, s, rfl, h⟩

/-- A step whose result is known. -/
theorem Does.step {r : α} {s' : σ} (hp : p s = some (r, s')) (h : Does (q r) s' P) : Does (p >>= q) s P := by
  obtain ⟨r', s'', hq, hP⟩ := h
  refine ⟨r', s'', ?_, hP⟩
  show (p s).bind (fun x => q x.1 x.2) = some (r', s'')
  rw [hp]
  exact hq

/-- The rule of consequence. -/
theorem Does.mono (h : Does p s Q) (hQ : ∀ r s', Q r s' → Q' r s') : Does p s Q' := by
  obtain ⟨r, s', hp, hr⟩ := h
  exact ⟨r, s', hp, hQ r s' hr⟩

/-- A step, then the rest of the program. -/
theorem Does.then (h : Does p s Q) (hq : ∀ r s', Q r s' → Does (q r) s' P) : Does (p >>= q) s P := by
  obtain ⟨r, s', hp, hr⟩ := h
  exact .step hp (hq r s' hr)

end Total
