import Mathlib.Tactic

/-! Sampling with rejection, by a bounded number of draws.

Each draw either hits something or nothing, and the sample is what the first draws hit, up to
its size. If nothing is hit by two draws, the draws that give one sample are as many as the draws
that give another of the same length: draws being equally likely, so are the samples
(`card_hits_eq`). -/
namespace Sampling

variable {α β : Type*} (g : β → Option α)

/-- What the draws hit, up to `k` times. -/
def hits {n : Nat} (k : Nat) (d : Fin n → β) : List α := ((List.ofFn d).filterMap g).take k

variable {g}

theorem hits_zero {n : Nat} (d : Fin n → β) : hits g 0 d = [] := List.take_zero

theorem hits_cons_none {n : Nat} {b : β} (hb : g b = none) (k : Nat) (d : Fin n → β) :
    hits g k (Fin.cons b d : Fin (n + 1) → β) = hits g k d := by
  simp [hits, List.ofFn_succ, hb]

theorem hits_cons_some {n : Nat} {b : β} {a : α} (hb : g b = some a) (k : Nat) (d : Fin n → β) :
    hits g (k + 1) (Fin.cons b d : Fin (n + 1) → β) = a :: hits g k d := by
  simp [hits, List.ofFn_succ, hb]

/-- The draws that satisfy something, by the first of them. -/
theorem card_cons [Fintype β] {n : Nat} (P : (Fin (n + 1) → β) → Prop) :
    Nat.card { d // P d } = ∑ b, Nat.card { d : Fin n → β // P (Fin.cons b d) } := by
  have e : { d // P d } ≃ Σ b, { d : Fin n → β // P (Fin.cons b d) } :=
    { toFun := fun d => ⟨d.1 0, Fin.tail d.1, by rw [Fin.cons_self_tail]; exact d.2⟩
      invFun := fun x => ⟨Fin.cons x.1 x.2.1, x.2.2⟩
      left_inv := fun d => Subtype.ext (Fin.cons_self_tail d.1)
      right_inv := fun _ => rfl }
  rw [Nat.card_congr e, Nat.card_sigma]

section First
variable {n k : Nat} {b : β} {a x : α} {xs : List α}

theorem card_none (hb : g b = none) :
    Nat.card { d : Fin n → β // hits g k (Fin.cons b d : Fin (n + 1) → β) = xs } =
      Nat.card { d : Fin n → β // hits g k d = xs } := by
  simp only [hits_cons_none hb]

theorem card_hit (hb : g b = some x) :
    Nat.card { d : Fin n → β // hits g (k + 1) (Fin.cons b d : Fin (n + 1) → β) = x :: xs } =
      Nat.card { d : Fin n → β // hits g k d = xs } := by
  simp only [hits_cons_some hb, List.cons.injEq, true_and]

theorem card_miss (hb : g b = some a) (hne : a ≠ x) :
    Nat.card { d : Fin n → β // hits g (k + 1) (Fin.cons b d : Fin (n + 1) → β) = x :: xs } = 0 := by
  simp [hits_cons_some hb, hne]

end First

theorem mem_of_mem_hits {n k : Nat} {d : Fin n → β} {a : α} (h : a ∈ hits g k d) : ∃ b, g b = some a := by
  obtain ⟨b, -, hb⟩ := List.mem_filterMap.mp (List.mem_of_mem_take h)
  exact ⟨b, hb⟩

theorem hits_eq_nil {n k : Nat} {d : Fin n → β} : hits g (k + 1) d = [] ↔ ∀ i, g (d i) = none := by
  simp [hits, List.filterMap_eq_nil_iff]

/-- Nothing is sampled when no draw hits. -/
theorem card_hits_nil (n k : Nat) :
    Nat.card { d : Fin n → β // hits g (k + 1) d = [] } = Nat.card { b // g b = none } ^ n := by
  simp only [hits_eq_nil]
  have e : { d : Fin n → β // ∀ i, g (d i) = none } ≃ (Fin n → { b // g b = none }) :=
    Equiv.subtypePiEquivPi (p := fun _ b => g b = none)
  rw [Nat.card_congr e, Nat.card_fun, Nat.card_fin]

/-- **All samples of one length are equally likely.** -/
theorem card_hits_eq [Fintype β] [DecidableEq β] (hinj : ∀ b c a, g b = some a → g c = some a → b = c) (n k : Nat)
    {xs ys : List α} (hlength : xs.length = ys.length) (hxs : ∀ x ∈ xs, ∃ b, g b = some x)
    (hys : ∀ y ∈ ys, ∃ b, g b = some y) :
    Nat.card { d : Fin n → β // hits g k d = xs } = Nat.card { d : Fin n → β // hits g k d = ys } := by
  have hempty : ∀ xs ys : List α, xs.length = ys.length → ([] = xs ↔ [] = ys) := by
    intro xs ys h
    cases xs <;> cases ys <;> simp_all
  induction n generalizing k xs ys with
  | zero => simp [hits, hempty xs ys hlength]
  | succ n ih =>
    rcases k with _ | k
    · simp only [hits_zero, hempty xs ys hlength]
    rcases xs with _ | ⟨x, xs⟩ <;> rcases ys with _ | ⟨y, ys⟩
    · rfl
    · cases hlength
    · cases hlength
    obtain ⟨⟨p, hp⟩, hxs'⟩ := List.forall_mem_cons.mp hxs
    obtain ⟨⟨q, hq⟩, hys'⟩ := List.forall_mem_cons.mp hys
    rw [card_cons, card_cons, ← Equiv.sum_comp (Equiv.swap q p)]
    -- the first draw of one kind is exchanged for that of the other
    refine Finset.sum_congr rfl fun b _ => ?_
    have hlength' : xs.length = ys.length := by simpa using hlength
    by_cases hbq : b = q
    · rw [hbq, Equiv.swap_apply_left, card_hit hp, card_hit hq]
      exact ih k hlength' hxs' hys'
    by_cases hbp : b = p
    · subst hbp
      have hne : x ≠ y := by
        rintro rfl
        exact hbq (hinj b q x hp hq)
      rw [Equiv.swap_apply_right, card_miss hq hne.symm, card_miss hp hne]
    · rw [Equiv.swap_apply_of_ne_of_ne hbq hbp]
      cases hb : g b with
      | none =>
        rw [card_none hb, card_none hb]
        exact ih (k + 1) hlength hxs hys
      | some a =>
        rw [card_miss hb, card_miss hb]
        · rintro rfl
          exact hbq (hinj b q a hb hq)
        · rintro rfl
          exact hbp (hinj b p a hb hp)

end Sampling
