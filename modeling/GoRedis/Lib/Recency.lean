import Mathlib.Tactic

/-! Least recently used, by stamps.

Things are stamped with the next tick of a clock whenever they are accessed. As long as every
access stamps and nothing else does, the stamps are in the order of the last accesses. The
log of accesses has the most recent one first, so that the position of a thing in it says
how long ago it was accessed. -/
namespace Recency

variable {α : Type*}

/-- What has a stamp, and the clock. -/
structure Stamps (α : Type*) where
  stamp : α → Option Nat
  clock : Nat

/-- How stamps can change while things are accessed. -/
inductive Moves : Stamps α → List α → Stamps α → Prop where
  | keep {s s' : Stamps α} (hstamp : ∀ a n, s'.stamp a = some n → s.stamp a = some n) (hclock : s.clock ≤ s'.clock) :
    Moves s [] s'
  | access {s s' : Stamps α} (a : α) (n : Nat) (hn : s'.stamp a = some n) (hlow : s.clock ≤ n) (hhigh : n < s'.clock)
    (hstamp : ∀ b m, b ≠ a → s'.stamp b = some m → s.stamp b = some m) : Moves s [a] s'
  | trans {s s' s'' : Stamps α} {first second : List α} (h : Moves s first s') (h' : Moves s' second s'') :
    Moves s (second ++ first) s''

theorem Moves.refl (s : Stamps α) : Moves s [] s := .keep (fun _ _ h => h) (Nat.le_refl _)

theorem Moves.after {s s' s'' : Stamps α} {accesses : List α} (h : Moves s' accesses s'') (hkeep : Moves s [] s') :
    Moves s accesses s'' := by
  have hboth := hkeep.trans h
  rwa [List.append_nil] at hboth

variable [BEq α]

/-- The stamps are in the order of the last accesses. -/
structure Ordered (s : Stamps α) (log : List α) : Prop where
  below : ∀ a n, s.stamp a = some n → n < s.clock
  logged : ∀ a n, s.stamp a = some n → a ∈ log
  order : ∀ a b m n, s.stamp a = some m → s.stamp b = some n → (m < n ↔ log.idxOf b < log.idxOf a)

variable {s s' : Stamps α} {log : List α}

theorem ordered_of_none (h : ∀ a, s.stamp a = none) (log : List α) : Ordered s log where
  below a n ha := absurd ha (by simp [h])
  logged a n ha := absurd ha (by simp [h])
  order a b m n ha := absurd ha (by simp [h])

theorem Ordered.keep (h : Ordered s log) (hstamp : ∀ a n, s'.stamp a = some n → s.stamp a = some n)
    (hclock : s.clock ≤ s'.clock) : Ordered s' log where
  below a n ha := (h.below a n (hstamp a n ha)).trans_le hclock
  logged a n ha := h.logged a n (hstamp a n ha)
  order a b m n ha hb := h.order a b m n (hstamp a m ha) (hstamp b n hb)

variable [LawfulBEq α]

/-- Different things have different stamps. -/
theorem Ordered.distinct (h : Ordered s log) {a b : α} {n : Nat} (ha : s.stamp a = some n)
    (hb : s.stamp b = some n) : a = b := by
  have hab := (h.order a b n n ha hb).not.mp (Nat.lt_irrefl n)
  have hba := (h.order b a n n hb ha).not.mp (Nat.lt_irrefl n)
  exact (List.idxOf_inj (h.logged a n ha)).mp (by omega)

theorem Ordered.access (h : Ordered s log) {a : α} {n : Nat} (hn : s'.stamp a = some n) (hlow : s.clock ≤ n)
    (hhigh : n < s'.clock) (hstamp : ∀ b m, b ≠ a → s'.stamp b = some m → s.stamp b = some m) :
    Ordered s' (a :: log) where
  below b m hb := by
    by_cases heq : b = a
    · rw [heq, hn] at hb
      cases hb
      exact hhigh
    · exact ((h.below b m (hstamp b m heq hb)).trans_le hlow).trans hhigh
  logged b m hb := by
    by_cases heq : b = a
    · rw [heq]
      exact List.mem_cons_self
    · exact List.mem_cons_of_mem a (h.logged b m (hstamp b m heq hb))
  order b c m k hb hc := by
    -- what was accessed has the largest stamp and is first in the log
    have hlater : ∀ b m, b ≠ a → s'.stamp b = some m → m < n :=
      fun b m hne hb => (h.below b m (hstamp b m hne hb)).trans_le hlow
    by_cases hba : b = a
    · rw [hba, List.idxOf_cons_self]
      refine iff_of_false (fun hlt => ?_) (Nat.not_lt_zero _)
      rw [hba, hn] at hb
      cases hb
      by_cases hca : c = a
      · rw [hca, hn] at hc
        cases hc
        exact Nat.lt_irrefl _ hlt
      · exact Nat.lt_asymm hlt (hlater c k hca hc)
    · rw [List.idxOf_cons_ne _ (Ne.symm hba)]
      by_cases hca : c = a
      · rw [hca, List.idxOf_cons_self]
        rw [hca, hn] at hc
        cases hc
        exact iff_of_true (hlater b m hba hb) (Nat.succ_pos _)
      · rw [List.idxOf_cons_ne _ (Ne.symm hca), Nat.succ_lt_succ_iff]
        exact h.order b c m k (hstamp b m hba hb) (hstamp c k hca hc)

/-- **Accesses keep the order.** -/
theorem Ordered.moves (h : Ordered s log) {accesses : List α} (hm : Moves s accesses s') :
    Ordered s' (accesses ++ log) := by
  induction hm generalizing log with
  | keep hstamp hclock => exact h.keep hstamp hclock
  | access a n hn hlow hhigh hstamp => exact h.access hn hlow hhigh hstamp
  | trans _ _ ih ih' =>
    rw [List.append_assoc]
    exact ih' (ih h)

end Recency
