import GoRedis.Lib.Recency

/-! Stamps that are drawn first and stored later.

Several threads access things at once. A thread draws the next tick of the clock in one step and
stores it in another, and in between it holds a ticket: a tick that is nowhere stored yet. So
stamps can be stored in another order than they were drawn in. They still differ, and a stamp
that is older than some moment was there at that moment or was a ticket then. -/
namespace Recency

variable {α ι : Type*}

/-- The ticket of each thread: the tick, and what it is for. -/
abbrev Tickets (ι α : Type*) := ι → Option (α × Nat)

variable [DecidableEq ι]

/-- How stamps and tickets can change: by accesses while there are no tickets, by a ticket drawn
and by one stored. -/
inductive Advances (s : Stamps α) (t : Tickets ι α) : Stamps α → Tickets ι α → Prop where
  | same : Advances s t s t
  | alone {s' : Stamps α} {accesses : List α} (hnone : ∀ i, t i = none) (h : Moves s accesses s') : Advances s t s' t
  | draw {s' : Stamps α} (i : ι) (a : α) (hnone : t i = none) (hstamp : s'.stamp = s.stamp)
    (hclock : s'.clock = s.clock + 1) : Advances s t s' (Function.update t i (some (a, s.clock)))
  | store {s' : Stamps α} (i : ι) (a : α) (n : Nat) (hticket : t i = some (a, n)) (hself : s'.stamp a = some n)
    (hother : ∀ b, b ≠ a → s'.stamp b = s.stamp b) (hclock : s'.clock = s.clock) :
    Advances s t s' (Function.update t i none)

/-! ### Ticks differ -/

/-- Every tick that was drawn is below the clock and is in one place. -/
structure Issued (s : Stamps α) (t : Tickets ι α) : Prop where
  below : ∀ a n, s.stamp a = some n → n < s.clock
  distinct : ∀ a b n, s.stamp a = some n → s.stamp b = some n → a = b
  drawn : ∀ i a n, t i = some (a, n) → n < s.clock
  unused : ∀ i a b n, t i = some (a, n) → s.stamp b ≠ some n
  single : ∀ i j a b n, t i = some (a, n) → t j = some (b, n) → i = j

section
variable {s s' s'' : Stamps α} {t t' t'' : Tickets ι α}

/-- What accesses stamp is stamped with new ticks. -/
theorem Moves.since {accesses : List α} (h : Moves s accesses s') :
    s.clock ≤ s'.clock ∧ ∀ a n, s'.stamp a = some n → s.stamp a = some n ∨ s.clock ≤ n := by
  induction h with
  | keep hstamp hclock => exact ⟨hclock, fun a n ha => .inl (hstamp a n ha)⟩
  | @access s s' a k hk hlow hhigh hstamp =>
    refine ⟨hlow.trans hhigh.le, fun b n hb => ?_⟩
    by_cases hba : b = a
    · rw [hba, hk] at hb
      cases hb
      exact .inr hlow
    · exact .inl (hstamp b n hba hb)
  | trans _ _ ih ih' =>
    refine ⟨ih.1.trans ih'.1, fun a n ha => ?_⟩
    rcases ih'.2 a n ha with hold | hnew
    · exact ih.2 a n hold
    · exact .inr (ih.1.trans hnew)

/-- Accesses leave different stamps, all below the clock. -/
theorem Moves.distinct {accesses : List α} (h : Moves s accesses s')
    (hbelow : ∀ a n, s.stamp a = some n → n < s.clock)
    (hdistinct : ∀ a b n, s.stamp a = some n → s.stamp b = some n → a = b) :
    (∀ a n, s'.stamp a = some n → n < s'.clock) ∧ ∀ a b n, s'.stamp a = some n → s'.stamp b = some n → a = b := by
  induction h with
  | keep hstamp hclock =>
    exact ⟨fun a n ha => (hbelow a n (hstamp a n ha)).trans_le hclock,
      fun a b n ha hb => hdistinct a b n (hstamp a n ha) (hstamp b n hb)⟩
  | @access s s' a k hk hlow hhigh hstamp =>
    have hold : ∀ b n, b ≠ a → s'.stamp b = some n → n < k :=
      fun b n hb hn => (hbelow b n (hstamp b n hb hn)).trans_le hlow
    refine ⟨fun b n hb => ?_, fun b c n hb hc => ?_⟩
    · by_cases hba : b = a
      · rw [hba, hk] at hb
        cases hb
        exact hhigh
      · exact (hold b n hba hb).trans hhigh
    · by_cases hba : b = a <;> by_cases hca : c = a
      · rw [hba, hca]
      · rw [hba, hk] at hb
        cases hb
        exact absurd (hold c _ hca hc) (Nat.lt_irrefl _)
      · rw [hca, hk] at hc
        cases hc
        exact absurd (hold b _ hba hb) (Nat.lt_irrefl _)
      · exact hdistinct b c n (hstamp b n hba hb) (hstamp c n hca hc)
  | trans _ _ ih ih' => exact ih' (ih hbelow hdistinct).1 (ih hbelow hdistinct).2

omit [DecidableEq ι] in
theorem issued_of_none (hstamp : ∀ a, s.stamp a = none) (hticket : ∀ i, t i = none) : Issued s t where
  below a n ha := absurd ha (by simp [hstamp])
  distinct a b n ha := absurd ha (by simp [hstamp])
  drawn i a n hi := absurd hi (by simp [hticket])
  unused i a b n hi := absurd hi (by simp [hticket])
  single i j a b n hi := absurd hi (by simp [hticket])

theorem Issued.advances (h : Issued s t) (ha : Advances s t s' t') : Issued s' t' := by
  cases ha with
  | same => exact h
  | alone hnone hmoves =>
    obtain ⟨hbelow, hdistinct⟩ := hmoves.distinct h.below h.distinct
    refine ⟨hbelow, hdistinct, fun i a n hi => ?_, fun i a b n hi => ?_, fun i j a b n hi => ?_⟩
    all_goals simp [hnone] at hi
  | draw i a hnone hstamp hclock =>
    -- the new ticket is the clock, and all other ticks are below it
    have hticket : ∀ j b n, Function.update t i (some (a, s.clock)) j = some (b, n) →
        t j = some (b, n) ∨ j = i ∧ n = s.clock := by
      intro j b n hj
      by_cases hji : j = i
      · rw [hji, Function.update_self] at hj
        cases hj
        exact .inr ⟨hji, rfl⟩
      · rw [Function.update_of_ne hji] at hj
        exact .inl hj
    refine ⟨fun b n hb => ?_, fun b c n hb hc => ?_, fun j b n hj => ?_, fun j b c n hj hc => ?_,
      fun j k b c n hj hk => ?_⟩
    · rw [hstamp] at hb
      exact hclock ▸ (h.below b n hb).trans (Nat.lt_succ_self _)
    · rw [hstamp] at hb hc
      exact h.distinct b c n hb hc
    · rw [hclock]
      rcases hticket j b n hj with hold | ⟨-, rfl⟩
      · exact (h.drawn j b n hold).trans (Nat.lt_succ_self _)
      · exact Nat.lt_succ_self _
    · rw [hstamp] at hc
      rcases hticket j b n hj with hold | ⟨-, rfl⟩
      · exact h.unused j b c n hold hc
      · exact absurd (h.below c _ hc) (Nat.lt_irrefl _)
    · rcases hticket j b n hj with hold | ⟨hji, hn⟩ <;> rcases hticket k c n hk with hold' | ⟨hki, hn'⟩
      · exact h.single j k b c n hold hold'
      · exact absurd hn' (h.drawn j b n hold).ne
      · exact absurd hn (h.drawn k c n hold').ne
      · rw [hji, hki]
  | store i a n hi hself hother hclock =>
    have hticket : ∀ j b m, Function.update t i none j = some (b, m) → j ≠ i ∧ t j = some (b, m) := by
      intro j b m hj
      by_cases hji : j = i
      · rw [hji, Function.update_self] at hj
        cases hj
      · rw [Function.update_of_ne hji] at hj
        exact ⟨hji, hj⟩
    have hstamp : ∀ b m, s'.stamp b = some m → s.stamp b = some m ∨ b = a ∧ m = n := by
      intro b m hb
      by_cases hba : b = a
      · rw [hba, hself] at hb
        cases hb
        exact .inr ⟨hba, rfl⟩
      · rw [hother b hba] at hb
        exact .inl hb
    refine ⟨fun b m hb => ?_, fun b c m hb hc => ?_, fun j b m hj => ?_, fun j b c m hj hc => ?_,
      fun j k b c m hj hk => ?_⟩
    · rw [hclock]
      rcases hstamp b m hb with hold | ⟨-, rfl⟩
      · exact h.below b m hold
      · exact h.drawn i a m hi
    · rcases hstamp b m hb with hold | ⟨hba, hm⟩ <;> rcases hstamp c m hc with hold' | ⟨hca, hm'⟩
      · exact h.distinct b c m hold hold'
      · exact absurd (hm' ▸ hold) (h.unused i a b n hi)
      · exact absurd (hm ▸ hold') (h.unused i a c n hi)
      · rw [hba, hca]
    · rw [hclock]
      exact h.drawn j b m (hticket j b m hj).2
    · obtain ⟨hji, hj⟩ := hticket j b m hj
      rcases hstamp c m hc with hold | ⟨-, rfl⟩
      · exact h.unused j b c m hj hold
      · exact hji (h.single j i b a m hj hi)
    · exact h.single j k b c m (hticket j b m hj).2 (hticket k c m hk).2

/-! ### What an old stamp is -/

/-- From one moment to a later one: what is stamped or drawn since then has newer ticks. -/
structure Since (s : Stamps α) (t : Tickets ι α) (s' : Stamps α) (t' : Tickets ι α) : Prop where
  clock : s.clock ≤ s'.clock
  stamp : ∀ a n, s'.stamp a = some n → s.stamp a = some n ∨ (∃ i, t i = some (a, n)) ∨ s.clock ≤ n
  ticket : ∀ i a n, t' i = some (a, n) → t i = some (a, n) ∨ s.clock ≤ n

omit [DecidableEq ι] in
theorem Since.refl (s : Stamps α) (t : Tickets ι α) : Since s t s t where
  clock := Nat.le_refl _
  stamp _ _ ha := .inl ha
  ticket _ _ _ hi := .inl hi

omit [DecidableEq ι] in
theorem Since.trans (h : Since s t s' t') (h' : Since s' t' s'' t'') : Since s t s'' t'' where
  clock := h.clock.trans h'.clock
  stamp a n ha := by
    rcases h'.stamp a n ha with hold | ⟨i, hi⟩ | hnew
    · exact h.stamp a n hold
    · rcases h.ticket i a n hi with hi | hnew
      · exact .inr (.inl ⟨i, hi⟩)
      · exact .inr (.inr hnew)
    · exact .inr (.inr (h.clock.trans hnew))
  ticket i a n hi := by
    rcases h'.ticket i a n hi with hi | hnew
    · exact h.ticket i a n hi
    · exact .inr (h.clock.trans hnew)

theorem Advances.since (h : Advances s t s' t') : Since s t s' t' := by
  cases h with
  | same => exact .refl s t
  | alone hnone hmoves =>
    refine ⟨hmoves.since.1, fun a n ha => ?_, fun i a n hi => .inl hi⟩
    rcases hmoves.since.2 a n ha with hold | hnew
    · exact .inl hold
    · exact .inr (.inr hnew)
  | draw i a hnone hstamp hclock =>
    refine ⟨by omega, fun b n hb => .inl (hstamp ▸ hb), fun j b n hj => ?_⟩
    by_cases hji : j = i
    · rw [hji, Function.update_self] at hj
      cases hj
      exact .inr (Nat.le_refl _)
    · rw [Function.update_of_ne hji] at hj
      exact .inl hj
  | store i a n hi hself hother hclock =>
    refine ⟨hclock.ge, fun b m hb => ?_, fun j b m hj => ?_⟩
    · by_cases hba : b = a
      · subst hba
        rw [hself] at hb
        cases hb
        exact .inr (.inl ⟨i, hi⟩)
      · rw [hother b hba] at hb
        exact .inl hb
    · by_cases hji : j = i
      · rw [hji, Function.update_self] at hj
        cases hj
      · rw [Function.update_of_ne hji] at hj
        exact .inl hj

end
end Recency
