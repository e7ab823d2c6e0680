import Mathlib.Tactic

/-! Signed machine integers.

The result of an operation is an exact integer. It overflows if the result does not fit in
the bits there are; a computation that checks every result is one in `Option`. Wrapped
around instead, a result that fits is itself. -/
namespace Signed

/-- What `bits` bits can hold. -/
def Fits (bits : Nat) (n : Int) : Prop := -2 ^ (bits - 1) ≤ n ∧ n < 2 ^ (bits - 1)

instance (bits : Nat) (n : Int) : Decidable (Fits bits n) :=
  inferInstanceAs (Decidable (-2 ^ (bits - 1) ≤ n ∧ n < 2 ^ (bits - 1)))

/-- The result of an operation, or nothing if it overflows. -/
def bounded (bits : Nat) (n : Int) : Option Int := if Fits bits n then some n else none

variable {bits : Nat} {n : Int}

theorem bounded_of_fits (h : Fits bits n) : bounded bits n = some n := if_pos h

theorem bounded_eq_some {m : Int} : bounded bits n = some m ↔ Fits bits n ∧ n = m := by
  rw [bounded, Option.ite_none_right_eq_some, Option.some.injEq]

theorem fits_32 : Fits 32 n ↔ -2147483648 ≤ n ∧ n < 2147483648 := Iff.rfl

theorem fits_64 : Fits 64 n ↔ -9223372036854775808 ≤ n ∧ n < 9223372036854775808 := Iff.rfl

theorem two_pow_eq (hb : 0 < bits) : ((2 ^ bits : Nat) : Int) = 2 * 2 ^ (bits - 1) := by
  obtain ⟨b, rfl⟩ : ∃ b, bits = b + 1 := ⟨bits - 1, by omega⟩
  push_cast
  rw [pow_succ, mul_comm]

/-- Wrapping around changes nothing that fits. -/
theorem bmod_of_fits (hb : 0 < bits) (h : Fits bits n) : n.bmod (2 ^ bits) = n := by
  have htwo := two_pow_eq hb
  obtain ⟨hlow, hhigh⟩ := h
  exact Int.bmod_eq_of_le (by omega) (by omega)

/-- Wrapped around, everything fits. -/
theorem fits_bmod (hb : 0 < bits) (n : Int) : Fits bits (n.bmod (2 ^ bits)) := by
  have htwo := two_pow_eq hb
  have hlow := Int.le_bmod (x := n) (Nat.two_pow_pos bits)
  have hhigh := Int.bmod_lt (x := n) (Nat.two_pow_pos bits)
  exact ⟨by omega, by omega⟩

end Signed
