import Mathlib.Data.Nat.Digits.Defs
import Mathlib.Tactic

/-! Decimal numerals as bytes: `std::to_string` and `std::from_chars`.

Reading is strict. The whole text must be a numeral, with no blank, no plus sign and at
least one digit, and its value must fit the width. -/
namespace Decimal

def isDigit (c : UInt8) : Bool := 48 ≤ c && c ≤ 57

def digit (d : Nat) : UInt8 := UInt8.ofNat (48 + d)

/-- The numeral of a natural number, without leading zeros. -/
def text (n : Nat) : List UInt8 :=
  if n = 0 then [48] else (Nat.digits 10 n).reverse.map digit

/-- The numeral of an integer. -/
def intText (n : Int) : List UInt8 := if n < 0 then 45 :: text n.natAbs else text n.natAbs

def value (s : List UInt8) : Nat := s.foldl (fun n c => n * 10 + (c.toNat - 48)) 0

/-- The number a text of digits denotes. -/
def parseNat (s : List UInt8) : Option Nat :=
  if s ≠ [] ∧ s.all isDigit then some (value s) else none

/-- The signed number of `w` bits a text denotes. -/
def parseInt (w : Nat) (s : List UInt8) : Option Int :=
  match s with
  | 45 :: digits => (parseNat digits).bind fun n => if n ≤ 2 ^ (w - 1) then some (-n) else none
  | _ => (parseNat s).bind fun n => if n < 2 ^ (w - 1) then some n else none

/-- The number a text denotes, of any width. -/
def readInt (s : List UInt8) : Option Int :=
  match s with
  | 45 :: digits => (parseNat digits).map fun n : Nat => -(n : Int)
  | _ => (parseNat s).map fun n : Nat => (n : Int)

theorem toNat_digit {d : Nat} (h : d < 10) : (digit d).toNat = 48 + d := by
  rw [digit, UInt8.toNat_ofNat', Nat.mod_eq_of_lt (by omega)]

theorem isDigit_digit {d : Nat} (h : d < 10) : isDigit (digit d) = true := by
  simp only [isDigit, Bool.and_eq_true, decide_eq_true_eq, UInt8.le_iff_toNat_le, toNat_digit h]
  exact ⟨Nat.le_add_right .., by show _ ≤ 57; omega⟩

theorem text_all_digits (n : Nat) : (text n).all isDigit = true := by
  unfold text
  split
  · rfl
  · rw [List.all_eq_true]
    intro c hc
    obtain ⟨d, hd, rfl⟩ := List.mem_map.mp hc
    exact isDigit_digit (Nat.digits_lt_base (by decide) (List.mem_reverse.mp hd))

theorem text_ne_nil (n : Nat) : text n ≠ [] := by
  unfold text
  split
  · simp
  · next h => simpa [Nat.digits_eq_nil_iff_eq_zero] using h

/-- Reading digits from the most significant on undoes writing them. -/
theorem value_map_digit (ds : List Nat) (h : ∀ d ∈ ds, d < 10) :
    value (ds.reverse.map digit) = Nat.ofDigits 10 ds := by
  rw [value, List.foldl_map, List.foldl_reverse, Nat.ofDigits_eq_foldr]
  induction ds with
  | nil => rfl
  | cons d ds ih =>
    rw [List.foldr_cons, List.foldr_cons, ih fun d hd => h d (List.mem_cons_of_mem _ hd),
      toNat_digit (h d List.mem_cons_self), Nat.add_sub_cancel_left, Nat.add_comm, Nat.mul_comm]
    rfl

theorem parseNat_text (n : Nat) : parseNat (text n) = some n := by
  rw [parseNat, if_pos ⟨text_ne_nil n, text_all_digits n⟩, text]
  split
  · next h => rw [h]; rfl
  · rw [value_map_digit _ fun d hd => Nat.digits_lt_base (by decide) hd, Nat.ofDigits_digits]

theorem parseNat_digits {s : List UInt8} {n : Nat} (h : parseNat s = some n) :
    ∀ c ∈ s, isDigit c = true := by
  unfold parseNat at h
  split at h
  · next hs => exact List.all_eq_true.mp hs.2
  · cases h

theorem parseInt_nonneg {w : Nat} {s : List UInt8} (h : s.head? ≠ some 45) :
    parseInt w s = (parseNat s).bind fun n => if n < 2 ^ (w - 1) then some (n : Int) else none := by
  unfold parseInt
  split
  · exact absurd rfl h
  · rfl

/-- A byte that is no digit is in no numeral of a natural number. -/
theorem notMem_text (n : Nat) {c : UInt8} (hc : isDigit c = false) : c ∉ text n := by
  intro hmem
  rw [List.all_eq_true.mp (text_all_digits n) c hmem] at hc
  cases hc

theorem head_text (n : Nat) : (text n).head? ≠ some 45 :=
  fun h => notMem_text n (by decide) (List.mem_of_mem_head? h)

/-- **Reading undoes writing**, for every number that fits. -/
theorem parseInt_text {w n : Nat} (h : n < 2 ^ (w - 1)) : parseInt w (text n) = some (n : Int) := by
  rw [parseInt_nonneg (head_text n), parseNat_text, Option.bind_some, if_pos h]

theorem readInt_text (n : Nat) : readInt (text n) = some (n : Int) := by
  have hhead := head_text n
  unfold readInt
  split
  · next digits heq =>
    rw [heq] at hhead
    exact absurd rfl hhead
  · rw [parseNat_text, Option.map_some]

theorem readInt_intText (n : Int) : readInt (intText n) = some n := by
  unfold intText
  split
  · next hneg =>
    show (parseNat (text n.natAbs)).map (fun m : Nat => -(m : Int)) = _
    rw [parseNat_text, Option.map_some, Int.ofNat_natAbs_of_nonpos hneg.le, neg_neg]
  · next hneg =>
    rw [readInt_text, Int.natAbs_of_nonneg (not_lt.mp hneg)]

/-- A byte that is neither a digit nor the minus sign is in no numeral of an integer. -/
theorem notMem_intText (n : Int) {c : UInt8} (hc : isDigit c = false) (hminus : c ≠ 45) : c ∉ intText n := by
  unfold intText
  split
  · exact List.not_mem_cons_of_ne_of_not_mem hminus (notMem_text _ hc)
  · exact notMem_text _ hc

/-- A byte that is neither a digit nor the minus sign is in no numeral. -/
theorem parseInt_notMem {w : Nat} {s : List UInt8} {n : Int} (h : parseInt w s = some n) {c : UInt8}
    (hc : isDigit c = false) (hminus : c ≠ 45) : c ∉ s := by
  intro hmem
  unfold parseInt at h
  split at h
  · obtain ⟨m, hm, -⟩ := Option.bind_eq_some_iff.mp h
    rcases List.mem_cons.mp hmem with rfl | hmem
    · exact hminus rfl
    · rw [parseNat_digits hm c hmem] at hc
      cases hc
  · obtain ⟨m, hm, -⟩ := Option.bind_eq_some_iff.mp h
    rw [parseNat_digits hm c hmem] at hc
    cases hc

end Decimal
