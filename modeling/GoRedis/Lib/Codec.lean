import Mathlib.Tactic

/-! Binary formats.

A reader takes a value off the front of some bytes, or fails. What a writer puts out is
read back (`Reads`) when a reader takes the value off it and leaves whatever follows, so
that reading back composes as reading does. Integers are little-endian. -/
namespace Codec

abbrev Reader (α : Type) := StateT (List UInt8) Option α

/-! ### Readers and writers -/

def byte : Reader UInt8
  | [] => none
  | b :: rest => some (b, rest)

def bytes (n : Nat) : Reader (List UInt8) := fun buf =>
  if n ≤ buf.length then some (buf.take n, buf.drop n) else none

/-- An unsigned integer of `k` bytes. -/
def uint : Nat → Reader Nat
  | 0 => pure 0
  | k + 1 => do
    let low ← byte
    let high ← uint k
    pure (low.toNat + 256 * high)

/-- A signed one, in two's complement. -/
def sint (k : Nat) : Reader Int := do
  let n ← uint k
  pure ((n : Int).bmod (256 ^ k))

variable {α β γ : Type}

def times (r : Reader α) : Nat → Reader (List α)
  | 0 => pure []
  | n + 1 => do
    let a ← r
    let as ← times r n
    pure (a :: as)

theorem times_map (r : Reader α) (f : α → β) (n : Nat) :
    times (do let a ← r; pure (f a)) n = (do let l ← times r n; pure (l.map f)) := by
  induction n with
  | zero => rfl
  | succ n ih => simp only [times, ih, bind_assoc, pure_bind, List.map_cons]

/-- The low `k` bytes of a number. -/
def le : Nat → Nat → List UInt8
  | 0, _ => []
  | k + 1, n => UInt8.ofNat n :: le k (n / 256)

/-- The same for a signed number. -/
def sle (k : Nat) (n : Int) : List UInt8 := le k (n % 256 ^ k).toNat

theorem length_le (k n : Nat) : (le k n).length = k := by
  induction k generalizing n with
  | zero => rfl
  | succ k ih => exact congrArg (· + 1) (ih _)

/-- The bytes above are not seen. -/
theorem le_mod (k n : Nat) : le k (n % 256 ^ k) = le k n := by
  induction k generalizing n with
  | zero => rfl
  | succ k ih =>
    have hlow : UInt8.ofNat (n % 256 ^ (k + 1)) = UInt8.ofNat n := by
      refine UInt8.toNat_inj.mp ?_
      rw [UInt8.toNat_ofNat', UInt8.toNat_ofNat', pow_succ']
      exact Nat.mod_mul_right_mod n 256 (256 ^ k)
    rw [le, le, hlow, pow_succ', Nat.mod_mul_right_div_self, ih]

/-! ### Reading back -/

/-- The reader takes the value off the bytes, and leaves what follows them. -/
def Reads (r : Reader α) (bs : List UInt8) (a : α) : Prop := ∀ rest, r (bs ++ rest) = some (a, rest)

theorem Reads.pure (a : α) : Reads (pure a) [] a := fun _ => rfl

theorem Reads.bind {r : Reader α} {f : α → Reader β} {bs cs : List UInt8} {a : α} {b : β}
    (h : Reads r bs a) (h' : Reads (f a) cs b) : Reads (r >>= f) (bs ++ cs) b := by
  intro rest
  show (r (bs ++ cs ++ rest)).bind (fun p => f p.1 p.2) = _
  rw [List.append_assoc, h, Option.bind_some]
  exact h' rest

/-- The last read of a reader. -/
theorem Reads.last {r : Reader α} {f : α → Reader β} {bs : List UInt8} {a : α} {b : β} (h : Reads r bs a)
    (hf : f a = Pure.pure b) : Reads (r >>= f) bs b := by
  have hbind := h.bind (f := f) (hf ▸ Reads.pure b)
  rwa [List.append_nil] at hbind

/-- Reading something and computing from it. -/
theorem Reads.map {r : Reader α} {bs : List UInt8} {a : α} (h : Reads r bs a) (f : α → β) :
    Reads (do let x ← r; Pure.pure (f x)) bs (f a) := h.last rfl

/-- What two values are read back from starts with only one of them. -/
theorem Reads.cancel {r : Reader α} {bs cs s t : List UInt8} {a b : α} (h : Reads r bs a) (h' : Reads r cs b)
    (heq : bs ++ s = cs ++ t) : a = b ∧ s = t := by
  have hread := h s
  rw [heq, h' t] at hread
  obtain ⟨hvalue, hrest⟩ := Prod.mk.inj (Option.some.inj hread)
  exact ⟨hvalue.symm, hrest.symm⟩

theorem reads_byte (b : UInt8) : Reads byte [b] b := fun _ => rfl

theorem reads_bytes (bs : List UInt8) : Reads (bytes bs.length) bs bs := by
  intro rest
  rw [bytes, if_pos (by simp), List.take_left, List.drop_left]

theorem reads_uint {k n : Nat} (h : n < 256 ^ k) : Reads (uint k) (le k n) n := by
  induction k generalizing n with
  | zero =>
    obtain rfl : n = 0 := by simpa using h
    exact .pure 0
  | succ k ih =>
    have hhigh : n / 256 < 256 ^ k := Nat.div_lt_of_lt_mul (by rw [pow_succ] at h; omega)
    have hn : (UInt8.ofNat n).toNat + 256 * (n / 256) = n := by
      rw [UInt8.toNat_ofNat']
      omega
    have hread := (reads_byte (UInt8.ofNat n)).bind
      (f := fun low => do let high ← uint k; pure (low.toNat + 256 * high))
      ((ih hhigh).map fun high => (UInt8.ofNat n).toNat + 256 * high)
    rw [hn] at hread
    exact hread

/-- Any number is written as the one it is congruent to. -/
theorem reads_sint_bmod (k : Nat) (n : Int) : Reads (sint k) (sle k n) (n.bmod (256 ^ k)) := by
  have hcast : ((256 ^ k : Nat) : Int) = 256 ^ k := by push_cast; rfl
  have hpos : (0 : Int) < 256 ^ k := by positivity
  have hnonneg : 0 ≤ n % 256 ^ k := Int.emod_nonneg n hpos.ne'
  have hmod : (n % 256 ^ k).toNat < 256 ^ k := by
    have hlt := Int.emod_lt_of_pos n hpos
    omega
  have hn : ((n % 256 ^ k).toNat : Int).bmod (256 ^ k) = n.bmod (256 ^ k) := by
    rw [Int.toNat_of_nonneg hnonneg, ← hcast, Int.emod_bmod]
  have hread := (reads_uint hmod).map fun m : Nat => (m : Int).bmod (256 ^ k)
  rw [hn] at hread
  exact hread

theorem reads_sint {k : Nat} {n : Int} (hlow : -(256 ^ k : Int) ≤ 2 * n) (hhigh : 2 * n < 256 ^ k) :
    Reads (sint k) (sle k n) n := by
  have hcast : ((256 ^ k : Nat) : Int) = 256 ^ k := by push_cast; rfl
  have hn : n.bmod (256 ^ k) = n := Int.bmod_eq_of_le (by omega) (by omega)
  have hread := reads_sint_bmod k n
  rwa [hn] at hread

/-- Values written one after another. -/
theorem reads_times {r : Reader β} {w : α → List UInt8} {f : α → β} {l : List α}
    (h : ∀ a ∈ l, Reads r (w a) (f a)) : Reads (times r l.length) (l.flatMap w) (l.map f) := by
  induction l with
  | nil => exact .pure []
  | cons a l ih =>
    obtain ⟨ha, hl⟩ := List.forall_mem_cons.mp h
    exact ha.bind ((ih hl).map (f a :: ·))

/-! ### What a reader takes -/

/-- Whenever a reader reads a value, the bytes it took off are such bytes for the value. -/
def Takes (r : Reader α) (P : α → List UInt8 → Prop) : Prop :=
  ∀ buf a rest, r buf = some (a, rest) → ∃ bs, buf = bs ++ rest ∧ P a bs

theorem Takes.imp {r : Reader α} {P Q : α → List UInt8 → Prop} (h : Takes r P) (hPQ : ∀ a bs, P a bs → Q a bs) :
    Takes r Q := by
  intro buf a rest hread
  obtain ⟨bs, hbuf, hP⟩ := h buf a rest hread
  exact ⟨bs, hbuf, hPQ a bs hP⟩

theorem takes_pure {a : α} {P : α → List UInt8 → Prop} (h : P a []) : Takes (pure a) P := by
  intro buf b rest hread
  cases hread
  exact ⟨[], rfl, h⟩

theorem takes_failure (f : α → Reader β) (P : β → List UInt8 → Prop) : Takes ((failure : Reader α) >>= f) P :=
  fun _ _ _ h => nomatch h

theorem Takes.bind {r : Reader α} {f : α → Reader β} {P : α → List UInt8 → Prop} {Q : β → List UInt8 → Prop}
    (hr : Takes r P) (hf : ∀ a bs, P a bs → Takes (f a) fun b cs => Q b (bs ++ cs)) : Takes (r >>= f) Q := by
  intro buf b rest hread
  change (r buf).bind (fun p => f p.1 p.2) = _ at hread
  obtain ⟨⟨a, rest'⟩, ha, hb⟩ := Option.bind_eq_some_iff.mp hread
  obtain ⟨bs, hbuf, hbs⟩ := hr buf a rest' ha
  obtain ⟨cs, hrest, hcs⟩ := hf a bs hbs rest' b rest hb
  exact ⟨bs ++ cs, by rw [hbuf, hrest, List.append_assoc], hcs⟩

/-- The last read of a reader. -/
theorem Takes.map {r : Reader α} {P : α → List UInt8 → Prop} {Q : β → List UInt8 → Prop} (hr : Takes r P) (f : α → β)
    (hf : ∀ a bs, P a bs → Q (f a) bs) : Takes (do let a ← r; pure (f a)) Q :=
  hr.bind fun a bs hbs => takes_pure (by rw [List.append_nil]; exact hf a bs hbs)

theorem takes_byte : Takes byte fun b bs => bs = [b] := by
  intro buf b rest h
  cases buf with
  | nil => cases h
  | cons c buf =>
    cases h
    exact ⟨[b], rfl, rfl⟩

theorem takes_bytes (n : Nat) : Takes (bytes n) fun a bs => bs = a ∧ a.length = n := by
  intro buf a rest h
  unfold bytes at h
  split at h
  · next hle =>
    cases h
    exact ⟨buf.take n, (List.take_append_drop n buf).symm, rfl, by rw [List.length_take, min_eq_left hle]⟩
  · cases h

theorem takes_uint (k : Nat) : Takes (uint k) fun n bs => bs = le k n ∧ n < 256 ^ k := by
  induction k with
  | zero => exact takes_pure ⟨rfl, Nat.one_pos⟩
  | succ k ih =>
    refine takes_byte.bind fun low bs hlow => ih.map _ fun high cs hhigh => ?_
    obtain ⟨rfl, hlt⟩ := hhigh
    have hbyte := low.toNat_lt
    have hfirst : UInt8.ofNat (low.toNat + 256 * high) = low :=
      UInt8.toNat_inj.mp (by rw [UInt8.toNat_ofNat']; omega)
    have hdiv : (low.toNat + 256 * high) / 256 = high := by omega
    refine ⟨by rw [hlow, le, hfirst, hdiv]; rfl, ?_⟩
    rw [pow_succ]
    omega

/-- A signed number is in range, and is the one its bytes are written for. -/
theorem takes_sint {k : Nat} (hk : 0 < k) :
    Takes (sint k) fun n bs => bs = sle k n ∧ -(256 ^ k : Int) ≤ 2 * n ∧ 2 * n < 256 ^ k := by
  refine (takes_uint k).map _ fun n bs hn => ?_
  obtain ⟨rfl, hlt⟩ := hn
  have hpos : 0 < 256 ^ k := by positivity
  have hcast : ((256 ^ k : Nat) : Int) = 256 ^ k := by push_cast; rfl
  have hmod : ((n : Int).bmod (256 ^ k) % 256 ^ k).toNat = n := by
    rw [← hcast, Int.bmod_emod, Int.emod_eq_of_lt (by omega) (by omega), Int.toNat_natCast]
  obtain ⟨j, rfl⟩ : ∃ j, k = j + 1 := ⟨k - 1, by omega⟩
  have hlow := Int.le_bmod (x := (n : Int)) hpos
  have hhigh := Int.bmod_lt (x := (n : Int)) hpos
  have heven : (256 ^ (j + 1) : Nat) = 2 * (128 * 256 ^ j) := by rw [pow_succ]; ring
  refine ⟨by rw [sle, hmod], ?_, ?_⟩ <;> omega

theorem takes_times {r : Reader α} {w : α → List UInt8} {P : α → Prop} (h : Takes r fun a bs => bs = w a ∧ P a)
    (n : Nat) : Takes (times r n) fun l bs => bs = l.flatMap w ∧ l.length = n ∧ ∀ a ∈ l, P a := by
  induction n with
  | zero => exact takes_pure ⟨rfl, rfl, fun _ ha => absurd ha List.not_mem_nil⟩
  | succ n ih =>
    refine h.bind fun a bs ha => ih.map _ fun l cs hl => ?_
    obtain ⟨rfl, hlength, hall⟩ := hl
    exact ⟨by rw [ha.1]; rfl, by rw [List.length_cons, hlength], List.forall_mem_cons.mpr ⟨ha.2, hall⟩⟩

/-- A count and as many values. -/
theorem takes_counted {r : Reader α} {w : α → List UInt8} (h : Takes r fun a bs => bs = w a) (k : Nat)
    {f : List α → β} {P : β → List UInt8 → Prop} (hP : ∀ l, P (f l) (le k l.length ++ l.flatMap w)) :
    Takes (do let n ← uint k; let l ← times r n; pure (f l)) P := by
  have htimes := takes_times (P := fun _ => True) (h.imp fun a bs ha => ⟨ha, trivial⟩)
  refine (takes_uint k).bind fun n bs hn => (htimes n).map f fun l cs hl => ?_
  rw [hn.1, hl.1, ← hl.2.1]
  exact hP l

/-- Values written in two ways, each as long as in the other. -/
theorem flatMap_eq_append_iff {l : List α} {w w' : α → List UInt8} (h : ∀ a ∈ l, (w a).length = (w' a).length)
    {tail : List UInt8} : l.flatMap w = l.flatMap w' ++ tail ↔ tail = [] ∧ ∀ a ∈ l, w a = w' a := by
  induction l with
  | nil => simp [eq_comm]
  | cons a l ih =>
    obtain ⟨ha, hl⟩ := List.forall_mem_cons.mp h
    rw [List.flatMap_cons, List.flatMap_cons, List.append_assoc, List.append_eq_append_iff_of_size_eq_left ha, ih hl,
      List.forall_mem_cons]
    tauto

/-! ### Running out of bytes -/

/-- Bytes behind those a reader took do not change what it read. -/
def Steady (r : Reader α) : Prop :=
  ∀ buf a rest tail, r buf = some (a, rest) → r (buf ++ tail) = some (a, rest ++ tail)

theorem steady_pure (a : α) : Steady (pure a : Reader α) := by
  intro buf b rest tail h
  cases h
  rfl

theorem steady_failure (f : α → Reader β) : Steady ((failure : Reader α) >>= f) := fun _ _ _ _ h => nomatch h

theorem Steady.bind {r : Reader α} {f : α → Reader β} (hr : Steady r) (hf : ∀ a, Steady (f a)) :
    Steady (r >>= f) := by
  intro buf b rest tail h
  change (r buf).bind (fun p => f p.1 p.2) = _ at h
  obtain ⟨⟨a, rest'⟩, ha, hb⟩ := Option.bind_eq_some_iff.mp h
  show (r (buf ++ tail)).bind (fun p => f p.1 p.2) = _
  rw [hr buf a rest' tail ha, Option.bind_some]
  exact hf a rest' b rest tail hb

theorem steady_byte : Steady byte := by
  intro buf b rest tail h
  cases buf with
  | nil => cases h
  | cons c buf =>
    cases h
    rfl

theorem steady_bytes (n : Nat) : Steady (bytes n) := by
  intro buf b rest tail h
  unfold bytes at h ⊢
  split at h
  · next hle =>
    cases h
    rw [if_pos (by rw [List.length_append]; omega), List.take_append_of_le_length hle,
      List.drop_append_of_le_length hle]
  · cases h

theorem steady_uint (k : Nat) : Steady (uint k) := by
  induction k with
  | zero => exact steady_pure 0
  | succ k ih => exact steady_byte.bind fun low => ih.bind fun high => steady_pure _

theorem steady_sint (k : Nat) : Steady (sint k) := (steady_uint k).bind fun _ => steady_pure _

theorem steady_times {r : Reader α} (hr : Steady r) (n : Nat) : Steady (times r n) := by
  induction n with
  | zero => exact steady_pure []
  | succ n ih => exact hr.bind fun a => ih.bind fun as => steady_pure _

/-- **Truncation.** What is read off some bytes, all of them, is not read off the first few of
them, and neither is anything else. -/
theorem Steady.truncated {r : Reader α} (hr : Steady r) {bs : List UInt8} {a : α} (h : Reads r bs a)
    {buf : List UInt8} (hbuf : buf <+: bs) (hne : buf ≠ bs) : r buf = none := by
  obtain ⟨tail, rfl⟩ := hbuf
  have hall := h []
  rw [List.append_nil] at hall
  rw [Option.eq_none_iff_forall_ne_some]
  rintro ⟨b, rest⟩ hread
  have hmore := hr buf b rest tail hread
  rw [hall] at hmore
  obtain ⟨_, hnil⟩ := Prod.mk.inj (Option.some.inj hmore)
  have htail : tail = [] := (List.append_eq_nil_iff.mp hnil.symm).2
  exact hne (by rw [htail, List.append_nil])

/-! ### Checksums -/

/-- A checksum whose step can be undone on both sides changes with every element. -/
theorem foldl_replaced {σ : Type} {step : σ → α → σ} (hstate : ∀ a, Function.Injective fun s => step s a)
    (helem : ∀ s, Function.Injective (step s)) (s : σ) (before after : List α) {a b : α} (hne : a ≠ b) :
    (before ++ a :: after).foldl step s ≠ (before ++ b :: after).foldl step s := by
  have hafter : ∀ {s s' : σ}, s ≠ s' → after.foldl step s ≠ after.foldl step s' := by
    induction after with
    | nil => exact fun h => h
    | cons c after ih => exact fun h => ih ((hstate c).ne h)
  rw [List.foldl_append, List.foldl_append, List.foldl_cons, List.foldl_cons]
  exact hafter ((helem _).ne hne)

end Codec
