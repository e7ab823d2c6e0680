import GoRedis.Store.HashTableProofs

/-! How full a table is, and how often it is rehashed.

A table grows when an insertion takes it above three quarters full and shrinks, down to 16
buckets, when a deletion takes it below three sixteenths. Either way it ends up about three
eighths full, so a number of calls in proportion to the capacity has to go by before the next
rehash. `Change` says what a call can do to the number of entries and buckets; the rest is
arithmetic about it. -/
namespace GoRedis.HashTable

/-! ### Entries and buckets -/

/-- What a call can do to `n` entries in `c` buckets, and whether it rehashes them. -/
inductive Change (n c : Nat) : (n' c' : Nat) → (rehashed : Bool) → Prop where
  | same : Change n c n c false
  | inserted (h : 4 * (n + 1) ≤ 3 * c) : Change n c (n + 1) c false
  | grown (h : 3 * c < 4 * (n + 1)) : Change n c (n + 1) (2 * c) true
  | removed (m : Nat) (hn : n = m + 1) (h : c ≤ 16 ∨ 3 * c ≤ 16 * m) : Change n c m c false
  | shrunk (m : Nat) (hn : n = m + 1) (hc : 16 < c) (h : 16 * m < 3 * c) : Change n c m (c / 2) true

/-- At most three quarters full, and at least three sixteenths unless there are 16 buckets. -/
def Occupied (n c : Nat) : Prop := 4 * n ≤ 3 * c ∧ (c = 16 ∨ 3 * c ≤ 16 * n)

/-- Far from both bounds, as a rehash leaves it. -/
def Settled (n c : Nat) : Prop := 16 * n ≤ 9 * c ∧ (c = 16 ∨ 6 * c ≤ 16 * n + 16)

/-- So many calls after there were `n` entries in `c` buckets, and no rehash since. -/
def Within (n c calls n' c' : Nat) : Prop := c' = c ∧ n' ≤ n + calls ∧ n ≤ n' + calls

section
variable {n c n' c' k k' : Nat} {rehashed : Bool}

theorem Occupied.change (h : Occupied n c) (hchange : Change n c n' c' rehashed) (hc : c = 16 * k) (hk : 0 < k)
    (hc' : c' = 16 * k') : Occupied n' c' := by
  obtain ⟨hfull, hempty⟩ := h
  cases hchange with
  | same => exact ⟨hfull, hempty⟩
  | inserted h => exact ⟨h, by omega⟩
  | grown h => exact ⟨by omega, .inr (by omega)⟩
  | removed m hn h => exact ⟨by omega, by omega⟩
  | shrunk m hn hbig h => exact ⟨by omega, .inr (by omega)⟩

theorem Change.settled (h : Occupied n c) (hchange : Change n c n' c' true) (hc : c = 16 * k) (hk : 0 < k)
    (hc' : c' = 16 * k') : Settled n' c' := by
  obtain ⟨hfull, hempty⟩ := h
  cases hchange with
  | grown h => exact ⟨by omega, .inr (by omega)⟩
  | shrunk m hn hbig h => exact ⟨by omega, .inr (by omega)⟩

theorem Change.rehashed_iff (h : Change n c n' c' rehashed) (hc : 0 < c) : rehashed = true ↔ c' ≠ c := by
  cases h with
  | same | inserted | removed => simp
  | grown | shrunk => simp only [true_iff]; omega

/-- One more call, soon after a rehash. -/
theorem Within.change {calls n₀ : Nat} (hs : Settled n₀ c) (h : Within n₀ c calls n c) (hc : c = 16 * k)
    (hsoon : 16 * (calls + 1) < 3 * c) (hchange : Change n c n' c' rehashed) :
    rehashed = false ∧ Within n₀ c (calls + 1) n' c' := by
  obtain ⟨hfull, hempty⟩ := hs
  obtain ⟨-, hmore, hless⟩ := h
  cases hchange with
  | same => exact ⟨rfl, rfl, by omega, by omega⟩
  | inserted h => exact ⟨rfl, rfl, by omega, by omega⟩
  | removed m hn h => exact ⟨rfl, rfl, by omega, by omega⟩
  | grown h => omega
  | shrunk m hn hbig h => omega

end

/-! ### Calls -/

variable {V : Type}

def capacity (t : HashTable V) : Nat := t.buckets.length

/-- Whether a call rehashes the table. -/
def rehashes (t : HashTable V) : Update V → Bool
  | .set key value =>
    (t.get key).isNone &&
      Raw.overloaded
        ⟨t.buckets.set (t.toRaw.bucketIndex key) (⟨key, value⟩ :: t.toRaw.chain key), t.numEntries + 1⟩
  | .delete key =>
    (t.get key).isSome && kInitialCapacity < t.buckets.length &&
      Raw.underloaded ⟨t.buckets.set (t.toRaw.bucketIndex key) ((t.toRaw.chain key).kerase key), t.numEntries - 1⟩
  | .clear => false

def Update.isClear : Update V → Bool
  | .clear => true
  | .set .. | .delete _ => false

theorem capacity_eq (t : HashTable V) : ∃ k, 0 < k ∧ t.capacity = 16 * k := by
  obtain ⟨e, he, hlen⟩ := t.wf.capacity
  refine ⟨2 ^ (e - 4), Nat.two_pow_pos _, ?_⟩
  rw [capacity, hlen, show e = 4 + (e - 4) by omega, pow_add, Nat.add_sub_cancel_left]
  norm_num

theorem Raw.rehashTo_length (t : Raw V) (n : Nat) : (t.rehashTo n).buckets.length = n := by
  rw [rehashTo_buckets]
  simp

theorem get_isSome (t : HashTable V) (key : Bytes) : (t.get key).isSome = decide (key ∈ (t.toRaw.chain key).keys) :=
  Bool.eq_iff_iff.mpr (List.dlookup_isSome.trans decide_eq_true_iff.symm)

theorem set_change (t : HashTable V) (key : Bytes) (value : V) :
    Change t.len t.capacity (t.set key value).1.len (t.set key value).1.capacity (t.rehashes (.set key value)) := by
  show Change t.numEntries t.buckets.length (t.toRaw.set key value).1.numEntries
    (t.toRaw.set key value).1.buckets.length _
  unfold Raw.set rehashes
  dsimp only
  rw [← Option.not_isSome, get_isSome]
  by_cases hk : key ∈ (t.toRaw.chain key).keys
  · simp only [hk, if_true, decide_true, Bool.not_true, Bool.false_and, List.length_set]
    exact .same
  · simp only [hk, if_false, decide_false, Bool.not_false, Bool.true_and]
    by_cases hover : 3 * t.buckets.length < 4 * (t.numEntries + 1)
    · have hload : Raw.overloaded ⟨t.buckets.set (t.toRaw.bucketIndex key) (⟨key, value⟩ :: t.toRaw.chain key),
          t.numEntries + 1⟩ = true := by
        simpa [Raw.overloaded] using hover
      rw [hload, if_pos rfl, Raw.resize, Raw.rehashTo_length, List.length_set, Nat.mul_comm]
      exact .grown hover
    · have hload : Raw.overloaded ⟨t.buckets.set (t.toRaw.bucketIndex key) (⟨key, value⟩ :: t.toRaw.chain key),
          t.numEntries + 1⟩ = false := by
        simpa [Raw.overloaded] using hover
      rw [hload, if_neg Bool.false_ne_true, List.length_set]
      exact .inserted (Nat.not_lt.mp hover)

theorem delete_change (t : HashTable V) (key : Bytes) :
    Change t.len t.capacity (t.delete key).1.len (t.delete key).1.capacity (t.rehashes (.delete key)) := by
  show Change t.numEntries t.buckets.length (t.toRaw.delete key).1.numEntries
    (t.toRaw.delete key).1.buckets.length _
  unfold Raw.delete rehashes
  dsimp only
  rw [get_isSome]
  by_cases hk : key ∈ (t.toRaw.chain key).keys
  · have hn : t.numEntries = t.numEntries - 1 + 1 := by
      have hmem := (t.toRaw.mem_chain t.wf key).mp hk
      have hpos : 0 < t.toRaw.nodes.length := by
        rw [← List.length_map Sigma.fst]
        exact List.length_pos_of_mem hmem
      have hcount := t.wf.counted
      omega
    simp only [hk, if_true, decide_true, Bool.true_and]
    unfold Raw.maybeShrink
    simp only [List.length_set]
    by_cases hfloor : t.buckets.length ≤ kInitialCapacity
    · rw [if_pos hfloor, decide_eq_false (Nat.not_lt.mpr hfloor), Bool.false_and, List.length_set]
      exact .removed _ hn (.inl hfloor)
    · rw [if_neg hfloor]
      simp only [Nat.not_le.mp hfloor, decide_true, Bool.true_and, Raw.underloaded, List.length_set]
      by_cases hunder : 16 * (t.numEntries - 1) < 3 * t.buckets.length
      · have hbig : kInitialCapacity ≤ t.buckets.length / kGrowthMultiplier := by
          obtain ⟨k, -, hlen⟩ := t.capacity_eq
          change t.buckets.length = 16 * k at hlen
          simp only [kInitialCapacity, kGrowthMultiplier] at hfloor ⊢
          omega
        simp only [hunder, decide_true, Bool.not_true, Bool.false_eq_true, if_false]
        rw [Raw.rehashTo_length, max_eq_left hbig]
        exact .shrunk _ hn (Nat.not_le.mp hfloor) hunder
      · simp only [hunder, decide_false, Bool.not_false, if_true, List.length_set]
        exact .removed _ hn (.inr (Nat.not_lt.mp hunder))
  · simp only [hk, if_false, decide_false, Bool.false_and]
    exact .same

theorem step_change (t : HashTable V) {u : Update V} (hu : u.isClear = false) :
    Change t.len t.capacity (t.step u).1.len (t.step u).1.capacity (t.rehashes u) := by
  cases u with
  | set key value => exact t.set_change key value
  | delete key => exact t.delete_change key
  | clear => cases hu

/-- A call rehashes exactly when the number of buckets changes. -/
theorem rehashes_iff (t : HashTable V) {u : Update V} (hu : u.isClear = false) :
    t.rehashes u = true ↔ (t.step u).1.capacity ≠ t.capacity := by
  obtain ⟨k, hk, hc⟩ := t.capacity_eq
  exact (t.step_change hu).rehashed_iff (by omega)

/-! ### Runs -/

theorem empty_occupied : Occupied (empty : HashTable V).len (empty : HashTable V).capacity :=
  ⟨Nat.zero_le _, .inl rfl⟩

theorem step_occupied {t : HashTable V} (h : Occupied t.len t.capacity) (u : Update V) :
    Occupied (t.step u).1.len (t.step u).1.capacity := by
  obtain ⟨k, hk, hc⟩ := t.capacity_eq
  obtain ⟨k', -, hc'⟩ := (t.step u).1.capacity_eq
  cases u with
  | clear => exact empty_occupied
  | set key value => exact h.change (t.set_change key value) hc hk hc'
  | delete key => exact h.change (t.delete_change key) hc hk hc'

theorem run_occupied {t : HashTable V} (h : Occupied t.len t.capacity) (us : List (Update V)) :
    Occupied (t.run us).len (t.run us).capacity := by
  induction us generalizing t with
  | nil => exact h
  | cons u us ih => exact ih (step_occupied h u)

/-- Calls soon after there were `n` entries in `c` buckets, of which none rehashes. -/
theorem run_within {n c : Nat} (hs : Settled n c) {t : HashTable V} {calls : Nat}
    (h : Within n c calls t.len t.capacity) {vs : List (Update V)} (hvs : ∀ v ∈ vs, v.isClear = false)
    (hsoon : 16 * (calls + vs.length) < 3 * c) : Within n c (calls + vs.length) (t.run vs).len (t.run vs).capacity := by
  induction vs generalizing t calls with
  | nil => exact h
  | cons v vs ih =>
    obtain ⟨hv, hvs⟩ := List.forall_mem_cons.mp hvs
    obtain ⟨k, -, hc⟩ := t.capacity_eq
    have hcap : t.capacity = c := h.1
    have hchange := t.step_change hv
    rw [hcap] at h hc hchange
    rw [List.length_cons] at hsoon ⊢
    have hnext := (Within.change hs h hc (by omega) hchange).2
    have hrun := ih hnext hvs (by omega)
    rwa [Nat.add_assoc, Nat.add_comm 1] at hrun

/-- **Occupancy and hysteresis.** After any calls from an empty table it is at most three
quarters full, and at least three sixteenths full unless it has 16 buckets. If the next call
rehashes it to `c` buckets, then of the `Set` and `Delete` calls after that none before the
`3 * c / 16`-th rehashes it again. -/
theorem run_occupancy (us : List (Update V)) :
    let t := (empty : HashTable V).run us
    (4 * t.len ≤ 3 * t.capacity ∧ (t.capacity = 16 ∨ 3 * t.capacity ≤ 16 * t.len)) ∧
      ∀ u, t.rehashes u = true → ∀ vs w, (∀ v ∈ vs ++ [w], v.isClear = false) →
        ((t.step u).1.run vs).rehashes w = true → 3 * (t.step u).1.capacity ≤ 16 * (vs.length + 1) := by
  intro t
  have hocc : Occupied t.len t.capacity := run_occupied empty_occupied us
  refine ⟨hocc, fun u hu vs w hclear hw => ?_⟩
  obtain ⟨hvs, hwclear⟩ := List.forall_mem_append.mp hclear
  have huclear : u.isClear = false := by
    cases u with
    | clear => cases hu
    | _ => rfl
  obtain ⟨k, hk, hc⟩ := t.capacity_eq
  obtain ⟨k', -, hc'⟩ := (t.step u).1.capacity_eq
  have hchange := t.step_change huclear
  rw [hu] at hchange
  have hs := hchange.settled hocc hc hk hc'
  by_contra hsoon
  have hstart : Within (t.step u).1.len (t.step u).1.capacity 0 (t.step u).1.len (t.step u).1.capacity :=
    ⟨rfl, Nat.le_refl _, Nat.le_refl _⟩
  have hwithin := run_within hs hstart hvs (by omega)
  have hlast := ((t.step u).1.run vs).step_change (hwclear w (List.mem_singleton_self w))
  have hcap : ((t.step u).1.run vs).capacity = (t.step u).1.capacity := hwithin.1
  rw [hcap] at hwithin hlast
  rw [(Within.change hs hwithin hc' (by omega) hlast).1] at hw
  cases hw

/-- The thirteenth key makes the table grow. -/
example :
    let t := (empty : HashTable Unit).run ((List.range 12).map fun i => .set [UInt8.ofNat i] ())
    t.rehashes (.set [12] ()) = true ∧ (t.step (.set [12] ())).1.capacity = 32 := by
  decide +kernel

end GoRedis.HashTable
