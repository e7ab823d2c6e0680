import GoRedis.Store.Occupancy

/-! What rehashing costs over a run of calls.

A rehash relinks every node of the table. The source argues that doubling the capacity makes
that constant per insertion on average; but the table also shrinks, and a mix of `Set` and
`Delete` could in principle pay for one rehash after the other. It cannot: an entry count
far from three eighths of the capacity is a debt that the calls since the last rehash have
paid for (`potential`), and a rehash is charged to it. -/
namespace GoRedis.HashTable

/-- What the calls since the last rehash have paid ahead, in quarters of a relink. With 16
buckets the table does not shrink, so only a growth is paid for. -/
def potential (n c : Nat) : Nat := if c = 16 then 8 * n - 48 else (8 * n - 3 * c) + (3 * c - 8 * n)

/-- One call pays for what it relinks and for what it adds to the potential with three
relinks. -/
theorem Change.paid {n c n' c' k k' : Nat} {rehashed : Bool} (h : Change n c n' c' rehashed) (ho : Occupied n c)
    (hc : c = 16 * k) (hk : 0 < k) (hc' : c' = 16 * k') :
    4 * (if rehashed then n' else 0) + potential n' c' ≤ potential n c + 12 := by
  obtain ⟨hfull, hempty⟩ := ho
  unfold potential
  cases h with
  | same => simp
  | inserted h | grown h | removed m hn h | shrunk m hn hbig h =>
    simp only [Bool.false_eq_true, ↓reduceIte]
    split_ifs <;> omega

variable {V : Type}

/-- The nodes that a call relinks: those of the whole table if it rehashes it. -/
def relinked (t : HashTable V) (u : Update V) : Nat := if t.rehashes u then (t.step u).1.len else 0

def totalRelinked : List (Update V) → HashTable V → Nat
  | [], _ => 0
  | u :: us, t => t.relinked u + totalRelinked us (t.step u).1

theorem step_paid {t : HashTable V} (h : Occupied t.len t.capacity) (u : Update V) :
    4 * t.relinked u + potential (t.step u).1.len (t.step u).1.capacity ≤ potential t.len t.capacity + 12 := by
  obtain ⟨k, hk, hc⟩ := t.capacity_eq
  obtain ⟨k', -, hc'⟩ := (t.step u).1.capacity_eq
  cases u with
  | clear => exact Nat.zero_le _
  | set key value => exact (t.set_change key value).paid h hc hk hc'
  | delete key => exact (t.delete_change key).paid h hc hk hc'

theorem run_paid {t : HashTable V} (h : Occupied t.len t.capacity) (us : List (Update V)) :
    4 * totalRelinked us t ≤ potential t.len t.capacity + 12 * us.length := by
  induction us generalizing t with
  | nil => exact Nat.zero_le _
  | cons u us ih =>
    have hstep := step_paid h u
    have hrest := ih (step_occupied h u)
    rw [totalRelinked, List.length_cons]
    omega

/-- **Rehashing is constant per call.** Any calls of `Set`, `Delete` and `Clear` from an empty
table, in any order, relink at most three nodes a call in all their rehashes together. -/
theorem run_relinked (us : List (Update V)) : totalRelinked us (empty : HashTable V) ≤ 3 * us.length := by
  have hpaid := run_paid (empty_occupied (V := V)) us
  have hstart : potential (empty : HashTable V).len (empty : HashTable V).capacity = 0 := rfl
  omega

end GoRedis.HashTable
