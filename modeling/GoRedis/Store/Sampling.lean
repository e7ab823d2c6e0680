import GoRedis.Lib.Sampling
import GoRedis.Store.Occupancy

/-! What `SampleKeys` samples.

A draw picks a bucket, and what is sampled is the node at its head; a bucket that is empty costs
an attempt. The source calls the sample uniform in the bucket heads, and only in those: with
every draw of a bucket equally likely, any two lists of bucket heads of one length are equally
likely samples, and nothing behind a head is ever sampled (`sampleKeys_uniform`). -/
namespace GoRedis.HashTable
open Sampling

variable {V : Type}

namespace Raw

/-- The head of a bucket. -/
def head (t : Raw V) (b : Fin t.buckets.length) : Option (Node V) := (t.buckets.get b).head?

/-- The loop samples what its draws hit. -/
theorem sampleLoop_eq_hits (t : Raw V) (count : Nat) {draw : Nat → Nat} {left : Nat} (attempts : Nat)
    {d : Fin left → Fin t.buckets.length} (hd : ∀ k, draw (attempts + k.val) % t.buckets.length = d k)
    (out : List (Node V)) :
    t.sampleLoop count draw left attempts out = out ++ hits t.head (count - out.length) d := by
  induction left generalizing attempts out with
  | zero => simp [sampleLoop, hits]
  | succ left ih =>
    have hfirst : t.buckets.getD (draw attempts % t.buckets.length) [] = t.buckets.get (d 0) := by
      have h := hd 0
      rw [Fin.val_zero, Nat.add_zero] at h
      rw [h]
      simp
    have hrest : ∀ k : Fin left, draw (attempts + 1 + k.val) % t.buckets.length = Fin.tail d k := by
      intro k
      rw [Nat.add_assoc, Nat.add_comm 1]
      exact hd k.succ
    rw [← Fin.cons_self_tail d, sampleLoop, hfirst]
    split
    · next hmore =>
      obtain ⟨k, hk⟩ : ∃ k, count - out.length = k + 1 := ⟨count - out.length - 1, by omega⟩
      rw [hk]
      split
      · next hempty =>
        have hnone : t.head (d 0) = none := by rw [head, hempty]; rfl
        rw [ih _ hrest, hits_cons_none hnone, hk]
      · next node chain hchain =>
        have hsome : t.head (d 0) = some node := by rw [head, hchain]; rfl
        have hlength : count - (out ++ [node]).length = k := by simp; omega
        rw [ih _ hrest, hits_cons_some hsome, hlength, List.append_assoc]
        rfl
    · next hfull =>
      have hzero : count - out.length = 0 := by omega
      rw [hzero, hits_zero, List.append_nil]

end Raw

/-- The nodes at the heads of the buckets. -/
def heads (t : HashTable V) : List (Node V) := t.buckets.filterMap List.head?

/-- The buckets drawn by a run of `SampleKeys`, as the sequence its loop reads. -/
def draws {n capacity : Nat} (d : Fin n → Fin capacity) (k : Nat) : Nat := if h : k < n then d ⟨k, h⟩ else 0

/-- In how many ways the buckets can be drawn for a sample to come out. -/
noncomputable def ways (t : HashTable V) (count : Nat) (sample : List (Node V)) : Nat :=
  Nat.card { d : Fin (count * 20) → Fin t.capacity // t.sampleKeys count (draws d) = sample }

section
variable (t : HashTable V)

theorem mem_heads {e : Node V} : e ∈ t.heads ↔ ∃ b, t.toRaw.head b = some e := by
  rw [heads, List.mem_filterMap]
  constructor
  · rintro ⟨chain, hchain, he⟩
    obtain ⟨b, rfl⟩ := List.mem_iff_get.mp hchain
    exact ⟨b, he⟩
  · rintro ⟨b, he⟩
    exact ⟨t.buckets.get b, List.get_mem t.buckets b, he⟩

/-- A node heads one bucket only, the one its key hashes to. -/
theorem head_injective (b c : Fin t.buckets.length) (e : Node V) (hb : t.toRaw.head b = some e)
    (hc : t.toRaw.head c = some e) : b = c := by
  have hplaced : ∀ b : Fin t.buckets.length, t.toRaw.head b = some e →
      maskedIndex t.buckets.length e.1 = b := by
    intro b hb
    apply t.wf.placed b (t.buckets.get b)
    · simp
    · exact List.mem_of_mem_head? hb
  exact Fin.ext ((hplaced b hb).symm.trans (hplaced c hc))

theorem head_of_empty (hempty : t.numEntries = 0) (b : Fin t.buckets.length) : t.toRaw.head b = none := by
  have hnodes : t.buckets.flatten = [] := List.length_eq_zero_iff.mp (t.wf.counted.symm.trans hempty)
  rw [Raw.head, List.flatten_eq_nil_iff.mp hnodes _ (List.get_mem t.buckets b), List.head?_nil]

theorem sampleKeys_eq_hits (count : Nat) {draw : Nat → Nat} {d : Fin (count * 20) → Fin t.buckets.length}
    (hd : ∀ k, draw k.val % t.buckets.length = d k) :
    t.sampleKeys count draw = hits t.toRaw.head count d := by
  rw [sampleKeys, Raw.sampleKeys]
  split
  · next hempty => simp [hits, t.head_of_empty hempty]
  · exact t.toRaw.sampleLoop_eq_hits count 0 (by simpa using hd) []

theorem draws_mod {n capacity : Nat} (d : Fin n → Fin capacity) (k : Fin n) : draws d k % capacity = d k := by
  simp [draws, Nat.mod_eq_of_lt]

theorem ways_eq (count : Nat) (sample : List (Node V)) :
    t.ways count sample =
      Nat.card { d : Fin (count * 20) → Fin t.buckets.length // hits t.toRaw.head count d = sample } := by
  have hsample : ∀ d : Fin (count * 20) → Fin t.capacity,
      t.sampleKeys count (draws d) = hits t.toRaw.head count d := by
    intro d
    exact t.sampleKeys_eq_hits count (draws_mod d)
  simp only [ways, hsample]
  rfl

theorem card_empty : Nat.card { b // t.toRaw.head b = none } = t.buckets.countP List.isEmpty := by
  have hbuckets : (List.finRange t.buckets.length).map t.buckets.get = t.buckets := by
    rw [← List.ofFn_eq_map, List.ofFn_get]
  rw [Nat.card_eq_fintype_card, Fintype.card_subtype, ← List.toFinset_finRange,
    (List.nodup_finRange _).card_eq_countP]
  conv_rhs => rw [← hbuckets, List.countP_map]
  apply List.countP_congr
  intro b _
  simp [Raw.head]

theorem sampleKeys_heads (count : Nat) (draw : Nat → Nat) {e : Node V} (he : e ∈ t.sampleKeys count draw) :
    e ∈ t.heads := by
  have hd : ∀ k : Fin (count * 20), draw k.val % t.buckets.length =
      (⟨draw k % t.buckets.length, Nat.mod_lt _ t.wf.pos⟩ : Fin t.buckets.length) := fun _ => rfl
  rw [t.sampleKeys_eq_hits count hd] at he
  exact t.mem_heads.mpr (mem_of_mem_hits he)

end

/-- **A sample is uniform in the bucket heads.** A sample holds bucket heads only; any two lists of
heads of one length come out of equally many of the ways the buckets can be drawn; and a sample comes
out empty just when every attempt draws an empty bucket. -/
theorem sampleKeys_uniform (t : HashTable V) (count : Nat) :
    (∀ draw, ∀ e ∈ t.sampleKeys count draw, e ∈ t.heads) ∧
      (∀ xs ys : List (Node V), xs.length = ys.length → (∀ e ∈ xs, e ∈ t.heads) → (∀ e ∈ ys, e ∈ t.heads) →
        t.ways count xs = t.ways count ys) ∧
      (0 < count → t.ways count [] = t.buckets.countP List.isEmpty ^ (count * 20)) := by
  refine ⟨fun draw e he => t.sampleKeys_heads count draw he, ?_, ?_⟩
  · intro xs ys hlength hxs hys
    rw [t.ways_eq, t.ways_eq]
    apply card_hits_eq t.head_injective _ _ hlength
    · exact fun e he => t.mem_heads.mp (hxs e he)
    · exact fun e he => t.mem_heads.mp (hys e he)
  · intro hpos
    obtain ⟨k, rfl⟩ : ∃ k, count = k + 1 := ⟨count - 1, by omega⟩
    rw [t.ways_eq, card_hits_nil, t.card_empty]

/-- A table of two keys: each is as likely as the other to be all that is sampled, and the sample is
empty when the attempts all draw one of the fourteen empty buckets. -/
theorem sampleKeys_uniform_two :
    let t := (empty : HashTable Nat).run [.set [97] 1, .set [98] 2]
    t.ways 5 [⟨[97], 1⟩] = t.ways 5 [⟨[98], 2⟩] ∧ t.ways 5 [] = 14 ^ 100 := by
  intro t
  have hfirst : ∀ e ∈ [(⟨[97], 1⟩ : Node Nat)], e ∈ t.heads := by decide +kernel
  have hsecond : ∀ e ∈ [(⟨[98], 2⟩ : Node Nat)], e ∈ t.heads := by decide +kernel
  have hempty : t.buckets.countP List.isEmpty = 14 := by decide +kernel
  have h := sampleKeys_uniform t 5
  rw [hempty] at h
  exact ⟨h.2.1 _ _ rfl hfirst hsecond, h.2.2 (by decide)⟩

end GoRedis.HashTable
