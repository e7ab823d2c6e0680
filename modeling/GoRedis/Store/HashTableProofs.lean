import GoRedis.Store.HashTable

/-! The hash table is a finite map.

The representation invariant is `Raw.WF`: the capacity is a power of two of at least
16, every node sits in the bucket its key is masked to, no key occurs twice, and the
count is the number of nodes. Each operation keeps it, rehashing included, so tables
are bundled with it (`HashTable`) and read as a `Finmap` (`toFinmap`); each operation is
then the finite map's, and `run_refines` says so of any sequence of them. -/
namespace GoRedis
open List Buckets

theorem maskedIndex_lt {capacity : Nat} (h : 0 < capacity) (key : Bytes) :
    maskedIndex capacity key < capacity :=
  Nat.lt_of_le_of_lt Nat.and_le_right (by omega)

namespace HashTable
namespace Raw
variable {V : Type}

structure WF (t : Raw V) : Prop where
  capacity : ∃ e, 4 ≤ e ∧ t.buckets.length = 2 ^ e
  placed : Placed (maskedIndex t.buckets.length) t.buckets
  distinct : t.nodes.NodupKeys
  counted : t.numEntries = t.nodes.length

theorem WF.pos {t : Raw V} (h : t.WF) : 0 < t.buckets.length := by
  obtain ⟨e, -, he⟩ := h.capacity
  rw [he]
  exact Nat.two_pow_pos e

theorem WF.index_lt {t : Raw V} (h : t.WF) (key : Bytes) : t.bucketIndex key < t.buckets.length :=
  maskedIndex_lt h.pos key

theorem empty_wf : (empty : Raw V).WF where
  capacity := ⟨4, by decide, rfl⟩
  placed := placed_replicate _
  distinct := by simp [nodes, empty]
  counted := by simp [nodes, empty]

/-! ### Rehashing -/

theorem rehashTo_buckets (t : Raw V) (n : Nat) :
    (t.rehashTo n).buckets = pour (maskedIndex n) (replicate n []) t.nodes := by
  simp only [rehashTo, pour, nodes, foldl_flatten]
  rfl

/-- A rehash only moves nodes. -/
theorem rehashTo_perm (t : Raw V) {n : Nat} (hn : 0 < n) : (t.rehashTo n).nodes ~ t.nodes := by
  have hslot : ∀ key, maskedIndex n key < (replicate n ([] : List (Node V))).length :=
    fun key => by simpa using maskedIndex_lt hn key
  rw [nodes, rehashTo_buckets]
  simpa using pour_perm hslot t.nodes

/-- The nodes of a table whose count and keys are right, put in a fresh row. -/
theorem rehashTo_wf (t : Raw V) {e : Nat} (he : 4 ≤ e) (hd : t.nodes.NodupKeys)
    (hc : t.numEntries = t.nodes.length) : (t.rehashTo (2 ^ e)).WF := by
  have hpos : 0 < 2 ^ e := Nat.two_pow_pos e
  have hlen : (t.rehashTo (2 ^ e)).buckets.length = 2 ^ e := by
    rw [rehashTo_buckets]
    simp
  refine ⟨⟨e, he, hlen⟩, ?_, (perm_nodupKeys (t.rehashTo_perm hpos)).mpr hd, ?_⟩
  · rw [hlen, rehashTo_buckets]
    exact pour_placed (placed_replicate _) (fun key => by simpa using maskedIndex_lt hpos key) _
  · rw [(t.rehashTo_perm hpos).length_eq]
    exact hc

theorem resize_wf (t : Raw V) (h : t.WF) : t.resize.WF := by
  obtain ⟨e, he, hlen⟩ := h.capacity
  rw [resize, hlen, kGrowthMultiplier, ← pow_succ]
  exact t.rehashTo_wf (by omega) h.distinct h.counted

theorem resize_perm (t : Raw V) (h : t.WF) : t.resize.nodes ~ t.nodes :=
  t.rehashTo_perm (by have := h.pos; simp only [kGrowthMultiplier]; omega)

theorem maybeShrink_perm (t : Raw V) : t.maybeShrink.nodes ~ t.nodes := by
  unfold maybeShrink
  split
  · exact Perm.refl _
  · split
    · exact Perm.refl _
    · exact t.rehashTo_perm (by simp only [kInitialCapacity]; omega)

theorem maybeShrink_wf (t : Raw V) (h : t.WF) : t.maybeShrink.WF := by
  unfold maybeShrink
  split
  · exact h
  · next hbig =>
    split
    · exact h
    · obtain ⟨e, he, hlen⟩ := h.capacity
      -- above the floor the exponent is at least five, so half the row is still one
      have he' : 5 ≤ e := by
        by_contra hlt
        obtain rfl : e = 4 := by omega
        simp [hlen, kInitialCapacity] at hbig
      have hhalf : 2 ^ e / 2 = 2 ^ (e - 1) := by
        rw [show e = e - 1 + 1 by omega, pow_succ]
        simp
      have hfloor : 16 ≤ 2 ^ (e - 1) := Nat.pow_le_pow_right (n := 2) (by decide) (by omega : 4 ≤ e - 1)
      rw [hlen, kGrowthMultiplier, kInitialCapacity, hhalf, max_eq_left hfloor]
      exact t.rehashTo_wf (by omega) h.distinct h.counted

/-! ### Each operation keeps the invariant and is the keyed list's -/

theorem mem_chain (t : Raw V) (h : t.WF) (key : Bytes) :
    key ∈ (t.chain key).keys ↔ key ∈ t.nodes.keys :=
  h.placed.mem_keys_bucket (h.index_lt key)

theorem get_eq (t : Raw V) (h : t.WF) (key : Bytes) : t.get key = t.nodes.dlookup key :=
  h.placed.dlookup_bucket h.distinct (h.index_lt key)

/-- A chain exchanged for one with the same keys. -/
theorem assign_perm (t : Raw V) (h : t.WF) (key : Bytes) (value : V) (hk : key ∈ (t.chain key).keys) :
    (t.assign key value).nodes ~ kinsert key value t.nodes :=
  kreplace_perm h.distinct value (h.index_lt key) hk

theorem assign_wf (t : Raw V) (h : t.WF) (key : Bytes) (value : V) : (t.assign key value).WF := by
  have hlen : (t.assign key value).buckets.length = t.buckets.length := length_set
  have hperm : (t.assign key value).nodes.keys ~ t.nodes.keys := by
    have h₁ := (Keyed.flatten_set_perm (h.index_lt key) ((t.chain key).kreplace key value)).map Sigma.fst
    have h₂ := (bucket_perm (L := t.buckets) (h.index_lt key)).map Sigma.fst
    refine (h₁.trans ?_).trans h₂.symm
    rw [map_append, map_append]
    exact Perm.append_right _ (Perm.of_eq (keys_kreplace (β := fun _ => V) key value (t.chain key)))
  refine ⟨?_, ?_, hperm.nodup_iff.mpr h.distinct, ?_⟩
  · rw [hlen]
    exact h.capacity
  · rw [hlen]
    refine h.placed.set _ _ fun e he => ?_
    have hke : e.1 ∈ (t.chain key).keys := by
      rw [← keys_kreplace key value]
      exact mem_keys_of_mem he
    obtain ⟨b, hb⟩ := mem_keys.mp hke
    exact h.placed.mem_bucket (h.index_lt key) (e := ⟨e.1, b⟩) hb
  · have hl := hperm.length_eq
    simp only [keys, length_map] at hl
    rw [hl]
    exact h.counted

/-- The table with a node at the head of its chain, before the load factor is looked at. -/
theorem prepend_wf (t : Raw V) (h : t.WF) (key : Bytes) (value : V)
    (hk : key ∉ (t.chain key).keys) :
    (⟨t.buckets.set (t.bucketIndex key) (⟨key, value⟩ :: t.chain key), t.numEntries + 1⟩ : Raw V).WF ∧
      (t.buckets.set (t.bucketIndex key) (⟨key, value⟩ :: t.chain key)).flatten ~
        ⟨key, value⟩ :: t.nodes := by
  have hperm : (t.buckets.set (t.bucketIndex key) (⟨key, value⟩ :: t.chain key)).flatten ~
      ⟨key, value⟩ :: t.nodes :=
    @push_perm _ _ (maskedIndex t.buckets.length) _ (⟨key, value⟩ : Node V) (h.index_lt key)
  refine ⟨⟨?_, ?_, ?_, ?_⟩, hperm⟩
  · simpa using h.capacity
  · rw [length_set]
    exact push_placed h.placed (⟨key, value⟩ : Node V) (h.index_lt key)
  · refine (perm_nodupKeys hperm).mpr (nodupKeys_cons.mpr ⟨?_, h.distinct⟩)
    exact fun hmem => hk ((t.mem_chain h key).mpr hmem)
  · show t.numEntries + 1 = _
    rw [nodes, hperm.length_eq, length_cons, h.counted]

theorem set_wf (t : Raw V) (h : t.WF) (key : Bytes) (value : V) : (t.set key value).1.WF := by
  unfold set
  split
  · exact t.assign_wf h key value
  · next hk =>
    have hwf := (t.prepend_wf h key value hk).1
    dsimp only
    split
    · exact resize_wf _ hwf
    · exact hwf

theorem set_perm (t : Raw V) (h : t.WF) (key : Bytes) (value : V) :
    (t.set key value).1.nodes ~ kinsert key value t.nodes := by
  unfold set
  split
  · next hk => exact t.assign_perm h key value hk
  · next hk =>
    obtain ⟨hwf, hperm⟩ := t.prepend_wf h key value hk
    have hnot : key ∉ t.nodes.keys := fun hmem => hk ((t.mem_chain h key).mpr hmem)
    rw [kinsert_def, kerase_of_notMem_keys hnot]
    dsimp only
    split
    · exact (resize_perm _ hwf).trans hperm
    · exact hperm

theorem delete_parts (t : Raw V) (h : t.WF) (key : Bytes) (hk : key ∈ (t.chain key).keys) :
    (⟨t.buckets.set (t.bucketIndex key) ((t.chain key).kerase key), t.numEntries - 1⟩ : Raw V).WF ∧
      (t.buckets.set (t.bucketIndex key) ((t.chain key).kerase key)).flatten ~
        kerase key t.nodes := by
  have hperm : (t.buckets.set (t.bucketIndex key) ((t.chain key).kerase key)).flatten ~
      kerase key t.nodes := h.placed.kerase_perm h.distinct (h.index_lt key)
  refine ⟨⟨?_, ?_, ?_, ?_⟩, hperm⟩
  · simpa using h.capacity
  · rw [length_set]
    exact h.placed.set _ _ fun e he =>
      h.placed.mem_bucket (h.index_lt key) ((kerase_sublist key _).subset he)
  · exact (perm_nodupKeys hperm).mpr (h.distinct.kerase key)
  · show t.numEntries - 1 = _
    rw [nodes, hperm.length_eq, h.counted]
    obtain ⟨value, l₁, l₂, -, hnodes, herase⟩ := exists_of_kerase ((t.mem_chain h key).mp hk)
    rw [herase, hnodes]
    simp only [length_append, length_cons]
    omega

theorem delete_wf (t : Raw V) (h : t.WF) (key : Bytes) : (t.delete key).1.WF := by
  unfold delete
  split
  · next hk => exact maybeShrink_wf _ (t.delete_parts h key hk).1
  · exact h

theorem delete_perm (t : Raw V) (h : t.WF) (key : Bytes) :
    (t.delete key).1.nodes ~ kerase key t.nodes := by
  unfold delete
  split
  · next hk => exact (maybeShrink_perm _).trans (t.delete_parts h key hk).2
  · next hk =>
    rw [kerase_of_notMem_keys fun hmem => hk ((t.mem_chain h key).mpr hmem)]

/-! ### Sampling -/

theorem sampleLoop_length (t : Raw V) (count : Nat) (draw : Nat → Nat) (left attempts : Nat)
    (out : List (Node V)) (h : out.length ≤ count) :
    (t.sampleLoop count draw left attempts out).length ≤ count := by
  induction left generalizing attempts out with
  | zero => exact h
  | succ left ih =>
    unfold sampleLoop
    split
    · next hlt =>
      split
      · exact ih _ _ h
      · exact ih _ _ (by rw [length_append]; exact hlt)
    · exact h

theorem sampleLoop_mem (t : Raw V) (count : Nat) (draw : Nat → Nat) (left attempts : Nat)
    (out : List (Node V)) (h : ∀ e ∈ out, e ∈ t.nodes) :
    ∀ e ∈ t.sampleLoop count draw left attempts out, e ∈ t.nodes := by
  induction left generalizing attempts out with
  | zero => exact h
  | succ left ih =>
    unfold sampleLoop
    split
    · split
      · exact ih _ _ h
      · next head rest hhead =>
        refine ih _ _ fun e he => ?_
        rcases mem_append.mp he with he | he
        · exact h e he
        · -- the head of a chain is one of the table's nodes
          obtain rfl : e = head := by simpa using he
          have hmem : (e :: rest) ∈ t.buckets := by
            rw [← hhead, getD_eq_getElem?_getD]
            cases hget : t.buckets[draw attempts % t.buckets.length]? with
            | none => simp [getD_eq_getElem?_getD, hget] at hhead
            | some c => exact mem_of_getElem? hget
          exact mem_flatten.mpr ⟨_, hmem, mem_cons_self⟩
    · exact h

theorem sampleLoop_prefix (t : Raw V) (count : Nat) (draw : Nat → Nat) (left attempts : Nat) (out : List (Node V)) :
    out <+: t.sampleLoop count draw left attempts out := by
  induction left generalizing attempts out with
  | zero => exact prefix_rfl
  | succ left ih =>
    unfold sampleLoop
    split
    · split
      · exact ih _ _
      · exact (prefix_append _ _).trans (ih _ _)
    · exact prefix_rfl

/-- Nothing is sampled if all attempts hit empty buckets. -/
theorem sampleLoop_eq_nil (t : Raw V) {count : Nat} (hcount : 0 < count) (draw : Nat → Nat) (left attempts : Nat) :
    t.sampleLoop count draw left attempts [] = [] ↔
      ∀ n < left, t.buckets.getD (draw (attempts + n) % t.buckets.length) [] = [] := by
  induction left generalizing attempts with
  | zero => exact iff_of_true rfl fun n hn => absurd hn (Nat.not_lt_zero n)
  | succ left ih =>
    have hsplit : (∀ n < left + 1, t.buckets.getD (draw (attempts + n) % t.buckets.length) [] = []) ↔
        t.buckets.getD (draw attempts % t.buckets.length) [] = [] ∧
          ∀ n < left, t.buckets.getD (draw (attempts + 1 + n) % t.buckets.length) [] = [] := by
      rw [Nat.forall_lt_succ_left]
      simp only [Nat.add_zero, Nat.add_assoc, Nat.add_comm 1]
    rw [hsplit, sampleLoop, if_pos (by simpa using hcount)]
    split
    · next hempty => rw [ih, hempty, and_iff_right rfl]
    · next head rest hhead =>
      have hkept : [head] <+: t.sampleLoop count draw left (attempts + 1) ([] ++ [head]) := t.sampleLoop_prefix ..
      refine iff_of_false (fun hnil => ?_) fun hall => ?_
      · rw [hnil] at hkept
        exact absurd (prefix_nil.mp hkept) (cons_ne_nil _ _)
      · cases hhead.symm.trans hall.1

theorem sampleKeys_length (t : Raw V) (count : Nat) (draw : Nat → Nat) :
    (t.sampleKeys count draw).length ≤ count := by
  unfold sampleKeys
  split
  · simp
  · exact t.sampleLoop_length count draw _ _ [] (by simp)

theorem sampleKeys_mem (t : Raw V) (count : Nat) (draw : Nat → Nat) :
    ∀ e ∈ t.sampleKeys count draw, e ∈ t.nodes := by
  unfold sampleKeys
  split
  · simp
  · exact t.sampleLoop_mem count draw _ _ [] (by simp)

end Raw
end HashTable

/-! ### Tables that satisfy the invariant -/

structure HashTable (V : Type) extends HashTable.Raw V where
  wf : toRaw.WF

namespace HashTable
variable {V : Type}

def empty : HashTable V := ⟨Raw.empty, Raw.empty_wf⟩

instance : Inhabited (HashTable V) := ⟨empty⟩

def get (t : HashTable V) (key : Bytes) : Option V := t.toRaw.get key

def set (t : HashTable V) (key : Bytes) (value : V) : HashTable V × Bool :=
  (⟨(t.toRaw.set key value).1, t.toRaw.set_wf t.wf key value⟩, (t.toRaw.set key value).2)

def assign (t : HashTable V) (key : Bytes) (value : V) : HashTable V :=
  ⟨t.toRaw.assign key value, t.toRaw.assign_wf t.wf key value⟩

def delete (t : HashTable V) (key : Bytes) : HashTable V × Bool :=
  (⟨(t.toRaw.delete key).1, t.toRaw.delete_wf t.wf key⟩, (t.toRaw.delete key).2)

def len (t : HashTable V) : Nat := t.toRaw.len

def nodes (t : HashTable V) : List (Node V) := t.toRaw.nodes

def keys (t : HashTable V) : List Bytes := t.nodes.map Sigma.fst

def sampleKeys (t : HashTable V) (count : Nat) (draw : Nat → Nat) : List (Node V) :=
  t.toRaw.sampleKeys count draw

/-- The finite map a table holds. -/
def toFinmap (t : HashTable V) : Finmap fun _ : Bytes => V := ⟨↑t.nodes, t.wf.distinct⟩

@[simp] theorem get_eq (t : HashTable V) (key : Bytes) : t.get key = t.toFinmap.lookup key :=
  t.toRaw.get_eq t.wf key

theorem mem_chain (t : HashTable V) (key : Bytes) :
    key ∈ (t.toRaw.chain key).keys ↔ key ∈ t.toFinmap :=
  t.toRaw.mem_chain t.wf key

@[simp] theorem toFinmap_empty : (empty : HashTable V).toFinmap = ∅ :=
  Finmap.ext (by simp [toFinmap, nodes, Raw.nodes, empty, Raw.empty]; rfl)

@[simp] theorem toFinmap_set (t : HashTable V) (key : Bytes) (value : V) :
    (t.set key value).1.toFinmap = t.toFinmap.insert key value :=
  Finmap.ext (Multiset.coe_eq_coe.mpr (t.toRaw.set_perm t.wf key value))

@[simp] theorem set_found (t : HashTable V) (key : Bytes) (value : V) :
    (t.set key value).2 = decide (key ∈ t.toFinmap) := by
  simp only [← t.mem_chain key, set, Raw.set]
  split <;> simp_all

@[simp] theorem toFinmap_assign (t : HashTable V) (key : Bytes) (value : V) (h : key ∈ t.toFinmap) :
    (t.assign key value).toFinmap = t.toFinmap.insert key value :=
  Finmap.ext (Multiset.coe_eq_coe.mpr
    (t.toRaw.assign_perm t.wf key value ((t.mem_chain key).mpr h)))

@[simp] theorem toFinmap_delete (t : HashTable V) (key : Bytes) :
    (t.delete key).1.toFinmap = t.toFinmap.erase key :=
  Finmap.ext (Multiset.coe_eq_coe.mpr (t.toRaw.delete_perm t.wf key))

@[simp] theorem delete_found (t : HashTable V) (key : Bytes) :
    (t.delete key).2 = decide (key ∈ t.toFinmap) := by
  simp only [← t.mem_chain key, delete, Raw.delete]
  split <;> simp_all

@[simp] theorem len_eq (t : HashTable V) : t.len = t.toFinmap.keys.card := by
  show t.numEntries = (t.nodes.map Sigma.fst).length
  rw [length_map]
  exact t.wf.counted

theorem mem_nodes (t : HashTable V) (key : Bytes) (value : V) :
    (⟨key, value⟩ : Node V) ∈ t.nodes ↔ t.toFinmap.lookup key = some value := by
  rw [Finmap.lookup_eq_some_iff]
  rfl

theorem sampleKeys_length (t : HashTable V) (count : Nat) (draw : Nat → Nat) :
    (t.sampleKeys count draw).length ≤ count :=
  t.toRaw.sampleKeys_length count draw

theorem sampleKeys_mem (t : HashTable V) (count : Nat) (draw : Nat → Nat) {e : Node V}
    (h : e ∈ t.sampleKeys count draw) : t.toFinmap.lookup e.1 = some e.2 :=
  (t.mem_nodes e.1 e.2).mp (t.toRaw.sampleKeys_mem count draw e h)

/-! ### Any sequence of operations -/

/-- The operations that change a table. -/
inductive Update (V : Type) where
  | set (key : Bytes) (value : V)
  | delete (key : Bytes)
  | clear

/-- One operation, and what it returns (`Clear` returns nothing). -/
def step (t : HashTable V) : Update V → HashTable V × Option Bool
  | .set key value => ((t.set key value).1, some (t.set key value).2)
  | .delete key => ((t.delete key).1, some (t.delete key).2)
  | .clear => (empty, none)

def run (t : HashTable V) : List (Update V) → HashTable V
  | [] => t
  | u :: us => run (t.step u).1 us

def results (t : HashTable V) : List (Update V) → List (Option Bool)
  | [] => []
  | u :: us => (t.step u).2 :: results (t.step u).1 us

/-- The operation on the reference map. -/
def Update.onMap (m : Finmap fun _ : Bytes => V) :
    Update V → (Finmap fun _ : Bytes => V) × Option Bool
  | .set key value => (m.insert key value, some (decide (key ∈ m)))
  | .delete key => (m.erase key, some (decide (key ∈ m)))
  | .clear => (∅, none)

def mapRun (m : Finmap fun _ : Bytes => V) : List (Update V) → Finmap fun _ : Bytes => V
  | [] => m
  | u :: us => mapRun (u.onMap m).1 us

def mapResults (m : Finmap fun _ : Bytes => V) : List (Update V) → List (Option Bool)
  | [] => []
  | u :: us => (u.onMap m).2 :: mapResults (u.onMap m).1 us

theorem step_refines (t : HashTable V) (u : Update V) :
    (t.step u).1.toFinmap = (u.onMap t.toFinmap).1 ∧ (t.step u).2 = (u.onMap t.toFinmap).2 := by
  cases u <;> simp [step, Update.onMap]

theorem run_toFinmap (t : HashTable V) (us : List (Update V)) :
    (t.run us).toFinmap = mapRun t.toFinmap us ∧ t.results us = mapResults t.toFinmap us := by
  induction us generalizing t with
  | nil => exact ⟨rfl, rfl⟩
  | cons u us ih =>
    obtain ⟨hmap, hres⟩ := t.step_refines u
    simp only [run, results, mapRun, mapResults, ← hmap, ← hres, (ih _).1, (ih _).2, and_self]

/-- **The hash table implements a finite map.** After any sequence of `Set`, `Delete`
and `Clear` from an empty table every call has returned what the reference map says,
and every read is the reference map's: the value of each key, the number of keys, each
entry visited once with its value, and samples drawn from the entries. -/
theorem run_refines (us : List (Update V)) :
    let t := (empty : HashTable V).run us
    let m := mapRun (∅ : Finmap fun _ : Bytes => V) us
    (empty : HashTable V).results us = mapResults ∅ us ∧
      (∀ key, t.get key = m.lookup key) ∧
      t.len = m.keys.card ∧
      (t.keys : Multiset Bytes) = m.keys.val ∧
      (t.nodes : Multiset (Node V)) = m.entries ∧
      ∀ count draw, (t.sampleKeys count draw).length ≤ count ∧
        ∀ e ∈ t.sampleKeys count draw, m.lookup e.1 = some e.2 := by
  intro t m
  obtain ⟨hmap, hres⟩ := (empty : HashTable V).run_toFinmap us
  rw [toFinmap_empty] at hmap hres
  have hm : t.toFinmap = m := hmap
  rw [← hm]
  exact ⟨hres, t.get_eq, t.len_eq, rfl, rfl, fun count draw =>
    ⟨t.sampleKeys_length count draw, fun _ he => t.sampleKeys_mem count draw he⟩⟩

end HashTable
end GoRedis
