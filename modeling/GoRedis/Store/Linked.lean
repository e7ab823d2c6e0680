import GoRedis.Lib.Chains
import GoRedis.Store.HashTableProofs

/-! The hash table in memory (`store/hash_table.h`).

`HashTable::Raw` has a chain as a list of nodes. In the code a chain is nodes on the heap,
each owned by the `unique_ptr` before it: the bucket's slot or the `next` of another node.
A `Linked` table is that: the memory, the bucket vector's pointers and the count, and its
functions are the code's, pointer by pointer. They have no result where the code's
behaviour is undefined (a null or freed node is dereferenced, a slot is out of range) or
where a walk goes round a cycle.

None of that happens: on a table that lays out a `Raw` one (`Lays`) each function has a
result, returns what `Raw`'s does and lays out what `Raw`'s leaves. -/
namespace GoRedis.HashTable
open List Chains

structure Linked (V : Type) where
  heap : Heap (Node V)
  numEntries : Nat

namespace Linked
variable {V : Type}

def empty : Linked V := ⟨⟨∅, replicate kInitialCapacity none⟩, 0⟩

def bucketIndex (t : Linked V) (key : Bytes) : Nat := maskedIndex t.heap.slots.length key

def overloaded (t : Linked V) : Bool := 4 * t.numEntries > 3 * t.heap.slots.length

def underloaded (t : Linked V) : Bool := 16 * t.numEntries < 3 * t.heap.slots.length

/-- Every slot of the old vector has been moved from when the vector is destroyed. -/
def rehashTo (t : Linked V) (newCapacity : Nat) : Option (Linked V) := do
  let heap ← Heap.scatterAll (fun node => maskedIndex newCapacity node.1) t.heap.slots
    ⟨t.heap.memory, replicate newCapacity none⟩
  return { t with heap }

def resize (t : Linked V) : Option (Linked V) := t.rehashTo (t.heap.slots.length * kGrowthMultiplier)

def maybeShrink (t : Linked V) : Option (Linked V) :=
  if t.heap.slots.length ≤ kInitialCapacity then some t
  else if !t.underloaded then some t
  else t.rehashTo (max (t.heap.slots.length / kGrowthMultiplier) kInitialCapacity)

/-- The address of the key's node, `none` for a null pointer. -/
def get (t : Linked V) (key : Bytes) : Option (Option Nat) := do
  let head ← t.heap.slots[t.bucketIndex key]?
  find (fun node => node.1 = key) t.heap.memory t.heap.memory.bound head

/-- What a pointer to a value points to. -/
def deref (t : Linked V) (a : Nat) : Option V := (t.heap.memory.lookup a).map fun c => c.data.2

/-- A value overwritten through a pointer to it. -/
def write (t : Linked V) (a : Nat) (value : V) : Option (Linked V) := do
  let c ← t.heap.memory.lookup a
  let memory ← Chains.assign a ⟨c.data.1, value⟩ t.heap.memory
  return { t with heap := { t.heap with memory } }

/-- `pick` is the allocator's choice for a new node. -/
def set (t : Linked V) (pick : Nat) (key : Bytes) (value : V) : Option (Linked V × Bool) := do
  match ← t.get key with
  | some a => return (← t.write a value, true)
  | none =>
    let a := t.heap.memory.place pick
    let memory := t.heap.memory.insert a ⟨⟨key, value⟩, none⟩
    let heap ← Heap.push { t.heap with memory } (t.bucketIndex key) a
    let t : Linked V := ⟨heap, t.numEntries + 1⟩
    if t.overloaded then return (← t.resize, false) else return (t, false)

def delete (t : Linked V) (key : Bytes) : Option (Linked V × Bool) := do
  let (heap, found) ← Heap.unlink (fun node => node.1 = key) t.heap.memory.bound (.slot (t.bucketIndex key)) t.heap
  if found then return (← maybeShrink ⟨heap, t.numEntries - 1⟩, true) else return (t, false)

def clear (t : Linked V) : Option (Linked V) := do
  let memory ← destroyAll t.heap.slots t.heap.memory
  return ⟨⟨memory, replicate kInitialCapacity none⟩, 0⟩

/-- The nodes in the order `Keys` and `ForEach` walk them. -/
def nodes (t : Linked V) : Option (List (Stored (Node V))) := do
  let chains ← t.heap.slots.mapM (walk t.heap.memory t.heap.memory.bound)
  return chains.flatten

/-- `SampleKeys`' loop, with the keys and the pointers it returns. -/
def sampleLoop (t : Linked V) (count : Nat) (draw : Nat → Nat) :
    (left attempts : Nat) → List (Bytes × Nat) → Option (List (Bytes × Nat))
  | 0, _, out => some out
  | left + 1, attempts, out =>
    if out.length < count then do
      match ← t.heap.slots[draw attempts % t.heap.slots.length]? with
      | none => sampleLoop t count draw left (attempts + 1) out
      | some a =>
        let c ← t.heap.memory.lookup a
        sampleLoop t count draw left (attempts + 1) (out ++ [(c.data.1, a)])
    else some out

def sampleKeys (t : Linked V) (count : Nat) (draw : Nat → Nat) : Option (List (Bytes × Nat)) :=
  if t.numEntries = 0 then some [] else t.sampleLoop count draw (count * 20) 0 []

/-! ### The layout -/

/-- The memory is the nodes of the chains `cs`, each once, and nothing else; without their
addresses they are the chains of `r`. -/
structure Lays (t : Linked V) (cs : List (List (Stored (Node V)))) (r : Raw V) : Prop where
  owns : t.heap.Owns cs []
  buckets : r.buckets = cs.map fun c => c.map Sigma.snd
  numEntries : t.numEntries = r.numEntries

variable {t : Linked V} {cs : List (List (Stored (Node V)))} {r : Raw V}

theorem empty_lays : (empty : Linked V).Lays (replicate kInitialCapacity []) Raw.empty where
  owns := ⟨by simp [empty], by simp [empty, Memory.Holds]; rfl⟩
  buckets := by simp [Raw.empty]
  numEntries := rfl

theorem Lays.length (h : t.Lays cs r) : t.heap.slots.length = r.buckets.length := by
  rw [h.owns.length, h.buckets, length_map]

theorem Lays.bucketIndex (h : t.Lays cs r) (key : Bytes) : t.bucketIndex key = r.bucketIndex key := by
  rw [Linked.bucketIndex, h.length]
  rfl

theorem Lays.overloaded (h : t.Lays cs r) : t.overloaded = r.overloaded := by
  rw [Linked.overloaded, h.length, h.numEntries]
  rfl

theorem Lays.nodes (h : t.Lays cs r) : r.nodes = cs.flatten.map Sigma.snd := by
  rw [Raw.nodes, h.buckets, map_flatten]

/-- The chain of a key, with its addresses. -/
theorem Lays.chain (h : t.Lays cs r) (hr : r.WF) (key : Bytes) :
    ∃ c, cs[t.bucketIndex key]? = some c ∧ r.chain key = c.map Sigma.snd := by
  have hlt : t.bucketIndex key < cs.length := by
    rw [h.bucketIndex, ← h.owns.length, h.length]
    exact hr.index_lt key
  refine ⟨cs[t.bucketIndex key], by simp [hlt], ?_⟩
  rw [Raw.chain, ← h.bucketIndex, h.buckets]
  simp [getD_eq_getElem?_getD, hlt]

/-! ### Lookups -/

theorem keys_data (c : List (Stored (Node V))) : (c.map Sigma.snd).keys = c.map fun x => x.2.1 := map_map


/-- **What `Get` returns**: the address of the key's node, or a null pointer. -/
theorem Lays.get (h : t.Lays cs r) (hr : r.WF) (key : Bytes) :
    (∃ a v front back, cs[t.bucketIndex key]? = some (front ++ ⟨a, key, v⟩ :: back) ∧ (∀ x ∈ front, x.2.1 ≠ key) ∧
      t.get key = some (some a) ∧ r.get key = some v) ∨
    (t.get key = some none ∧ r.get key = none) := by
  obtain ⟨c, hc, hchain⟩ := h.chain hr key
  have hfind := find_eq (fun node : Node V => decide (node.1 = key)) (h.owns.spelled hc) (h.owns.bound hc)
  have hget : t.get key = some ((c.find? fun x => decide (x.2.1 = key)).map Sigma.fst) := by
    simp only [Linked.get, h.owns.slot hc, Option.bind_eq_bind, Option.bind_some, hfind]
  rw [hget, Raw.get, hchain]
  cases hf : c.find? fun x => decide (x.2.1 = key) with
  | none =>
    refine .inr ⟨rfl, dlookup_eq_none.mpr fun hk => ?_⟩
    rw [keys_data] at hk
    obtain ⟨x, hx, hxk⟩ := mem_map.mp hk
    simpa [hxk] using find?_eq_none.mp hf x hx
  | some x =>
    obtain ⟨hx, front, back, rfl, hfront⟩ := find?_eq_some_iff_append.mp hf
    obtain ⟨a, k, v⟩ := x
    obtain rfl : k = key := by simpa using hx
    have hne : ∀ x ∈ front, x.2.1 ≠ k := fun x hx => by simpa using hfront x hx
    have hnot : k ∉ (front.map Sigma.snd).keys := by
      rw [keys_data]
      exact fun hk => let ⟨x, hx, hxk⟩ := mem_map.mp hk; hne x hx hxk
    refine .inl ⟨a, v, front, back, hc, hne, rfl, ?_⟩
    rw [map_append, dlookup_append, dlookup_eq_none.mpr hnot]
    simp

/-- The nodes of a table have distinct keys, wherever they are. -/
theorem Lays.unique (h : t.Lays cs r) (hr : r.WF) {x y : Stored (Node V)} (hx : x ∈ cs.flatten) (hy : y ∈ cs.flatten)
    (hkey : x.2.1 = y.2.1) : x = y := by
  have hd := hr.distinct
  rw [h.nodes, NodupKeys, keys_data] at hd
  exact inj_on_of_nodup_map hd hx hy hkey

/-- A node is where `Get` finds its key. -/
theorem Lays.mem_iff (h : t.Lays cs r) (hr : r.WF) {a : Nat} {key : Bytes} {v : V} :
    ⟨a, key, v⟩ ∈ cs.flatten ↔ t.get key = some (some a) ∧ r.get key = some v := by
  rcases h.get hr key with ⟨a', v', front, back, hc, -, hget, hval⟩ | ⟨hget, hval⟩
  · have hmem : (⟨a', key, v'⟩ : Stored (Node V)) ∈ cs.flatten :=
      mem_flatten.mpr ⟨_, mem_of_getElem? hc, by simp⟩
    constructor
    · intro hx
      obtain ⟨rfl, hv⟩ := Sigma.mk.inj (h.unique hr hx hmem rfl)
      obtain rfl : v = v' := by simpa using hv
      exact ⟨hget, hval⟩
    · rintro ⟨ha, hv⟩
      obtain rfl : a' = a := by simpa [hget] using ha
      obtain rfl : v' = v := by simpa [hval] using hv
      exact hmem
  · constructor
    · intro hx
      have hk : (⟨key, v⟩ : Node V) ∈ r.nodes := h.nodes ▸ mem_map_of_mem (f := Sigma.snd) hx
      rw [r.get_eq hr, dlookup_eq_none] at hval
      exact absurd (mem_keys_of_mem hk) hval
    · rintro ⟨ha, -⟩
      simp [hget] at ha

theorem Lays.deref (h : t.Lays cs r) {a : Nat} {key : Bytes} {v : V} (ha : ⟨a, key, v⟩ ∈ cs.flatten) :
    t.deref a = some v := by
  obtain ⟨c, hc, hx⟩ := mem_flatten.mp ha
  obtain ⟨i, hi⟩ := mem_iff_getElem?.mp hc
  obtain ⟨front, back, rfl⟩ := append_of_mem hx
  rw [Linked.deref, (h.owns.open hi).read mem_cons_self]
  rfl

/-! ### Writes -/

theorem kreplace_split {key : Bytes} {front : List (Node V)} (hfront : ∀ e ∈ front, e.1 ≠ key) (v v' : V)
    (back : List (Node V)) : (front ++ ⟨key, v⟩ :: back).kreplace key v' = front ++ ⟨key, v'⟩ :: back := by
  induction front with
  | nil => exact Keyed.kreplace_cons_eq (e := ⟨key, v⟩) v' rfl back
  | cons e front ih =>
    have hne : key ≠ e.1 := fun he => hfront e mem_cons_self he.symm
    rw [cons_append, Keyed.kreplace_cons_ne v' hne, ih fun e he => hfront e (mem_cons_of_mem _ he), cons_append]

/-- A value overwritten where it is. -/
theorem Lays.write_at (h : t.Lays cs r) (hr : r.WF) {a : Nat} {key : Bytes} {v : V}
    {front back : List (Stored (Node V))} (hc : cs[t.bucketIndex key]? = some (front ++ ⟨a, key, v⟩ :: back))
    (hfront : ∀ x ∈ front, x.2.1 ≠ key) (v' : V) :
    ∃ t', t.write a v' = some t' ∧
      t'.Lays (cs.set (t.bucketIndex key) (front ++ ⟨a, key, v'⟩ :: back)) (r.assign key v') := by
  obtain ⟨m, hassign, ho⟩ := h.owns.assign hc ⟨key, v'⟩
  refine ⟨{ t with heap := { t.heap with memory := m } }, ?_, ho, ?_, h.numEntries⟩
  · have hread := (h.owns.open hc).read mem_cons_self
    simp [Linked.write, hread, hassign]
  · obtain ⟨c, hc', hchain⟩ := h.chain hr key
    obtain rfl : front ++ ⟨a, key, v⟩ :: back = c := Option.some.inj (hc.symm.trans hc')
    rw [Raw.assign, hchain, ← h.bucketIndex, h.buckets, map_set, map_append, map_cons, map_append, map_cons,
      kreplace_split fun e he => let ⟨x, hx, hxe⟩ := mem_map.mp he; hxe ▸ hfront x hx]

/-! ### Rehashing -/

/-- Spreading nodes over a row is pouring them, addresses aside. -/
theorem spread_data (slot : Bytes → Nat) (cs : List (List (Stored (Node V)))) (c : List (Stored (Node V))) :
    (Heap.spread (fun node => slot node.1) cs c).map (fun c => c.map Sigma.snd) =
      Buckets.pour slot (cs.map fun c => c.map Sigma.snd) (c.map Sigma.snd) := by
  induction c generalizing cs with
  | nil => rfl
  | cons x c ih =>
    have hpush : (cs.set (slot x.2.1) (x :: cs.getD (slot x.2.1) [])).map (fun c => c.map Sigma.snd) =
        Buckets.push slot (cs.map fun c => c.map Sigma.snd) x.2 := by
      have hget : (cs.map fun c => c.map Sigma.snd).getD (slot x.2.1) [] =
          (cs.getD (slot x.2.1) []).map Sigma.snd := by
        simp only [getD_eq_getElem?_getD, getElem?_map]
        cases cs[slot x.2.1]? <;> rfl
      rw [Buckets.push, Buckets.bucket, hget, map_set, map_cons]
    exact (ih _).trans (by rw [hpush]; rfl)

/-- **A rehash moves nodes.** It allocates none and frees none: each node is at the address
where it was. -/
theorem Lays.rehashTo (h : t.Lays cs r) {n : Nat} (hn : 0 < n) :
    ∃ t' cs', t.rehashTo n = some t' ∧ t'.Lays cs' (r.rehashTo n) ∧ cs'.flatten ~ cs.flatten := by
  have hindex : ∀ node : Node V, maskedIndex n node.1 < (replicate n ([] : List (Stored (Node V)))).length :=
    fun node => by simpa using maskedIndex_lt hn node.1
  have hrow : Heap.Owns ⟨t.heap.memory, replicate n none⟩ (replicate n []) ((cs.map (cells none)).flatten ++ []) :=
    ⟨by simp, by simpa using h.owns.memory⟩
  obtain ⟨heap, hheap, ho⟩ := hrow.scatterAll hindex
  refine ⟨{ t with heap }, _, ?_, ⟨ho, ?_, h.numEntries⟩, ?_⟩
  · rw [← h.owns.slots] at hheap
    simp only [Linked.rehashTo, hheap, Option.bind_eq_bind, Option.bind_some]
    rfl
  · rw [Raw.rehashTo_buckets, spread_data (maskedIndex n), h.nodes, map_replicate, map_nil]
  · simpa using Heap.spread_perm hindex cs.flatten

theorem Lays.resize (h : t.Lays cs r) (hr : r.WF) :
    ∃ t' cs', t.resize = some t' ∧ t'.Lays cs' r.resize ∧ cs'.flatten ~ cs.flatten := by
  rw [Linked.resize, Raw.resize, h.length]
  exact h.rehashTo (Nat.mul_pos hr.pos (by decide))

theorem Lays.maybeShrink (h : t.Lays cs r) :
    ∃ t' cs', t.maybeShrink = some t' ∧ t'.Lays cs' r.maybeShrink ∧ cs'.flatten ~ cs.flatten := by
  have hunder : t.underloaded = r.underloaded := by rw [underloaded, h.length, h.numEntries]; rfl
  rw [Linked.maybeShrink, Raw.maybeShrink, h.length, hunder]
  split
  · exact ⟨t, cs, rfl, h, Perm.refl _⟩
  · split
    · exact ⟨t, cs, rfl, h, Perm.refl _⟩
    · exact h.rehashTo (Nat.lt_of_lt_of_le (by decide) (Nat.le_max_right ..))

/-! ### Updates -/

/-- Every node of another key is where it was. -/
def Stays (key : Bytes) (cs cs' : List (List (Stored (Node V)))) : Prop :=
  ∀ x ∈ cs.flatten, x.2.1 ≠ key → x ∈ cs'.flatten

/-- One chain exchanged for another that has the same nodes of other keys. -/
theorem stays_set {key : Bytes} {i : Nat} {c c' : List (Stored (Node V))} (hc : cs[i]? = some c)
    (hkeep : ∀ x ∈ c, x.2.1 ≠ key → x ∈ c') : Stays key cs (cs.set i c') := by
  intro x hx hne
  have hi : i < cs.length := (List.getElem?_eq_some_iff.mp hc).1
  have hout := (Keyed.flatten_perm hc).mem_iff.mp hx
  refine (Keyed.flatten_set_perm hi c').mem_iff.mpr (mem_append.mpr ?_)
  exact (mem_append.mp hout).imp_left fun hxc => hkeep x hxc hne

theorem mem_set_of_mem {i : Nat} {c c' : List (Stored (Node V))} (hc : cs[i]? = some c) {x : Stored (Node V)}
    (hx : x ∈ c') : x ∈ (cs.set i c').flatten :=
  (Keyed.flatten_set_perm (List.getElem?_eq_some_iff.mp hc).1 c').mem_iff.mpr (mem_append_left _ hx)

/-- **A write through a pointer** from `Get`. -/
theorem Lays.write (h : t.Lays cs r) (hr : r.WF) {a : Nat} {key : Bytes} {v : V} (ha : ⟨a, key, v⟩ ∈ cs.flatten)
    (v' : V) : ∃ t' cs', t.write a v' = some t' ∧ t'.Lays cs' (r.assign key v') ∧ Stays key cs cs' ∧
      ⟨a, key, v'⟩ ∈ cs'.flatten := by
  rcases h.get hr key with ⟨a', w, front, back, hc, hfront, hget, -⟩ | ⟨hget, -⟩
  · obtain rfl : a' = a := by simpa [hget] using ((h.mem_iff hr).mp ha).1
    obtain ⟨t', hwrite, h'⟩ := h.write_at hr hc hfront v'
    refine ⟨t', _, hwrite, h', stays_set hc fun x hx hne => ?_, mem_set_of_mem hc (by simp)⟩
    rcases mem_append.mp hx with hx | hx
    · exact mem_append_left _ hx
    · rcases mem_cons.mp hx with rfl | hx
      · exact absurd rfl hne
      · exact mem_append_right _ (mem_cons_of_mem _ hx)
  · have hnull := ((h.mem_iff hr).mp ha).1
    simp [hget] at hnull

/-- The table with a new node at the head of its chain, before the load factor is looked at. -/
theorem Lays.prepend (h : t.Lays cs r) (hr : r.WF) (pick : Nat) (key : Bytes) (v : V) :
    ∃ heap cs', Heap.push { t.heap with memory := t.heap.memory.insert (t.heap.memory.place pick) ⟨⟨key, v⟩, none⟩ }
        (t.bucketIndex key) (t.heap.memory.place pick) = some heap ∧
      Lays ⟨heap, t.numEntries + 1⟩ cs'
        ⟨r.buckets.set (r.bucketIndex key) (⟨key, v⟩ :: r.chain key), r.numEntries + 1⟩ ∧ Stays key cs cs' := by
  obtain ⟨c, hc, hchain⟩ := h.chain hr key
  obtain ⟨heap, hpush, ho⟩ := (h.owns.alloc (place_free _ pick) ⟨key, v⟩).push hc
  refine ⟨heap, _, hpush, ⟨ho, ?_, congrArg (· + 1) h.numEntries⟩, stays_set hc fun x hx _ => mem_cons_of_mem _ hx⟩
  rw [map_set, map_cons, h.buckets, ← h.bucketIndex, hchain]

/-- **`Set`** has a result, `Raw`'s; the key's node is where it was if there was one, and so
is every other. -/
theorem Lays.set (h : t.Lays cs r) (hr : r.WF) (pick : Nat) (key : Bytes) (v : V) :
    ∃ t' cs', t.set pick key v = some (t', (r.set key v).2) ∧ t'.Lays cs' (r.set key v).1 ∧ Stays key cs cs' ∧
      ∀ a w, ⟨a, key, w⟩ ∈ cs.flatten → ⟨a, key, v⟩ ∈ cs'.flatten := by
  rcases h.get hr key with ⟨a, w, front, back, hc, hfront, hget, hval⟩ | ⟨hget, hval⟩
  · have hmem : (⟨a, key, w⟩ : Stored (Node V)) ∈ cs.flatten := (h.mem_iff hr).mpr ⟨hget, hval⟩
    have hk : key ∈ (r.chain key).keys := dlookup_isSome.mp (by rw [← Raw.get, hval]; rfl)
    obtain ⟨t', cs', hwrite, h', hstays, hmem'⟩ := h.write hr hmem v
    refine ⟨t', cs', ?_, ?_, hstays, ?_⟩
    · simp [Linked.set, Raw.set, hget, hwrite, hk]
    · rw [Raw.set, if_pos hk]
      exact h'
    · intro a' w' ha'
      obtain ⟨rfl, -⟩ := Sigma.mk.inj (h.unique hr ha' hmem rfl)
      exact hmem'
  · have hk : key ∉ (r.chain key).keys := dlookup_eq_none.mp hval
    have habsent : ∀ a w, (⟨a, key, w⟩ : Stored (Node V)) ∉ cs.flatten := fun a w ha => by
      simpa [hval] using ((h.mem_iff hr).mp ha).2
    obtain ⟨heap, cs₁, hpush, h₁, hstays⟩ := h.prepend hr pick key v
    have hover := h₁.overloaded
    rw [Raw.set, if_neg hk]
    by_cases hload : Linked.overloaded ⟨heap, t.numEntries + 1⟩ = true
    · obtain ⟨t₂, cs₂, hresize, h₂, hperm⟩ := h₁.resize (r.prepend_wf hr key v hk).1
      refine ⟨t₂, cs₂, ?_, ?_, fun x hx hne => hperm.mem_iff.mpr (hstays x hx hne),
        fun a w ha => absurd ha (habsent a w)⟩
      · simp [Linked.set, hget, hpush, hload, hresize]
      · dsimp only
        rw [if_pos (hover ▸ hload)]
        exact h₂
    · refine ⟨⟨heap, t.numEntries + 1⟩, cs₁, ?_, ?_, hstays, fun a w ha => absurd ha (habsent a w)⟩
      · simp [Linked.set, hget, hpush, hload]
      · dsimp only
        rw [if_neg (hover ▸ hload)]
        exact h₁

theorem kerase_data (key : Bytes) (c : List (Stored (Node V))) :
    (c.map Sigma.snd).kerase key = (c.eraseP fun x => decide (x.2.1 = key)).map Sigma.snd := by
  rw [kerase, eraseP_map]
  congr 2
  funext x
  simp only [Function.comp, eq_comm]

/-- **`Delete`** has a result, `Raw`'s; it frees the key's node and no other, and every other
node is where it was. -/
theorem Lays.delete (h : t.Lays cs r) (hr : r.WF) (key : Bytes) :
    ∃ t' cs', t.delete key = some (t', (r.delete key).2) ∧ t'.Lays cs' (r.delete key).1 ∧ Stays key cs cs' := by
  obtain ⟨c, hc, hchain⟩ := h.chain hr key
  obtain ⟨heap, hunlink, ho⟩ := Heap.Owns.unlink (fun node : Node V => decide (node.1 = key)) h.owns
    (hc.trans (congrArg some (nil_append c).symm)) (h.owns.bound hc)
  rw [Heap.after_nil, nil_append] at *
  have hfound : (c.any fun x => decide (x.2.1 = key)) = decide (key ∈ (r.chain key).keys) := by
    rw [hchain, keys_data, Bool.eq_iff_iff]
    simp
  have hstays : Stays key cs (cs.set (t.bucketIndex key) (c.eraseP fun x => decide (x.2.1 = key))) :=
    stays_set hc fun x hx hne => (mem_eraseP_of_neg (by simpa using hne)).mpr hx
  by_cases hk : key ∈ (r.chain key).keys
  · have h₁ : Lays ⟨heap, t.numEntries - 1⟩ _
        ⟨r.buckets.set (r.bucketIndex key) ((r.chain key).kerase key), r.numEntries - 1⟩ :=
      ⟨ho, by rw [map_set, ← h.buckets, ← kerase_data, ← hchain, h.bucketIndex], congrArg (· - 1) h.numEntries⟩
    obtain ⟨t₂, cs₂, hshrink, h₂, hperm⟩ := h₁.maybeShrink
    refine ⟨t₂, cs₂, ?_, ?_, fun x hx hne => hperm.mem_iff.mpr (hstays x hx hne)⟩
    · simp [Linked.delete, hunlink, hfound, hk, hshrink, Raw.delete]
    · rw [Raw.delete, if_pos hk]
      exact h₂
  · refine ⟨t, cs, ?_, ?_, fun x hx _ => hx⟩
    · simp [Linked.delete, hunlink, hfound, hk, Raw.delete]
    · rw [Raw.delete, if_neg hk]
      exact h

/-- **`Clear`** frees every node. -/
theorem Lays.clear (h : t.Lays cs r) : t.clear = some empty := by
  obtain ⟨m, hdestroy, hm⟩ := destroyAll_holds h.owns.memory
  obtain rfl : m = ∅ := Finmap.ext hm
  rw [← h.owns.slots] at hdestroy
  simp only [Linked.clear, hdestroy, Option.bind_eq_bind, Option.bind_some]
  rfl

/-! ### Walks -/

/-- `ForEach` visits the nodes in `Raw`'s order. -/
theorem Lays.forEach (h : t.Lays cs r) : t.nodes = some cs.flatten := by
  have hwalk : ∀ rows : List (List (Stored (Node V))), (∀ c ∈ rows, c ∈ cs) →
      (rows.map (entry none)).mapM (walk t.heap.memory t.heap.memory.bound) = some rows := by
    intro rows hrows
    induction rows with
    | nil => rfl
    | cons c rows ih =>
      obtain ⟨i, hi⟩ := mem_iff_getElem?.mp (hrows c mem_cons_self)
      have hone := walk_eq (h.owns.spelled hi) (h.owns.bound hi)
      simp [hone, ih fun c hc => hrows c (mem_cons_of_mem _ hc)]
  simp only [Linked.nodes, h.owns.slots, hwalk cs fun _ hc => hc, Option.bind_eq_bind, Option.bind_some]
  rfl

/-- The key and the pointer that a sample has for a node. -/
def sampled (x : Stored (Node V)) : Bytes × Nat := (x.2.1, x.1)

theorem Lays.sampleLoop (h : t.Lays cs r) (hr : r.WF) (count : Nat) (draw : Nat → Nat) (left attempts : Nat)
    (out : List (Stored (Node V))) (hout : ∀ x ∈ out, x ∈ cs.flatten) :
    ∃ xs : List (Stored (Node V)), (∀ x ∈ xs, x ∈ cs.flatten) ∧
      t.sampleLoop count draw left attempts (out.map sampled) = some (xs.map sampled) ∧
      r.sampleLoop count draw left attempts (out.map Sigma.snd) = xs.map Sigma.snd := by
  induction left generalizing attempts out with
  | zero => exact ⟨out, hout, rfl, rfl⟩
  | succ left ih =>
    unfold Linked.sampleLoop Raw.sampleLoop
    rw [length_map, length_map, h.length]
    by_cases hlt : out.length < count
    · have hi : draw attempts % r.buckets.length < cs.length := by
        rw [← h.owns.length, h.length]
        exact Nat.mod_lt _ hr.pos
      obtain ⟨c, hc⟩ : ∃ c, cs[draw attempts % r.buckets.length]? = some c := ⟨_, getElem?_eq_getElem hi⟩
      have hbucket : r.buckets.getD (draw attempts % r.buckets.length) [] = c.map Sigma.snd := by
        have hget : r.buckets[draw attempts % r.buckets.length]? = some (c.map Sigma.snd) := by
          conv_lhs => rw [h.buckets, getElem?_map, ← h.buckets, hc]
          rfl
        rw [getD_eq_getElem?_getD, hget]
        rfl
      rw [if_pos hlt, if_pos hlt, hbucket, h.owns.slot hc]
      cases c with
      | nil => exact ih (attempts + 1) out hout
      | cons x c =>
        have hread := h.owns.spelled hc _ mem_cons_self
        have hx : x ∈ cs.flatten := mem_flatten.mpr ⟨_, mem_of_getElem? hc, mem_cons_self⟩
        obtain ⟨xs, hxs, hlinked, hraw⟩ := ih (attempts + 1) (out ++ [x]) fun y hy => by
          rcases mem_append.mp hy with hy | hy
          · exact hout y hy
          · exact mem_singleton.mp hy ▸ hx
        refine ⟨xs, hxs, ?_, ?_⟩
        · simpa [hread, sampled] using hlinked
        · simpa using hraw
    · rw [if_neg hlt, if_neg hlt]
      exact ⟨out, hout, rfl, rfl⟩

/-- **`SampleKeys`** returns the keys `Raw`'s does, each with the address of its node. -/
theorem Lays.sampleKeys (h : t.Lays cs r) (hr : r.WF) (count : Nat) (draw : Nat → Nat) :
    ∃ xs : List (Stored (Node V)), (∀ x ∈ xs, x ∈ cs.flatten) ∧ t.sampleKeys count draw = some (xs.map sampled) ∧
      r.sampleKeys count draw = xs.map Sigma.snd := by
  rw [Linked.sampleKeys, Raw.sampleKeys, h.numEntries]
  split
  · exact ⟨[], by simp, rfl, rfl⟩
  · exact h.sampleLoop hr count draw _ _ [] (by simp)

/-! ### Addresses -/

theorem keys_cells (stop : Option Nat) (c : List (Stored (Node V))) : (cells stop c).keys = c.map Sigma.fst := by
  induction c with
  | nil => rfl
  | cons x c ih => rw [cells_cons, keys_cons, ih, map_cons]

/-- The allocated addresses are those of the nodes, each once. -/
theorem Lays.addresses (h : t.Lays cs r) : (cs.flatten.map Sigma.fst : Multiset Nat) = t.heap.memory.keys.val := by
  have hkeys : ∀ rows : List (List (Stored (Node V))),
      ((rows.map (cells none)).flatten).keys = rows.flatten.map Sigma.fst := by
    intro rows
    induction rows with
    | nil => rfl
    | cons c rows ih => rw [map_cons, flatten_cons, keys_append, keys_cells, ih, flatten_cons, map_append]
  have hentries := h.owns.memory
  rw [append_nil] at hentries
  show _ = Multiset.keys t.heap.memory.entries
  rw [hentries, Multiset.coe_keys, hkeys]

/-! ### Runs -/

/-- One update, with the allocator's choice and what the update returns. -/
def step (t : Linked V) (pick : Nat) : Update V → Option (Linked V × Option Bool)
  | .set key value => do
    let (t, found) ← t.set pick key value
    return (t, some found)
  | .delete key => do
    let (t, found) ← t.delete key
    return (t, some found)
  | .clear => do
    let t ← t.clear
    return (t, none)

/-- Updates one after the other, each with a choice of the allocator's. -/
def run (t : Linked V) : List (Nat × Update V) → Option (Linked V × List (Option Bool))
  | [] => some (t, [])
  | (pick, u) :: us => do
    let (t, result) ← t.step pick u
    let (t, results) ← t.run us
    return (t, result :: results)

/-- The updates that take a key's node away. -/
def removes (key : Bytes) : Update V → Bool
  | .set .. => false
  | .delete key' => key' = key
  | .clear => true

/-- A table that lays out one that satisfies the invariant. -/
def Of (t : Linked V) (table : HashTable V) : Prop := ∃ cs, t.Lays cs table.toRaw

theorem empty_of : (empty : Linked V).Of HashTable.empty := ⟨_, empty_lays⟩

section Tables
variable {table : HashTable V} {key : Bytes} {a : Nat}

theorem Of.numEntries (h : t.Of table) : t.numEntries = table.len := h.choose_spec.numEntries

/-- There is a node for each entry, and no other. -/
theorem Of.allocated (h : t.Of table) : t.heap.memory.keys.card = table.len := by
  obtain ⟨cs, h⟩ := h
  have hcard := congrArg Multiset.card h.addresses
  have hnodes := congrArg length h.nodes
  rw [Multiset.coe_card, length_map] at hcard
  rw [length_map] at hnodes
  exact hcard.symm.trans (hnodes.symm.trans table.wf.counted.symm)

theorem Of.get (h : t.Of table) (key : Bytes) :
    (∃ a v, t.get key = some (some a) ∧ table.get key = some v) ∨ (t.get key = some none ∧ table.get key = none) := by
  obtain ⟨cs, h⟩ := h
  rcases h.get table.wf key with ⟨a, v, -, -, -, -, hget, hval⟩ | hnone
  · exact .inl ⟨a, v, hget, hval⟩
  · exact .inr hnone

theorem Of.deref (h : t.Of table) (ha : t.get key = some (some a)) {v : V} (hv : table.get key = some v) :
    t.deref a = some v := by
  obtain ⟨cs, h⟩ := h
  exact h.deref ((h.mem_iff table.wf).mpr ⟨ha, hv⟩)

/-- A value overwritten through the pointer `Get` returned, which is the key's still. -/
theorem Of.write (h : t.Of table) (ha : t.get key = some (some a)) (v : V) :
    ∃ t', t.write a v = some t' ∧ t'.Of (table.assign key v) ∧ t'.get key = some (some a) := by
  rcases h.get key with ⟨a', w, hget, hval⟩ | ⟨hget, -⟩
  · obtain ⟨cs, h⟩ := h
    obtain ⟨t', cs', hwrite, h', -, hmem⟩ := h.write table.wf ((h.mem_iff table.wf).mpr ⟨ha, hval⟩) v
    exact ⟨t', hwrite, ⟨cs', h'⟩, ((h'.mem_iff (table.assign key v).wf).mp hmem).1⟩
  · simp [hget] at ha

theorem Of.set (h : t.Of table) (pick : Nat) (key : Bytes) (v : V) :
    ∃ t', t.set pick key v = some (t', (table.set key v).2) ∧ t'.Of (table.set key v).1 := by
  obtain ⟨cs, h⟩ := h
  obtain ⟨t', cs', hset, h', -⟩ := h.set table.wf pick key v
  exact ⟨t', hset, cs', h'⟩

theorem Of.delete (h : t.Of table) (key : Bytes) :
    ∃ t', t.delete key = some (t', (table.delete key).2) ∧ t'.Of (table.delete key).1 := by
  obtain ⟨cs, h⟩ := h
  obtain ⟨t', cs', hdelete, h', -⟩ := h.delete table.wf key
  exact ⟨t', hdelete, cs', h'⟩

theorem Of.clear (h : t.Of table) : t.clear = some empty := h.choose_spec.clear

theorem Of.nodes (h : t.Of table) : ∃ xs, t.nodes = some xs ∧ xs.map Sigma.snd = table.nodes := by
  obtain ⟨cs, h⟩ := h
  exact ⟨_, h.forEach, h.nodes.symm⟩

/-- A sample's pointers are those of its keys. -/
theorem Of.sampleKeys (h : t.Of table) (count : Nat) (draw : Nat → Nat) :
    ∃ xs : List (Stored (Node V)), t.sampleKeys count draw = some (xs.map sampled) ∧
      table.sampleKeys count draw = xs.map Sigma.snd ∧
      ∀ x ∈ xs, t.get x.2.1 = some (some x.1) ∧ table.get x.2.1 = some x.2.2 := by
  obtain ⟨cs, h⟩ := h
  obtain ⟨xs, hmem, hlinked, hraw⟩ := h.sampleKeys table.wf count draw
  exact ⟨xs, hlinked, hraw, fun x hx => (h.mem_iff table.wf).mp (hmem x hx)⟩

end Tables

/-- **One update** has a result, the list table's; it leaves the node of every key that it
does not remove where it was. -/
theorem Of.step {table : HashTable V} (h : t.Of table) (pick : Nat) (u : Update V) :
    ∃ t', t.step pick u = some (t', (table.step u).2) ∧ t'.Of (table.step u).1 ∧
      ∀ key a, removes key u = false → t.get key = some (some a) → t'.get key = some (some a) := by
  obtain ⟨cs, h⟩ := h
  have hwhere : ∀ key a, t.get key = some (some a) → ∃ v, ⟨a, key, v⟩ ∈ cs.flatten := by
    intro key a ha
    rcases h.get table.wf key with ⟨a', v, -, -, -, -, hget, hval⟩ | ⟨hget, -⟩
    · exact ⟨v, (h.mem_iff table.wf).mpr ⟨ha, hval⟩⟩
    · simp [hget] at ha
  cases u with
  | set key' value =>
    obtain ⟨t', cs', hset, h', hstays, hsame⟩ := h.set table.wf pick key' value
    have hwf := (table.set key' value).1.wf
    refine ⟨t', by simp [Linked.step, hset]; rfl, ⟨cs', h'⟩, fun key a _ ha => ?_⟩
    obtain ⟨v, hv⟩ := hwhere key a ha
    by_cases hkey : key = key'
    · subst hkey
      exact ((h'.mem_iff hwf).mp (hsame a v hv)).1
    · exact ((h'.mem_iff hwf).mp (hstays _ hv hkey)).1
  | delete key' =>
    obtain ⟨t', cs', hdelete, h', hstays⟩ := h.delete table.wf key'
    refine ⟨t', by simp [Linked.step, hdelete]; rfl, ⟨cs', h'⟩, fun key a hkeep ha => ?_⟩
    obtain ⟨v, hv⟩ := hwhere key a ha
    have hkey : key ≠ key' := fun he => by simp [removes, he] at hkeep
    exact ((h'.mem_iff (table.delete key').1.wf).mp (hstays _ hv hkey)).1
  | clear => exact ⟨empty, by simp [Linked.step, h.clear]; rfl, empty_of, fun key a hkeep => by cases hkeep⟩

theorem Of.run {table : HashTable V} (h : t.Of table) (us : List (Nat × Update V)) :
    ∃ t', t.run us = some (t', table.results (us.map Prod.snd)) ∧ t'.Of (table.run (us.map Prod.snd)) := by
  induction us generalizing t table with
  | nil => exact ⟨t, rfl, h⟩
  | cons u us ih =>
    obtain ⟨t₁, hstep, h₁, -⟩ := h.step u.1 u.2
    obtain ⟨t₂, hrun, h₂⟩ := ih h₁
    refine ⟨t₂, ?_, h₂⟩
    simp [Linked.run, hstep, hrun, HashTable.results]

/-- **The table in memory.** Any sequence of `Set`, `Delete` and `Clear` from an empty table,
whatever addresses the allocator returns, runs without dereferencing or freeing a node that
is not allocated and returns what the reference map says. Then `Get` returns a null pointer
for a key that is not in the map and a pointer to its value for one that is, `ForEach` meets
the map's entries, and the allocated nodes are those that it meets, each once: none is
leaked and none is in two chains. -/
theorem run_memory (us : List (Nat × Update V)) :
    ∃ t, (empty : Linked V).run us = some (t, mapResults ∅ (us.map Prod.snd)) ∧
      (∀ key, match (mapRun ∅ (us.map Prod.snd)).lookup key with
        | none => t.get key = some none
        | some v => ∃ a, t.get key = some (some a) ∧ t.deref a = some v) ∧
      ∃ xs, t.nodes = some xs ∧
        (xs.map Sigma.snd : Multiset (Node V)) = (mapRun ∅ (us.map Prod.snd)).entries ∧
        (xs.map Sigma.fst : Multiset Nat) = t.heap.memory.keys.val := by
  obtain ⟨t, hrun, cs, h⟩ := empty_of (V := V).run us
  obtain ⟨hmap, hres⟩ := (HashTable.empty : HashTable V).run_toFinmap (us.map Prod.snd)
  rw [toFinmap_empty] at hmap hres
  have hwf := (HashTable.empty.run (us.map Prod.snd)).wf
  refine ⟨t, hres ▸ hrun, fun key => ?_, cs.flatten, h.forEach, ?_, h.addresses⟩
  · rw [← hmap, ← HashTable.get_eq, HashTable.get]
    rcases h.get hwf key with ⟨a, v, -, -, -, -, hget, hval⟩ | ⟨hget, hval⟩
    · rw [hval]
      exact ⟨a, hget, h.deref ((h.mem_iff hwf).mpr ⟨hget, hval⟩)⟩
    · rw [hval]
      exact hget
  · rw [← hmap, ← h.nodes]
    rfl

theorem Of.pointer {table : HashTable V} (h : t.Of table) {key : Bytes} {a : Nat} (ha : t.get key = some (some a))
    (us : List (Nat × Update V)) (hkeep : ∀ u ∈ us, removes key u.2 = false) :
    ∃ t', t.run us = some (t', table.results (us.map Prod.snd)) ∧ t'.Of (table.run (us.map Prod.snd)) ∧
      t'.get key = some (some a) := by
  induction us generalizing t table with
  | nil => exact ⟨t, rfl, h, ha⟩
  | cons u us ih =>
    obtain ⟨t₁, hstep, h₁, hstays⟩ := h.step u.1 u.2
    have ha₁ := hstays key a (hkeep u mem_cons_self) ha
    obtain ⟨t₂, hrun, h₂, ha₂⟩ := ih h₁ ha₁ fun u hu => hkeep u (mem_cons_of_mem _ hu)
    refine ⟨t₂, ?_, h₂, ha₂⟩
    simp [Linked.run, hstep, hrun, HashTable.results]

/-- **How long a pointer is valid.** A pointer that `Get` returned stays the key's, and points
to its value at the time, until the key is deleted or the table cleared: overwriting the
key, other keys' updates and the rehashes they cause neither move nor free its node. -/
theorem run_pointer (us us' : List (Nat × Update V)) {t : Linked V} {results : List (Option Bool)} {key : Bytes}
    {a : Nat} (hrun : (empty : Linked V).run us = some (t, results)) (hget : t.get key = some (some a))
    (hkeep : ∀ u ∈ us', removes key u.2 = false) :
    ∃ t' v, t.run us' = some (t', mapResults (mapRun ∅ (us.map Prod.snd)) (us'.map Prod.snd)) ∧
      t'.get key = some (some a) ∧ t'.deref a = some v ∧
      (mapRun (mapRun ∅ (us.map Prod.snd)) (us'.map Prod.snd)).lookup key = some v := by
  obtain ⟨t₁, hrun₁, h₁⟩ := empty_of (V := V).run us
  obtain ⟨rfl, -⟩ := Prod.mk.inj (Option.some.inj (hrun.symm.trans hrun₁))
  obtain ⟨t', hrun', ⟨cs, h'⟩, ha'⟩ := h₁.pointer hget us' hkeep
  obtain ⟨hmap, hres⟩ := (HashTable.empty : HashTable V).run_toFinmap (us.map Prod.snd)
  obtain ⟨hmap', hres'⟩ := (HashTable.empty.run (us.map Prod.snd)).run_toFinmap (us'.map Prod.snd)
  rw [toFinmap_empty] at hmap
  rw [hmap] at hmap' hres'
  have hwf := ((HashTable.empty.run (us.map Prod.snd)).run (us'.map Prod.snd)).wf
  rcases h'.get hwf key with ⟨a', v, -, -, -, -, hget', hval⟩ | ⟨hget', -⟩
  · refine ⟨t', v, hres' ▸ hrun', ha', h'.deref ((h'.mem_iff hwf).mpr ⟨ha', hval⟩), ?_⟩
    rw [← hmap', ← HashTable.get_eq]
    exact hval
  · simp [ha'] at hget'

/-- A pointer to the value of `k`, another key inserted and deleted and `k` overwritten. -/
theorem run_pointer_overwritten :
    ∃ t results, (empty : Linked Nat).run [(5, .set [107] 1)] = some (t, results) ∧ t.get [107] = some (some 5) ∧
      ∃ t' v, t.run [(9, .set [106] 2), (9, .delete [106]), (9, .set [107] 3)] =
          some (t', mapResults (mapRun ∅ [.set [107] 1]) [.set [106] 2, .delete [106], .set [107] 3]) ∧
        t'.get [107] = some (some 5) ∧ t'.deref 5 = some v ∧
        (mapRun (mapRun ∅ [.set [107] 1]) [.set [106] 2, .delete [106], .set [107] 3]).lookup [107] = some v := by
  obtain ⟨t, hrun, -⟩ := empty_of (V := Nat).run [(5, .set [107] 1)]
  have hget : t.get [107] = some (some 5) := by
    have h : ((empty : Linked Nat).run [(5, .set [107] 1)]).bind (fun r => r.1.get [107]) = some (some 5) := by
      decide +kernel
    rwa [hrun] at h
  exact ⟨t, _, hrun, hget, run_pointer [(5, .set [107] 1)] [(9, .set [106] 2), (9, .delete [106]), (9, .set [107] 3)]
    hrun hget (by decide)⟩

end Linked
end GoRedis.HashTable
