import GoRedis.Store.LinkedStore

/-! Every pointer the store dereferences is valid.

`Of` relates a store on a table in memory to a `Store`: the table lays out the list table,
and the counters are the same. Each program of `LinkedStore`, started in a store related to
`s`, has a result and leaves a store related to what `Store`'s function leaves of `s`. A
program that keeps a pointer shows on the way that it is still its key's (`Points`) wherever
it is dereferenced. -/
namespace GoRedis.LinkedStore
open HashTable Chains Total

structure Of (l : LinkedStore) (s : Store) : Prop where
  data : l.data.Of s.data
  used : l.usedMemoryBytes = s.usedMemoryBytes
  max : l.maxMemoryBytes = s.maxMemoryBytes
  clock : l.accessClock = s.accessClock
  wrapped : l.wrapped = s.wrapped

/-- The address is that of the key's node. -/
def Points (l : LinkedStore) (key : Bytes) (a : Nat) : Prop := l.data.get key = some (some a)

/-- A program does what a function of the store does. -/
def Follows {α : Type} (prog : Action α) (f : Store → Store × α) : Prop :=
  ∀ l s, Of l s → Does prog l fun r l' => r = (f s).2 ∧ Of l' (f s).1

theorem fresh_of : Of {} {} := ⟨Linked.empty_of, rfl, rfl, rfl, rfl⟩

variable {l : LinkedStore} {s : Store} {key : Bytes} {a : Nat} {v : Value}

/-! ### Steps -/

theorem Of.find (h : l.Of s) (key : Bytes) :
    (∃ a v, find key l = some (some a, l) ∧ l.Points key a ∧ s.data.get key = some v) ∨
      (find key l = some (none, l) ∧ s.data.get key = none) := by
  rcases h.data.get key with ⟨a, v, hget, hval⟩ | ⟨hget, hval⟩
  · exact .inl ⟨a, v, by simp [LinkedStore.find, hget], hget, hval⟩
  · exact .inr ⟨by simp [LinkedStore.find, hget], hval⟩

theorem Of.deref (h : l.Of s) (ha : l.Points key a) (hv : s.data.get key = some v) :
    deref (some a) l = some (v, l) := by
  simp [LinkedStore.deref, h.data.deref ha hv]

theorem Of.write (h : l.Of s) (ha : l.Points key a) (v : Value) :
    ∃ l', write (some a) v l = some ((), l') ∧ l'.Of { s with data := s.data.assign key v } ∧ l'.Points key a := by
  obtain ⟨t, hwrite, ht, hget⟩ := h.data.write ha v
  exact ⟨{ l with data := t }, by simp [LinkedStore.write, hwrite], ⟨ht, h.used, h.max, h.clock, h.wrapped⟩, hget⟩

theorem Of.insert (h : l.Of s) (pick : Nat) (key : Bytes) (v : Value) :
    ∃ l', insert pick key v l = some ((), l') ∧ l'.Of { s with data := (s.data.set key v).1 } := by
  obtain ⟨t, hset, ht⟩ := h.data.set pick key v
  exact ⟨{ l with data := t }, by simp [LinkedStore.insert, hset], ht, h.used, h.max, h.clock, h.wrapped⟩

theorem Of.erase (h : l.Of s) (key : Bytes) :
    ∃ l', erase key l = some ((), l') ∧ l'.Of { s with data := (s.data.delete key).1 } := by
  obtain ⟨t, hdelete, ht⟩ := h.data.delete key
  exact ⟨{ l with data := t }, by simp [LinkedStore.erase, hdelete], ht, h.used, h.max, h.clock, h.wrapped⟩

theorem Of.clear (h : l.Of s) :
    ∃ l', clear l = some ((), l') ∧ l'.Of { s with data := .empty, usedMemoryBytes := 0 } :=
  ⟨{ l with data := .empty, usedMemoryBytes := 0 }, by simp [LinkedStore.clear, h.data.clear],
    Linked.empty_of, rfl, h.max, h.clock, h.wrapped⟩

theorem Of.nodes (h : l.Of s) : nodes l = some (s.data.nodes, l) := by
  obtain ⟨xs, hxs, hmap⟩ := h.data.nodes
  simp [LinkedStore.nodes, hxs, hmap]

theorem Of.debit (h : l.Of s) (bytes : Nat) :
    ∃ l', debit bytes l = some ((), l') ∧ l'.Of (s.debit bytes) ∧ ∀ key a, l.Points key a → l'.Points key a := by
  refine ⟨_, rfl, ?_, ?_⟩
  · rw [Store.debit, h.used]
    split
    · exact ⟨h.data, rfl, h.max, h.clock, h.wrapped⟩
    · exact ⟨h.data, rfl, h.max, h.clock, rfl⟩
  · intro key a ha
    split <;> exact ha

theorem Of.credit (h : l.Of s) (bytes : Nat) :
    ∃ l', credit bytes l = some ((), l') ∧ l'.Of (s.credit bytes) ∧ ∀ key a, l.Points key a → l'.Points key a :=
  ⟨_, rfl, ⟨h.data, congrArg (· + bytes) h.used, h.max, h.clock, h.wrapped⟩, fun _ _ ha => ha⟩

/-- A stamp is written through the pointer; the pointer stays the key's. -/
theorem Of.touch (h : l.Of s) (ha : l.Points key a) (hv : s.data.get key = some v) :
    Does (touch (some a)) l fun _ l' => l'.Of (s.touch key) ∧ l'.Points key a := by
  have htick : Of { l with accessClock := l.accessClock + 1 } { s with accessClock := s.accessClock + 1 } :=
    ⟨h.data, h.used, h.max, congrArg (· + 1) h.clock, h.wrapped⟩
  refine .step (p := tick) rfl (.step (htick.deref ha hv) ?_)
  obtain ⟨l', hwrite, hof, hpoints⟩ := htick.write ha { v with lastAccessedSeq := l.accessClock }
  refine ⟨_, l', hwrite, ?_, hpoints⟩
  rw [Store.touch, hv, ← h.clock]
  rwa [← h.clock] at hof

/-! ### Expiry -/

theorem Of.discard (h : l.Of s) (ha : l.Points key a) (hv : s.data.get key = some v) :
    Does (discard key (some a)) l fun _ l' => l'.Of (s.discard key v) := by
  refine .step (h.deref ha hv) ?_
  obtain ⟨l₁, hdebit, h₁, -⟩ := h.debit (estimateEntryBytes key v)
  obtain ⟨l₂, herase, h₂⟩ := h₁.erase key
  rw [Store.debit_data] at h₂
  exact .step hdebit ⟨_, l₂, herase, h₂⟩

theorem deleteIfExpired_follows (now : Time) (key : Bytes) :
    Follows (deleteIfExpired now key) (Store.deleteIfExpired now key) := by
  intro l s h
  unfold Store.deleteIfExpired
  rcases h.find key with ⟨a, v, hfind, ha, hv⟩ | ⟨hfind, hv⟩
  · refine .step hfind (.step (h.deref ha hv) ?_)
    rw [hv]
    dsimp only
    by_cases hx : isExpired now v = true
    · rw [if_pos hx, if_pos hx]
      exact (h.discard ha hv).then fun _ l' h' => .pure ⟨rfl, h'⟩
    · rw [if_neg hx, if_neg hx]
      exact .pure ⟨rfl, h⟩
  · refine .step hfind ?_
    rw [hv]
    exact .pure ⟨rfl, h⟩

theorem deleteAllExpired_follows (now : Time) (keys : List Bytes) :
    Follows (deleteAllExpired now keys) fun s => (s.deleteAllExpired now keys, ()) := by
  induction keys with
  | nil => exact fun l s h => .pure ⟨rfl, h⟩
  | cons key keys ih =>
    intro l s h
    exact (deleteIfExpired_follows now key l s h).then fun _ l₁ h₁ => ih l₁ _ h₁.2

theorem sweepExpired_follows (now : Time) : Follows (sweepExpired now) fun s => (s.sweepExpired now, ()) := by
  intro l s h
  exact .step h.nodes (deleteAllExpired_follows now _ l s h)

/-! ### Eviction -/

/-- The sample's pointers are all dereferenced; the victim is one of its entries. -/
theorem Of.victim (h : l.Of s) (x : Stored (Node Value)) (rest : List (Stored (Node Value)))
    (hall : ∀ y ∈ x :: rest, l.Points y.2.1 y.1 ∧ s.data.get y.2.1 = some y.2.2) :
    Does (victim (Linked.sampled x) x.2.2.lastAccessedSeq (rest.map Linked.sampled)) l fun r l' =>
      l' = l ∧ ∃ y ∈ x :: rest, r = Linked.sampled y ∧ Store.victim x.2 (rest.map Sigma.snd) = y.2 := by
  induction rest generalizing x with
  | nil => exact .pure ⟨rfl, x, List.mem_cons_self, rfl, rfl⟩
  | cons e rest ih =>
    obtain ⟨he, hev⟩ := hall e (by simp)
    rw [List.map_cons, List.map_cons, Store.victim]
    refine .step (h.deref he hev) ?_
    by_cases hlt : e.2.2.lastAccessedSeq < x.2.2.lastAccessedSeq
    · rw [if_pos hlt, if_pos hlt]
      refine (ih e fun y hy => hall y (List.mem_cons_of_mem _ hy)).mono ?_
      rintro r l' ⟨rfl, y, hy, hr, hvictim⟩
      exact ⟨rfl, y, List.mem_cons_of_mem _ hy, hr, hvictim⟩
    · rw [if_neg hlt, if_neg hlt]
      have hsub : x :: rest ⊆ x :: e :: rest := List.cons_subset_cons _ (List.subset_cons_self _ _)
      refine (ih x fun y hy => hall y (hsub hy)).mono ?_
      rintro r l' ⟨rfl, y, hy, hr, hvictim⟩
      exact ⟨rfl, y, hsub hy, hr, hvictim⟩

theorem evictLoop_follows (draw : Nat → Nat → Nat) (rounds round : Nat) :
    Follows (evictLoop draw rounds round) fun s => (s.evictLoop draw rounds round, ()) := by
  induction rounds generalizing round with
  | zero => exact fun l s h => .pure ⟨rfl, h⟩
  | succ rounds ih =>
    intro l s h
    refine .step (p := get) rfl ?_
    dsimp only
    rw [h.used, h.max, h.data.numEntries, Store.evictLoop]
    by_cases hover : s.usedMemoryBytes > s.maxMemoryBytes ∧ s.data.len > 0
    · rw [if_pos hover, if_pos hover]
      obtain ⟨xs, hlinked, hlist, hpoints⟩ := h.data.sampleKeys kSampleSize (draw round)
      have hsample : sample (draw round) l = some (xs.map Linked.sampled, l) := by simp [sample, hlinked]
      refine .step hsample ?_
      cases xs with
      | nil =>
        rw [hlist]
        exact .pure ⟨rfl, h⟩
      | cons x rest =>
        obtain ⟨hx, hxv⟩ := hpoints x List.mem_cons_self
        refine .step (h.deref hx hxv) ((h.victim x rest hpoints).then ?_)
        rintro r l' ⟨rfl, y, hy, rfl, hvictim⟩
        obtain ⟨hy, hyv⟩ := hpoints y hy
        rw [hlist, List.map_cons]
        dsimp only
        rw [hvictim]
        exact (h.discard hy hyv).then fun _ l' h' => ih (round + 1) l' _ h'
    · rw [if_neg hover, if_neg hover]
      exact .pure ⟨rfl, h⟩

theorem evict_follows (draw : Nat → Nat → Nat) :
    Follows (evictIfOverBudget draw) fun s => (s.evictIfOverBudget draw, ()) := by
  intro l s h
  refine .step (p := get) rfl ?_
  dsimp only
  rw [h.max, h.data.numEntries, Store.evictIfOverBudget]
  split
  · exact .pure ⟨rfl, h⟩
  · exact evictLoop_follows draw _ 0 l s h

theorem setMaxMemory_follows (draw : Nat → Nat → Nat) (maxMemoryBytes : Nat) :
    Follows (setMaxMemory draw maxMemoryBytes) fun s => (s.setMaxMemory draw maxMemoryBytes, ()) := by
  intro l s h
  exact .step rfl (evict_follows draw _ { s with maxMemoryBytes } ⟨h.data, h.used, rfl, h.clock, h.wrapped⟩)

/-! ### Writes -/

theorem get_set (s : Store) (key : Bytes) (v : Value) : (s.data.set key v).1.get key = some v := by
  rw [HashTable.get_eq, HashTable.toFinmap_set, Finmap.lookup_insert]

theorem Of.bytesAt (h : l.Of s) (key : Bytes) :
    ∃ p, LinkedStore.find key l = some (p, l) ∧ bytesAt key p l = some (s.bytesAt key, l) := by
  rcases h.find key with ⟨a, v, hfind, ha, hv⟩ | ⟨hfind, hv⟩
  · refine ⟨some a, hfind, ?_⟩
    show ((LinkedStore.deref (some a) l).bind _) = _
    rw [h.deref ha hv, Store.bytesAt, hv]
    rfl
  · refine ⟨none, hfind, ?_⟩
    rw [Store.bytesAt, hv]
    rfl

theorem Of.found (h : l.Of s) (hv : s.data.get key = some v) :
    ∃ a, LinkedStore.find key l = some (some a, l) ∧ l.Points key a := by
  rcases h.find key with ⟨a, -, hfind, ha, -⟩ | ⟨-, hnone⟩
  · exact ⟨a, hfind, ha⟩
  · exact absurd (hv.symm.trans hnone) (Option.some_ne_none v)

theorem Of.absent (h : l.Of s) (hv : s.data.get key = none) : LinkedStore.find key l = some (none, l) := by
  rcases h.find key with ⟨a, v, -, -, hsome⟩ | ⟨hfind, -⟩
  · exact absurd (hsome.symm.trans hv) (Option.some_ne_none v)
  · exact hfind

theorem Of.value (h : l.Of s) (ha : l.Points key a) : ∃ v, s.data.get key = some v := by
  rcases h.data.get key with ⟨-, v, -, hv⟩ | ⟨hnull, -⟩
  · exact ⟨v, hv⟩
  · exact absurd (Option.some.inj (ha.symm.trans hnull)) (Option.some_ne_none a)

/-- An entry's size charged and the entry stamped, through a pointer to it. -/
theorem Of.charge (h : l.Of s) (ha : l.Points key a) (hv : s.data.get key = some v) :
    Does (charge key (some a)) l fun _ l' =>
      l'.Of ((s.credit (estimateEntryBytes key v)).touch key) ∧ l'.Points key a := by
  refine .step (h.deref ha hv) ?_
  obtain ⟨l₁, hcredit, h₁, hkeep⟩ := h.credit (estimateEntryBytes key v)
  exact .step hcredit (h₁.touch (hkeep _ _ ha) hv)

theorem bytesAt_some (hv : s.data.get key = some v) : s.bytesAt key = estimateEntryBytes key v := by
  rw [Store.bytesAt, hv]

theorem set_follows (pick : Nat) (draw : Nat → Nat → Nat) (key value : Bytes) :
    Follows (set pick draw key value) fun s => (s.set draw key value, ()) := by
  intro l s h
  have hv := get_set s key { type := .string, strValue := value }
  obtain ⟨p, hfind, hbytes⟩ := h.bytesAt key
  obtain ⟨l₁, hinsert, h₁⟩ := h.insert pick key { type := .string, strValue := value }
  obtain ⟨a, hfind₁, ha⟩ := h₁.found hv
  obtain ⟨l₂, hdebit, h₂, hkeep⟩ := h₁.debit (s.bytesAt key)
  refine .step hfind (.step hbytes (.step hinsert (.step hfind₁ (.step hdebit ?_))))
  refine (h₂.charge (hkeep _ _ ha) (by rw [Store.debit_data]; exact hv)).then fun _ l₃ h₃ => ?_
  rw [← bytesAt_some (s := { s with data := (s.data.set key { type := .string, strValue := value }).1 }) hv] at h₃
  exact evict_follows draw l₃ _ h₃.1

theorem delLoop_follows (now : Time) (keys : List Bytes) (removed : Int) :
    Follows (delLoop now removed keys) fun s => keys.foldl (Store.delOne now) (s, removed) := by
  induction keys generalizing removed with
  | nil => exact fun l s h => .pure ⟨rfl, h⟩
  | cons key keys ih =>
    intro l s h
    dsimp only
    rw [List.foldl_cons, Store.delOne]
    rcases h.find key with ⟨a, v, hfind, ha, hv⟩ | ⟨hfind, hv⟩
    · obtain ⟨l₁, hdebit, h₁, hkeep⟩ := h.debit (estimateEntryBytes key v)
      obtain ⟨l₂, herase, h₂⟩ := h₁.erase key
      have hv₁ : (s.debit (estimateEntryBytes key v)).data.get key = some v := by rw [Store.debit_data]; exact hv
      refine .step hfind (.step (h.deref ha hv) (.step hdebit (.step (h₁.deref (hkeep _ _ ha) hv₁) (.step herase ?_))))
      rw [Store.debit_data] at h₂
      rw [hv]
      exact ih _ l₂ _ h₂
    · rw [hv]
      exact .step hfind (ih removed l s h)

theorem expire_follows (rep : ClockRep) (now : Time) (key : Bytes) (seconds : Int) :
    Follows (expire rep now key seconds) (Store.expire rep now key seconds) := by
  intro l s h
  unfold Store.expire
  rcases h.find key with ⟨a, v, hfind, ha, hv⟩ | ⟨hfind, hv⟩
  · refine .step hfind ?_
    rw [if_neg (Option.some_ne_none a), hv]
    refine .step (h.deref ha hv) ?_
    dsimp only
    by_cases hx : isExpired now v = true
    · rw [if_pos hx, if_pos hx]
      exact (h.discard ha hv).then fun _ l' h' => .pure ⟨rfl, h'⟩
    · rw [if_neg hx, if_neg hx]
      by_cases hs : seconds ≤ 0
      · rw [if_pos hs, if_pos hs]
        exact (h.discard ha hv).then fun _ l' h' => .pure ⟨rfl, h'⟩
      · rw [if_neg hs, if_neg hs]
        obtain ⟨l', hwrite, h', -⟩ := h.write ha
          { v with expiresAt := some (rep.count (now + rep.count (seconds * 1000000000))) }
        exact .step (h.deref ha hv) (.step hwrite (.pure ⟨rfl, h'⟩))
  · refine .step hfind ?_
    rw [if_pos rfl, hv]
    exact .pure ⟨rfl, h⟩

/-- What `GetOrCreateList` and `GetOrCreateHash` return: a null pointer for no value, and the
address of the key's node for the value that is there now. -/
def Created (key : Bytes) (p : Pointer) (l : LinkedStore) : Store × Option Value → Prop
  | (s, none) => p = none ∧ l.Of s
  | (s, some v) => ∃ a, p = some a ∧ l.Of s ∧ l.Points key a ∧ s.data.get key = some v

/-- The pointer that is left is what another lookup would return. -/
theorem dropExpired_does (now : Time) {p : Pointer} (h : l.Of s) (hfind : find key l = some (p, l)) :
    Does (dropExpired now key p) l fun p' l' => l'.Of (s.deleteIfExpired now key).1 ∧ find key l' = some (p', l') := by
  unfold Store.deleteIfExpired
  rcases h.find key with ⟨a, v, hfind', ha, hv⟩ | ⟨hfind', hv⟩
  · obtain ⟨rfl, -⟩ := Prod.mk.inj (Option.some.inj (hfind.symm.trans hfind'))
    rw [hv]
    refine .step (h.deref ha hv) ?_
    dsimp only
    by_cases hx : isExpired now v = true
    · rw [if_pos hx, if_pos hx]
      refine (h.discard ha hv).then fun _ l' h' => .pure ⟨h', h'.absent ?_⟩
      rw [HashTable.get_eq, Store.discard_data, Finmap.lookup_erase]
    · rw [if_neg hx, if_neg hx]
      exact .pure ⟨h, hfind⟩
  · obtain ⟨rfl, -⟩ := Prod.mk.inj (Option.some.inj (hfind.symm.trans hfind'))
    rw [hv]
    exact .pure ⟨h, hfind⟩

theorem getOrCreate_does (type : ValueType) (pick : Nat) (now : Time) (key : Bytes) (h : l.Of s) :
    Does (getOrCreate type pick now key) l fun p l' => Created key p l' (s.getOrCreate type now key) := by
  obtain ⟨p, hfind, -⟩ := h.bytesAt key
  refine .step hfind ((dropExpired_does now h hfind).then fun p' l₁ ⟨h₁, hfind₁⟩ => ?_)
  rw [Store.getOrCreate]
  rcases h₁.find key with ⟨a, v, hfind', ha, hv⟩ | ⟨hfind', hv⟩
  · obtain ⟨rfl, -⟩ := Prod.mk.inj (Option.some.inj (hfind₁.symm.trans hfind'))
    dsimp only
    rw [hv]
    refine .step (h₁.deref ha hv) ?_
    dsimp only
    by_cases ht : v.type ≠ type
    · rw [if_pos ht, if_pos ht]
      exact .pure ⟨rfl, h₁⟩
    · rw [if_neg ht, if_neg ht]
      exact .pure ⟨a, rfl, h₁, ha, hv⟩
  · obtain ⟨rfl, -⟩ := Prod.mk.inj (Option.some.inj (hfind₁.symm.trans hfind'))
    dsimp only
    rw [hv]
    dsimp only
    have hv₂ := get_set (s.deleteIfExpired now key).1 key { type }
    obtain ⟨l₂, hinsert, h₂⟩ := h₁.insert pick key { type }
    obtain ⟨a, hfind₂, ha⟩ := h₂.found hv₂
    refine .step hinsert (.step hfind₂ ((h₂.charge ha hv₂).then fun _ l₃ ⟨h₃, ha₃⟩ => ?_))
    rw [← bytesAt_some (s := { (s.deleteIfExpired now key).1 with
      data := ((s.deleteIfExpired now key).1.data.set key { type }).1 }) hv₂] at h₃
    obtain ⟨v, hv₃⟩ := h₃.value ha₃
    rw [hv₃]
    exact .pure ⟨a, rfl, h₃, ha₃, hv₃⟩

theorem get_assign (hv : s.data.get key = some v) (v' : Value) : (s.data.assign key v').get key = some v' := by
  have hmem : key ∈ s.data.toFinmap := Finmap.mem_of_lookup_eq_some ((s.data.get_eq key).symm.trans hv)
  rw [HashTable.get_eq, HashTable.toFinmap_assign _ _ _ hmem, Finmap.lookup_insert]

theorem get_touch (hv : s.data.get key = some v) :
    (s.touch key).data.get key = some { v with lastAccessedSeq := s.accessClock } := by
  rw [Store.touch, hv]
  exact get_assign hv _

theorem get_rewrite (hv : s.data.get key = some v) (v' : Value) : (s.rewrite key v v').data.get key = some v' := by
  rw [Store.rewrite, Store.credit, Store.debit_data]
  exact get_assign hv v'

/-- A value overwritten through its pointer, the counter moved by the difference and the
entry stamped. -/
theorem Of.rewrite (h : l.Of s) (ha : l.Points key a) (hv : s.data.get key = some v) (v' : Value) {β : Type}
    {rest : Action β} {Q : β → LinkedStore → Prop}
    (hrest : ∀ l', l'.Of ((s.rewrite key v v').touch key) → l'.Points key a → Does rest l' Q) :
    Does (do
      LinkedStore.write (some a) v'
      LinkedStore.debit (estimateEntryBytes key v)
      LinkedStore.charge key (some a)
      rest) l Q := by
  obtain ⟨l₁, hwrite, h₁, ha₁⟩ := h.write ha v'
  obtain ⟨l₂, hdebit, h₂, hkeep⟩ := h₁.debit (estimateEntryBytes key v)
  refine .step hwrite (.step hdebit ?_)
  refine (h₂.charge (hkeep _ _ ha₁) (by rw [Store.debit_data]; exact get_assign hv v')).then fun _ l₃ h₃ => ?_
  exact hrest l₃ h₃.1 h₃.2

theorem push_follows (join : List Bytes → List Bytes → List Bytes) (pick : Nat) (draw : Nat → Nat → Nat) (now : Time)
    (key : Bytes) (values : List Bytes) :
    Follows (push join pick draw now key values) (Store.push join draw now key values) := by
  intro l s h
  refine (getOrCreate_does .list pick now key h).then fun p l₁ hp => ?_
  unfold Store.push Store.getOrCreateList
  rcases hc : s.getOrCreate .list now key with ⟨s₁, _ | list⟩
  · rw [hc] at hp
    obtain ⟨rfl, h₁⟩ := hp
    exact .pure ⟨rfl, h₁⟩
  · rw [hc] at hp
    obtain ⟨a, rfl, h₁, ha, hv⟩ := hp
    have hread := h₁.deref ha hv
    refine .step hread (.step hread (.step hread ?_))
    refine h₁.rewrite ha hv _ fun l₂ h₂ ha₂ => ?_
    -- the reply is read before the eviction
    refine .step (h₂.deref ha₂ (get_touch (get_rewrite hv _))) ?_
    exact (evict_follows draw l₂ _ h₂).then fun _ l₃ h₃ => .pure ⟨rfl, h₃.2⟩

theorem hSet_follows (pick : Nat) (draw : Nat → Nat → Nat) (now : Time) (key : Bytes) (fields : List (Bytes × Bytes)) :
    Follows (hSet pick draw now key fields) (Store.hSet draw now key fields) := by
  intro l s h
  refine (getOrCreate_does .hash pick now key h).then fun p l₁ hp => ?_
  unfold Store.hSet Store.getOrCreateHash
  rcases hc : s.getOrCreate .hash now key with ⟨s₁, _ | hash⟩
  · rw [hc] at hp
    obtain ⟨rfl, h₁⟩ := hp
    exact .pure ⟨rfl, h₁⟩
  · rw [hc] at hp
    obtain ⟨a, rfl, h₁, ha, hv⟩ := hp
    have hread := h₁.deref ha hv
    refine .step hread (.step hread (.step hread ?_))
    refine h₁.rewrite ha hv _ fun l₂ h₂ ha₂ => ?_
    exact (evict_follows draw l₂ _ h₂).then fun _ l₃ h₃ => .pure ⟨rfl, h₃.2⟩

theorem hDel_follows (now : Time) (key : Bytes) (fields : List Bytes) :
    Follows (hDel now key fields) (Store.hDel now key fields) := by
  intro l s h
  unfold Store.hDel
  rcases h.find key with ⟨a, v, hfind, ha, hv⟩ | ⟨hfind, hv⟩
  · have hread := h.deref ha hv
    refine .step hfind ?_
    rw [if_neg (Option.some_ne_none a), hv]
    refine .step hread ?_
    dsimp only
    by_cases hx : isExpired now v = true
    · rw [if_pos hx, if_pos hx]
      exact (h.discard ha hv).then fun _ l' h' => .pure ⟨rfl, h'⟩
    rw [if_neg hx, if_neg hx]
    refine .step hread ?_
    by_cases ht : v.type ≠ .hash
    · rw [if_pos ht, if_pos ht]
      exact .pure ⟨rfl, h⟩
    rw [if_neg ht, if_neg ht]
    refine .step hread (.step hread (.step hread ?_))
    rcases hd : Store.deleteFields v.hashValue fields with ⟨table, removed⟩
    dsimp only
    obtain ⟨l₁, hwrite, h₁, ha₁⟩ := h.write ha { v with hashValue := table }
    obtain ⟨l₂, hdebit, h₂, hkeep⟩ := h₁.debit (estimateEntryBytes key v)
    refine .step hwrite (.step (h₁.deref ha₁ (get_assign hv _)) ?_)
    by_cases hempty : table.len = 0
    · obtain ⟨l₃, herase, h₃⟩ := h₂.erase key
      rw [if_pos hempty, if_pos hempty]
      exact .step hdebit (.step herase (.pure ⟨rfl, h₃⟩))
    · have hv₂ : (({ s with data := s.data.assign key { v with hashValue := table } } : Store).debit
          (estimateEntryBytes key v)).data.get key = some { v with hashValue := table } := by
        rw [Store.debit_data]
        exact get_assign hv _
      rw [if_neg hempty, if_neg hempty]
      exact .step hdebit ((h₂.charge (hkeep _ _ ha₁) hv₂).then fun _ l₃ h₃ => .pure ⟨rfl, h₃.1⟩)
  · refine .step hfind ?_
    rw [if_pos rfl, hv]
    exact .pure ⟨rfl, h⟩

/-! ### Reads -/

theorem read_follows {α : Type} (type : ValueType) (absent : Result α) {view : Value → Result α}
    (hview : ∀ v seq, view { v with lastAccessedSeq := seq } = view v) (now : Time) (key : Bytes) :
    Follows (read type absent view now key) fun s => (s.read type absent view now key).finish now := by
  intro l s h
  dsimp only
  unfold Store.read
  rcases h.find key with ⟨a, v, hfind, ha, hv⟩ | ⟨hfind, hv⟩
  · have hread := h.deref ha hv
    refine .step hfind ?_
    rw [if_neg (Option.some_ne_none a), hv]
    refine .step hread ?_
    dsimp only
    by_cases hx : isExpired now v = true
    · rw [if_pos hx, if_pos hx]
      exact (deleteIfExpired_follows now key l s h).then fun _ l' h' => .pure ⟨rfl, h'.2⟩
    rw [if_neg hx, if_neg hx]
    refine .step hread ?_
    by_cases ht : v.type ≠ type
    · rw [if_pos ht, if_pos ht]
      exact .pure ⟨rfl, h⟩
    · rw [if_neg ht, if_neg ht]
      refine (h.touch ha hv).then fun _ l₁ ⟨h₁, ha₁⟩ => ?_
      exact .step (h₁.deref ha₁ (get_touch hv)) (.pure ⟨hview v _, h₁⟩)
  · refine .step hfind ?_
    rw [if_pos rfl, hv]
    exact .pure ⟨rfl, h⟩

theorem existsLoop_does (h : l.Of s) (now : Time) (keys : List Bytes) (count : Int) (stale : List Bytes) :
    Does (existsLoop now count stale keys) l fun r l' => l' = l ∧
      r = (count + keys.countP (fun key => match s.data.get key with
        | none => false
        | some v => !isExpired now v), stale ++ (s.exists' now keys).stale) := by
  induction keys generalizing count stale with
  | nil => exact .pure ⟨rfl, by simp [Store.exists']⟩
  | cons key keys ih =>
    rcases h.find key with ⟨a, v, hfind, ha, hv⟩ | ⟨hfind, hv⟩
    · refine .step hfind ?_
      rw [if_neg (Option.some_ne_none a)]
      refine .step (h.deref ha hv) ?_
      by_cases hx : isExpired now v = true
      · rw [if_pos hx]
        refine (ih count (stale ++ [key])).mono fun r l' hr => ⟨hr.1, hr.2.trans ?_⟩
        simp only [Store.exists', List.countP_cons, List.filter_cons, hv, hx]
        simp
      · rw [if_neg hx]
        refine (ih (count + 1) stale).mono fun r l' hr => ⟨hr.1, hr.2.trans ?_⟩
        simp only [Store.exists', List.countP_cons, List.filter_cons, hv, hx]
        simp
        omega
    · refine .step hfind ?_
      rw [if_pos rfl]
      refine (ih count stale).mono fun r l' hr => ⟨hr.1, hr.2.trans ?_⟩
      simp only [Store.exists', List.countP_cons, List.filter_cons, hv]
      simp

theorem exists_follows (now : Time) (keys : List Bytes) :
    Follows (exists' now keys) fun s => (s.exists' now keys).finish now := by
  intro l s h
  refine (existsLoop_does h now keys 0 []).then ?_
  rintro r l' ⟨rfl, rfl⟩
  rw [Int.zero_add, List.nil_append]
  exact (deleteAllExpired_follows now _ l' s h).then fun _ l₁ h₁ => .pure ⟨rfl, h₁.2⟩

theorem keys_follows (now : Time) : Follows (keys now) fun s => (s.keys now).finish now := by
  intro l s h
  refine .step h.nodes ?_
  exact (deleteAllExpired_follows now _ l s h).then fun _ l₁ h₁ => .pure ⟨rfl, h₁.2⟩

theorem ttl_follows (now : Time) (key : Bytes) : Follows (ttl now key) fun s => (s.ttl now key).finish now := by
  intro l s h
  dsimp only
  unfold Store.ttl
  rcases h.find key with ⟨a, v, hfind, ha, hv⟩ | ⟨hfind, hv⟩
  · have hread := h.deref ha hv
    refine .step hfind ?_
    rw [if_neg (Option.some_ne_none a), hv]
    refine .step hread ?_
    dsimp only
    by_cases hx : isExpired now v = true
    · rw [if_pos hx, if_pos hx]
      exact (deleteIfExpired_follows now key l s h).then fun _ l' h' => .pure ⟨rfl, h'.2⟩
    rw [if_neg hx, if_neg hx]
    refine .step hread ?_
    cases v.expiresAt with
    | none => exact .pure ⟨rfl, h⟩
    | some deadline => exact .pure ⟨rfl, h⟩
  · refine .step hfind ?_
    rw [if_pos rfl, hv]
    exact .pure ⟨rfl, h⟩

/-- **Every call** on the table in memory has a result, and it is the store's. -/
theorem exec_follows (env : Env) (pick : Nat) (c : Call) : Follows (exec env pick c) fun s => s.exec env c := by
  cases c with
  | set key value => exact set_follows pick env.draw key value
  | get key => exact read_follows _ _ (fun _ _ => rfl) env.now key
  | del keys =>
    exact fun l s h => (delLoop_follows env.now keys 0 l s h).then fun _ l' h' => .pure ⟨congrArg asInt h'.1, h'.2⟩
  | exists' keys => exact exists_follows env.now keys
  | keys => exact keys_follows env.now
  | flushAll => exact fun l s h => let ⟨l', hclear, h'⟩ := h.clear; ⟨_, l', hclear, rfl, h'⟩
  | expire key seconds => exact expire_follows env.rep env.now key seconds
  | ttl key => exact ttl_follows env.now key
  | lPush key values => exact push_follows _ pick env.draw env.now key values
  | rPush key values => exact push_follows _ pick env.draw env.now key values
  | hSet key fields => exact hSet_follows pick env.draw env.now key fields
  | hDel key fields => exact hDel_follows env.now key fields
  | lLen key => exact read_follows _ _ (fun _ _ => rfl) env.now key
  | lRange key start stop => exact read_follows _ _ (fun _ _ => rfl) env.now key
  | hGet key field => exact read_follows _ _ (fun _ _ => rfl) env.now key
  | hGetAll key => exact read_follows _ _ (fun _ _ => rfl) env.now key
  | hLen key => exact read_follows _ _ (fun _ _ => rfl) env.now key
  | hExists key field => exact read_follows _ _ (fun _ _ => rfl) env.now key
  | hKeys key => exact read_follows _ _ (fun _ _ => rfl) env.now key
  | hVals key => exact read_follows _ _ (fun _ _ => rfl) env.now key

/-! ### Runs -/

theorem loadEntries_follows (rep : ClockRep) (steadyNow wallNow : Time) (picks : Nat → Nat)
    (entries : List SnapshotEntry) :
    Follows (loadEntries rep steadyNow wallNow picks entries) fun s =>
      (entries.foldl (Store.loadEntry rep steadyNow wallNow) s, ()) := by
  induction entries generalizing picks with
  | nil => exact fun l s h => .pure ⟨rfl, h⟩
  | cons entry entries ih =>
    intro l s h
    dsimp only
    rw [List.foldl_cons, Store.loadEntry, loadEntries]
    by_cases hx : entry.expiresAtWall.any (· ≤ wallNow) = true
    · rw [if_pos hx, if_pos hx]
      exact ih _ l s h
    · have hv := get_set s entry.key (Store.loadValue rep steadyNow wallNow entry)
      obtain ⟨l₁, hinsert, h₁⟩ := h.insert (picks 0) entry.key (Store.loadValue rep steadyNow wallNow entry)
      obtain ⟨a, hfind, ha⟩ := h₁.found hv
      rw [if_neg hx, if_neg hx]
      refine .step hinsert (.step hfind ((h₁.charge ha hv).then fun _ l₂ h₂ => ?_))
      rw [← bytesAt_some (s := { s with
        data := (s.data.set entry.key (Store.loadValue rep steadyNow wallNow entry)).1 }) hv] at h₂
      exact ih _ l₂ _ h₂.1

theorem operate_follows (picks : Nat → Nat) (op : Store.Operation) :
    Follows (operate picks op) fun s => (s.operate op, ()) := by
  intro l s h
  cases op with
  | call env c => exact (exec_follows env (picks 0) c l s h).then fun _ l' h' => .pure ⟨rfl, h'.2⟩
  | setMaxMemory draw max => exact setMaxMemory_follows draw max l s h
  | sweepExpired now => exact sweepExpired_follows now l s h
  | deleteIfExpired now key => exact (deleteIfExpired_follows now key l s h).then fun _ l' h' => .pure ⟨rfl, h'.2⟩
  | loadSnapshot rep steadyNow wallNow draw entries =>
    obtain ⟨l₁, hclear, h₁⟩ := h.clear
    refine .step hclear ((loadEntries_follows rep steadyNow wallNow picks entries l₁ _ h₁).then fun _ l₂ h₂ => ?_)
    exact evict_follows draw l₂ _ h₂.2

theorem run_follows (ops : List ((Nat → Nat) × Store.Operation)) :
    Follows (run ops) fun s => ((ops.map Prod.snd).foldl Store.operate s, ()) := by
  induction ops with
  | nil => exact fun l s h => .pure ⟨rfl, h⟩
  | cons op ops ih =>
    intro l s h
    exact (operate_follows op.1 op.2 l s h).then fun _ l' h' => ih l' _ h'.2

/-- **No pointer dangles.** Any run of the store's operations from a fresh store, whatever
addresses the allocator returns, budgets, evictions, sweeps and loads included, runs without
dereferencing a null or freed node, and so does any call after it. The call's reply is the
store's, and there is an allocated node for each entry of the store and no other. -/
theorem run_valid (ops : List ((Nat → Nat) × Store.Operation)) :
    ∃ l, run ops {} = some ((), l) ∧
      l.data.heap.memory.keys.card = ((ops.map Prod.snd).foldl Store.operate {}).data.len ∧
      ∀ env pick c, ∃ l',
        exec env pick c l = some ((((ops.map Prod.snd).foldl Store.operate {}).exec env c).2, l') := by
  obtain ⟨_, l, hrun, -, hof⟩ := run_follows ops {} {} fresh_of
  refine ⟨l, hrun, hof.data.allocated, fun env pick c => ?_⟩
  obtain ⟨r, l', hexec, rfl, -⟩ := exec_follows env pick c l _ hof
  exact ⟨l', hexec⟩

end GoRedis.LinkedStore
