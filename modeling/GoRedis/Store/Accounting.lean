import GoRedis.Store.Discards

/-! Memory accounting.

`used_memory_bytes_` is adjusted by hand wherever an entry is written, rewritten in
place or deleted. `Accounted` says that it is the sum of the sizes of the entries
physically in the table and that no `-=` ever took more than was there; every call,
sweep, budget change and load keeps it (`event_accounted`), hence every run. -/
namespace GoRedis
namespace Store
open Keyed

/-- The size of everything in the table. -/
def entriesBytes (s : Store) : Nat :=
  (s.data.nodes.map fun node => estimateEntryBytes node.1 node.2).sum

structure Accounted (s : Store) : Prop where
  used : s.usedMemoryBytes = s.entriesBytes
  unwrapped : s.wrapped = false

theorem entriesBytes_eq (s : Store) : s.entriesBytes = total estimateEntryBytes s.data.toFinmap := rfl

/-- `Accounted`, read off the finite map. -/
theorem accounted_iff (s : Store) : s.Accounted ↔
    s.usedMemoryBytes = total estimateEntryBytes s.data.toFinmap ∧ s.wrapped = false :=
  ⟨fun h => ⟨h.used, h.unwrapped⟩, fun h => ⟨h.1, h.2⟩⟩

theorem fresh_accounted : ({} : Store).Accounted := ⟨rfl, rfl⟩

theorem debit_of_le {s : Store} {bytes : Nat} (h : bytes ≤ s.usedMemoryBytes) :
    s.debit bytes = { s with usedMemoryBytes := s.usedMemoryBytes - bytes } := if_pos h

@[simp] theorem debit_data (s : Store) (bytes : Nat) : (s.debit bytes).data = s.data := by
  unfold debit
  split <;> rfl

/-- What is at a key is part of the whole. -/
theorem Accounted.le {s : Store} (h : s.Accounted) {key : Bytes} {v : Value}
    (hv : s.data.toFinmap.lookup key = some v) : estimateEntryBytes key v ≤ s.usedMemoryBytes := by
  rw [h.used, entriesBytes_eq, ← total_erase estimateEntryBytes hv]
  exact Nat.le_add_left ..

theorem discard_accounted {s : Store} (h : s.Accounted) {key : Bytes} {v : Value}
    (hv : s.data.toFinmap.lookup key = some v) : (s.discard key v).Accounted := by
  rw [accounted_iff, discard, debit_of_le (h.le hv)]
  refine ⟨?_, h.unwrapped⟩
  have htotal := total_erase estimateEntryBytes hv
  have hused := h.used
  rw [entriesBytes_eq] at hused
  rw [HashTable.toFinmap_delete]
  show s.usedMemoryBytes - _ = _
  omega

/-- A value in the table exchanged for one of the same size. -/
theorem assign_accounted {s : Store} (h : s.Accounted) {key : Bytes} {v v' : Value}
    (hv : s.data.toFinmap.lookup key = some v)
    (hsize : estimateEntryBytes key v' = estimateEntryBytes key v) (clock : Nat) :
    ({ s with data := s.data.assign key v', accessClock := clock } : Store).Accounted := by
  rw [accounted_iff]
  refine ⟨?_, h.unwrapped⟩
  show s.usedMemoryBytes = total estimateEntryBytes (s.data.assign key v').toFinmap
  rw [HashTable.toFinmap_assign _ _ _ (Finmap.mem_of_lookup_eq_some hv), total_insert, hsize,
    total_erase estimateEntryBytes hv]
  exact h.used

theorem touch_accounted {s : Store} (h : s.Accounted) (key : Bytes) : (s.touch key).Accounted := by
  unfold touch
  split
  · next v hv =>
    refine assign_accounted h (v := v) (by simpa using hv) ?_ _
    rfl
  · exact h

theorem rewrite_accounted {s : Store} (h : s.Accounted) {key : Bytes} {v : Value}
    (hv : s.data.toFinmap.lookup key = some v) (v' : Value) : (s.rewrite key v v').Accounted := by
  have hle : estimateEntryBytes key v ≤
      ({ s with data := s.data.assign key v' } : Store).usedMemoryBytes := h.le hv
  rw [accounted_iff, rewrite, debit_of_le hle]
  refine ⟨?_, h.unwrapped⟩
  have htotal := total_erase estimateEntryBytes hv
  have hused := h.used
  rw [entriesBytes_eq] at hused
  show s.usedMemoryBytes - estimateEntryBytes key v + estimateEntryBytes key v' =
    total estimateEntryBytes (s.data.assign key v').toFinmap
  rw [HashTable.toFinmap_assign _ _ _ (Finmap.mem_of_lookup_eq_some hv), total_insert]
  omega

/-- The size at a key, and the size of the rest, are the whole. -/
theorem bytesAt_add (s : Store) (key : Bytes) :
    total estimateEntryBytes (s.data.toFinmap.erase key) + s.bytesAt key = s.entriesBytes := by
  rw [entriesBytes_eq, bytesAt, HashTable.get_eq]
  cases hv : s.data.toFinmap.lookup key with
  | some v => exact total_erase estimateEntryBytes hv
  | none => rw [erase_of_lookup hv, Nat.add_zero]

/-- A key overwritten: the old size, if any, given back and the new one charged. -/
theorem overwrite_accounted {s : Store} (h : s.Accounted) (key : Bytes) (v : Value) :
    let s' : Store := { s with data := (s.data.set key v).1 }
    ((s'.debit (s.bytesAt key)).credit (s'.bytesAt key)).Accounted := by
  intro s'
  have hbytes : s'.bytesAt key = estimateEntryBytes key v := by simp [bytesAt, s']
  have hwhole := s.bytesAt_add key
  have hused := h.used
  have hle : s.bytesAt key ≤ s'.usedMemoryBytes := by
    show s.bytesAt key ≤ s.usedMemoryBytes
    omega
  rw [accounted_iff, debit_of_le hle]
  refine ⟨?_, h.unwrapped⟩
  show s.usedMemoryBytes - s.bytesAt key + s'.bytesAt key =
    total estimateEntryBytes (s.data.set key v).1.toFinmap
  rw [HashTable.toFinmap_set, total_insert, hbytes]
  omega

/-- A key that is absent gets a value: there is nothing to give back. -/
theorem insert_accounted {s : Store} (h : s.Accounted) {key : Bytes}
    (hk : s.data.toFinmap.lookup key = none) (v : Value) :
    let s' : Store := { s with data := (s.data.set key v).1 }
    (s'.credit (s'.bytesAt key)).Accounted := by
  intro s'
  have hzero : s.bytesAt key = 0 := by simp [bytesAt, hk]
  have hover : ((s'.debit (s.bytesAt key)).credit (s'.bytesAt key)).Accounted :=
    overwrite_accounted h key v
  rwa [hzero, debit_of_le (Nat.zero_le _)] at hover

/-! ### Expiry and eviction -/

theorem Discards.accounted {s s' : Store} (hd : Discards s s') (h : s.Accounted) : s'.Accounted :=
  hd.keeps (fun hv hs => discard_accounted hs hv) h

theorem deleteIfExpired_accounted {s : Store} (h : s.Accounted) (now : Time) (key : Bytes) :
    (s.deleteIfExpired now key).1.Accounted := (s.deleteIfExpired_discards now key).accounted h

theorem deleteAllExpired_accounted {s : Store} (h : s.Accounted) (now : Time) (keys : List Bytes) :
    (s.deleteAllExpired now keys).Accounted := (s.deleteAllExpired_discards now keys).accounted h

theorem evict_accounted (draw : Nat → Nat → Nat) {s : Store} (h : s.Accounted) :
    (evictIfOverBudget draw s).Accounted := (s.evict_discards draw).accounted h

/-! ### Calls -/

theorem set_accounted {s : Store} (h : s.Accounted) (draw : Nat → Nat → Nat) (key value : Bytes) :
    (s.set draw key value).Accounted :=
  evict_accounted draw (touch_accounted (overwrite_accounted h key _) key)

theorem del_accounted {s : Store} (h : s.Accounted) (now : Time) (keys : List Bytes) :
    (s.del now keys).1.Accounted := (s.del_discards now keys).accounted h

theorem expire_accounted {s : Store} (h : s.Accounted) (rep : ClockRep) (now : Time) (key : Bytes)
    (seconds : Int) : (s.expire rep now key seconds).1.Accounted := by
  unfold expire
  split
  · exact h
  · next v hv =>
    have hv : s.data.toFinmap.lookup key = some v := by simpa using hv
    split
    · exact discard_accounted h hv
    · split
      · exact discard_accounted h hv
      · refine assign_accounted h hv ?_ _
        rfl

/-- A dropped stale entry leaves the key absent. -/
theorem discard_lookup (s : Store) (key : Bytes) (v : Value) :
    (s.discard key v).data.toFinmap.lookup key = none := by
  show (s.data.delete key).1.toFinmap.lookup key = none
  rw [HashTable.toFinmap_delete, Finmap.lookup_erase]

theorem touch_data {s : Store} {key : Bytes} {v : Value} (hv : s.data.toFinmap.lookup key = some v) :
    (s.touch key).data.toFinmap =
      s.data.toFinmap.insert key { v with lastAccessedSeq := s.accessClock } := by
  have hget : s.data.get key = some v := by rw [HashTable.get_eq, hv]
  simp only [touch, hget]
  exact HashTable.toFinmap_assign _ _ _ (Finmap.mem_of_lookup_eq_some hv)

theorem touch_lookup {s : Store} {key : Bytes} {v : Value} (hv : s.data.toFinmap.lookup key = some v) :
    (s.touch key).data.toFinmap.lookup key = some { v with lastAccessedSeq := s.accessClock } := by
  rw [touch_data hv, Finmap.lookup_insert]

/-- What `getOrCreate` returns is accounted for and is what the table holds. -/
theorem getOrCreate_accounted {s : Store} (h : s.Accounted) (type : ValueType) (now : Time)
    (key : Bytes) : (s.getOrCreate type now key).1.Accounted ∧
      ∀ v, (s.getOrCreate type now key).2 = some v →
        (s.getOrCreate type now key).1.data.toFinmap.lookup key = some v := by
  have h' := deleteIfExpired_accounted h now key
  unfold getOrCreate
  generalize (s.deleteIfExpired now key).1 = s' at h'
  dsimp only
  split
  · next hk =>
    refine ⟨touch_accounted (insert_accounted h' (by simpa using hk) _) key, fun v hv => ?_⟩
    simpa using hv
  · next v hv =>
    split
    · exact ⟨h', fun v' hv' => by simp at hv'⟩
    · refine ⟨h', fun v' hv' => ?_⟩
      obtain rfl : v = v' := by simpa using hv'
      simpa using hv

theorem push_accounted {s : Store} (h : s.Accounted) (join : List Bytes → List Bytes → List Bytes)
    (draw : Nat → Nat → Nat) (now : Time) (key : Bytes) (values : List Bytes) :
    (s.push join draw now key values).1.Accounted := by
  obtain ⟨h', hlook⟩ := getOrCreate_accounted h .list now key
  unfold push getOrCreateList
  split
  · next s' hs => rwa [hs] at h'
  · next s' list hs =>
    rw [hs] at h' hlook
    exact evict_accounted draw (touch_accounted (rewrite_accounted h' (hlook list rfl) _) key)

theorem hSet_accounted {s : Store} (h : s.Accounted) (draw : Nat → Nat → Nat) (now : Time)
    (key : Bytes) (fields : List (Bytes × Bytes)) : (s.hSet draw now key fields).1.Accounted := by
  obtain ⟨h', hlook⟩ := getOrCreate_accounted h .hash now key
  unfold hSet getOrCreateHash
  split
  · next s' hs => rwa [hs] at h'
  · next s' hash hs =>
    rw [hs] at h' hlook
    exact evict_accounted draw (touch_accounted (rewrite_accounted h' (hlook hash rfl) _) key)

theorem hDel_accounted {s : Store} (h : s.Accounted) (now : Time) (key : Bytes)
    (fields : List Bytes) : (s.hDel now key fields).1.Accounted := by
  unfold hDel
  split
  · exact h
  · next v hv =>
    have hv : s.data.toFinmap.lookup key = some v := by simpa using hv
    split
    · exact discard_accounted h hv
    · split
      · exact h
      · dsimp only
        split
        · -- the emptied hash: its old size is given back, then the key is deleted
          have hdrop := discard_accounted h hv
          rw [accounted_iff] at hdrop ⊢
          have hle : estimateEntryBytes key v ≤ s.usedMemoryBytes := h.le hv
          rw [discard, debit_of_le hle] at hdrop
          rw [debit_of_le (by exact hle)]
          refine ⟨hdrop.1.trans ?_, h.unwrapped⟩
          simp only [HashTable.toFinmap_delete]
          rw [HashTable.toFinmap_assign _ _ _ (Finmap.mem_of_lookup_eq_some hv), erase_insert_same]
        · exact touch_accounted (rewrite_accounted h hv _) key

theorem read_accounted {α : Type} {s : Store} (h : s.Accounted) (type : ValueType)
    (absent : Result α) (view : Value → Result α) (now : Time) (key : Bytes) :
    (s.read type absent view now key).store.Accounted := by
  unfold read
  split
  · exact h
  · split
    · exact h
    · split
      · exact h
      · exact touch_accounted h key

theorem ttl_store (s : Store) (now : Time) (key : Bytes) : (s.ttl now key).store = s := by
  unfold ttl
  split
  · rfl
  · split
    · rfl
    · split <;> rfl

theorem finish_accounted {α : Type} {r : Shared α} (h : r.store.Accounted) (now : Time) :
    (r.finish now).1.Accounted :=
  deleteAllExpired_accounted h now r.stale

theorem exec_accounted {s : Store} (h : s.Accounted) (env : Env) (c : Call) :
    (s.exec env c).1.Accounted := by
  cases c with
  | set key value => exact set_accounted h env.draw key value
  | del keys => exact del_accounted h env.now keys
  | flushAll => exact ⟨rfl, h.unwrapped⟩
  | expire key seconds => exact expire_accounted h env.rep env.now key seconds
  | lPush key values | rPush key values => exact push_accounted h _ env.draw env.now key values
  | hSet key fields => exact hSet_accounted h env.draw env.now key fields
  | hDel key fields => exact hDel_accounted h env.now key fields
  | exists' keys | keys => exact finish_accounted h env.now
  | ttl key => exact finish_accounted (by rw [ttl_store]; exact h) env.now
  | get _ | lLen _ | lRange _ _ _ | hGet _ _ | hGetAll _ | hLen _ | hExists _ _ | hKeys _ | hVals _ =>
    exact finish_accounted (read_accounted h ..) env.now

/-! ### Loading -/

theorem loadEntry_accounted {s : Store} (h : s.Accounted) (rep : ClockRep) (steadyNow wallNow : Time)
    {entry : SnapshotEntry} (hk : s.data.toFinmap.lookup entry.key = none) :
    (s.loadEntry rep steadyNow wallNow entry).Accounted := by
  unfold loadEntry
  split
  · exact h
  · exact touch_accounted (insert_accounted h hk _) _

theorem touch_lookup_ne (s : Store) {key other : Bytes} (hne : other ≠ key) :
    (s.touch key).data.toFinmap.lookup other = s.data.toFinmap.lookup other := by
  unfold touch
  split
  · next v hv =>
    have hmem : key ∈ s.data.toFinmap := Finmap.mem_of_lookup_eq_some (by simpa using hv)
    rw [HashTable.toFinmap_assign _ _ _ hmem, Finmap.lookup_insert_of_ne _ hne]
  · rfl

/-- Loading an entry leaves the other keys alone. -/
theorem loadEntry_lookup_ne (s : Store) (rep : ClockRep) (steadyNow wallNow : Time)
    (entry : SnapshotEntry) {other : Bytes} (hne : other ≠ entry.key) :
    (s.loadEntry rep steadyNow wallNow entry).data.toFinmap.lookup other =
      s.data.toFinmap.lookup other := by
  unfold loadEntry
  split
  · rfl
  · rw [touch_lookup_ne _ hne]
    show (s.data.set entry.key _).1.toFinmap.lookup other = _
    rw [HashTable.toFinmap_set, Finmap.lookup_insert_of_ne _ hne]

/-- Entries with distinct keys, none of them in the table yet. -/
theorem loadEntries_accounted {s : Store} (h : s.Accounted) (rep : ClockRep)
    (steadyNow wallNow : Time) {entries : List SnapshotEntry}
    (hd : (entries.map SnapshotEntry.key).Nodup)
    (hk : ∀ e ∈ entries, s.data.toFinmap.lookup e.key = none) :
    (entries.foldl (loadEntry rep steadyNow wallNow) s).Accounted := by
  induction entries generalizing s with
  | nil => exact h
  | cons e rest ih =>
    obtain ⟨hnot, hd⟩ := List.nodup_cons.mp hd
    refine ih (loadEntry_accounted h rep steadyNow wallNow (hk e List.mem_cons_self)) hd ?_
    intro e' he'
    have hne : e'.key ≠ e.key := fun heq => hnot (heq ▸ List.mem_map_of_mem he')
    rw [loadEntry_lookup_ne s rep steadyNow wallNow e hne]
    exact hk e' (List.mem_cons_of_mem e he')

/-- A snapshot has each key once. -/
theorem snapshot_nodup (s : Store) (rep : ClockRep) (steadyNow wallNow : Time) :
    ((s.snapshot rep steadyNow wallNow).map SnapshotEntry.key).Nodup := by
  have hsub : ((s.snapshot rep steadyNow wallNow).map SnapshotEntry.key).Sublist s.data.nodes.keys := by
    rw [snapshot, List.map_map]
    exact List.filter_sublist.map Sigma.fst
  exact hsub.nodup s.data.wf.distinct

theorem loadSnapshot_accounted {s : Store} (h : s.Accounted) (rep : ClockRep)
    (steadyNow wallNow : Time) (draw : Nat → Nat → Nat) {entries : List SnapshotEntry}
    (hd : (entries.map SnapshotEntry.key).Nodup) :
    (s.loadSnapshot rep steadyNow wallNow draw entries).Accounted := by
  have hclear : ({ s with data := .empty, usedMemoryBytes := 0 } : Store).Accounted :=
    ⟨rfl, h.unwrapped⟩
  refine evict_accounted draw (loadEntries_accounted hclear rep steadyNow wallNow hd ?_)
  intro e _
  simp

/-! ### Runs -/

/-- Anything that may happen to a store: a public call, a change of budget, a pass of the
sweeper, an escalated deletion, a load of what some store's `Snapshot` returned. -/
inductive Event where
  | call (env : Env) (c : Call)
  | setMaxMemory (draw : Nat → Nat → Nat) (maxMemoryBytes : Nat)
  | sweepExpired (now : Time)
  | deleteIfExpired (now : Time) (key : Bytes)
  | loadSnapshot (rep : ClockRep) (steadyNow wallNow : Time) (draw : Nat → Nat → Nat)
      (source : Store) (savedSteady savedWall : Time)

def apply (s : Store) : Event → Store
  | .call env c => (s.exec env c).1
  | .setMaxMemory draw maxMemoryBytes => s.setMaxMemory draw maxMemoryBytes
  | .sweepExpired now => s.sweepExpired now
  | .deleteIfExpired now key => (s.deleteIfExpired now key).1
  | .loadSnapshot rep steadyNow wallNow draw source savedSteady savedWall =>
    s.loadSnapshot rep steadyNow wallNow draw (source.snapshot rep savedSteady savedWall)

theorem event_accounted {s : Store} (h : s.Accounted) (e : Event) : (s.apply e).Accounted := by
  cases e with
  | call env c => exact exec_accounted h env c
  | setMaxMemory draw maxMemoryBytes => exact evict_accounted draw ⟨h.used, h.unwrapped⟩
  | sweepExpired now => exact deleteAllExpired_accounted h now _
  | deleteIfExpired now key => exact deleteIfExpired_accounted h now key
  | loadSnapshot rep steadyNow wallNow draw source savedSteady savedWall =>
    exact loadSnapshot_accounted h rep steadyNow wallNow draw (source.snapshot_nodup ..)

/-- **The counter is the sum of the sizes in the table after every event of every run**,
and no `-=` on the way took more than the counter held. -/
theorem run_accounted (events : List Event) : (events.foldl apply {}).Accounted := by
  suffices h : ∀ s : Store, s.Accounted → (events.foldl apply s).Accounted from h {} fresh_accounted
  induction events with
  | nil => exact fun s h => h
  | cons e rest ih => exact fun s h => ih _ (event_accounted h e)

end Store
end GoRedis
