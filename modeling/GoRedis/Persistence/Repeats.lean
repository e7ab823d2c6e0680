import GoRedis.Persistence.RdbRoundTrip

/-! Loads in which a key comes twice.

`LoadSnapshot` charges for every entry it puts into the table and gives nothing back for one
that it overwrites, so the counter ends up above the sizes in the table by the sizes of what
was overwritten. Evicting takes off the counter what it takes off the table, and keeps the
difference. What `Snapshot` returns has every key once, but a file need not. -/
namespace GoRedis.Store
open Keyed

/-! ### The counter above the table -/

/-- The counter is the size of the table and so much more. -/
def Exceeds (n : Nat) (s : Store) : Prop := s.usedMemoryBytes = s.entriesBytes + n

theorem Exceeds.discard {n : Nat} {s : Store} (h : s.Exceeds n) {key : Bytes} {v : Value}
    (hv : s.data.toFinmap.lookup key = some v) : (s.discard key v).Exceeds n := by
  have htotal := total_erase estimateEntryBytes hv
  have hused : s.usedMemoryBytes = total estimateEntryBytes s.data.toFinmap + n := h
  have hle : estimateEntryBytes key v ≤ s.usedMemoryBytes := by omega
  show (s.discard key v).usedMemoryBytes = total estimateEntryBytes (s.discard key v).data.toFinmap + n
  rw [discard_data, Store.discard, debit_of_le hle]
  show s.usedMemoryBytes - estimateEntryBytes key v = _
  omega

theorem Discards.exceeds {n : Nat} {s s' : Store} (hd : Discards s s') (h : s.Exceeds n) : s'.Exceeds n :=
  hd.keeps (fun hv hs => hs.discard hv) h

theorem touch_entriesBytes (s : Store) (key : Bytes) : (s.touch key).entriesBytes = s.entriesBytes := by
  cases hv : s.data.toFinmap.lookup key with
  | none => rw [touch, HashTable.get_eq, hv]
  | some v =>
    rw [entriesBytes_eq, entriesBytes_eq, touch_data hv, total_insert, ← total_erase estimateEntryBytes hv]
    rfl

theorem touch_usedMemoryBytes (s : Store) (key : Bytes) : (s.touch key).usedMemoryBytes = s.usedMemoryBytes := by
  unfold touch
  split <;> rfl

theorem estimateEntryBytes_pos (key : Bytes) (v : Value) : 0 < estimateEntryBytes key v := by
  rw [estimateEntryBytes, kPerEntryOverheadBytes]
  omega

/-- Something is charged for exactly the keys that are there. -/
theorem bytesAt_eq_zero (s : Store) (key : Bytes) : s.bytesAt key = 0 ↔ s.data.toFinmap.lookup key = none := by
  rw [bytesAt, HashTable.get_eq]
  cases s.data.toFinmap.lookup key with
  | none => exact iff_of_true rfl rfl
  | some v => exact iff_of_false (estimateEntryBytes_pos key v).ne' (Option.some_ne_none v)

/-! ### Loading -/

section
variable (rep : ClockRep) (steadyNow wallNow : Time)

/-- The keys of the entries that are not skipped. -/
def loadedKeys (entries : List SnapshotEntry) : List Bytes :=
  (entries.filter fun e => !e.expiresAtWall.any (· ≤ wallNow)).map SnapshotEntry.key

/-- An entry that is put into the table: what was there is charged for once more. -/
theorem Exceeds.loadEntry {n : Nat} {s : Store} (h : s.Exceeds n) {e : SnapshotEntry}
    (he : e.expiresAtWall.any (· ≤ wallNow) = false) :
    (s.loadEntry rep steadyNow wallNow e).Exceeds (n + s.bytesAt e.key) := by
  have hwhole := s.bytesAt_add e.key
  have hused : s.usedMemoryBytes = s.entriesBytes + n := h
  rw [Store.loadEntry, he, if_neg Bool.false_ne_true]
  dsimp only
  generalize loadValue rep steadyNow wallNow e = v
  show (Store.touch _ _).usedMemoryBytes = (Store.touch _ _).entriesBytes + _
  rw [touch_usedMemoryBytes, touch_entriesBytes, entriesBytes_eq]
  have hbytes : ({ s with data := (s.data.set e.key v).1 } : Store).bytesAt e.key = estimateEntryBytes e.key v := by
    simp [bytesAt]
  show s.usedMemoryBytes + bytesAt _ e.key = total estimateEntryBytes (s.data.set e.key v).1.toFinmap + _
  rw [hbytes, HashTable.toFinmap_set, total_insert]
  omega

/-- The keys that are absent after an entry was put into the table. -/
theorem loadEntry_lookup_none (s : Store) {e : SnapshotEntry} (he : e.expiresAtWall.any (· ≤ wallNow) = false)
    (key : Bytes) : (s.loadEntry rep steadyNow wallNow e).data.toFinmap.lookup key = none ↔
      key ≠ e.key ∧ s.data.toFinmap.lookup key = none := by
  by_cases hkey : key = e.key
  · refine iff_of_false ?_ fun h => h.1 hkey
    rw [Store.loadEntry, he, if_neg Bool.false_ne_true, hkey, touch_lookup]
    · exact Option.some_ne_none _
    · show (s.data.set e.key _).1.toFinmap.lookup e.key = _
      rw [HashTable.toFinmap_set, Finmap.lookup_insert]
  · rw [loadEntry_lookup_ne s rep steadyNow wallNow e hkey]
    exact ⟨fun h => ⟨hkey, h⟩, fun h => h.2⟩

/-- What the loop leaves above the table: nothing, if no key comes twice and none was there. -/
theorem loadEntries_exceeds (entries : List SnapshotEntry) {n : Nat} {s : Store} (h : s.Exceeds n) :
    ∃ m, (entries.foldl (loadEntry rep steadyNow wallNow) s).Exceeds (n + m) ∧
      (m = 0 ↔ (loadedKeys wallNow entries).Nodup ∧
        ∀ key ∈ loadedKeys wallNow entries, s.data.toFinmap.lookup key = none) := by
  induction entries generalizing n s with
  | nil => exact ⟨0, h, iff_of_true rfl ⟨List.nodup_nil, fun _ hkey => absurd hkey List.not_mem_nil⟩⟩
  | cons e entries ih =>
    cases he : e.expiresAtWall.any (· ≤ wallNow) with
    | true =>
      have hskip : s.loadEntry rep steadyNow wallNow e = s := by rw [loadEntry, he, if_pos rfl]
      have hkeys : loadedKeys wallNow (e :: entries) = loadedKeys wallNow entries := by
        rw [loadedKeys, List.filter_cons_of_neg (by simp [he])]
        rfl
      rw [List.foldl_cons, hskip, hkeys]
      exact ih h
    | false =>
      have hkeys : loadedKeys wallNow (e :: entries) = e.key :: loadedKeys wallNow entries := by
        rw [loadedKeys, List.filter_cons_of_pos (by simp [he])]
        rfl
      obtain ⟨m, hm, hzero⟩ := ih (h.loadEntry rep steadyNow wallNow he)
      refine ⟨s.bytesAt e.key + m, by rwa [← Nat.add_assoc], ?_⟩
      rw [hkeys, Nat.add_eq_zero_iff, bytesAt_eq_zero, hzero, List.nodup_cons, List.forall_mem_cons]
      simp only [loadEntry_lookup_none rep steadyNow wallNow s he]
      constructor
      · rintro ⟨hfirst, hnodup, hrest⟩
        exact ⟨⟨fun hmem => (hrest _ hmem).1 rfl, hnodup⟩, hfirst, fun key hkey => (hrest key hkey).2⟩
      · rintro ⟨⟨hnot, hnodup⟩, hfirst, hrest⟩
        exact ⟨hfirst, hnodup, fun key hkey => ⟨fun heq => hnot (heq ▸ hkey), hrest key hkey⟩⟩

end

/-- **When a load is accounted for.** Whatever the store was before, and whatever is evicted
afterwards, the counter is the sum of the sizes in the table exactly when no two of the
entries that are not skipped have the same key. -/
theorem loadSnapshot_used_iff (rep : ClockRep) (steadyNow wallNow : Time) (draw : Nat → Nat → Nat)
    (entries : List SnapshotEntry) (s : Store) :
    let s' := s.loadSnapshot rep steadyNow wallNow draw entries
    s'.usedMemoryBytes = s'.entriesBytes ↔ (loadedKeys wallNow entries).Nodup := by
  intro s'
  have hclear : ({ s with data := .empty, usedMemoryBytes := 0 } : Store).Exceeds 0 := rfl
  obtain ⟨m, hm, hzero⟩ := loadEntries_exceeds rep steadyNow wallNow entries hclear
  have hs' : s'.usedMemoryBytes = s'.entriesBytes + (0 + m) := (evict_discards _ draw).exceeds hm
  have habsent : ∀ key ∈ loadedKeys wallNow entries,
      ({ s with data := .empty, usedMemoryBytes := 0 } : Store).data.toFinmap.lookup key = none := by simp
  rw [hs', ← and_iff_left habsent (a := List.Nodup _), ← hzero]
  omega

/-- A file with the key `k` twice, as two strings of one byte. -/
def repeatedFile : Bytes :=
  rdbFile [{ key := [107], strValue := [118] }, { key := [107], strValue := [119] }]

/-- It is accepted, and the counter has both entries where the table has one. -/
theorem loadRdb_repeated :
    let r := loadRdb .exact ⟨0, 0, 0⟩ (fun _ _ => 0) repeatedFile {}
    r.2 = true ∧ r.1.data.len = 1 ∧ r.1.usedMemoryBytes = 100 ∧ r.1.entriesBytes = 50 := by
  decide +kernel

end GoRedis.Store
