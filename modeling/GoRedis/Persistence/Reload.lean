import GoRedis.Persistence.RdbRoundTrip

/-! What a store holds after its snapshot file is loaded.

A deadline goes through two clocks and two truncations to milliseconds: what remains of it
at the save is truncated and put on the wall clock, the sum is truncated again when it is
written, and at the load what remains of it on the wall clock is put on the steady clock. -/
namespace GoRedis
open Codec Keyspace

/-! ### Hashes -/

namespace HashTable
variable {V : Type}

/-- A table filled from the nodes of another holds the same. -/
theorem toFinmap_refill (t : HashTable V) :
    ((t.nodes.map fun node => (node.1, node.2)).foldl (fun hash field => (hash.set field.1 field.2).1)
      empty).toFinmap = t.toFinmap := by
  have hfill : ∀ (l : List (Node V)) (t₀ : HashTable V) (key : Bytes), l.NodupKeys →
      ((l.map fun node => (node.1, node.2)).foldl (fun hash field => (hash.set field.1 field.2).1)
        t₀).toFinmap.lookup key = (l.dlookup key).or (t₀.toFinmap.lookup key) := by
    intro l
    induction l with
    | nil => exact fun _ _ _ => rfl
    | cons node l ih =>
      obtain ⟨k, v⟩ := node
      intro t₀ key hd
      obtain ⟨(hnot : k ∉ l.keys), hdl⟩ := List.nodupKeys_cons.mp hd
      rw [List.map_cons, List.foldl_cons, ih _ key hdl, toFinmap_set]
      by_cases hk : key = k
      · subst hk
        rw [List.dlookup_eq_none.mpr hnot, List.dlookup_cons_eq, Finmap.lookup_insert]
        rfl
      · rw [List.dlookup_cons_ne _ _ hk, Finmap.lookup_insert_of_ne _ hk]
  apply Finmap.ext_lookup
  intro key
  rw [hfill t.nodes empty key t.wf.distinct, toFinmap_empty, Finmap.lookup_empty, Option.or_none]
  rfl

end HashTable

namespace Store
variable (rep : ClockRep) (steadyNow wallNow : Time)

/-! ### Loading -/

theorem loadEntries_lookup_ne (entries : List SnapshotEntry) (s : Store) {key : Bytes}
    (h : key ∉ entries.map SnapshotEntry.key) :
    (entries.foldl (loadEntry rep steadyNow wallNow) s).data.toFinmap.lookup key = s.data.toFinmap.lookup key := by
  induction entries generalizing s with
  | nil => rfl
  | cons e entries ih =>
    rw [List.map_cons, List.mem_cons, not_or] at h
    rw [List.foldl_cons, ih _ h.2, loadEntry_lookup_ne s rep steadyNow wallNow e h.1]

/-- An entry that has not expired takes the place of what its key held. -/
theorem loadEntry_lookup (s : Store) {e : SnapshotEntry} (h : ¬e.expiresAtWall.any (· ≤ wallNow) = true) :
    ((s.loadEntry rep steadyNow wallNow e).data.toFinmap.lookup e.key).map Value.entry =
      some (loadValue rep steadyNow wallNow e).entry := by
  let s' : Store := { s with data := (s.data.set e.key (loadValue rep steadyNow wallNow e)).1 }
  have hset : (s'.credit (s'.bytesAt e.key)).data.toFinmap.lookup e.key =
      some (loadValue rep steadyNow wallNow e) := by
    show (s.data.set _ _).1.toFinmap.lookup _ = _
    rw [HashTable.toFinmap_set, Finmap.lookup_insert]
  rw [loadEntry, if_neg h]
  exact congrArg (Option.map Value.entry) (touch_lookup hset)

/-- What becomes of one of the entries, at a key the store does not have. -/
theorem loadEntries_lookup {entries : List SnapshotEntry} (hd : (entries.map SnapshotEntry.key).Nodup) (s : Store)
    {e : SnapshotEntry} (he : e ∈ entries) (hs : s.data.toFinmap.lookup e.key = none) :
    ((entries.foldl (loadEntry rep steadyNow wallNow) s).data.toFinmap.lookup e.key).map Value.entry =
      if e.expiresAtWall.any (· ≤ wallNow) then none else some (loadValue rep steadyNow wallNow e).entry := by
  induction entries generalizing s with
  | nil => cases he
  | cons first entries ih =>
    obtain ⟨hnot, hd⟩ := List.nodup_cons.mp hd
    rw [List.foldl_cons]
    cases List.mem_cons.mp he with
    | inl heq =>
      subst heq
      rw [loadEntries_lookup_ne rep steadyNow wallNow entries _ hnot]
      split
      · next hx => rw [loadEntry, if_pos hx, hs, Option.map_none]
      · next hx => exact loadEntry_lookup rep steadyNow wallNow s hx
    | inr hmem =>
      have hne : e.key ≠ first.key := fun heq => hnot (heq ▸ List.mem_map_of_mem hmem)
      exact ih hd _ hmem ((loadEntry_lookup_ne s rep steadyNow wallNow first hne).trans hs)

section Loaded
variable {s : Store} (hmax : s.maxMemoryBytes = 0) (draw : Nat → Nat → Nat)

include hmax in
theorem loadSnapshot_unbounded (entries : List SnapshotEntry) :
    s.loadSnapshot rep steadyNow wallNow draw entries =
      entries.foldl (loadEntry rep steadyNow wallNow) { s with data := .empty, usedMemoryBytes := 0 } := by
  rw [loadSnapshot, evict_unbounded]
  rw [loadEntries_max]
  exact hmax

include hmax in
theorem loadSnapshot_lookup {entries : List SnapshotEntry} (hd : (entries.map SnapshotEntry.key).Nodup)
    {e : SnapshotEntry} (he : e ∈ entries) :
    ((s.loadSnapshot rep steadyNow wallNow draw entries).data.toFinmap.lookup e.key).map Value.entry =
      if e.expiresAtWall.any (· ≤ wallNow) then none else some (loadValue rep steadyNow wallNow e).entry := by
  rw [loadSnapshot_unbounded rep steadyNow wallNow hmax]
  refine loadEntries_lookup rep steadyNow wallNow hd _ he ?_
  simp

include hmax in
/-- Nothing of what the store held is left. -/
theorem loadSnapshot_lookup_absent {entries : List SnapshotEntry} {key : Bytes}
    (h : key ∉ entries.map SnapshotEntry.key) :
    (s.loadSnapshot rep steadyNow wallNow draw entries).data.toFinmap.lookup key = none := by
  rw [loadSnapshot_unbounded rep steadyNow wallNow hmax, loadEntries_lookup_ne rep steadyNow wallNow entries _ h]
  simp

end Loaded

/-! ### The snapshot -/

theorem mem_snapshot {s : Store} {e : SnapshotEntry} :
    e ∈ s.snapshot rep steadyNow wallNow ↔ ∃ key v, s.data.toFinmap.lookup key = some v ∧
      ¬isExpired steadyNow v = true ∧ snapshotEntry rep steadyNow wallNow key v = e := by
  rw [snapshot, List.mem_map]
  constructor
  · rintro ⟨⟨key, v⟩, hmem, rfl⟩
    obtain ⟨hnode, hx⟩ := List.mem_filter.mp hmem
    exact ⟨key, v, (s.data.mem_nodes key v).mp hnode, by simpa using hx, rfl⟩
  · rintro ⟨key, v, hv, hx, rfl⟩
    exact ⟨⟨key, v⟩, List.mem_filter.mpr ⟨(s.data.mem_nodes key v).mpr hv, by simpa using hx⟩, rfl⟩

end Store

/-! ### Deadlines -/

/-- The wall-clock deadline the file has for a deadline on the steady clock. -/
def rdbDeadline (rep : ClockRep) (steadyNow wallNow deadline : Time) : Time :=
  ofMillis rep (toMillis (rep.count (wallNow + ofMillis rep (toMillis (rep.count (deadline - steadyNow))))))

/-- What a live entry is after the save and the load: gone if the deadline in the file was
reached when `LoadRdb` or `LoadSnapshot` read the clock. -/
def Entry.reloaded (rep : ClockRep) (steadyNow wallNow : Time) (now : LoadClocks) (e : Entry) : Option Entry :=
  match e.deadline with
  | none => some e
  | some deadline =>
    let saved := rdbDeadline rep steadyNow wallNow deadline
    if saved ≤ now.rdbWall ∨ saved ≤ now.wall then none
    else some { e with deadline := some (rep.count (now.steady + rep.count (saved - now.wall))) }

/-- A deadline never grows, and loses less than two milliseconds. -/
theorem rdbDeadline_bounds {steadyNow wallNow deadline : Int} (hlive : steadyNow < deadline) (hwall : 0 ≤ wallNow) :
    wallNow + (deadline - steadyNow) - 2000000 < rdbDeadline .exact steadyNow wallNow deadline ∧
      rdbDeadline .exact steadyNow wallNow deadline ≤ wallNow + (deadline - steadyNow) := by
  have hremaining : (deadline - steadyNow).tdiv 1000000 = (deadline - steadyNow) / 1000000 :=
    Int.tdiv_eq_ediv_of_nonneg (by omega)
  obtain ⟨saved, hsaved⟩ : ∃ saved : Int, saved = rdbDeadline .exact steadyNow wallNow deadline := ⟨_, rfl⟩
  have hsum : saved = (wallNow + (deadline - steadyNow) / 1000000 * 1000000) / 1000000 * 1000000 := by
    rw [← hremaining, ← Int.tdiv_eq_ediv_of_nonneg (by omega)]
    exact hsaved
  have hbounds : wallNow + (deadline - steadyNow) - 2000000 < saved ∧ saved ≤ wallNow + (deadline - steadyNow) := by
    omega
  exact hsaved ▸ hbounds

/-! ### Entries -/

section Entries
variable (rep : ClockRep) (steadyNow wallNow : Time)

theorem reread_key {rdbWall : Time} {e e' : SnapshotEntry} (h : reread rep rdbWall e = some e') :
    e'.key = e.key := by
  unfold reread at h
  split at h
  · cases h
  · obtain rfl := Option.some.inj h
    unfold SnapshotEntry.trimmed
    split <;> rfl

theorem filterMap_reread_sublist (rdbWall : Time) (entries : List SnapshotEntry) :
    ((entries.filterMap (reread rep rdbWall)).map SnapshotEntry.key).Sublist (entries.map SnapshotEntry.key) := by
  induction entries with
  | nil => exact .slnil
  | cons e entries ih =>
    cases h : reread rep rdbWall e with
    | none =>
      rw [List.filterMap_cons_none h]
      exact ih.cons _
    | some e' =>
      rw [List.filterMap_cons_some h, List.map_cons, List.map_cons, reread_key rep h]
      exact ih.cons_cons _

theorem trimmed_expiresAtWall (e : SnapshotEntry) (deadline : Option Time) :
    (e.trimmed deadline).expiresAtWall = deadline := by
  unfold SnapshotEntry.trimmed
  split <;> rfl

/-- The value of an entry that went through the file. -/
theorem loadValue_trimmed (key : Bytes) (v : Value) (deadline : Option Time) (steady wall : Time) :
    (Store.loadValue rep steady wall ((Store.snapshotEntry rep steadyNow wallNow key v).trimmed deadline)).entry =
      { datum := v.datum, deadline := deadline.map fun d => rep.count (steady + rep.count (d - wall)) } := by
  have hfill := v.hashValue.toFinmap_refill
  unfold SnapshotEntry.trimmed Store.snapshotEntry
  cases htype : v.type <;> simp [Store.loadValue, Value.entry, Value.datum, htype, hfill]

/-- The entries that are read back at a key: the one of its live value, unless it has expired. -/
theorem mem_filterMap_reread (s : Store) (rdbWall : Time) (key : Bytes) (e : SnapshotEntry) :
    (e ∈ (s.snapshot rep steadyNow wallNow).filterMap (reread rep rdbWall) ∧ e.key = key) ↔
      ∃ v, s.data.toFinmap.lookup key = some v ∧ ¬isExpired steadyNow v = true ∧
        reread rep rdbWall (Store.snapshotEntry rep steadyNow wallNow key v) = some e := by
  constructor
  · rintro ⟨he, hkey⟩
    obtain ⟨e₀, he₀, hre⟩ := List.mem_filterMap.mp he
    obtain ⟨k, v, hv, hx, rfl⟩ := (Store.mem_snapshot rep steadyNow wallNow).mp he₀
    obtain rfl : k = key := (reread_key rep hre).symm.trans hkey
    exact ⟨v, hv, hx, hre⟩
  · rintro ⟨v, hv, hx, hre⟩
    have he₀ := (Store.mem_snapshot rep steadyNow wallNow).mpr ⟨key, v, hv, hx, rfl⟩
    exact ⟨List.mem_filterMap.mpr ⟨_, he₀, hre⟩, reread_key rep hre⟩

/-- What is read back of a live value, and loaded. -/
theorem reread_reloaded (now : LoadClocks) (key : Bytes) (v : Value) :
    ((reread rep now.rdbWall (Store.snapshotEntry rep steadyNow wallNow key v)).bind fun e =>
      if e.expiresAtWall.any (· ≤ now.wall) then none
      else some (Store.loadValue rep now.steady now.wall e).entry) =
      v.entry.reloaded rep steadyNow wallNow now := by
  have hsaved : savedDeadline rep (Store.snapshotEntry rep steadyNow wallNow key v) =
      v.expiresAt.map (rdbDeadline rep steadyNow wallNow) := Option.map_map ..
  have hentry : v.entry = { datum := v.datum, deadline := v.expiresAt } := rfl
  rw [reread, hsaved, hentry, Entry.reloaded]
  cases v.expiresAt with
  | none => simp [trimmed_expiresAtWall, loadValue_trimmed]
  | some deadline =>
    dsimp only [Option.map_some, Option.any_some]
    by_cases hrdb : rdbDeadline rep steadyNow wallNow deadline ≤ now.rdbWall
    · simp [hrdb]
    · simp [hrdb, trimmed_expiresAtWall, loadValue_trimmed]

/-- **What a key holds after the load.** -/
theorem loadRdb_lookup {s : Store} (hfits : ∀ e ∈ s.snapshot rep steadyNow wallNow, e.Fits)
    (hcount : (s.snapshot rep steadyNow wallNow).length < 256 ^ 8) (now : LoadClocks) (draw : Nat → Nat → Nat)
    {target : Store} (hmax : target.maxMemoryBytes = 0) (key : Bytes) :
    ((loadRdb rep now draw (saveRdb rep steadyNow wallNow s) target).1.data.toFinmap.lookup key).map Value.entry =
      ((s.live steadyNow).lookup key).bind (Entry.reloaded rep steadyNow wallNow now) := by
  rw [loadRdb_saveRdb rep steadyNow wallNow hfits hcount now draw target]
  have hd := (filterMap_reread_sublist rep now.rdbWall (s.snapshot rep steadyNow wallNow)).nodup
    (s.snapshot_nodup rep steadyNow wallNow)
  have hmem := mem_filterMap_reread rep steadyNow wallNow s now.rdbWall key
  generalize (s.snapshot rep steadyNow wallNow).filterMap (reread rep now.rdbWall) = entries at hd hmem
  have habsent : (∀ e, ¬(e ∈ entries ∧ e.key = key)) →
      ((target.loadSnapshot rep now.steady now.wall draw entries).data.toFinmap.lookup key).map Value.entry =
        none := by
    intro hnone
    rw [Store.loadSnapshot_lookup_absent rep now.steady now.wall hmax draw, Option.map_none]
    rw [List.mem_map]
    exact fun ⟨e, he⟩ => hnone e he
  dsimp only
  cases hv : s.data.toFinmap.lookup key with
  | none =>
    rw [Store.live_absent hv, habsent fun e he => ?_, Option.bind_none]
    obtain ⟨v, hv', -⟩ := (hmem e).mp he
    cases hv.symm.trans hv'
  | some v =>
    by_cases hx : isExpired steadyNow v = true
    · rw [Store.live_stale hv hx, habsent fun e he => ?_, Option.bind_none]
      obtain ⟨v', hv', hx', -⟩ := (hmem e).mp he
      exact hx' (Option.some.inj (hv.symm.trans hv') ▸ hx)
    · rw [Store.live_found hv hx, Option.bind_some, ← reread_reloaded rep steadyNow wallNow now key v]
      cases hre : reread rep now.rdbWall (Store.snapshotEntry rep steadyNow wallNow key v) with
      | none =>
        rw [Option.bind_none]
        refine habsent fun e he => ?_
        obtain ⟨v', hv', -, hre'⟩ := (hmem e).mp he
        obtain rfl := Option.some.inj (hv.symm.trans hv')
        cases hre.symm.trans hre'
      | some e =>
        obtain ⟨he, rfl⟩ := (hmem e).mpr ⟨v, hv, hx, hre⟩
        rw [Option.bind_some]
        exact Store.loadSnapshot_lookup rep now.steady now.wall hmax draw hd he

end Entries

/-- A deadline before and after: what remains of it, as wall-clock time. -/
theorem Entry.reloaded_deadline {steadyNow wallNow : Time} {now : LoadClocks} {e e' : Entry} {d d' : Int}
    (h : e.reloaded .exact steadyNow wallNow now = some e') (hd : e.deadline = some d) (hd' : e'.deadline = some d') :
    now.wall + (d' - now.steady) = rdbDeadline .exact steadyNow wallNow d := by
  rw [reloaded, hd] at h
  dsimp only at h
  split at h
  · cases h
  · obtain rfl := Option.some.inj h
    have hanchor : d' = now.steady + (rdbDeadline .exact steadyNow wallNow d - now.wall) :=
      (Option.some.inj hd').symm
    rw [hanchor, add_sub_cancel_left, add_sub_cancel]

theorem keep_deadline {now : Time} {e e' : Entry} (h : e.keep now = some e') {d : Time}
    (hd : e'.deadline = some d) : now < d := by
  unfold Entry.keep at h
  split at h
  · cases h
  · next hx =>
    obtain rfl := Option.some.inj h
    rw [hd] at hx
    simpa using hx

/-- **Save and load.** A saved store is loaded, into any store without a budget, as what was
live at the save and has not expired since; a deadline, on the wall clock, comes back as
long as it was or less than two milliseconds shorter. -/
theorem rdb_roundtrip {s target : Store} {steadyNow wallNow : Time} (hwall : 0 ≤ wallNow)
    (hfits : ∀ e ∈ s.snapshot .exact steadyNow wallNow, e.Fits)
    (hcount : (s.snapshot .exact steadyNow wallNow).length < 256 ^ 8) (hmax : target.maxMemoryBytes = 0)
    (now : LoadClocks) (draw : Nat → Nat → Nat) :
    let r := loadRdb .exact now draw (saveRdb .exact steadyNow wallNow s) target
    r.2 = true ∧
      (∀ key, (r.1.data.toFinmap.lookup key).map Value.entry =
        ((s.live steadyNow).lookup key).bind (Entry.reloaded .exact steadyNow wallNow now)) ∧
      ∀ key e e' d d', (s.live steadyNow).lookup key = some e → e.deadline = some d →
        (r.1.data.toFinmap.lookup key).map Value.entry = some e' → e'.deadline = some d' →
        wallNow + (d - steadyNow) - 2000000 < now.wall + (d' - now.steady) ∧
          now.wall + (d' - now.steady) ≤ wallNow + (d - steadyNow) := by
  intro r
  have hlookup := loadRdb_lookup .exact steadyNow wallNow hfits hcount now draw hmax
  have hload := loadRdb_saveRdb .exact steadyNow wallNow hfits hcount now draw target
  refine ⟨congrArg Prod.snd hload, hlookup, ?_⟩
  intro key e e' d d' he hd he' hd'
  have hre : e.reloaded .exact steadyNow wallNow now = some e' := by
    rw [← he', hlookup key, he, Option.bind_some]
  rw [Entry.reloaded_deadline hre hd hd']
  rw [Store.lookup_live, Option.bind_eq_some_iff] at he
  obtain ⟨v, -, hkeep⟩ := he
  exact rdbDeadline_bounds (keep_deadline hkeep hd) hwall

/-- A string with a deadline and a hash, loaded a second later into a store with a list. -/
theorem rdb_roundtrip_hash :
    let calls : List Call := [.set [107] [118], .expire [107] 10,
      .hSet [104] [([102], [49]), ([103], [50])]]
    let s := calls.foldl (fun s c => (s.exec { now := 7 } c).1) ({} : Store)
    let target := (({} : Store).exec { now := 0 } (.rPush [108] [[120]])).1
    let now : LoadClocks := { rdbWall := 1000000000, steady := 3, wall := 1000000000 }
    ((∀ e ∈ s.snapshot .exact 9 500, e.Fits) ∧ (s.snapshot .exact 9 500).length < 256 ^ 8 ∧
      target.maxMemoryBytes = 0) ∧
      ∀ key, ((loadRdb .exact now (fun _ _ => 0) (saveRdb .exact 9 500 s) target).1.data.toFinmap.lookup key).map
        Value.entry = ((s.live 9).lookup key).bind (Entry.reloaded .exact 9 500 now) := by
  intro calls s target now
  have hfits : ∀ e ∈ s.snapshot .exact 9 500, e.Fits := by decide +kernel
  have hcount : (s.snapshot .exact 9 500).length < 256 ^ 8 := by decide +kernel
  have hmax : target.maxMemoryBytes = 0 := by decide +kernel
  exact ⟨⟨hfits, hcount, hmax⟩, (rdb_roundtrip (by decide) hfits hcount hmax now fun _ _ => 0).2.1⟩

end GoRedis
