import GoRedis.Store.Pointwise

/-! What a call makes of the values a store holds.

Two stores that hold the same values, whatever stale entries they have besides and wherever
the values are in their tables, cannot be told apart: a call makes the same of both, and
replies the same but for the order of `Keys`. -/
namespace GoRedis.Store
open Keyed

variable {s t : Store} {now : Time} {key : Bytes} {v : Value}

/-- A value written: it is there unless it has expired already. -/
def put (now : Time) (key : Bytes) (v : Value) (m : Finmap fun _ : Bytes => Value) : Finmap fun _ : Bytes => Value :=
  (v.kept now).elim (m.erase key) fun v => m.insert key v

/-- Stamps do not matter. -/
theorem held_insert {w : Value} (h : t.data.toFinmap = s.data.toFinmap.insert key v) (hw : v.kept now = w.kept now) :
    t.held now = put now key w (s.held now) := by
  apply Finmap.ext_lookup
  intro x
  rw [lookup_held, h, put, ← hw]
  by_cases hx : x = key
  · rw [hx, Finmap.lookup_insert, Option.bind_some]
    cases v.kept now with
    | none => exact (Finmap.lookup_erase key (s.held now)).symm
    | some v => exact (Finmap.lookup_insert (s.held now)).symm
  · rw [Finmap.lookup_insert_of_ne _ hx, ← lookup_held]
    cases v.kept now with
    | none => exact (Finmap.lookup_erase_ne hx).symm
    | some v => exact (Finmap.lookup_insert_of_ne _ hx).symm

/-! ### Writes -/

theorem set_held (h : s.maxMemoryBytes = 0) (draw : Nat → Nat → Nat) (key value : Bytes) :
    (s.set draw key value).held now = put now key { strValue := value } (s.held now) := by
  obtain ⟨s', hs', -, hdata⟩ := set_eq h draw key value
  rw [hs', touch_held, held_insert hdata rfl]

theorem del_held (s : Store) (now : Time) (keys : List Bytes) :
    (s.del now keys).1.held now = keys.foldl (fun m key => m.erase key) (s.held now) := by
  unfold del
  generalize (0 : Int) = removed
  induction keys generalizing s removed with
  | nil => rfl
  | cons key keys ih =>
    rw [List.foldl_cons, List.foldl_cons, delOne]
    dsimp only
    cases hv : s.data.toFinmap.lookup key with
    | none => rw [HashTable.get_eq, hv, ih, erase_of_lookup (held_absent hv)]
    | some v => rw [HashTable.get_eq, hv, ih, discard_held]

theorem expire_held (s : Store) (rep : ClockRep) (now : Time) (key : Bytes) (seconds : Int) :
    (s.expire rep now key seconds).1.held now = ((s.held now).lookup key).elim (s.held now) fun v =>
      if seconds ≤ 0 then (s.held now).erase key
      else
        put now key { v with expiresAt := some (rep.count (now + rep.count (seconds * 1000000000))) }
          (s.held now) := by
  unfold expire
  cases hv : s.data.toFinmap.lookup key with
  | none =>
    rw [HashTable.get_eq, hv, held_absent hv]
    rfl
  | some v =>
    rw [HashTable.get_eq, hv]
    dsimp only
    by_cases hx : isExpired now v = true
    · rw [if_pos hx, held_stale hv hx, discard_stale_held hv hx]
      rfl
    · rw [if_neg hx, held_found hv hx]
      dsimp only [Option.elim]
      split
      · exact discard_held ..
      · exact held_insert (HashTable.toFinmap_assign _ _ _ (Finmap.mem_of_lookup_eq_some hv)) rfl

theorem hDel_held (s : Store) (now : Time) (key : Bytes) (fields : List Bytes) :
    (s.hDel now key fields).1.held now = ((s.held now).lookup key).elim (s.held now) fun v =>
      if v.type ≠ .hash then s.held now
      else if (deleteFields v.hashValue fields).1.len = 0 then (s.held now).erase key
      else put now key { v with hashValue := (deleteFields v.hashValue fields).1 } (s.held now) := by
  unfold hDel
  cases hv : s.data.toFinmap.lookup key with
  | none =>
    rw [HashTable.get_eq, hv, held_absent hv]
    rfl
  | some v =>
    rw [HashTable.get_eq, hv]
    dsimp only
    by_cases hx : isExpired now v = true
    · rw [if_pos hx, held_stale hv hx, discard_stale_held hv hx]
      rfl
    · rw [if_neg hx, held_found hv hx]
      dsimp only [Option.elim]
      split
      · rfl
      · split
        · exact held_erase (emptied_data hv _ _)
        · rw [touch_held]
          exact held_insert (rewrite_data hv _) rfl

/-- What is held at a key, by what is live there. -/
theorem held_of_live {e : Entry} (h : (s.live now).lookup key = some e) :
    ∃ v, (s.held now).lookup key = some v ∧ v.entry = e := by
  rw [live_eq_held, lookup_select, Option.bind_eq_some_iff] at h
  obtain ⟨v, hv, he⟩ := h
  exact ⟨v, hv, Option.some.inj he⟩

theorem held_of_not_live (h : (s.live now).lookup key = none) : (s.held now).lookup key = none := by
  rw [live_eq_held, lookup_select, Option.bind_eq_none_iff] at h
  exact Option.eq_none_iff_forall_ne_some.mpr fun v hv => nomatch h v hv

/-- A push and `HSet`. -/
theorem update_held (h : s.maxMemoryBytes = 0) (type : ValueType) {f : Value → Value}
    (hf : ∀ v, (f v).kept now = (f { v with lastAccessedSeq := 0 }).kept now) (draw : Nat → Nat → Nat) (key : Bytes) :
    (s.update type f draw now key).held now =
      ((s.held now).lookup key).elim (put now key (f { type := type }) (s.held now)) fun v =>
        if v.type = type then put now key (f v) (s.held now) else s.held now := by
  have hc := s.getOrCreate_created type now key
  unfold update
  rcases hg : s.getOrCreate type now key with ⟨s', _ | v⟩ <;> rw [hg] at hc
  · cases hc with
    | wrongType v hv ht =>
      obtain ⟨w, hw, he⟩ := held_of_live hv
      have htype : w.type = v.type := by rw [← w.type_datum, he, v.type_datum]
      rw [hw]
      exact (if_neg (htype ▸ ht)).symm
  · have hmax := (hc.rewritten (f v)).2
    dsimp only
    rw [evict_unbounded (hmax.trans h), touch_held, held_insert (hc.rewrite_data _) (hf v)]
    cases hc with
    | found _ hv hlive ht =>
      have hx : ¬isExpired now v = true := fun hx => by
        rw [live_stale hv hx] at hlive
        cases hlive
      rw [held_found hv hx]
      exact (if_pos ht).symm
    | fresh _ seq hnone => rw [held_of_not_live hnone, Option.elim]

/-- **One call.** What it leaves held depends on what was held. -/
theorem exec_held (env : Env) (hs : s.maxMemoryBytes = 0) (ht : t.maxMemoryBytes = 0)
    (h : s.held env.now = t.held env.now) (c : Call) :
    (s.exec env c).1.held env.now = (t.exec env c).1.held env.now := by
  by_cases hc : c.isWrite = true
  · cases c with
    | set key value =>
      dsimp only [exec]
      rw [set_held hs, set_held ht, h]
    | del keys =>
      dsimp only [exec]
      rw [del_held, del_held, h]
    | flushAll => rfl
    | expire key seconds =>
      dsimp only [exec]
      rw [expire_held, expire_held, h]
    | lPush key values | rPush key values =>
      dsimp only [exec, lPush, rPush]
      rw [push_store, push_store, update_held hs .list (fun _ => rfl), update_held ht .list (fun _ => rfl), h]
    | hSet key fields =>
      dsimp only [exec]
      rw [hSet_store, hSet_store, update_held hs .hash (fun _ => rfl), update_held ht .hash (fun _ => rfl), h]
    | hDel key fields =>
      dsimp only [exec]
      rw [hDel_held, hDel_held, h]
    | _ => cases hc
  · rw [exec_read_held env s (Bool.eq_false_iff.mpr hc), exec_read_held env t (Bool.eq_false_iff.mpr hc), h]

/-! ### Replies -/

/-- What the reads of one key reply. -/
theorem read_reply {α : Type} (s : Store) (type : ValueType) (absent : Result α) {view : Value → Result α}
    (hview : ∀ v, view v = view { v with lastAccessedSeq := 0 }) (now : Time) (key : Bytes) :
    (s.read type absent view now key).reply =
      ((s.held now).lookup key).elim absent fun v => if v.type ≠ type then .wrongType else view v := by
  unfold read
  cases hv : s.data.toFinmap.lookup key with
  | none =>
    rw [HashTable.get_eq, hv, held_absent hv]
    rfl
  | some v =>
    rw [HashTable.get_eq, hv]
    dsimp only
    by_cases hx : isExpired now v = true
    · rw [if_pos hx, held_stale hv hx]
      rfl
    · rw [if_neg hx, held_found hv hx]
      dsimp only [Option.elim]
      split
      · rfl
      · exact hview v

/-- The entries of a table that are not stale, in the order of the table. -/
theorem held_entries (now : Time) (s : Store) : (s.held now).entries =
    Multiset.ofList ((s.data.nodes.filter fun node => !isExpired now node.2).map fun node =>
      ⟨node.1, { node.2 with lastAccessedSeq := 0 }⟩) := by
  show Multiset.filterMap _ (Multiset.ofList s.data.nodes) = _
  rw [Multiset.filterMap_coe, ← List.filterMap_eq_filter, List.map_filterMap]
  congr 2
  funext node
  simp only [Value.kept]
  by_cases hx : isExpired now node.2 = true <;> simp [hx]

/-- The same entries, wherever they are. -/
theorem nodes_perm (h : s.held now = t.held now) :
    ((s.data.nodes.filter fun node => !isExpired now node.2).map fun node =>
      (⟨node.1, { node.2 with lastAccessedSeq := 0 }⟩ : Node Value)).Perm
    ((t.data.nodes.filter fun node => !isExpired now node.2).map fun node =>
      ⟨node.1, { node.2 with lastAccessedSeq := 0 }⟩) := by
  rw [← Multiset.coe_eq_coe, ← held_entries, ← held_entries, h]

/-! ### Snapshots -/

theorem snapshot_perm (h : s.held now = t.held now) (rep : ClockRep) (wallNow : Time) :
    (s.snapshot rep now wallNow).Perm (t.snapshot rep now wallNow) := by
  have hmap := (nodes_perm h).map fun node => snapshotEntry rep now wallNow node.1 node.2
  rw [List.map_map, List.map_map] at hmap
  exact hmap

theorem loadEntry_held (s : Store) (rep : ClockRep) (now wallNow : Time) (entry : SnapshotEntry) :
    (s.loadEntry rep now wallNow entry).held now =
      if entry.expiresAtWall.any (· ≤ wallNow) then s.held now
      else put now entry.key (loadValue rep now wallNow entry) (s.held now) := by
  unfold loadEntry
  split
  · rfl
  · rw [touch_held]
    exact held_insert (HashTable.toFinmap_set ..) rfl

/-- What a load leaves held is what was loaded. -/
theorem loadSnapshot_held (hs : s.maxMemoryBytes = 0) (ht : t.maxMemoryBytes = 0) (rep : ClockRep)
    (now wallNow : Time) (draw : Nat → Nat → Nat) (entries : List SnapshotEntry) :
    (s.loadSnapshot rep now wallNow draw entries).held now =
      (t.loadSnapshot rep now wallNow draw entries).held now := by
  have hload : ∀ s t : Store, s.held now = t.held now →
      (entries.foldl (loadEntry rep now wallNow) s).held now =
        (entries.foldl (loadEntry rep now wallNow) t).held now := by
    induction entries with
    | nil => exact fun _ _ h => h
    | cons entry entries ih =>
      intro s t h
      exact ih _ _ (by rw [loadEntry_held, loadEntry_held, h])
  have hunbounded : ∀ s : Store, s.maxMemoryBytes = 0 → s.loadSnapshot rep now wallNow draw entries =
      entries.foldl (loadEntry rep now wallNow) s.flushAll :=
    fun s h => evict_unbounded ((loadEntries_max rep now wallNow entries s.flushAll).trans h) draw
  rw [hunbounded s hs, hunbounded t ht]
  exact hload _ _ rfl

end GoRedis.Store

namespace GoRedis

/-- Replies that say the same. The order of `Keys` is that of the table. -/
def Call.Same : (c : Call) → c.Reply → c.Reply → Prop
  | .keys, reply, reply' => List.Perm reply reply'
  | _, reply, reply' => reply = reply'

/-- **One call** replies the same on stores that hold the same. -/
theorem Store.exec_same {s t : Store} (env : Env) (hs : s.maxMemoryBytes = 0) (ht : t.maxMemoryBytes = 0)
    (h : s.held env.now = t.held env.now) (c : Call) : c.Same (s.exec env c).2 (t.exec env c).2 := by
  have hview : c.view (s.exec env c).2 = c.view (t.exec env c).2 := by
    rw [(exec_simulates env s hs c).reply, (exec_simulates env t ht c).reply, live_of_held h]
  -- what lists a hash has it from the same table
  have hread : ∀ {α : Type} {type : ValueType} {absent : Result α} {view : Value → Result α} {key : Bytes},
      (∀ v, view v = view { v with lastAccessedSeq := 0 }) →
      (s.read type absent view env.now key).reply = (t.read type absent view env.now key).reply := by
    intro α type absent view key hv
    rw [read_reply s type absent hv, read_reply t type absent hv, h]
  cases c with
  | keys => exact Multiset.coe_eq_coe.mp hview
  | hGetAll key => exact hread fun _ => rfl
  | hKeys key => exact hread fun _ => rfl
  | hVals key => exact hread fun _ => rfl
  | _ => exact hview

end GoRedis
