import GoRedis.Persistence.Reload
import GoRedis.Server.Aof
import GoRedis.Store.Budget

/-! No empty list, and no empty hash, in the table.

A push and `HSet` put an empty value into the table first and fill it then; that they are
given something to fill it with is the arity check of the dispatcher. `HDel` deletes the hash
that it empties. So nothing empty is left by commands, deletions and evictions, nor by
loading what was saved. The file has 32 bits for a count, and `SaveRdb` does not look
whether it fits: a list of 2^32 elements is saved with the count zero and loaded as empty. -/
namespace GoRedis
open Interleaving Dispatcher Codec

/-- A list has an element; a hash has a field, and knows how many it has. -/
structure Value.Filled (v : Value) : Prop where
  list : v.type = .list → v.listValue ≠ []
  hash : v.type = .hash → v.hashValue.nodes ≠ [] ∧ v.hashValue.len = v.hashValue.nodes.length

/-! ### Tables -/

namespace HashTable
variable {V : Type}

theorem nodes_set_ne (t : HashTable V) (key : Bytes) (v : V) : (t.set key v).1.nodes ≠ [] := by
  refine List.ne_nil_of_mem (a := ⟨key, v⟩) (((t.set key v).1.mem_nodes key v).mpr ?_)
  rw [toFinmap_set, Finmap.lookup_insert]

theorem nodes_ne_of_len {t : HashTable V} (h : t.len ≠ 0) : t.nodes ≠ [] := by
  intro hnil
  have hcount : t.len = t.nodes.length := t.wf.counted
  rw [hcount, hnil] at h
  exact h rfl

end HashTable

namespace Value
variable {v : Value}

theorem filled_string (ht : v.type = .string) : v.Filled :=
  ⟨fun h => absurd (ht.symm.trans h) (by decide), fun h => absurd (ht.symm.trans h) (by decide)⟩

theorem filled_list (ht : v.type = .list) (hv : v.listValue ≠ []) : v.Filled :=
  ⟨fun _ => hv, fun h => absurd (ht.symm.trans h) (by decide)⟩

/-- A table counts what it has. -/
theorem filled_hash (ht : v.type = .hash) (hv : v.hashValue.nodes ≠ []) : v.Filled :=
  ⟨fun h => absurd (ht.symm.trans h) (by decide), fun _ => ⟨hv, v.hashValue.wf.counted⟩⟩

theorem Filled.stamped (hv : v.Filled) (seq : Nat) : Filled { v with lastAccessedSeq := seq } := ⟨hv.list, hv.hash⟩

end Value

theorem setFields_nodes_ne (hash : HashTable Bytes) {fields : List (Bytes × Bytes)} (h : fields ≠ []) :
    (Store.setFields hash fields).1.nodes ≠ [] := by
  obtain ⟨field, rest, rfl⟩ := List.exists_cons_of_ne_nil h
  refine List.foldlRecOn (motive := fun acc : HashTable Bytes × Int => acc.1.nodes ≠ []) rest _ ?_ ?_
  · exact hash.nodes_set_ne field.1 field.2
  · exact fun acc _ field _ => acc.1.nodes_set_ne field.1 field.2

theorem foldl_cons_ne {values : List Bytes} (h : values ≠ []) (list : List Bytes) :
    values.foldl (fun list value => value :: list) list ≠ [] := by
  obtain ⟨value, rest, rfl⟩ := List.exists_cons_of_ne_nil h
  refine List.foldlRecOn (motive := fun list : List Bytes => list ≠ []) rest _ (List.cons_ne_nil value list) ?_
  exact fun list _ value _ => List.cons_ne_nil value list

/-! ### Calls -/

/-- The call has something to fill a new value with. -/
def Call.Fills : Call → Prop
  | .lPush _ values | .rPush _ values => values ≠ []
  | .hSet _ fields => fields ≠ []
  | _ => True

/-- Then it leaves nothing empty. -/
theorem Call.Fills.keeps {c : Call} (h : c.Fills) : c.Keeps Value.Filled := by
  cases c with
  | set key value => exact Value.filled_string rfl
  | expire key seconds => exact fun v deadline hv => ⟨hv.list, hv.hash⟩
  | lPush key values =>
    exact ⟨fun v ht _ => Value.filled_list ht (foldl_cons_ne h _), fun _ => Value.filled_list rfl (foldl_cons_ne h _)⟩
  | rPush key values =>
    have happend : ∀ list : List Bytes, list ++ values ≠ [] := fun list => List.append_ne_nil_of_right_ne_nil list h
    exact ⟨fun v ht _ => Value.filled_list ht (happend _), fun _ => Value.filled_list rfl (happend _)⟩
  | hSet key fields =>
    exact ⟨fun v ht _ => Value.filled_hash ht (setFields_nodes_ne _ h),
      fun _ => Value.filled_hash rfl (setFields_nodes_ne _ h)⟩
  | hDel key fields => exact fun v ht _ hlen => Value.filled_hash ht (HashTable.nodes_ne_of_len hlen)
  | _ => trivial

def Op.Fills : Op → Prop
  | .call c => c.Fills
  | .append _ => True

/-! ### Dispatches -/

section
variable {aof : Bool} {name : Bytes} {args : List Bytes}

theorem only_logged {next : Program} (h : next.Only Op.Fills) : (logged aof args next).Only Op.Fills := by
  unfold logged
  split
  · exact ⟨trivial, fun _ => h⟩
  · exact h

theorem only_checked {α : Type} {result : Result α} {next : Program} (h : next.Only Op.Fills) :
    (checked result next).Only Op.Fills := by
  unfold checked
  split
  · exact h
  · trivial

theorem ReadOnly.fills {p : Program} (h : ReadOnly name p) : p.Only Op.Fills := by
  cases h with
  | refused | pure => trivial
  | read c hc r hr next hnext =>
    refine ⟨?_, fun a => ?_⟩
    · show c.Fills
      cases c <;> trivial
    · rw [hnext]
      split <;> trivial

theorem set_fills : (Dispatcher.set aof name args).Only Op.Fills := by
  unfold Dispatcher.set
  split
  · exact ⟨trivial, fun _ => only_logged trivial⟩
  · split
    · trivial
    · split
      · trivial
      · exact ⟨trivial, fun _ => ⟨trivial, fun _ => only_logged trivial⟩⟩
  · trivial

theorem del_fills : (del aof name args).Only Op.Fills := by
  unfold del
  split
  · trivial
  · exact ⟨trivial, fun _ => only_logged trivial⟩

theorem flushAll_fills : (flushAll aof name args).Only Op.Fills := by
  unfold flushAll
  split
  · exact ⟨trivial, fun _ => only_logged trivial⟩
  · trivial

theorem expire_fills : (expire aof name args).Only Op.Fills := by
  unfold expire
  split
  · split
    · trivial
    · exact ⟨trivial, fun _ => only_logged trivial⟩
  · trivial

theorem lPush_fills : (lPush aof name args).Only Op.Fills := by
  unfold lPush
  split
  · exact ⟨List.cons_ne_nil _ _, fun _ => only_checked (only_logged trivial)⟩
  · trivial

theorem rPush_fills : (rPush aof name args).Only Op.Fills := by
  unfold rPush
  split
  · exact ⟨List.cons_ne_nil _ _, fun _ => only_checked (only_logged trivial)⟩
  · trivial

theorem hSet_fills : (hSet aof name args).Only Op.Fills := by
  unfold hSet
  split
  · split
    · trivial
    · exact ⟨List.cons_ne_nil _ _, fun _ => only_checked (only_logged trivial)⟩
  · trivial

theorem hDel_fills : (hDel aof name args).Only Op.Fills := by
  unfold hDel
  split
  · exact ⟨trivial, fun _ => only_checked (only_logged trivial)⟩
  · trivial

end

/-- **The arity checks**: every call of a dispatch has something to fill a new value with. -/
theorem dispatch_fills (aof : Bool) (args : List Bytes) : (dispatch aof args).Only Op.Fills := by
  cases args with
  | nil => trivial
  | cons name args =>
    have helim : ∀ aof, (dispatch aof (name :: args)).Only Op.Fills :=
      dispatch_elim (P := fun p => ∀ aof, (p aof).Only Op.Fills) (fun _ h _ _ => h.fills) (fun _ => trivial)
        (fun _ _ => set_fills) (fun _ _ => del_fills) (fun _ _ => flushAll_fills) (fun _ _ => expire_fills)
        (fun _ _ => lPush_fills) (fun _ _ => rPush_fills) (fun _ _ => hSet_fills) fun _ _ => hDel_fills
    exact helim aof

/-- A dispatch leaves nothing empty. -/
theorem dispatch_filled (aof : Bool) (envs : Nat → Env) (args : List Bytes) {w : World}
    (h : w.store.Every Value.Filled) :
    ((dispatch aof args).run (World.exec envs) w).1.store.Every Value.Filled := by
  have hstep : ∀ (w : World) (op : Op), op.Fills → w.store.Every Value.Filled →
      (w.exec envs op).1.store.Every Value.Filled := by
    intro w op hop hw
    cases op with
    | call c => exact hw.exec (fun _ seq hv => hv.stamped seq) _ (Call.Fills.keeps hop)
    | append args => exact hw
  exact (dispatch_fills aof args).run hstep h

/-! ### Files -/

/-- The same for an entry of a snapshot. -/
structure SnapshotEntry.Filled (e : SnapshotEntry) : Prop where
  list : e.type = .list → e.listValue ≠ []
  hash : e.type = .hash → e.hashValue ≠ []

section
variable {s : Store} {rep : ClockRep} {steadyNow wallNow : Time} {e : SnapshotEntry}

theorem snapshot_filled (h : s.Every Value.Filled) (he : e ∈ s.snapshot rep steadyNow wallNow) : e.Filled := by
  obtain ⟨key, v, hv, -, rfl⟩ := (Store.mem_snapshot ..).mp he
  have hfilled := h key v hv
  refine ⟨hfilled.list, fun ht => ?_⟩
  have hhash : v.type = .hash := ht
  show (if v.type = .hash then _ else _) ≠ []
  rw [if_pos hhash]
  simpa using (hfilled.hash hhash).1

theorem SnapshotEntry.Filled.trimmed (h : e.Filled) (deadline : Option Time) : (e.trimmed deadline).Filled := by
  unfold SnapshotEntry.trimmed
  cases ht : e.type with
  | string => exact ⟨nofun, nofun⟩
  | list => exact ⟨fun _ => h.list ht, nofun⟩
  | hash => exact ⟨nofun, fun _ => h.hash ht⟩

theorem loadValue_filled (h : e.Filled) : (Store.loadValue rep steadyNow wallNow e).Filled := by
  cases ht : e.type with
  | string => exact Value.filled_string ht
  | list => exact Value.filled_list ht (h.list ht)
  | hash =>
    refine Value.filled_hash ht ?_
    show HashTable.nodes (if e.type = .hash then _ else _) ≠ []
    rw [if_pos ht]
    obtain ⟨field, rest, hfields⟩ := List.exists_cons_of_ne_nil (h.hash ht)
    rw [hfields]
    refine List.foldlRecOn (motive := fun hash : HashTable Bytes => hash.nodes ≠ []) rest _ ?_ ?_
    · exact HashTable.nodes_set_ne _ _ _
    · exact fun hash _ field _ => hash.nodes_set_ne field.1 field.2

/-- The lengths of a snapshot fit in the file. -/
def Savable (entries : List SnapshotEntry) : Prop := (∀ e ∈ entries, e.Sized) ∧ entries.length < 256 ^ 8

/-- **Loading a saved file** leaves nothing empty. -/
theorem loadRdb_filled (h : s.Every Value.Filled) (hsave : Savable (s.snapshot rep steadyNow wallNow))
    (rep' : ClockRep) (now : LoadClocks) (draw : Nat → Nat → Nat) (target : Store) :
    (loadRdb rep' now draw (saveRdb rep steadyNow wallNow s) target).1.Every Value.Filled := by
  have hentries : ∀ e ∈ s.snapshot rep steadyNow wallNow, Reads (readEntry rep' now.rdbWall) (writeEntry e) _ :=
    fun e he => reads_entry_of rep' now.rdbWall (hsave.1 e he)
      (reads_ttl rep' fun t _ => reads_sint_bmod 8 (toMillis t))
  rw [saveRdb_eq, loadRdb_rdbFile hentries hsave.2]
  refine Store.every_loadSnapshot (fun _ seq hv => hv.stamped seq) _ _ _ draw (fun e he => ?_) target
  obtain ⟨e', he', hkept⟩ := List.mem_filterMap.mp he
  split at hkept
  · cases hkept
  · cases hkept
    exact loadValue_filled ((snapshot_filled h he').trimmed _)

end

/-! ### A server across restarts -/

/-- A server and the snapshot files it has written, the last one first. -/
structure Host where
  world : World := {}
  files : List Bytes := []

/-- What can happen to it. A load is of any file it has written. -/
inductive HostEvent where
  | dispatch (aof : Bool) (envs : Nat → Env) (args : List Bytes)
  | sweepExpired (now : Time)
  | setMaxMemory (draw : Nat → Nat → Nat) (maxMemoryBytes : Nat)
  | saveRdb (rep : ClockRep) (steadyNow wallNow : Time)
  | loadRdb (file : Nat) (rep : ClockRep) (now : LoadClocks) (draw : Nat → Nat → Nat)
  | restart

namespace Host

def withStore (h : Host) (s : Store) : Host := { h with world := { h.world with store := s } }

def step (h : Host) : HostEvent → Host
  | .dispatch aof envs args => { h with world := ((GoRedis.dispatch aof args).run (World.exec envs) h.world).1 }
  | .sweepExpired now => h.withStore (h.world.store.sweepExpired now)
  | .setMaxMemory draw maxMemoryBytes => h.withStore (h.world.store.setMaxMemory draw maxMemoryBytes)
  | .saveRdb rep steadyNow wallNow =>
    { h with files := GoRedis.saveRdb rep steadyNow wallNow h.world.store :: h.files }
  | .loadRdb file rep now draw =>
    match h.files[file]? with
    | none => h
    | some buf => h.withStore (GoRedis.loadRdb rep now draw buf h.world.store).1
  | .restart => { h with world := {} }

/-- Whatever is saved fits in the file. -/
def EventSaves (h : Host) : HostEvent → Prop
  | .saveRdb rep steadyNow wallNow => Savable (h.world.store.snapshot rep steadyNow wallNow)
  | _ => True

def RunSaves : List HostEvent → Host → Prop
  | [], _ => True
  | event :: events, h => h.EventSaves event ∧ RunSaves events (h.step event)

/-- Nothing in the store is empty, and nothing will be when a file is loaded. -/
structure Filled (h : Host) : Prop where
  store : h.world.store.Every Value.Filled
  files : ∀ buf ∈ h.files, ∀ rep now draw, ∀ s : Store, s.Every Value.Filled →
    (GoRedis.loadRdb rep now draw buf s).1.Every Value.Filled

theorem Filled.step {h : Host} (hf : h.Filled) {event : HostEvent} (hsaves : h.EventSaves event) :
    (h.step event).Filled := by
  cases event with
  | dispatch aof envs args => exact ⟨dispatch_filled aof envs args hf.store, hf.files⟩
  | sweepExpired now => exact ⟨hf.store.discards (Store.deleteAllExpired_discards _ now _), hf.files⟩
  | setMaxMemory draw maxMemoryBytes =>
    have hstore : (h.world.store.withBudget maxMemoryBytes).Every Value.Filled := hf.store
    exact ⟨hstore.discards (Store.evict_discards _ draw), hf.files⟩
  | saveRdb rep steadyNow wallNow =>
    refine ⟨hf.store, List.forall_mem_cons.mpr ⟨fun rep' now draw s _ => ?_, hf.files⟩⟩
    exact loadRdb_filled hf.store hsaves rep' now draw s
  | loadRdb file rep now draw =>
    dsimp only [Host.step]
    split
    · exact hf
    · next buf hfile =>
      exact ⟨hf.files buf (List.mem_of_getElem? hfile) rep now draw _ hf.store, hf.files⟩
  | restart => exact ⟨Store.every_of_empty rfl, hf.files⟩

/-- **No empty aggregates.** In any run of dispatches, sweeps, changes of the budget, saves,
loads of what was saved and restarts, in which whatever is saved fits in the file, no entry in
the table is an empty list or an empty hash, and a hash knows how many fields it has. -/
theorem run_filled (events : List HostEvent) (hsaves : RunSaves events {}) (key : Bytes) (v : Value)
    (hv : (events.foldl step {}).world.store.data.toFinmap.lookup key = some v) : v.Filled := by
  suffices hrun : ∀ h : Host, h.Filled → RunSaves events h → (events.foldl step h).Filled from
    (hrun {} ⟨Store.every_of_empty rfl, fun buf hbuf => by cases hbuf⟩ hsaves).store key v hv
  clear hv hsaves
  induction events with
  | nil => exact fun h hf _ => hf
  | cons event events ih => exact fun h hf hsaves => ih _ (hf.step hsaves.1) hsaves.2

/-- A hash that is saved, and loaded after a restart. -/
theorem run_filled_hash :
    let envs : Nat → Env := fun _ => { now := 0 }
    let events : List HostEvent := [.dispatch false envs [ascii "HSET", ascii "h", ascii "f", ascii "v"],
      .saveRdb .exact 0 0, .restart, .loadRdb 0 .exact ⟨0, 0, 0⟩ fun _ _ => 0]
    RunSaves events {} ∧ ∃ v, (events.foldl step {}).world.store.data.toFinmap.lookup (ascii "h") = some v ∧
      v.type = .hash ∧ v.Filled := by
  intro envs events
  let saved := (Host.step {} (.dispatch false envs [ascii "HSET", ascii "h", ascii "f", ascii "v"])).world.store
  have hfits : ∀ e ∈ saved.snapshot .exact 0 0, e.Fits := by decide +kernel
  have hcount : (saved.snapshot .exact 0 0).length < 256 ^ 8 := by decide +kernel
  have hsaves : RunSaves events {} :=
    ⟨trivial, ⟨fun e he => (hfits e he).sized, hcount⟩, trivial, trivial, trivial⟩
  have htype : ((events.foldl step {}).world.store.data.get (ascii "h")).map Value.type = some .hash := by
    decide +kernel
  obtain ⟨v, hv, ht⟩ := Option.map_eq_some_iff.mp htype
  rw [HashTable.get_eq] at hv
  exact ⟨hsaves, v, hv, ht, run_filled events hsaves _ v hv⟩

end Host

/-! ### Counts that do not fit -/

theorem HashTable.nodes_single {V : Type} {t : HashTable V} {key : Bytes} {v : V}
    (h : t.toFinmap = (∅ : Finmap fun _ : Bytes => V).insert key v) : t.nodes = [⟨key, v⟩] := by
  have hentries : (t.nodes : Multiset (Node V)) = ([⟨key, v⟩] : List (Node V)) := by
    show t.toFinmap.entries = _
    rw [h, Finmap.entries_insert_of_notMem Finmap.notMem_empty]
    rfl
  exact List.perm_singleton.mp (Multiset.coe_eq_coe.mp hentries)

/-- What a push leaves in an empty store. -/
theorem Store.nodes_rPush (env : Env) (key : Bytes) (values : List Bytes) :
    ∃ seq, (({} : Store).exec env (.rPush key values)).1.data.nodes =
      [⟨key, { type := .list, listValue := values, lastAccessedSeq := seq }⟩] := by
  have hc := ({} : Store).getOrCreate_created .list env.now key
  have hnone : (({} : Store).live env.now).lookup key = none := live_absent rfl
  dsimp only [exec, rPush]
  rw [push_store, update]
  rcases hg : ({} : Store).getOrCreate .list env.now key with ⟨s', _ | v⟩ <;> rw [hg] at hc
  · cases hc with
    | wrongType v hv => simp [hnone] at hv
  · have hdata := hc.rewrite_data { v with listValue := v.listValue ++ values }
    have hmax := (hc.rewritten { v with listValue := v.listValue ++ values }).2
    cases hc with
    | found _ hv => cases hv
    | fresh _ seq _ _ _ =>
      have htouch := touch_data (hdata ▸ Finmap.lookup_insert _)
      rw [hdata, Finmap.insert_insert] at htouch
      dsimp only
      rw [evict_unbounded hmax]
      exact ⟨_, HashTable.nodes_single htouch⟩

theorem run_rPush (aof : Bool) (envs : Nat → Env) (key value : Bytes) (values : List Bytes) :
    ((dispatch aof (ascii "RPUSH" :: key :: value :: values)).run (World.exec envs) {}).1.store =
      (({} : Store).exec (envs 0) (.rPush key (value :: values))).1 := by
  have hname : toUpper (ascii "RPUSH") = ascii "RPUSH" := by decide
  rw [dispatch_rPush hname]
  show World.store (Prog.run _ (checked _ (logged aof _ _)) _).1 = _
  unfold checked
  split
  · cases aof <;> rfl
  · rfl

theorem Value.empty_of_datum {v : Value} (h : v.datum = .list []) : v.type = .list ∧ v.listValue = [] := by
  unfold Value.datum at h
  split at h
  · cases h
  · next ht => exact ⟨ht, Datum.list.inj h⟩
  · cases h

section
variable {key : Bytes} {values : List Bytes} (hlen : values.length % 256 ^ 4 = 0)
include hlen

/-- A list whose count does not fit is written as an empty one, and its elements after it. -/
theorem rdbPayload_overflow : rdbPayload [{ key := key, type := .list, listValue := values }] =
    rdbPayload [{ key := key, type := .list }] ++ values.flatMap writeString := by
  have hcount : le 4 values.length = le 4 0 := by rw [← le_mod, hlen]
  simp only [rdbPayload, List.length_cons, List.length_nil, List.flatMap_cons, List.flatMap_nil, List.append_nil,
    writeEntry, writeValue, hcount, List.append_assoc]

/-- It is loaded as an empty one; what follows it is not looked at. -/
theorem loadRdb_overflow (hkey : key.length < 256 ^ 4) (rep : ClockRep) (now : LoadClocks) (draw : Nat → Nat → Nat) :
    let file := rdbFile [{ key := key, type := .list, listValue := values }]
    ∃ v, (loadRdb rep now draw file {}).1.data.toFinmap.lookup key = some v ∧ v.type = .list ∧ v.listValue = [] := by
  intro file
  let e : SnapshotEntry := { key := key, type := .list }
  have hshort : 0 < 256 ^ 4 := by decide
  have hfits : e.Fits := ⟨hkey, hshort, hshort, nofun, hshort, nofun, nofun⟩
  have hentry : ∀ e' ∈ [e], Reads (readEntry rep now.rdbWall) (writeEntry e') (reread rep now.rdbWall e') :=
    fun _ he => List.mem_singleton.mp he ▸ reads_entry rep now.rdbWall hfits
  have hone : 1 < 256 ^ 8 := by decide
  have hread := reads_rdb rep now.rdbWall hentry hone (values.flatMap writeString)
  rw [← rdbPayload_overflow hlen] at hread
  rw [show file = withChecksum _ from rfl, loadRdb_payload hread (rdbPayload_length _)]
  have hdistinct : ([e].map SnapshotEntry.key).Nodup := List.nodup_singleton key
  have hlookup := Store.loadSnapshot_lookup rep now.steady now.wall (s := {}) rfl draw hdistinct
    (List.mem_singleton_self e)
  obtain ⟨v, hv, hentry⟩ := Option.map_eq_some_iff.mp hlookup
  exact ⟨v, hv, Value.empty_of_datum (congrArg Entry.datum hentry)⟩

end

theorem Host.reload (h : Host) (rep : ClockRep) (steadyNow wallNow : Time) (now : LoadClocks)
    (draw : Nat → Nat → Nat) :
    ([.saveRdb rep steadyNow wallNow, .restart, .loadRdb 0 rep now draw].foldl step h).world.store =
      (loadRdb rep now draw (saveRdb rep steadyNow wallNow h.world.store) {}).1 := rfl

theorem Host.list_emptied (value : Bytes) (values : List Bytes) (hlen : (value :: values).length % 256 ^ 4 = 0)
    (envs : Nat → Env) :
    ∃ v, ([.dispatch false envs (ascii "RPUSH" :: ascii "k" :: value :: values), .saveRdb .exact 0 0, .restart,
        .loadRdb 0 .exact ⟨0, 0, 0⟩ fun _ _ => 0].foldl step {}).world.store.data.toFinmap.lookup (ascii "k") = some v ∧
      v.type = .list ∧ v.listValue = [] := by
  obtain ⟨seq, hnodes⟩ := Store.nodes_rPush (envs 0) (ascii "k") (value :: values)
  have hsnapshot : (({} : Store).exec (envs 0) (.rPush (ascii "k") (value :: values))).1.snapshot .exact 0 0 =
      [{ key := ascii "k", type := .list, listValue := value :: values }] := by
    rw [Store.snapshot, hnodes]
    rfl
  have hpushed : (step {} (.dispatch false envs (ascii "RPUSH" :: ascii "k" :: value :: values))).world.store =
      (({} : Store).exec (envs 0) (.rPush (ascii "k") (value :: values))).1 := run_rPush ..
  have hkey : (ascii "k").length < 256 ^ 4 := by decide
  rw [List.foldl_cons, reload, hpushed, saveRdb, hsnapshot]
  exact loadRdb_overflow hlen hkey .exact ⟨0, 0, 0⟩ fun _ _ => 0

/-- A list of 2^32 elements, saved and loaded after a restart: the list in the table is empty. -/
theorem Host.run_emptied :
    let args : List Bytes := ascii "RPUSH" :: ascii "k" :: [] :: List.replicate 4294967295 []
    let events : List HostEvent := [.dispatch false (fun _ => { now := 0 }) args, .saveRdb .exact 0 0, .restart,
      .loadRdb 0 .exact ⟨0, 0, 0⟩ fun _ _ => 0]
    ∃ v, (events.foldl step {}).world.store.data.toFinmap.lookup (ascii "k") = some v ∧
      v.type = .list ∧ v.listValue = [] := by
  have hlen : ([] :: List.replicate 4294967295 [] : List Bytes).length % 256 ^ 4 = 0 := by
    rw [List.length_cons, List.length_replicate]
    decide
  exact list_emptied [] (List.replicate 4294967295 []) hlen fun _ => { now := 0 }

end GoRedis
