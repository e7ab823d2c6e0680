import GoRedis.Lib.Relabel
import GoRedis.Store.Effects

/-! Calls and values changed in place.

A call that does not touch a key does the same, down to the layout of the table, whatever
the value there is. So changing values in place, as a positive `Expire` does with a
deadline, commutes with every call on other keys. -/
namespace GoRedis
open Keyed Buckets Keyspace

namespace HashTable
variable {V : Type} {g : Bytes → V → V}

namespace Raw

def relabel (g : Bytes → V → V) (t : Raw V) : Raw V :=
  { t with buckets := t.buckets.map (Keyed.relabel g) }

theorem relabel_length (t : Raw V) : (t.relabel g).buckets.length = t.buckets.length := List.length_map ..

theorem relabel_bucketIndex (t : Raw V) (key : Bytes) : (t.relabel g).bucketIndex key = t.bucketIndex key := by
  rw [bucketIndex, relabel_length, bucketIndex]

theorem relabel_chain (t : Raw V) (key : Bytes) : (t.relabel g).chain key = Keyed.relabel g (t.chain key) := by
  rw [chain, relabel_bucketIndex]
  exact getD_relabel t.buckets _

theorem relabel_nodes (t : Raw V) : (t.relabel g).nodes = Keyed.relabel g t.nodes :=
  List.map_flatten.symm

theorem relabel_rehashTo (t : Raw V) (n : Nat) : (t.relabel g).rehashTo n = (t.rehashTo n).relabel g := by
  have hempty : (List.replicate n ([] : List (Node V))) = (List.replicate n []).map (Keyed.relabel g) := by
    rw [List.map_replicate]
    rfl
  have hbuckets : ((t.relabel g).rehashTo n).buckets = ((t.rehashTo n).relabel g).buckets := by
    rw [rehashTo_buckets, relabel_nodes, hempty, pour_relabel, ← rehashTo_buckets]
    rfl
  exact congrArg (fun buckets => (⟨buckets, t.numEntries⟩ : Raw V)) hbuckets

theorem relabel_maybeShrink (t : Raw V) : (t.relabel g).maybeShrink = t.maybeShrink.relabel g := by
  rw [maybeShrink, maybeShrink, underloaded, relabel_length, relabel_rehashTo]
  rw [apply_ite (relabel g), apply_ite (relabel g)]
  rfl

theorem relabel_get (t : Raw V) (key : Bytes) : (t.relabel g).get key = (t.get key).map (g key) := by
  rw [get, relabel_chain, dlookup_relabel, get]

/-- The row with one chain exchanged. -/
theorem relabel_setChain (t : Raw V) (key : Bytes) {c c' : List (Node V)} (hc : c' = Keyed.relabel g c) (n : Nat) :
    (⟨(t.relabel g).buckets.set ((t.relabel g).bucketIndex key) c', n⟩ : Raw V) =
      relabel g ⟨t.buckets.set (t.bucketIndex key) c, n⟩ := by
  rw [relabel_bucketIndex, hc]
  exact congrArg (fun buckets => (⟨buckets, n⟩ : Raw V)) List.map_set.symm

theorem relabel_assign (t : Raw V) {key : Bytes} {value : V} (h : g key value = value) :
    (t.relabel g).assign key value = (t.assign key value).relabel g :=
  relabel_setChain t key (by rw [relabel_chain, kreplace_relabel h]) _

theorem relabel_delete (t : Raw V) (key : Bytes) :
    (t.relabel g).delete key = ((t.delete key).1.relabel g, (t.delete key).2) := by
  have hkeys : key ∈ ((t.relabel g).chain key).keys ↔ key ∈ (t.chain key).keys := by
    rw [relabel_chain, keys_relabel]
  have herase : ((t.relabel g).chain key).kerase key = Keyed.relabel g ((t.chain key).kerase key) := by
    rw [relabel_chain, kerase_relabel]
  unfold delete
  by_cases hk : key ∈ (t.chain key).keys
  · rw [if_pos (hkeys.mpr hk), if_pos hk, relabel_setChain t key herase, relabel_maybeShrink]
    rfl
  · rw [if_neg (mt hkeys.mp hk), if_neg hk]

theorem relabel_set (t : Raw V) {key : Bytes} {value : V} (h : g key value = value) :
    (t.relabel g).set key value = ((t.set key value).1.relabel g, (t.set key value).2) := by
  have hkeys : key ∈ ((t.relabel g).chain key).keys ↔ key ∈ (t.chain key).keys := by
    rw [relabel_chain, keys_relabel]
  have hcons : (⟨key, value⟩ : Node V) :: (t.relabel g).chain key =
      Keyed.relabel g (⟨key, value⟩ :: t.chain key) := by
    rw [relabel_chain, relabel_cons, h]
  unfold set
  by_cases hk : key ∈ (t.chain key).keys
  · rw [if_pos (hkeys.mpr hk), if_pos hk]
    exact congrArg (·, true) (relabel_assign t h)
  · rw [if_neg (mt hkeys.mp hk), if_neg hk]
    dsimp only
    rw [relabel_setChain t key hcons, overloaded, relabel_length, resize, relabel_length, relabel_rehashTo,
      ← apply_ite (relabel g)]
    rfl

theorem relabel_wf {t : Raw V} (h : t.WF) : (t.relabel g).WF where
  capacity := relabel_length (g := g) t ▸ h.capacity
  placed := by
    rw [relabel_length]
    intro i c hc e he
    obtain ⟨c, hc', rfl⟩ := Option.map_eq_some_iff.mp ((List.getElem?_map ..).symm.trans hc)
    obtain ⟨e, he', rfl⟩ := List.mem_map.mp he
    exact h.placed i c hc' e he'
  distinct := by
    rw [relabel_nodes, List.NodupKeys, keys_relabel]
    exact h.distinct
  counted := by
    rw [relabel_nodes, Keyed.relabel, List.length_map]
    exact h.counted

end Raw

def relabel (g : Bytes → V → V) (t : HashTable V) : HashTable V := ⟨t.toRaw.relabel g, Raw.relabel_wf t.wf⟩

/-- Tables are equal when their rows and counts are. -/
theorem eq_of_toRaw {t t' : HashTable V} (h : t.toRaw = t'.toRaw) : t = t' := by
  cases t
  cases t'
  cases h
  rfl

theorem relabel_id (t : HashTable V) (h : ∀ key v, g key v = v) : t.relabel g = t := by
  have hchain : Keyed.relabel g = id := funext fun _ => relabel_of_forall fun e _ => h e.1 e.2
  refine eq_of_toRaw (congrArg (fun buckets => (⟨buckets, t.numEntries⟩ : Raw V)) ?_)
  rw [hchain, List.map_id]

variable {key : Bytes} {value : V}

theorem relabel_get (t : HashTable V) (h : ∀ v, g key v = v) : (t.relabel g).get key = t.get key := by
  refine (t.toRaw.relabel_get key).trans ?_
  rw [show g key = id from funext h, Option.map_id]
  rfl

theorem relabel_assign (t : HashTable V) (h : ∀ v, g key v = v) :
    (t.relabel g).assign key value = (t.assign key value).relabel g :=
  eq_of_toRaw (t.toRaw.relabel_assign (h value))

theorem relabel_delete (t : HashTable V) : ((t.relabel g).delete key).1 = (t.delete key).1.relabel g :=
  eq_of_toRaw (congrArg Prod.fst (t.toRaw.relabel_delete key))

theorem relabel_set (t : HashTable V) (h : ∀ v, g key v = v) :
    ((t.relabel g).set key value).1 = (t.set key value).1.relabel g :=
  eq_of_toRaw (congrArg Prod.fst (t.toRaw.relabel_set (h value)))

/-- Changing one value is assigning it. -/
theorem relabel_eq_assign (t : HashTable V) (h : t.get key = some value) (hg : ∀ k ≠ key, ∀ v, g k v = v) :
    t.relabel g = t.assign key (g key value) :=
  eq_of_toRaw (congrArg (fun buckets => (⟨buckets, t.numEntries⟩ : Raw V))
    (t.wf.placed.relabel t.wf.distinct h hg))

end HashTable

namespace Store

def relabel (g : Bytes → Value → Value) (s : Store) : Store := { s with data := s.data.relabel g }

variable {g : Bytes → Value → Value} {key : Bytes}

theorem relabel_get (s : Store) (h : ∀ v, g key v = v) : (s.relabel g).data.get key = s.data.get key :=
  s.data.relabel_get h

theorem relabel_id (s : Store) (h : ∀ key v, g key v = v) : s.relabel g = s :=
  congrArg (fun data => { s with data := data }) (s.data.relabel_id h)

theorem relabel_debit (s : Store) (bytes : Nat) : (s.relabel g).debit bytes = (s.debit bytes).relabel g := by
  unfold debit
  rw [apply_ite (relabel g)]
  rfl

theorem relabel_credit (s : Store) (bytes : Nat) : (s.relabel g).credit bytes = (s.credit bytes).relabel g := rfl

theorem relabel_bytesAt (s : Store) (h : ∀ v, g key v = v) : (s.relabel g).bytesAt key = s.bytesAt key := by
  unfold bytesAt
  rw [s.relabel_get h]

/-- The same counters over tables that correspond. -/
theorem relabel_data {s s' : Store} {data data' : HashTable Value} (hs : s' = s.relabel g)
    (hd : data' = data.relabel g) : { s' with data := data' } = relabel g { s with data := data } := by
  rw [hs, hd]
  rfl

theorem relabel_discard (s : Store) (v : Value) : (s.relabel g).discard key v = (s.discard key v).relabel g :=
  relabel_data (s.relabel_debit _) s.data.relabel_delete

theorem relabel_touch (s : Store) (h : ∀ v, g key v = v) : (s.relabel g).touch key = (s.touch key).relabel g := by
  unfold touch
  rw [s.relabel_get h]
  split
  · exact congrArg (fun data => { s with data := data, accessClock := s.accessClock + 1 }) (s.data.relabel_assign h)
  · rfl

theorem relabel_deleteIfExpired (s : Store) (now : Time) (h : ∀ v, g key v = v) :
    (s.relabel g).deleteIfExpired now key =
      ((s.deleteIfExpired now key).1.relabel g, (s.deleteIfExpired now key).2) := by
  unfold deleteIfExpired
  rw [s.relabel_get h]
  split
  · split
    · rw [relabel_discard]
    · rfl
  · rfl

theorem relabel_deleteAllExpired (s : Store) (now : Time) {keys : List Bytes}
    (h : ∀ key ∈ keys, ∀ v, g key v = v) :
    (s.relabel g).deleteAllExpired now keys = (s.deleteAllExpired now keys).relabel g := by
  unfold deleteAllExpired
  induction keys generalizing s with
  | nil => rfl
  | cons key keys ih =>
    obtain ⟨hkey, hkeys⟩ := List.forall_mem_cons.mp h
    rw [List.foldl_cons, List.foldl_cons, relabel_deleteIfExpired s now hkey]
    exact ih _ hkeys

theorem relabel_rewrite (s : Store) (h : ∀ v, g key v = v) (v v' : Value) :
    (s.relabel g).rewrite key v v' = (s.rewrite key v v').relabel g := by
  have hassign : { s.relabel g with data := (s.relabel g).data.assign key v' } =
      relabel g { s with data := s.data.assign key v' } := relabel_data rfl (s.data.relabel_assign h)
  unfold rewrite
  rw [hassign, relabel_debit, relabel_credit]

theorem relabel_evict {s : Store} (hmax : s.maxMemoryBytes = 0) (draw : Nat → Nat → Nat) :
    (s.relabel g).evictIfOverBudget draw = (s.evictIfOverBudget draw).relabel g := by
  have hmax' : (s.relabel g).maxMemoryBytes = 0 := hmax
  rw [evict_unbounded hmax, evict_unbounded hmax']

/-- A value put at the key. -/
theorem relabel_put (s : Store) (h : ∀ v, g key v = v) (v : Value) :
    { s.relabel g with data := ((s.relabel g).data.set key v).1 } =
      relabel g { s with data := (s.data.set key v).1 } :=
  relabel_data rfl (s.data.relabel_set h)

theorem relabel_set (s : Store) (hmax : s.maxMemoryBytes = 0) (draw : Nat → Nat → Nat) (value : Bytes)
    (h : ∀ v, g key v = v) : (s.relabel g).set draw key value = (s.set draw key value).relabel g := by
  unfold set
  dsimp only
  rw [relabel_put s h, relabel_bytesAt s h, relabel_bytesAt _ h, relabel_debit, relabel_credit, relabel_touch _ h]
  refine relabel_evict ?_ draw
  rw [touch_max]
  exact (debit_max ..).trans hmax

theorem relabel_delOne (s : Store) (now : Time) (removed : Int) (h : ∀ v, g key v = v) :
    delOne now (s.relabel g, removed) key =
      ((delOne now (s, removed) key).1.relabel g, (delOne now (s, removed) key).2) := by
  unfold delOne
  dsimp only
  rw [s.relabel_get h]
  split
  · rfl
  · rw [relabel_discard]

theorem relabel_del (s : Store) (now : Time) {keys : List Bytes} (h : ∀ key ∈ keys, ∀ v, g key v = v) :
    (s.relabel g).del now keys = ((s.del now keys).1.relabel g, (s.del now keys).2) := by
  unfold del
  generalize (0 : Int) = removed
  induction keys generalizing s removed with
  | nil => rfl
  | cons key keys ih =>
    obtain ⟨hkey, hkeys⟩ := List.forall_mem_cons.mp h
    rw [List.foldl_cons, List.foldl_cons, relabel_delOne s now removed hkey]
    exact ih _ hkeys _

theorem relabel_expire (s : Store) (rep : ClockRep) (now : Time) (seconds : Int) (h : ∀ v, g key v = v) :
    (s.relabel g).expire rep now key seconds =
      ((s.expire rep now key seconds).1.relabel g, (s.expire rep now key seconds).2) := by
  unfold expire
  rw [s.relabel_get h]
  split
  · rfl
  · split
    · rw [relabel_discard]
    · split
      · rw [relabel_discard]
      · exact congrArg (·, true) (relabel_data rfl (s.data.relabel_assign h))

theorem relabel_getOrCreate (s : Store) (type : ValueType) (now : Time) (h : ∀ v, g key v = v) :
    (s.relabel g).getOrCreate type now key =
      ((s.getOrCreate type now key).1.relabel g, (s.getOrCreate type now key).2) := by
  unfold getOrCreate
  rw [relabel_deleteIfExpired s now h]
  generalize (s.deleteIfExpired now key).1 = s'
  dsimp only
  rw [s'.relabel_get h]
  split
  · rw [relabel_put s' h, relabel_bytesAt _ h, relabel_credit, relabel_touch _ h, relabel_get _ h]
  · split <;> rfl

theorem relabel_push (s : Store) (hmax : s.maxMemoryBytes = 0) (join : List Bytes → List Bytes → List Bytes)
    (draw : Nat → Nat → Nat) (now : Time) (values : List Bytes) (h : ∀ v, g key v = v) :
    (s.relabel g).push join draw now key values =
      ((s.push join draw now key values).1.relabel g, (s.push join draw now key values).2) := by
  have hc := s.getOrCreate_created .list now key
  unfold push getOrCreateList
  rw [relabel_getOrCreate s .list now h]
  rcases hg : s.getOrCreate .list now key with ⟨s', _ | v⟩
  · rfl
  · rw [hg] at hc
    dsimp only
    rw [relabel_rewrite s' h, relabel_touch _ h, relabel_evict ((hc.rewritten _).2.trans hmax)]

theorem relabel_hSet (s : Store) (hmax : s.maxMemoryBytes = 0) (draw : Nat → Nat → Nat) (now : Time)
    (fields : List (Bytes × Bytes)) (h : ∀ v, g key v = v) :
    (s.relabel g).hSet draw now key fields =
      ((s.hSet draw now key fields).1.relabel g, (s.hSet draw now key fields).2) := by
  have hc := s.getOrCreate_created .hash now key
  unfold hSet getOrCreateHash
  rw [relabel_getOrCreate s .hash now h]
  rcases hg : s.getOrCreate .hash now key with ⟨s', _ | v⟩
  · rfl
  · rw [hg] at hc
    dsimp only
    rw [relabel_rewrite s' h, relabel_touch _ h, relabel_evict ((hc.rewritten _).2.trans hmax)]

theorem relabel_hDel (s : Store) (now : Time) (fields : List Bytes) (h : ∀ v, g key v = v) :
    (s.relabel g).hDel now key fields = ((s.hDel now key fields).1.relabel g, (s.hDel now key fields).2) := by
  unfold hDel
  rw [s.relabel_get h]
  split
  · rfl
  · next v hv =>
    split
    · rw [relabel_discard]
    · split
      · rfl
      · dsimp only
        split
        · have hassign : ∀ v', { s.relabel g with data := (s.relabel g).data.assign key v' } =
              relabel g { s with data := s.data.assign key v' } :=
            fun v' => relabel_data rfl (s.data.relabel_assign h)
          rw [hassign, relabel_debit]
          exact congrArg (·, _) (relabel_data rfl (HashTable.relabel_delete _))
        · rw [relabel_rewrite s h, relabel_touch _ h]

/-! ### Reads -/

theorem relabel_read {α : Type} (s : Store) (type : ValueType) (absent : Result α) (view : Value → Result α)
    (now : Time) (h : ∀ v, g key v = v) : ((s.relabel g).read type absent view now key).finish now =
      (((s.read type absent view now key).finish now).1.relabel g,
        ((s.read type absent view now key).finish now).2) := by
  unfold read Shared.finish
  rw [s.relabel_get h]
  split
  · rfl
  · split
    · rw [relabel_deleteAllExpired s now (by simpa using h)]
    · split
      · rfl
      · rw [relabel_touch s h]
        rfl

theorem relabel_ttl (s : Store) (now : Time) (h : ∀ v, g key v = v) : ((s.relabel g).ttl now key).finish now =
    (((s.ttl now key).finish now).1.relabel g, ((s.ttl now key).finish now).2) := by
  unfold ttl Shared.finish
  rw [s.relabel_get h]
  split
  · rfl
  · split
    · rw [relabel_deleteAllExpired s now (by simpa using h)]
    · split <;> rfl

theorem relabel_exists (s : Store) (now : Time) {keys : List Bytes} (h : ∀ key ∈ keys, ∀ v, g key v = v) :
    ((s.relabel g).exists' now keys).finish now =
      (((s.exists' now keys).finish now).1.relabel g, ((s.exists' now keys).finish now).2) := by
  have hget : ∀ key ∈ keys, (s.relabel g).data.get key = s.data.get key := fun key hk => s.relabel_get (h key hk)
  have hshared : (s.relabel g).exists' now keys = { s.exists' now keys with store := s.relabel g } := by
    unfold exists'
    congr 1
    · exact congrArg (fun n : Nat => asInt n) (List.countP_congr fun key hk => by rw [hget key hk])
    · exact List.filter_congr fun key hk => by rw [hget key hk]
  rw [hshared]
  refine congrArg (·, _) (relabel_deleteAllExpired s now fun key hk => h key ?_)
  exact (List.mem_filter.mp hk).1

/-- **A call that touches no key whose value is changed** does the same as before the
change, and leaves the change to be made. -/
theorem exec_relabel (env : Env) (s : Store) (hmax : s.maxMemoryBytes = 0) (c : Call)
    (h : ∀ key, c.touches key → ∀ v, g key v = v) :
    (s.relabel g).exec env c = ((s.exec env c).1.relabel g, (s.exec env c).2) := by
  cases c with
  | set key value => exact congrArg (·, ()) (s.relabel_set hmax env.draw value (h key rfl))
  | del keys => exact s.relabel_del env.now h
  | flushAll =>
    have hid : s.relabel g = s := s.relabel_id fun key => h key trivial
    rw [hid, relabel_id _ fun key => h key trivial]
  | keys =>
    have hid : s.relabel g = s := s.relabel_id fun key => h key trivial
    rw [hid, relabel_id _ fun key => h key trivial]
  | expire key seconds => exact s.relabel_expire env.rep env.now seconds (h key rfl)
  | lPush key values => exact s.relabel_push hmax _ env.draw env.now values (h key rfl)
  | rPush key values => exact s.relabel_push hmax _ env.draw env.now values (h key rfl)
  | hSet key fields => exact s.relabel_hSet hmax env.draw env.now fields (h key rfl)
  | hDel key fields => exact s.relabel_hDel env.now fields (h key rfl)
  | exists' keys => exact s.relabel_exists env.now h
  | ttl key => exact s.relabel_ttl env.now (h key rfl)
  | get key | lLen key | lRange key start stop | hGet key field | hLen key | hExists key field
  | hGetAll key | hKeys key | hVals key => exact s.relabel_read _ _ _ env.now (h key rfl)

/-! ### Deadlines -/

/-- The value at the key given a deadline. -/
def dated (key : Bytes) (deadline : Time) (k : Bytes) (v : Value) : Value :=
  if k = key then { v with expiresAt := some deadline } else v

/-- The key is there and has no deadline. -/
def Undated (s : Store) (key : Bytes) : Prop := ∃ v, s.data.get key = some v ∧ v.expiresAt = none

variable {s : Store}

/-- A positive `Expire` of such a key changes its value in place. -/
theorem Undated.expire (h : s.Undated key) (env : Env) {seconds : Int} (hs : 0 < seconds) :
    (s.exec env (.expire key seconds)).1 = s.relabel (dated key (env.deadline seconds)) := by
  obtain ⟨v, hv, hx⟩ := h
  have hassign := s.data.relabel_eq_assign (g := dated key (env.deadline seconds)) hv fun k hk v => if_neg hk
  rw [relabel, hassign, dated, if_pos rfl]
  show (s.expire env.rep env.now key seconds).1 = _
  rw [Store.expire, hv]
  dsimp only
  rw [if_neg (isExpired_of_none env.now hx), if_neg (by omega)]
  rfl

/-- A call that does not touch the key leaves it so. -/
theorem Undated.exec (h : s.Undated key) (hmax : s.maxMemoryBytes = 0) (env : Env) {c : Call}
    (hc : ¬c.touches key) : (s.exec env c).1.Undated key := by
  obtain ⟨v, hv, hx⟩ := h
  rw [HashTable.get_eq] at hv
  have hlive : ((s.exec env c).1.live env.now).lookup key = some v.entry := by
    rw [(exec_simulates env s hmax c).live, lookup_tick, (act_local env c).frame _ key hc,
      live_found hv (isExpired_of_none env.now hx), Option.bind_some, v.keep_entry,
      if_neg (isExpired_of_none env.now hx)]
  rw [lookup_live] at hlive
  obtain ⟨v', hv', hkeep⟩ := Option.bind_eq_some_iff.mp hlive
  refine ⟨v', by rw [HashTable.get_eq, hv'], ?_⟩
  rw [v'.keep_entry] at hkeep
  split at hkeep
  · cases hkeep
  · exact (congrArg Entry.deadline (Option.some.inj hkeep)).trans hx

/-- **A positive `Expire` commutes with the calls on other keys.** -/
theorem Undated.expire_exec (h : s.Undated key) (hmax : s.maxMemoryBytes = 0) (env : Env) {seconds : Int}
    (hs : 0 < seconds) {c : Call} (hc : ¬c.touches key) :
    (s.exec env (.expire key seconds)).1.exec env c =
      (((s.exec env c).1.exec env (.expire key seconds)).1, (s.exec env c).2) := by
  have hfix : ∀ k, c.touches k → ∀ v, dated key (env.deadline seconds) k v = v :=
    fun k hk v => if_neg fun heq : k = key => hc (heq ▸ hk)
  rw [h.expire env hs, (h.exec hmax env hc).expire env hs, exec_relabel env s hmax c hfix]

end Store
end GoRedis
