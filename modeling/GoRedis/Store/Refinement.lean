import GoRedis.Store.Live

/-! The store refines the keyspace.

Each call, on a store with any amount of stale entries, replies what the keyspace replies
and leaves a store that stands for the keyspace after the call; a pass of the sweeper
changes nothing that a call can see. -/
namespace GoRedis
open Keyed

namespace Store
open Keyspace

variable {s s' : Store} {now : Time} {key : Bytes} {v : Value}

/-! ### One call -/

/-- What a call has to do: reply as the keyspace does, leave a store that stands for the
keyspace after the call, and keep the budget. -/
structure Simulates (env : Env) (s : Store) (c : Call) : Prop where
  reply : c.view (s.exec env c).2 = ((s.live env.now).actIn env c).2
  live : (s.exec env c).1.live env.now = tick env.now ((s.live env.now).actIn env c).1
  unbounded : (s.exec env c).1.maxMemoryBytes = s.maxMemoryBytes

theorem Simulates.of {env : Env} {c : Call}
    (h : c.view (s.exec env c).2 = ((s.live env.now).actIn env c).2 ∧
      (s.exec env c).1.live env.now = tick env.now ((s.live env.now).actIn env c).1 ∧
      (s.exec env c).1.maxMemoryBytes = s.maxMemoryBytes) : Simulates env s c :=
  ⟨h.1, h.2.1, h.2.2⟩

/-! ### Reads -/

theorem finish_live {α : Type} {r : Shared α} (h : r.store.live now = s.live now) :
    (r.finish now).1.live now = s.live now := by
  rw [Shared.finish, deleteAllExpired_live, h]

theorem finish_max {α : Type} {r : Shared α} (h : r.store.maxMemoryBytes = s.maxMemoryBytes) :
    (r.finish now).1.maxMemoryBytes = s.maxMemoryBytes := by
  rw [Shared.finish, deleteAllExpired_max, h]

/-- A read of one key, seen through `f`, is the keyspace's read. -/
theorem read_simulates {α β δ : Type} {type : ValueType} {as : Datum → Option δ} {field : Value → δ}
    (has : ∀ v : Value, as v.entry.datum = if v.type = type then some (field v) else none)
    (absent : Result α) (view : Value → Result α) (f : Result α → Result β) (view' : δ → Result β)
    (hf : f .wrongType = .wrongType) (hview : ∀ v, f (view v) = view' (field v))
    (s : Store) (now : Time) (key : Bytes) :
    f ((s.read type absent view now key).finish now).2 = readAs as (f absent) view' (s.live now) key ∧
      ((s.read type absent view now key).finish now).1.live now = tick now (s.live now) ∧
      ((s.read type absent view now key).finish now).1.maxMemoryBytes = s.maxMemoryBytes := by
  rw [tick_live]
  suffices h : f (s.read type absent view now key).reply = readAs as (f absent) view' (s.live now) key ∧
      (s.read type absent view now key).store.live now = s.live now ∧
      (s.read type absent view now key).store.maxMemoryBytes = s.maxMemoryBytes from
    ⟨h.1, finish_live h.2.1, finish_max h.2.2⟩
  unfold read readAs
  cases hv : s.data.toFinmap.lookup key with
  | none => simp [hv, live_absent hv]
  | some v =>
    by_cases hx : isExpired now v = true
    · simp [hv, hx, live_stale hv hx]
    · by_cases ht : v.type = type
      · simp [hv, hx, live_found hv hx, ht, has, hview, touch_live]
      · simp [hv, hx, live_found hv hx, ht, has, hf]

/-- A count that is read, as an `int`. -/
theorem readAs_count {δ : Type} (as : Datum → Option δ) (size : δ → Int) (ks : Keyspace) (key : Bytes) :
    (ks.readAs as (.just 0) (fun d => .just (size d)) key).map asInt =
      ks.readAs as (.just 0) (fun d => .just (asInt (size d))) key := by
  unfold readAs
  split
  · simp
  · split <;> simp

/-- Whether a key is live, as the reads decide it. -/
theorem mem_live (s : Store) (now : Time) (key : Bytes) : key ∈ s.live now ↔
    (match s.data.get key with
      | none => false
      | some v => !isExpired now v) = true := by
  rw [← Finmap.lookup_isSome, HashTable.get_eq]
  cases hv : s.data.toFinmap.lookup key with
  | none => simp [live_absent hv]
  | some v =>
    by_cases hx : isExpired now v = true
    · simp [live_stale hv hx, hx]
    · simp [live_found hv hx, hx]

theorem exists_simulates (env : Env) (s : Store) (keys : List Bytes) :
    Simulates env s (.exists' keys) where
  reply := by
    show asInt (keys.countP _ : Nat) = asInt (keys.countP fun key => decide (key ∈ s.live env.now) : Nat)
    congr 3
    funext key
    exact Bool.eq_iff_iff.mpr ((s.mem_live env.now key).symm.trans decide_eq_true_iff.symm)
  live := (finish_live rfl).trans (tick_live s).symm
  unbounded := finish_max rfl

theorem keys_simulates (env : Env) (s : Store) : Simulates env s .keys where
  reply := by
    show Multiset.ofList ((s.data.nodes.filter _).map Sigma.fst) =
      ((Multiset.filterMap _ (Multiset.ofList s.data.nodes)).map Sigma.fst)
    rw [Multiset.filterMap_coe, Multiset.map_coe, ← List.filterMap_eq_filter, List.map_filterMap,
      List.map_filterMap]
    congr 2
    funext node
    simp only [Value.keep_entry]
    by_cases hx : isExpired env.now node.2 = true <;> simp [hx]
  live := (finish_live rfl).trans (tick_live s).symm
  unbounded := finish_max rfl

/-- Truncating division rounds as floor does while the deadline is ahead. -/
theorem remaining_eq {now deadline : Int} (h : now < deadline) :
    ((deadline - now).tdiv 1000000 + 500).tdiv 1000 = remainingSeconds now deadline := by
  have hms : (deadline - now).tdiv 1000000 = (deadline - now) / 1000000 :=
    Int.tdiv_eq_ediv_of_nonneg (by omega)
  rw [hms, Int.tdiv_eq_ediv_of_nonneg (by omega)]
  rfl

theorem ttl_simulates (env : Env) (s : Store) (key : Bytes) : Simulates env s (.ttl key) where
  reply := by
    show (s.ttl env.now key).reply = _
    unfold ttl
    dsimp only [actIn, act, expireAt, Call.narrow]
    cases hv : s.data.toFinmap.lookup key with
    | none => simp [hv, live_absent hv]
    | some v =>
      by_cases hx : isExpired env.now v = true
      · simp [hv, hx, live_stale hv hx]
      · simp only [HashTable.get_eq, hv, hx, live_found hv hx, Value.entry]
        cases hd : v.expiresAt with
        | none => rfl
        | some deadline =>
          exact remaining_eq (by simpa [isExpired, hd] using hx)
  live := (finish_live (by rw [ttl_store])).trans (tick_live s).symm
  unbounded := finish_max (by rw [ttl_store])

/-! ### Writes -/

/-- `Set` without a budget: the value inserted, then stamped. -/
theorem set_eq (h : s.maxMemoryBytes = 0) (draw : Nat → Nat → Nat) (key value : Bytes) :
    ∃ s' : Store, s.set draw key value = s'.touch key ∧ s'.maxMemoryBytes = s.maxMemoryBytes ∧
      s'.data.toFinmap = s.data.toFinmap.insert key { type := .string, strValue := value } := by
  refine ⟨_, evict_unbounded ?_ draw, debit_max .., ?_⟩
  · rw [touch_max]
    exact (debit_max ..).trans h
  · show (Store.debit _ _).data.toFinmap = _
    rw [debit_data]
    exact HashTable.toFinmap_set ..

theorem set_simulates (env : Env) (s : Store) (key value : Bytes) (h : s.maxMemoryBytes = 0) :
    Simulates env s (.set key value) := by
  obtain ⟨s', hs', hmax, hdata⟩ := set_eq h env.draw key value
  have hexec : (s.exec env (.set key value)).1 = s'.touch key := hs'
  refine ⟨rfl, ?_, by rw [hexec, touch_max, hmax]⟩
  rw [hexec, touch_live]
  exact live_insert hdata

theorem flushAll_simulates (env : Env) (s : Store) : Simulates env s .flushAll where
  reply := rfl
  live := by
    show select _ (HashTable.empty : HashTable Value).toFinmap = select _ ∅
    rw [HashTable.toFinmap_empty, select_empty, select_empty]
  unbounded := rfl

theorem expire_simulates (env : Env) (s : Store) (key : Bytes) (seconds : Int) :
    Simulates env s (.expire key seconds) := by
  suffices h : ∀ r : Store × Bool, r = s.expire env.rep env.now key seconds →
      r.2 = ((s.live env.now).actIn env (.expire key seconds)).2 ∧
      r.1.live env.now = tick env.now ((s.live env.now).actIn env (.expire key seconds)).1 ∧
      r.1.maxMemoryBytes = s.maxMemoryBytes by
    obtain ⟨hr, hl, hm⟩ := h _ rfl
    exact ⟨hr, hl, hm⟩
  intro r hr
  unfold expire at hr
  dsimp only [actIn, act, expireAt, Call.narrow]
  cases hv : s.data.toFinmap.lookup key with
  | none =>
    simp only [HashTable.get_eq, hv] at hr
    simp [hr, live_absent hv]
  | some v =>
    by_cases hx : isExpired env.now v = true
    · simp only [HashTable.get_eq, hv, hx, if_true] at hr
      simp [hr, live_stale hv hx, discard_stale hv hx]
    · by_cases hs : seconds ≤ 0
      · simp only [HashTable.get_eq, hv, hx, hs, if_true] at hr
        simp [hr, live_found hv hx, hs, discard_live, tick_erase_live]
      · simp only [HashTable.get_eq, hv, hx, if_false, hs] at hr
        rw [hr]
        simp only [live_found hv hx, hs, if_false]
        refine ⟨rfl, ?_, rfl⟩
        refine live_insert (s := s) (v := { v with expiresAt := some _ }) ?_
        exact HashTable.toFinmap_assign _ _ _ (Finmap.mem_of_lookup_eq_some hv)

/-- One more key of a list of keys to erase. -/
theorem card_inter_cons (K : Finset Bytes) (key : Bytes) (keys : List Bytes) :
    (K ∩ (key :: keys).toFinset).card =
      (if key ∈ K then 1 else 0) + (K.erase key ∩ keys.toFinset).card := by
  rw [List.toFinset_cons]
  by_cases hk : key ∈ K
  · have hsplit : K ∩ insert key keys.toFinset = insert key (K.erase key ∩ keys.toFinset) := by
      ext x
      by_cases hx : x = key <;> simp [hx, hk]
    rw [hsplit, Finset.card_insert_of_notMem (by simp), if_pos hk, Nat.add_comm]
  · rw [if_neg hk, Finset.erase_eq_of_notMem hk, Nat.zero_add, Finset.inter_insert_of_notMem hk]

/-- `Del`'s loop over the keys, from any count. -/
theorem delLoop_simulates (now : Time) (keys : List Bytes) (s : Store) (removed : Int) :
    (keys.foldl (delOne now) (s, removed)).1.live now =
        keys.foldl (fun ks key => ks.erase key) (s.live now) ∧
      (keys.foldl (delOne now) (s, removed)).2 =
        removed + ((s.live now).keys ∩ keys.toFinset).card ∧
      (keys.foldl (delOne now) (s, removed)).1.maxMemoryBytes = s.maxMemoryBytes := by
  induction keys generalizing s removed with
  | nil => simp
  | cons key keys ih =>
    have hone : (delOne now (s, removed) key).1.live now = (s.live now).erase key ∧
        (delOne now (s, removed) key).2 = removed + ((if key ∈ (s.live now).keys then 1 else 0 : Nat) : Int) ∧
        (delOne now (s, removed) key).1.maxMemoryBytes = s.maxMemoryBytes := by
      simp only [Finmap.mem_keys, ← Finmap.lookup_isSome]
      unfold delOne
      cases hv : s.data.toFinmap.lookup key with
      | none => simp [hv, live_absent hv, erase_of_lookup (live_absent hv)]
      | some v =>
        by_cases hx : isExpired now v = true
        · simp [hv, hx, live_stale hv hx, discard_live]
        · simp [hv, hx, live_found hv hx, discard_live]
    rcases hd : delOne now (s, removed) key with ⟨s₁, removed₁⟩
    rw [hd] at hone
    obtain ⟨hlive, hcount, hmax⟩ := hone
    obtain ⟨ihl, ihc, ihm⟩ := ih s₁ removed₁
    simp only at hlive hcount hmax
    rw [List.foldl_cons, List.foldl_cons, hd]
    refine ⟨by rw [ihl, hlive], ?_, by rw [ihm, hmax]⟩
    rw [ihc, hlive, hcount, Finmap.keys_erase, card_inter_cons]
    push_cast
    omega

theorem tick_eraseAll_live (s : Store) (keys : List Bytes) :
    tick now (keys.foldl (fun ks key => ks.erase key) (s.live now)) =
      keys.foldl (fun ks key => ks.erase key) (s.live now) := by
  rw [← (delLoop_simulates now keys s 0).1, tick_live]

theorem del_simulates (env : Env) (s : Store) (keys : List Bytes) : Simulates env s (.del keys) := by
  obtain ⟨hlive, hcount, hmax⟩ := delLoop_simulates env.now keys s 0
  refine ⟨?_, hlive.trans (tick_eraseAll_live s keys).symm, hmax⟩
  rw [Int.zero_add] at hcount
  exact congrArg asInt hcount

theorem setFields_simulates (hash : HashTable Bytes) (fields : List (Bytes × Bytes)) :
    (Store.setFields hash fields).1.toFinmap = Keyspace.setFields hash.toFinmap fields ∧
      (Store.setFields hash fields).2 = growth hash.toFinmap (Keyspace.setFields hash.toFinmap fields) := by
  suffices h : ∀ added : Int,
      (fields.foldl (fun acc field =>
        let r := acc.1.set field.1 field.2
        (r.1, if r.2 then acc.2 else acc.2 + 1)) (hash, added)).1.toFinmap =
        Keyspace.setFields hash.toFinmap fields ∧
      (fields.foldl (fun acc field =>
        let r := acc.1.set field.1 field.2
        (r.1, if r.2 then acc.2 else acc.2 + 1)) (hash, added)).2 =
        added + growth hash.toFinmap (Keyspace.setFields hash.toFinmap fields) by
    obtain ⟨hmap, hcount⟩ := h 0
    exact ⟨hmap, by rw [Int.zero_add] at hcount; exact hcount⟩
  induction fields generalizing hash with
  | nil => simp [Keyspace.setFields, growth]
  | cons field fields ih =>
    intro added
    obtain ⟨hmap, hcount⟩ := ih (hash.set field.1 field.2).1
      (if (hash.set field.1 field.2).2 then added else added + 1)
    rw [HashTable.toFinmap_set] at hmap hcount
    refine ⟨hmap, hcount.trans ?_⟩
    have hcard := card_insert hash.toFinmap field.1 field.2
    show _ = added + growth hash.toFinmap (Keyspace.setFields (hash.toFinmap.insert field.1 field.2) fields)
    rw [growth, growth, HashTable.set_found]
    by_cases hmem : field.1 ∈ hash.toFinmap <;> simp [hmem] at hcard ⊢ <;> omega

theorem deleteFields_simulates (hash : HashTable Bytes) (fields : List Bytes) :
    (deleteFields hash fields).1.toFinmap = eraseFields hash.toFinmap fields ∧
      (deleteFields hash fields).2 = growth (eraseFields hash.toFinmap fields) hash.toFinmap := by
  suffices h : ∀ removed : Int,
      (fields.foldl (fun acc field =>
        let r := acc.1.delete field
        (r.1, if r.2 then acc.2 + 1 else acc.2)) (hash, removed)).1.toFinmap =
        eraseFields hash.toFinmap fields ∧
      (fields.foldl (fun acc field =>
        let r := acc.1.delete field
        (r.1, if r.2 then acc.2 + 1 else acc.2)) (hash, removed)).2 =
        removed + growth (eraseFields hash.toFinmap fields) hash.toFinmap by
    obtain ⟨hmap, hcount⟩ := h 0
    exact ⟨hmap, by rw [Int.zero_add] at hcount; exact hcount⟩
  induction fields generalizing hash with
  | nil => simp [eraseFields, growth]
  | cons field fields ih =>
    intro removed
    obtain ⟨hmap, hcount⟩ := ih (hash.delete field).1
      (if (hash.delete field).2 then removed + 1 else removed)
    rw [HashTable.toFinmap_delete] at hmap hcount
    refine ⟨hmap, hcount.trans ?_⟩
    have hcard := card_erase hash.toFinmap field
    show _ = removed + growth (eraseFields (hash.toFinmap.erase field) fields) hash.toFinmap
    rw [growth, growth, HashTable.delete_found]
    by_cases hmem : field ∈ hash.toFinmap <;> simp [hmem] at hcard ⊢ <;> omega

/-- A key that `getOrCreate` returned, updated: the keyspace's `upsert`. -/
theorem upsert_simulates {δ : Type} (type : ValueType) (field : Value → δ) (draw : Nat → Nat → Nat)
    {as : Datum → Option δ} {wrap : δ → Datum} {fresh : δ} (f : δ → δ) (reply : δ → δ → Int)
    (has : ∀ v : Value, as v.entry.datum = if v.type = type then some (field v) else none)
    (hfresh : ∀ seq, field { type := type, lastAccessedSeq := seq } = fresh)
    (hmax : s.maxMemoryBytes = 0) (r : Store × Result Int)
    (update : Value → Value)
    (hupdate : ∀ v : Value, v.type = type → (update v).entry = ⟨wrap (f (field v)), v.expiresAt⟩)
    (hwrong : ∀ s', s.getOrCreate type now key = (s', none) → r = (s', .wrongType))
    (hfound : ∀ s' v, s.getOrCreate type now key = (s', some v) →
      r = (evictIfOverBudget draw ((s'.rewrite key v (update v)).touch key),
        .just (asInt (reply (field v) (f (field v)))))) :
    r.2 = (upsert as wrap fresh f reply (s.live now) key).2.map asInt ∧
      r.1.live now = tick now (upsert as wrap fresh f reply (s.live now) key).1 ∧
      r.1.maxMemoryBytes = s.maxMemoryBytes := by
  have hc := s.getOrCreate_created type now key
  rcases hg : s.getOrCreate type now key with ⟨s', _ | v⟩
  · rw [hg] at hc
    cases hc with
    | wrongType v hv ht =>
      have hnone : as v.entry.datum = none := by rw [has, if_neg ht]
      simp [hwrong _ hg, upsert, hv, hnone]
  · rw [hg] at hc
    obtain ⟨hlive, hbudget⟩ := hc.rewritten (update v)
    rw [hfound _ _ hg, evict_unbounded (hbudget.trans hmax)]
    cases hc with
    | found _ _ hv ht =>
      have hsome : as v.entry.datum = some (field v) := by rw [has, if_pos ht]
      rw [hupdate v ht] at hlive
      simp only [upsert, hv, hsome]
      exact ⟨rfl, hlive, hbudget⟩
    | fresh _ seq hnone =>
      rw [hupdate _ rfl] at hlive
      simp only [hfresh] at hlive
      simp only [upsert, hnone, hfresh]
      exact ⟨rfl, hlive, hbudget⟩

theorem push_simulates (s : Store) (join : List Bytes → List Bytes → List Bytes)
    (grow : List Bytes → List Bytes) (draw : Nat → Nat → Nat) (now : Time) (key : Bytes)
    (values : List Bytes) (hgrow : ∀ list, join list values = grow list) (h : s.maxMemoryBytes = 0) :
    (s.push join draw now key values).2 = (pushed grow (s.live now) key).2.map asInt ∧
      (s.push join draw now key values).1.live now = tick now (pushed grow (s.live now) key).1 ∧
      (s.push join draw now key values).1.maxMemoryBytes = s.maxMemoryBytes := by
  refine upsert_simulates .list Value.listValue draw grow (fun _ xs => (xs.length : Int))
    Value.asList_entry (fun _ => rfl) h _
    (fun v => { v with listValue := join v.listValue values }) (fun v ht => ?_)
    (fun s' hg => ?_) (fun s' v hg => ?_)
  · simp [Value.entry, Value.datum, ht, hgrow]
  · simp only [push, getOrCreateList, hg]
  · simp only [push, getOrCreateList, hg, hgrow]

theorem hSet_simulates (s : Store) (draw : Nat → Nat → Nat) (now : Time) (key : Bytes)
    (fields : List (Bytes × Bytes)) (h : s.maxMemoryBytes = 0) :
    (s.hSet draw now key fields).2 = (hashSet fields (s.live now) key).2.map asInt ∧
      (s.hSet draw now key fields).1.live now = tick now (hashSet fields (s.live now) key).1 ∧
      (s.hSet draw now key fields).1.maxMemoryBytes = s.maxMemoryBytes := by
  refine upsert_simulates .hash (fun v => v.hashValue.toFinmap) draw (Keyspace.setFields · fields) growth
    Value.asHash_entry (fun _ => HashTable.toFinmap_empty) h _
    (fun v => { v with hashValue := (Store.setFields v.hashValue fields).1 }) (fun v ht => ?_)
    (fun s' hg => ?_) (fun s' v hg => ?_)
  · simp [Value.entry, Value.datum, ht, (setFields_simulates v.hashValue fields).1]
  · simp only [hSet, getOrCreateHash, hg]
  · simp only [hSet, getOrCreateHash, hg, (setFields_simulates _ fields).2]

theorem hDel_simulates (s : Store) (now : Time) (key : Bytes) (fields : List Bytes) :
    (s.hDel now key fields).2 = (hashDel (s.live now) key fields).2.map asInt ∧
      (s.hDel now key fields).1.live now = tick now (hashDel (s.live now) key fields).1 ∧
      (s.hDel now key fields).1.maxMemoryBytes = s.maxMemoryBytes := by
  unfold hDel hashDel
  cases hv : s.data.toFinmap.lookup key with
  | none => simp [hv, live_absent hv]
  | some v =>
    by_cases hx : isExpired now v = true
    · simp [hv, hx, live_stale hv hx, discard_stale hv hx]
    · by_cases ht : v.type = .hash
      · obtain ⟨hmap, hcount⟩ := deleteFields_simulates v.hashValue fields
        simp only [HashTable.get_eq, hv, hx, live_found hv hx, ht, Value.asHash_entry, if_true, not_true,
          ne_eq, if_false, Bool.false_eq_true, HashTable.len_eq, hmap, hcount, Finset.card_eq_zero]
        by_cases hempty : (eraseFields v.hashValue.toFinmap fields).keys = ∅
        · simp only [hempty, if_true, tick_erase_live]
          exact ⟨rfl, live_erase (emptied_data hv _ _), debit_max ..⟩
        · simp only [hempty, if_false]
          refine ⟨rfl, ?_, by rw [touch_max, rewrite_max]⟩
          rw [touch_live, live_insert (rewrite_data hv _)]
          simp [Value.entry, Value.datum, ht, hmap]
      · simp [hv, hx, live_found hv hx, Value.asHash_entry, ht]

/-! ### Ranges -/

/-- The elements whose index lies in an interval, when counting starts at `k`. -/
theorem filter_zipIdx (xs : List Bytes) (a b k : Nat) :
    ((xs.zipIdx k).filter fun p => a ≤ p.2 ∧ p.2 < b).map Prod.fst = (xs.take (b - k)).drop (a - k) := by
  induction xs generalizing k with
  | nil => simp
  | cons x xs ih =>
    rw [List.zipIdx_cons, List.filter_cons]
    by_cases hb : k < b
    · rw [show b - k = b - (k + 1) + 1 by omega, List.take_succ_cons]
      by_cases ha : a ≤ k
      · have hrest := ih (k + 1)
        rw [show a - (k + 1) = 0 by omega] at hrest
        rw [if_pos (by simp [ha, hb]), List.map_cons, hrest, show a - k = 0 by omega]
        rfl
      · rw [show a - k = a - (k + 1) + 1 by omega, List.drop_succ_cons, ← ih]
        simp [ha]
    · rw [show b - k = 0 by omega]
      have hrest := ih (k + 1)
      rw [show b - (k + 1) = 0 by omega] at hrest
      simpa [hb] using hrest

theorem range_eq (xs : List Bytes) (start stop : Int) :
    range xs start stop =
      (xs.take (normalizeIndex stop xs.length + 1).toNat).drop (normalizeIndex start xs.length).toNat := by
  have h := filter_zipIdx xs (normalizeIndex start xs.length).toNat
    (normalizeIndex stop xs.length + 1).toNat 0
  rw [Nat.sub_zero, Nat.sub_zero] at h
  rw [← h, range]
  congr 2
  funext p
  rw [decide_eq_decide]
  unfold normalizeIndex
  omega

/-- The clamped slice is the range of indices, if the length is an `int`. -/
theorem slice_eq {xs : List Bytes} (hlen : xs.length < 2 ^ 31) (start stop : Int) :
    slice xs start stop = range xs start stop := by
  have hint : asInt xs.length = xs.length := asInt_of_fits (Signed.fits_32.mpr (by omega))
  rw [range_eq, slice, hint]
  generalize normalizeIndex start xs.length = lo
  generalize normalizeIndex stop xs.length = hi
  split
  · next hempty =>
    symm
    rw [List.drop_eq_nil_iff, List.length_take]
    omega
  · next hne =>
    rw [show (max lo 0).toNat = lo.toNat by omega]
    congr 1
    rw [List.take_eq_take_iff]
    omega

/-! ### Where the widths of the code are wide enough -/

theorem narrow_of_fits {c : Call} {view : c.View} (h : c.CountFits view) : c.narrow view = view := by
  have hresult : ∀ {r : Result Int}, (∀ n ∈ r.value, Signed.Fits 32 n) → r.map asInt = r := by
    intro r hr
    obtain ⟨_ | n, error⟩ := r
    · rfl
    · rw [Result.map, Option.map_some, asInt_of_fits (hr n rfl)]
  cases c with
  | del keys => exact asInt_of_fits h
  | exists' keys => exact asInt_of_fits h
  | lPush key values => exact hresult h
  | rPush key values => exact hresult h
  | lLen key => exact hresult h
  | hSet key fields => exact hresult h
  | hDel key fields => exact hresult h
  | hLen key => exact hresult h
  | _ => rfl

theorem deadline_of_fits {env : Env} {seconds : Int} (hnanos : Signed.Fits 64 (seconds * 1000000000))
    (hdeadline : Signed.Fits 64 (env.now + seconds * 1000000000)) :
    env.deadline seconds = env.now + seconds * 1000000000 := by
  rw [Env.deadline, ClockRep.count_of_fits hnanos, ClockRep.count_of_fits hdeadline]

theorem expireAt_congr {ks : Keyspace} {key : Bytes} {seconds : Int} {deadline deadline' : Time}
    (h : key ∈ ks → 0 < seconds → deadline = deadline') :
    expireAt deadline ks key seconds = expireAt deadline' ks key seconds := by
  unfold expireAt
  split
  · rfl
  · next e he =>
    split
    · rfl
    · next hpos => rw [h (Finmap.mem_of_lookup_eq_some he) (Int.not_le.mp hpos)]

theorem readAs_congr {α δ : Type} {as : Datum → Option δ} {absent : Result α} {view view' : δ → Result α}
    {ks : Keyspace} {key : Bytes} (h : ∀ e ∈ ks.lookup key, ∀ d ∈ as e.datum, view d = view' d) :
    ks.readAs as absent view key = ks.readAs as absent view' key := by
  unfold readAs
  split
  · rfl
  · next e he =>
    split
    · rfl
    · next d hd => exact h e he d hd

/-- There a call does what it does on the keyspace. -/
theorem actIn_eq {env : Env} {ks : Keyspace} {c : Call} (h : InWidths env.now ks c) :
    ks.actIn env c = ks.act env.now c := by
  have hcount : ∀ c : Call, c.CountFits (ks.act env.now c).2 →
      ((ks.act env.now c).1, c.narrow (ks.act env.now c).2) = ks.act env.now c := by
    intro c hc
    rw [narrow_of_fits hc]
  cases c with
  | expire key seconds =>
    apply expireAt_congr
    intro hmem hpos
    obtain ⟨hnanos, hdeadline⟩ := h hmem hpos
    exact deadline_of_fits hnanos hdeadline
  | lRange key start stop =>
    refine Prod.ext rfl (readAs_congr fun e he xs hxs => ?_)
    rw [slice_eq (h e he xs hxs)]
  | _ => exact hcount _ h

/-! ### Every call -/

theorem exec_simulates (env : Env) (s : Store) (h : s.maxMemoryBytes = 0) (c : Call) :
    Simulates env s c := by
  have hread := fun {α β δ : Type} {type : ValueType} {as : Datum → Option δ} {field : Value → δ}
      has absent view f view' hf hview =>
    @read_simulates α β δ type as field has absent view f view' hf hview s env.now
  cases c with
  | set key value => exact set_simulates env s key value h
  | del keys => exact del_simulates env s keys
  | exists' keys => exact exists_simulates env s keys
  | keys => exact keys_simulates env s
  | flushAll => exact flushAll_simulates env s
  | expire key seconds => exact expire_simulates env s key seconds
  | ttl key => exact ttl_simulates env s key
  | lPush key values =>
    have hjoin : ∀ list : List Bytes,
        values.foldl (fun list value => value :: list) list = values.reverse ++ list :=
      fun list => by rw [List.foldl_flip_cons_eq_append, List.map_id']
    have hsim := push_simulates s _ (values.reverse ++ ·) env.draw env.now key values hjoin h
    exact .of hsim
  | rPush key values =>
    have hsim := push_simulates s _ (· ++ values) env.draw env.now key values (fun _ => rfl) h
    exact .of hsim
  | hSet key fields =>
    have hsim := hSet_simulates s env.draw env.now key fields h
    exact .of hsim
  | hDel key fields =>
    have hsim := hDel_simulates s env.now key fields
    exact .of hsim
  | get key =>
    have hsim := hread Value.asStr_entry .missing (fun v => .just v.strValue) id .just rfl
      (fun _ => rfl) key
    exact .of hsim
  | lLen key =>
    have hsim := hread Value.asList_entry (.just 0) (fun v => .just (asInt v.listValue.length)) id
      (fun xs => .just (asInt xs.length)) rfl (fun _ => rfl) key
    exact .of ⟨hsim.1.trans (readAs_count ..).symm, hsim.2⟩
  | lRange key start stop =>
    have hsim := hread Value.asList_entry (.just [])
      (fun v => .just (slice v.listValue start stop)) id (fun xs => .just (slice xs start stop)) rfl
      (fun _ => rfl) key
    exact .of hsim
  | hGet key field =>
    have hsim := hread Value.asHash_entry .missing
      (fun v => ⟨v.hashValue.get field, .none⟩) id (fun m => ⟨m.lookup field, .none⟩) rfl
      (fun v => by rw [id, HashTable.get_eq]) key
    exact .of hsim
  | hLen key =>
    have hsim := hread Value.asHash_entry (.just 0) (fun v => .just (asInt v.hashValue.len)) id
      (fun m => .just (asInt m.keys.card)) rfl (fun v => by rw [id, HashTable.len_eq]) key
    exact .of ⟨hsim.1.trans (readAs_count ..).symm, hsim.2⟩
  | hExists key field =>
    have hsim := hread Value.asHash_entry (.just 0)
      (fun v => .just (if (v.hashValue.get field).isSome then 1 else 0 : Int)) id
      (fun m => .just (if field ∈ m then 1 else 0 : Int)) rfl
      (fun v => by simp only [id, HashTable.get_eq, Finmap.lookup_isSome]) key
    exact .of hsim
  | hGetAll key =>
    have hsim := hread Value.asHash_entry (.just [])
      (fun v => .just (v.hashValue.nodes.map fun node => (node.1, node.2))) (Result.map Multiset.ofList)
      (fun m => .just (m.entries.map fun e => (e.1, e.2))) rfl (fun _ => rfl) key
    exact .of hsim
  | hKeys key =>
    have hsim := hread Value.asHash_entry (.just []) (fun v => .just v.hashValue.keys)
      (Result.map Multiset.ofList) (fun m => .just m.keys.val) rfl (fun _ => rfl) key
    exact .of hsim
  | hVals key =>
    have hsim := hread Value.asHash_entry (.just [])
      (fun v => .just (v.hashValue.nodes.map fun node => node.2)) (Result.map Multiset.ofList)
      (fun m => .just (m.entries.map Sigma.snd)) rfl (fun _ => rfl) key
    exact .of hsim

end Store

/-! ### Any sequence of calls and sweeps -/

namespace Store

/-- A public call, or a pass of the sweeper. -/
inductive Step where
  | call (env : Env) (c : Call)
  | sweepExpired (now : Time)

/-- The clock reading of a step. -/
def Step.now : Step → Time
  | .call env _ => env.now
  | .sweepExpired now => now

def Step.call? : Step → Option (Time × Call)
  | .call env c => some (env.now, c)
  | .sweepExpired _ => none

def step (s : Store) : Step → Store
  | .call env c => (s.exec env c).1
  | .sweepExpired now => s.sweepExpired now

/-- What the calls of a run reply. -/
def replies (s : Store) : List Step → List (Σ c : Call, c.View)
  | [] => []
  | .call env c :: steps => ⟨c, c.view (s.exec env c).2⟩ :: replies (s.step (.call env c)) steps
  | .sweepExpired now :: steps => replies (s.step (.sweepExpired now)) steps

end Store

namespace Keyspace

/-- What the same calls reply on a keyspace. -/
def replies (ks : Keyspace) : List (Time × Call) → List (Σ c : Call, c.View)
  | [] => []
  | (now, c) :: calls => ⟨c, (ks.exec now c).2⟩ :: replies (ks.exec now c).1 calls

/-- The widths of the code are wide enough for all of these calls. -/
def AllInWidths (ks : Keyspace) : List (Time × Call) → Prop
  | [] => True
  | (now, c) :: calls => InWidths now (ks.tick now) c ∧ AllInWidths (ks.exec now c).1 calls

end Keyspace

namespace Store
open Keyspace

variable {s : Store}

/-- A store that stands for a keyspace at the times of all the steps replies as it does. -/
theorem replies_of_live {ks : Keyspace} (steps : List Step) (hmax : s.maxMemoryBytes = 0)
    (hmono : steps.Pairwise (·.now ≤ ·.now)) (hwidths : ks.AllInWidths (steps.filterMap Step.call?))
    (hlive : ∀ st ∈ steps, s.live st.now = tick st.now ks) :
    s.replies steps = ks.replies (steps.filterMap Step.call?) := by
  induction steps generalizing s ks with
  | nil => rfl
  | cons st steps ih =>
    obtain ⟨hle, hrest⟩ := List.pairwise_cons.mp hmono
    obtain ⟨hhead, htail⟩ := List.forall_mem_cons.mp hlive
    -- what the step leaves agrees at its own time, hence at every later one
    have hlater : ∀ (s' : Store) (ks' : Keyspace), s'.live st.now = tick st.now ks' →
        ∀ st' ∈ steps, s'.live st'.now = tick st'.now ks' := by
      intro s' ks' h st' hst'
      rw [← tick_live_later (hle st' hst'), h, tick_tick (hle st' hst')]
    cases st with
    | call env c =>
      obtain ⟨hreply, hnext, hbudget⟩ := exec_simulates env s hmax c
      obtain ⟨hcall, hcalls⟩ := hwidths
      simp only [Step.now] at hhead
      rw [hhead, actIn_eq hcall] at hreply hnext
      rw [replies, List.filterMap_cons, Step.call?, Keyspace.replies, hreply]
      exact congrArg _ (ih (hbudget.trans hmax) hrest hcalls (hlater _ _ hnext))
    | sweepExpired now =>
      rw [replies, List.filterMap_cons, Step.call?]
      refine ih ((deleteAllExpired_max ..).trans hmax) hrest hwidths (hlater _ _ ?_)
      exact (deleteAllExpired_live ..).trans hhead

/-- `HKeys` and `HVals` list one hash in one order. -/
theorem zip_hKeys_hVals (s : Store) (env : Env) (key : Bytes) :
    Option.map₂ List.zip (s.hKeys env.now key).reply.value (s.hVals env.now key).reply.value =
      (s.hGetAll env.now key).reply.value := by
  unfold hKeys hVals hGetAll read
  split
  · rfl
  · split
    · rfl
    · split
      · rfl
      · exact congrArg some List.zip_map'

theorem live_fresh (now : Time) : ({} : Store).live now = ∅ := by
  show select _ (HashTable.empty : HashTable Value).toFinmap = ∅
  rw [HashTable.toFinmap_empty, select_empty]

/-- **The store refines the keyspace.** Over any calls and any passes of the sweeper
between them, at clock readings that do not decrease, every call replies what it replies
on the abstract keyspace, which no sweep touches, as long as no deadline leaves the 64 bits of
the clock and no count the 32 bits of an `int`; and in the store reached `HKeys` and
`HVals` zip to `HGetAll`. -/
theorem replies_refine (steps : List Step) (hmono : steps.Pairwise (·.now ≤ ·.now))
    (hwidths : AllInWidths ∅ (steps.filterMap Step.call?)) :
    ({} : Store).replies steps = Keyspace.replies ∅ (steps.filterMap Step.call?) ∧
      ∀ (env : Env) (key : Bytes),
        let s := steps.foldl step {}
        Option.map₂ List.zip (s.hKeys env.now key).reply.value (s.hVals env.now key).reply.value =
          (s.hGetAll env.now key).reply.value := by
  refine ⟨replies_of_live steps rfl hmono hwidths fun st _ => ?_, fun env key => zip_hKeys_hVals _ env key⟩
  rw [live_fresh, tick, select_empty]

/-- A key set, given a second to live, and read when the second is over. -/
theorem replies_refine_expiring :
    let steps : List Step := [.call ⟨0, .int64, fun _ _ => 0⟩ (.set [107] [118]),
      .call ⟨0, .int64, fun _ _ => 0⟩ (.expire [107] 1), .sweepExpired 500000000,
      .call ⟨1000000000, .int64, fun _ _ => 0⟩ (.get [107])]
    steps.Pairwise (·.now ≤ ·.now) ∧ AllInWidths ∅ (steps.filterMap Step.call?) ∧
      ({} : Store).replies steps = Keyspace.replies ∅ (steps.filterMap Step.call?) := by
  intro steps
  have hmono : steps.Pairwise (·.now ≤ ·.now) := by simp [steps, Step.now]
  have hwidths : AllInWidths ∅ (steps.filterMap Step.call?) :=
    ⟨trivial, fun _ _ => ⟨by decide, by decide⟩, trivial, trivial⟩
  exact ⟨hmono, hwidths, (replies_refine steps hmono hwidths).1⟩

/-- What `Get` replies in a run. -/
def gotten : (Σ c : Call, c.View) → Option Bytes
  | ⟨.get _, r⟩ => r.value
  | _ => none

/-- The reply to a first `RPush`, as an `int`. -/
theorem rPush_fresh (env : Env) (key : Bytes) (values : List Bytes) :
    ({} : Store).replies [.call env (.rPush key values)] = [⟨.rPush key values, .just (asInt values.length)⟩] := by
  have hreply := (exec_simulates env {} rfl (.rPush key values)).reply
  rw [live_fresh] at hreply
  rw [replies, replies, hreply]
  rfl

/-- A deadline that leaves the 64 bits is in the past: the key is gone at once, and the keyspace
has it for another three hundred years. And of a list that outgrows an `int` the length is
negative. -/
theorem replies_overflow :
    let env : Env := ⟨0, .int64, fun _ _ => 0⟩
    let steps : List Step := [.call env (.set [107] [118]), .call env (.expire [107] 9300000000), .call env (.get [107])]
    let long : Call := .rPush [108] (List.replicate (2 ^ 31) [97])
    (steps.Pairwise (·.now ≤ ·.now) ∧
        (({} : Store).replies steps).map gotten = [none, none, none] ∧
        (Keyspace.replies ∅ (steps.filterMap Step.call?)).map gotten = [none, none, some [118]]) ∧
      ({} : Store).replies [.call env long] = [⟨long, .just (-2147483648 : Int)⟩] ∧
      Keyspace.replies ∅ [(0, long)] = [⟨long, .just (2147483648 : Int)⟩] := by
  intro env steps long
  have hcount : asInt (List.replicate (2 ^ 31) ([97] : Bytes)).length = -2147483648 := by
    rw [List.length_replicate, asInt]
    rfl
  have hexact : ((List.replicate (2 ^ 31) ([97] : Bytes)).length : Int) = 2147483648 := by
    rw [List.length_replicate]
    rfl
  refine ⟨⟨by simp [steps, env, Step.now], by decide +kernel, by decide +kernel⟩, ?_, ?_⟩
  · rw [rPush_fresh, hcount]
  · rw [← hexact]
    rfl

end Store
end GoRedis
