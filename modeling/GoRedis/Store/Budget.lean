import GoRedis.Store.Outcome

/-! The memory budget.

A call that grows the store evicts until it is within the budget again, one entry a round, as
long as the round's sample is not empty. `SampleKeys` draws buckets at random and gives up
after a bounded number of empty ones, so a sample can be empty although the table is not;
the loop then stops over budget. It ends within the budget exactly when every sample it
takes has an entry in it. -/
namespace GoRedis.Store
open Keyed

/-! ### The eviction loop -/

/-- Every sample that the eviction loop takes has an entry in it. -/
def SampledFor (draw : Nat → Nat → Nat) : (rounds round : Nat) → Store → Prop
  | 0, _, _ => True
  | rounds + 1, round, s =>
    s.usedMemoryBytes > s.maxMemoryBytes ∧ s.data.len > 0 →
      match s.data.sampleKeys kSampleSize (draw round) with
      | [] => False
      | e :: rest => SampledFor draw rounds (round + 1) (s.discard (victim e rest).1 (victim e rest).2)

instance decidableSampledFor (draw : Nat → Nat → Nat) :
    (rounds round : Nat) → (s : Store) → Decidable (SampledFor draw rounds round s)
  | 0, _, _ => .isTrue trivial
  | rounds + 1, round, s => by
    unfold SampledFor
    have hmore := decidableSampledFor draw rounds (round + 1)
    cases s.data.sampleKeys kSampleSize (draw round) <;> dsimp only <;> infer_instance

def Sampled (draw : Nat → Nat → Nat) (s : Store) : Prop :=
  s.maxMemoryBytes ≠ 0 → SampledFor draw s.data.len 0 s

instance (draw : Nat → Nat → Nat) (s : Store) : Decidable (s.Sampled draw) :=
  inferInstanceAs (Decidable (s.maxMemoryBytes ≠ 0 → _))

/-- Within the budget, if there is one. -/
def InBudget (s : Store) : Prop := s.maxMemoryBytes ≠ 0 → s.usedMemoryBytes ≤ s.maxMemoryBytes

theorem Accounted.empty {s : Store} (h : s.Accounted) (hlen : s.data.len = 0) : s.usedMemoryBytes = 0 := by
  have hnodes : s.data.nodes = [] := List.eq_nil_of_length_eq_zero (s.data.wf.counted.symm.trans hlen)
  rw [h.used, entriesBytes, hnodes]
  rfl

theorem discard_len {s : Store} {key : Bytes} {v : Value} (hv : s.data.toFinmap.lookup key = some v) :
    (s.discard key v).data.len + 1 = s.data.len := by
  have hcard := card_erase s.data.toFinmap key
  rw [if_pos (Finmap.mem_of_lookup_eq_some hv), ← discard_data s key v] at hcard
  rw [HashTable.len_eq, HashTable.len_eq, hcard]

/-- **Where the loop ends.** With as many rounds as there are entries it ends within the
budget exactly when every sample has an entry in it. -/
theorem evictLoop_le_iff (draw : Nat → Nat → Nat) (rounds round : Nat) {s : Store} (h : s.Accounted)
    (hlen : s.data.len ≤ rounds) :
    (evictLoop draw rounds round s).usedMemoryBytes ≤ s.maxMemoryBytes ↔ SampledFor draw rounds round s := by
  induction rounds generalizing round s with
  | zero =>
    have hused := h.empty (Nat.le_zero.mp hlen)
    exact iff_of_true (by rw [evictLoop, hused]; exact Nat.zero_le _) trivial
  | succ rounds ih =>
    unfold evictLoop SampledFor
    by_cases hover : s.usedMemoryBytes > s.maxMemoryBytes ∧ s.data.len > 0
    · rw [if_pos hover]
      cases hs : s.data.sampleKeys kSampleSize (draw round) with
      | nil => exact iff_of_false (Nat.not_le.mpr hover.1) fun hsampled => hsampled hover
      | cons e rest =>
        have hv := victim_lookup hs
        have hmore := discard_len hv
        have hrest := ih (round + 1) (discard_accounted h hv) (by omega)
        rw [discard_max] at hrest
        exact hrest.trans ⟨fun hsampled _ => hsampled, fun hsampled => hsampled hover⟩
    · rw [if_neg hover]
      refine iff_of_true ?_ fun hover' => absurd hover' hover
      by_cases hempty : s.data.len = 0
      · rw [h.empty hempty]
        exact Nat.zero_le _
      · exact Nat.not_lt.mp fun hlt => hover ⟨hlt, Nat.pos_of_ne_zero hempty⟩

theorem evict_max (draw : Nat → Nat → Nat) (s : Store) :
    (evictIfOverBudget draw s).maxMemoryBytes = s.maxMemoryBytes := (s.evict_discards draw).max

/-- **Eviction ends within the budget** exactly when every sample has an entry in it. -/
theorem evict_inBudget_iff (draw : Nat → Nat → Nat) {s : Store} (h : s.Accounted) :
    (evictIfOverBudget draw s).InBudget ↔ s.Sampled draw := by
  unfold InBudget Sampled
  rw [evict_max]
  refine imp_congr_right fun hmax => ?_
  rw [evictIfOverBudget, if_neg hmax]
  exact evictLoop_le_iff draw _ _ h (Nat.le_refl _)

/-! ### Operations -/

/-- An operation on a store: a public call, a change of budget, a pass of the sweeper, an
escalated deletion, a load of any entries. -/
inductive Operation where
  | call (env : Env) (c : Call)
  | setMaxMemory (draw : Nat → Nat → Nat) (maxMemoryBytes : Nat)
  | sweepExpired (now : Time)
  | deleteIfExpired (now : Time) (key : Bytes)
  | loadSnapshot (rep : ClockRep) (steadyNow wallNow : Time) (draw : Nat → Nat → Nat) (entries : List SnapshotEntry)

def operate (s : Store) : Operation → Store
  | .call env c => (s.exec env c).1
  | .setMaxMemory draw maxMemoryBytes => s.setMaxMemory draw maxMemoryBytes
  | .sweepExpired now => s.sweepExpired now
  | .deleteIfExpired now key => (s.deleteIfExpired now key).1
  | .loadSnapshot rep steadyNow wallNow draw entries => s.loadSnapshot rep steadyNow wallNow draw entries

/-- What is loaded has every key once, as what `Snapshot` returns has. -/
def Operation.Distinct : Operation → Prop
  | .loadSnapshot _ _ _ _ entries => (entries.map SnapshotEntry.key).Nodup
  | .call .. | .setMaxMemory .. | .sweepExpired _ | .deleteIfExpired .. => True

theorem operate_accounted {s : Store} (h : s.Accounted) {op : Operation} (hop : op.Distinct) :
    (s.operate op).Accounted := by
  cases op with
  | call env c => exact exec_accounted h env c
  | setMaxMemory draw maxMemoryBytes => exact evict_accounted draw ⟨h.used, h.unwrapped⟩
  | sweepExpired now => exact deleteAllExpired_accounted h now _
  | deleteIfExpired now key => exact deleteIfExpired_accounted h now key
  | loadSnapshot rep steadyNow wallNow draw entries => exact loadSnapshot_accounted h rep steadyNow wallNow draw hop

/-! ### What an operation does before it evicts -/

def withBudget (max : Nat) (s : Store) : Store := { s with maxMemoryBytes := max }

section
variable (max : Nat) (s : Store)

theorem withBudget_debit (bytes : Nat) : (s.withBudget max).debit bytes = (s.debit bytes).withBudget max := by
  unfold debit
  show (if bytes ≤ s.usedMemoryBytes then _ else _) = _
  split <;> rfl

theorem withBudget_touch (key : Bytes) : (s.withBudget max).touch key = (s.touch key).withBudget max := by
  unfold touch
  rw [show (s.withBudget max).data = s.data from rfl]
  split <;> rfl

theorem withBudget_discard (key : Bytes) (v : Value) :
    (s.withBudget max).discard key v = (s.discard key v).withBudget max := by
  unfold discard
  rw [withBudget_debit]
  rfl

theorem withBudget_deleteIfExpired (now : Time) (key : Bytes) :
    ((s.withBudget max).deleteIfExpired now key).1 = (s.deleteIfExpired now key).1.withBudget max := by
  unfold deleteIfExpired
  rw [show (s.withBudget max).data = s.data from rfl]
  split
  · split
    · exact withBudget_discard ..
    · rfl
  · rfl

theorem withBudget_rewrite (key : Bytes) (v v' : Value) :
    (s.withBudget max).rewrite key v v' = (s.rewrite key v v').withBudget max := by
  unfold rewrite
  rw [show ({ s.withBudget max with data := (s.withBudget max).data.assign key v' } : Store) =
    ({ s with data := s.data.assign key v' } : Store).withBudget max from rfl, withBudget_debit]
  rfl

theorem withBudget_getOrCreate (type : ValueType) (now : Time) (key : Bytes) :
    (s.withBudget max).getOrCreate type now key =
      ((s.getOrCreate type now key).1.withBudget max, (s.getOrCreate type now key).2) := by
  unfold getOrCreate
  rw [withBudget_deleteIfExpired]
  generalize (s.deleteIfExpired now key).1 = s'
  dsimp only
  rw [show (s'.withBudget max).data = s'.data from rfl]
  split
  · let s₁ : Store := { s' with data := (s'.data.set key { type := type }).1 }
    show (((s₁.credit (s₁.bytesAt key)).withBudget max).touch key,
      (((s₁.credit (s₁.bytesAt key)).withBudget max).touch key).data.get key) = _
    rw [withBudget_touch]
    rfl
  · split <;> rfl

theorem withBudget_loadEntry (rep : ClockRep) (steadyNow wallNow : Time) (entry : SnapshotEntry) :
    (s.withBudget max).loadEntry rep steadyNow wallNow entry =
      (s.loadEntry rep steadyNow wallNow entry).withBudget max := by
  unfold loadEntry
  split
  · rfl
  · let s₁ : Store := { s with data := (s.data.set entry.key (loadValue rep steadyNow wallNow entry)).1 }
    exact withBudget_touch max (s₁.credit (s₁.bytesAt entry.key)) entry.key

end

/-- The draws of an operation that ends with an eviction. -/
def Operation.draw? : Operation → Option (Nat → Nat → Nat)
  | .call env (.set ..) | .call env (.lPush ..) | .call env (.rPush ..) | .call env (.hSet ..) => some env.draw
  | .setMaxMemory draw _ => some draw
  | .loadSnapshot _ _ _ draw _ => some draw
  | .call .. | .sweepExpired _ | .deleteIfExpired .. => none

/-- What an operation makes of the store before it evicts: what it makes of it without a
budget. -/
def unevicted (s : Store) : Operation → Store
  | .setMaxMemory _ maxMemoryBytes => s.withBudget maxMemoryBytes
  | op => ((s.withBudget 0).operate op).withBudget s.maxMemoryBytes

/-- A budget that is lifted for a while. -/
theorem withBudget_zero {s : Store} {max : Nat} (h : s.maxMemoryBytes = max) (draw : Nat → Nat → Nat) :
    (evictIfOverBudget draw (s.withBudget 0)).withBudget max = s := by
  rw [evict_unbounded rfl, ← h]
  rfl

theorem set_evicts (s : Store) (draw : Nat → Nat → Nat) (key value : Bytes) :
    s.set draw key value =
      evictIfOverBudget draw (((s.withBudget 0).set draw key value).withBudget s.maxMemoryBytes) := by
  let s₁ : Store := { s with data := (s.data.set key { type := .string, strValue := value }).1 }
  have hset : (s.withBudget 0).set draw key value =
      evictIfOverBudget draw ((((s₁.withBudget 0).debit (s.bytesAt key)).credit (s₁.bytesAt key)).touch key) := rfl
  have hmax : (((s₁.debit (s.bytesAt key)).credit (s₁.bytesAt key)).touch key).maxMemoryBytes = s.maxMemoryBytes := by
    rw [touch_max]
    exact debit_max ..
  rw [hset, withBudget_debit, show ∀ x : Store, (x.withBudget 0).credit (s₁.bytesAt key) =
    (x.credit (s₁.bytesAt key)).withBudget 0 from fun _ => rfl, withBudget_touch, withBudget_zero hmax]
  rfl

/-- A push or `HSet` evicts last, unless it met another type and did nothing. -/
theorem update_evicts (s : Store) (type : ValueType) (f : Value → Value) (draw : Nat → Nat → Nat) (now : Time)
    (key : Bytes) :
    (s.getOrCreate type now key).2.isSome ∧ s.update type f draw now key =
      evictIfOverBudget draw (((s.withBudget 0).update type f draw now key).withBudget s.maxMemoryBytes) ∨
    (s.getOrCreate type now key).2 = none ∧ s.update type f draw now key = s ∧
      ((s.withBudget 0).update type f draw now key).withBudget s.maxMemoryBytes = s := by
  have hc := s.getOrCreate_created type now key
  unfold update
  rw [withBudget_getOrCreate]
  rcases hg : s.getOrCreate type now key with ⟨s', _ | v⟩
  · rw [hg] at hc
    cases hc
    exact .inr ⟨rfl, rfl, rfl⟩
  · rw [hg] at hc
    refine .inl ⟨rfl, ?_⟩
    dsimp only
    rw [withBudget_rewrite, withBudget_touch, withBudget_zero (hc.rewritten _).2]

theorem loadSnapshot_evicts (s : Store) (rep : ClockRep) (steadyNow wallNow : Time) (draw : Nat → Nat → Nat)
    (entries : List SnapshotEntry) :
    s.loadSnapshot rep steadyNow wallNow draw entries = evictIfOverBudget draw
      (((s.withBudget 0).loadSnapshot rep steadyNow wallNow draw entries).withBudget s.maxMemoryBytes) := by
  have hload : ∀ s : Store, entries.foldl (loadEntry rep steadyNow wallNow) (s.withBudget 0) =
      (entries.foldl (loadEntry rep steadyNow wallNow) s).withBudget 0 := by
    induction entries with
    | nil => exact fun _ => rfl
    | cons entry entries ih =>
      intro s
      rw [List.foldl_cons, List.foldl_cons, withBudget_loadEntry, ih]
  let s₁ : Store := { s with data := .empty, usedMemoryBytes := 0 }
  have hmax := loadEntries_max rep steadyNow wallNow entries s₁
  show _ = evictIfOverBudget draw ((evictIfOverBudget draw
    (entries.foldl (loadEntry rep steadyNow wallNow) (s₁.withBudget 0))).withBudget s.maxMemoryBytes)
  rw [hload, withBudget_zero hmax]
  rfl

/-- Such an operation evicts last, unless it met another type and did nothing. -/
theorem operate_evicts (s : Store) {op : Operation} {draw : Nat → Nat → Nat} (h : op.draw? = some draw) :
    s.operate op = evictIfOverBudget draw (s.unevicted op) ∨ s.operate op = s ∧ s.unevicted op = s := by
  cases op with
  | call env c =>
    cases c with
    | set key value =>
      cases h
      exact .inl (s.set_evicts env.draw key value)
    | lPush key values =>
      cases h
      dsimp only [unevicted, operate, exec, lPush]
      rw [push_store, push_store]
      exact (s.update_evicts ..).imp And.right And.right
    | rPush key values =>
      cases h
      dsimp only [unevicted, operate, exec, rPush]
      rw [push_store, push_store]
      exact (s.update_evicts ..).imp And.right And.right
    | hSet key fields =>
      cases h
      dsimp only [unevicted, operate, exec]
      rw [hSet_store, hSet_store]
      exact (s.update_evicts ..).imp And.right And.right
    | _ => cases h
  | setMaxMemory draw maxMemoryBytes =>
    cases h
    exact .inl rfl
  | loadSnapshot rep steadyNow wallNow draw entries =>
    cases h
    exact .inl (s.loadSnapshot_evicts ..)
  | sweepExpired now => cases h
  | deleteIfExpired now key => cases h

/-! ### Operations that do not evict -/

/-- Accounted for, under the same budget and no larger. -/
structure Shrunk (s s' : Store) : Prop where
  accounted : s'.Accounted
  used : s'.usedMemoryBytes ≤ s.usedMemoryBytes
  max : s'.maxMemoryBytes = s.maxMemoryBytes

section
variable {s s' s'' : Store}

theorem Accounted.shrunk (h : s.Accounted) : Shrunk s s := ⟨h, Nat.le_refl _, rfl⟩

theorem Shrunk.trans (h : Shrunk s s') (h' : Shrunk s' s'') : Shrunk s s'' :=
  ⟨h'.accounted, h'.used.trans h.used, h'.max.trans h.max⟩

theorem Shrunk.inBudget (h : Shrunk s s') (hs : s.InBudget) : s'.InBudget := by
  intro hmax
  rw [h.max] at hmax ⊢
  exact h.used.trans (hs hmax)

theorem Accounted.discard (h : s.Accounted) {key : Bytes} {v : Value}
    (hv : s.data.toFinmap.lookup key = some v) : Shrunk s (s.discard key v) := by
  refine ⟨discard_accounted h hv, ?_, discard_max ..⟩
  rw [Store.discard, debit_of_le (h.le hv)]
  exact Nat.sub_le ..

theorem Accounted.discards (h : s.Accounted) (hd : Discards s s') : Shrunk s s' :=
  hd.keeps (P := Shrunk s) (fun hv ht => ht.trans (ht.accounted.discard hv)) h.shrunk

theorem Accounted.touch (h : s.Accounted) (key : Bytes) : Shrunk s (s.touch key) := by
  refine ⟨touch_accounted h key, Nat.le_of_eq ?_, touch_max ..⟩
  unfold Store.touch
  split <;> rfl

theorem Accounted.expire (h : s.Accounted) (rep : ClockRep) (now : Time) (key : Bytes) (seconds : Int) :
    Shrunk s (s.expire rep now key seconds).1 := by
  have haccounted := expire_accounted h rep now key seconds
  unfold Store.expire at haccounted ⊢
  split
  · exact h.shrunk
  · next v hv =>
    have hv : s.data.toFinmap.lookup key = some v := by simpa using hv
    split
    · exact h.discard hv
    · split
      · exact h.discard hv
      · next hx hs =>
        rw [HashTable.get_eq, hv] at haccounted
        simp only [hx, hs, if_false, Bool.false_eq_true] at haccounted
        exact ⟨haccounted, Nat.le_refl _, rfl⟩

theorem total_eraseFields_le (w : Bytes → Bytes → Nat) (m : Finmap fun _ : Bytes => Bytes) (fields : List Bytes) :
    total w (Keyspace.eraseFields m fields) ≤ total w m := by
  induction fields generalizing m with
  | nil => exact Nat.le_refl _
  | cons field fields ih => exact (ih (m.erase field)).trans (total_erase_le w m field)

/-- Deleting fields makes a hash no larger. -/
theorem estimateEntryBytes_deleteFields (key : Bytes) {v : Value} (fields : List Bytes) (ht : v.type = .hash) :
    estimateEntryBytes key { v with hashValue := (deleteFields v.hashValue fields).1 } ≤ estimateEntryBytes key v := by
  let w : Bytes → Bytes → Nat := fun field value => field.length + value.length + kPerHashFieldOverheadBytes
  have hsize : ∀ hash : HashTable Bytes, estimateEntryBytes key { v with hashValue := hash } =
      key.length + kPerEntryOverheadBytes + total w hash.toFinmap := by
    intro hash
    unfold estimateEntryBytes
    rw [ht]
    rfl
  have hle := total_eraseFields_le w v.hashValue.toFinmap fields
  have hold : estimateEntryBytes key v = _ := hsize v.hashValue
  rw [hsize, hold, (deleteFields_simulates v.hashValue fields).1]
  exact Nat.add_le_add_left hle _

theorem Accounted.rewrite (h : s.Accounted) {key : Bytes} {v v' : Value}
    (hv : s.data.toFinmap.lookup key = some v) (hle : estimateEntryBytes key v' ≤ estimateEntryBytes key v) :
    Shrunk s (s.rewrite key v v') := by
  refine ⟨rewrite_accounted h hv v', ?_, rewrite_max ..⟩
  have hused := h.le hv
  rw [Store.rewrite, debit_of_le (by exact hused)]
  show s.usedMemoryBytes - _ + _ ≤ s.usedMemoryBytes
  omega

theorem Accounted.hDel (h : s.Accounted) (now : Time) (key : Bytes) (fields : List Bytes) :
    Shrunk s (s.hDel now key fields).1 := by
  have haccounted := hDel_accounted h now key fields
  unfold Store.hDel at haccounted ⊢
  split
  · exact h.shrunk
  · next v hv =>
    have hv : s.data.toFinmap.lookup key = some v := by simpa using hv
    split
    · exact h.discard hv
    · split
      · exact h.shrunk
      · next hx ht =>
        dsimp only
        split
        · next hempty =>
          rw [HashTable.get_eq, hv] at haccounted
          simp only [hx, ht, hempty, if_true, if_false, Bool.false_eq_true] at haccounted
          refine ⟨haccounted, ?_, debit_max ..⟩
          rw [debit_of_le (by exact h.le hv)]
          exact Nat.sub_le ..
        · have hrewrite := h.rewrite hv (estimateEntryBytes_deleteFields key fields (not_not.mp ht))
          exact hrewrite.trans (hrewrite.accounted.touch key)

theorem Accounted.read (h : s.Accounted) {α : Type} (type : ValueType) (absent : Result α) (view : Value → Result α)
    (now : Time) (key : Bytes) : Shrunk s (s.read type absent view now key).store := by
  unfold Store.read
  split
  · exact h.shrunk
  · split
    · exact h.shrunk
    · split
      · exact h.shrunk
      · exact h.touch key

theorem Shrunk.finish {α : Type} {r : Shared α} (h : Shrunk s r.store) (now : Time) : Shrunk s (r.finish now).1 :=
  h.trans (h.accounted.discards (r.store.deleteAllExpired_discards now r.stale))

theorem Accounted.exec (h : s.Accounted) (env : Env) {c : Call} (hc : (Operation.call env c).draw? = none) :
    Shrunk s (s.exec env c).1 := by
  cases c with
  | del keys => exact h.discards (s.del_discards env.now keys)
  | flushAll => exact ⟨⟨rfl, h.unwrapped⟩, Nat.zero_le _, rfl⟩
  | expire key seconds => exact h.expire env.rep env.now key seconds
  | hDel key fields => exact h.hDel env.now key fields
  | exists' keys | keys => exact h.shrunk.finish env.now
  | ttl key =>
    have hstore : Shrunk s (s.ttl env.now key).store := by
      rw [ttl_store]
      exact h.shrunk
    exact hstore.finish env.now
  | get _ | lLen _ | lRange _ _ _ | hGet _ _ | hGetAll _ | hLen _ | hExists _ _ | hKeys _ | hVals _ =>
    exact (h.read ..).finish env.now
  | _ => cases hc

theorem Accounted.operate (h : s.Accounted) {op : Operation} (hop : op.draw? = none) : Shrunk s (s.operate op) := by
  cases op with
  | call env c => exact h.exec env hop
  | sweepExpired now => exact h.discards (s.deleteAllExpired_discards now _)
  | deleteIfExpired now key => exact h.discards (s.deleteIfExpired_discards now key)
  | _ => cases hop

end

/-! ### Runs -/

/-- The eviction of an operation, if it ends with one, finds an entry in every sample it takes. -/
def OperationSampled (s : Store) (op : Operation) : Prop := ∀ draw ∈ op.draw?, (s.unevicted op).Sampled draw

instance (s : Store) (op : Operation) : Decidable (s.OperationSampled op) :=
  inferInstanceAs (Decidable (∀ draw ∈ op.draw?, _))

/-- So do all evictions of a run. -/
def RunSampled : List Operation → Store → Prop
  | [], _ => True
  | op :: ops, s => s.OperationSampled op ∧ RunSampled ops (s.operate op)

instance decidableRunSampled : (ops : List Operation) → (s : Store) → Decidable (RunSampled ops s)
  | [], _ => .isTrue trivial
  | op :: ops, s =>
    have := decidableRunSampled ops (s.operate op)
    inferInstanceAs (Decidable (s.OperationSampled op ∧ _))

theorem unevicted_accounted {s : Store} (h : s.Accounted) {op : Operation} (hop : op.Distinct) :
    (s.unevicted op).Accounted := by
  have hlift : ∀ {s : Store} (max : Nat), s.Accounted → (s.withBudget max).Accounted :=
    fun _ hs => ⟨hs.used, hs.unwrapped⟩
  have hfree := hlift s.maxMemoryBytes (operate_accounted (hlift 0 h) hop)
  cases op with
  | setMaxMemory draw maxMemoryBytes => exact hlift _ h
  | _ => exact hfree

theorem InBudget.sampled {s : Store} (h : s.InBudget) (draw : Nat → Nat → Nat) : s.Sampled draw := by
  intro hmax
  cases s.data.len with
  | zero => trivial
  | succ rounds => exact fun hover => absurd hover.1 (Nat.not_lt.mpr (h hmax))

/-- **One operation.** From a store within its budget it leaves one within its budget exactly
when its samples have entries in them. -/
theorem operate_inBudget_iff {s : Store} (h : s.Accounted) (hs : s.InBudget) {op : Operation} (hop : op.Distinct) :
    (s.operate op).InBudget ↔ s.OperationSampled op := by
  cases hdraw : op.draw? with
  | none =>
    refine iff_of_true ((h.operate hdraw).inBudget hs) fun draw hmem => ?_
    rw [hdraw] at hmem
    cases hmem
  | some draw =>
    have hsampled : s.OperationSampled op ↔ (s.unevicted op).Sampled draw := by
      simp [OperationSampled, hdraw]
    rw [hsampled]
    rcases s.operate_evicts hdraw with hevict | ⟨hsame, hunevicted⟩
    · rw [hevict, evict_inBudget_iff draw (unevicted_accounted h hop)]
    · rw [hsame, hunevicted]
      exact iff_of_true hs (hs.sampled draw)

/-- **The budget.** After every operation of a run, whose loads have every key once, the store
is within its budget, if it has one, exactly when every sample that an eviction of the run
takes has an entry in it. -/
theorem run_inBudget_iff (ops : List Operation) (hops : ∀ op ∈ ops, op.Distinct) :
    (∀ n, ((ops.take n).foldl operate {}).InBudget) ↔ RunSampled ops {} := by
  suffices h : ∀ s : Store, s.Accounted → s.InBudget →
      ((∀ n, ((ops.take n).foldl operate s).InBudget) ↔ RunSampled ops s) from
    h {} fresh_accounted fun hmax => absurd rfl hmax
  induction ops with
  | nil => exact fun s _ hs => iff_of_true (fun n => by rw [List.take_nil]; exact hs) trivial
  | cons op ops ih =>
    intro s h hs
    obtain ⟨hop, hrest⟩ := List.forall_mem_cons.mp hops
    have hone := operate_inBudget_iff h hs hop
    constructor
    · intro hall
      have hnext : (s.operate op).InBudget := hall 1
      exact ⟨hone.mp hnext, (ih hrest _ (operate_accounted h hop) hnext).mp fun n => hall (n + 1)⟩
    · rintro ⟨hsampled, hmore⟩ (_ | n)
      · exact hs
      · exact (ih hrest _ (operate_accounted h hop) (hone.mpr hsampled)).mpr hmore n

/-- Two keys and room for one, with draws that go through the buckets. -/
theorem run_inBudget_two :
    let draw : Nat → Nat → Nat := fun _ attempt => attempt
    let ops : List Operation := [.setMaxMemory draw 60, .call { now := 0, draw := draw } (.set [107] [118]),
      .call { now := 0, draw := draw } (.set [108] [118])]
    RunSampled ops {} ∧ ∀ n, ((ops.take n).foldl operate {}).InBudget := by
  intro draw ops
  have hsampled : RunSampled ops {} := by decide +kernel
  have hops : ∀ op ∈ ops, op.Distinct := by
    intro op hop
    simp only [ops, List.mem_cons, List.not_mem_nil, or_false] at hop
    rcases hop with rfl | rfl | rfl <;> trivial
  exact ⟨hsampled, (run_inBudget_iff ops hops).mpr hsampled⟩

/-- A store with one key and a budget it does not fit in, and draws that miss its bucket a
hundred times: nothing is evicted. -/
theorem run_over_budget :
    let ops : List Operation := [.setMaxMemory (fun _ _ => 0) 10,
      .call { now := 0, draw := fun _ _ => 0 } (.set [107] [118])]
    let s := ops.foldl operate {}
    s.maxMemoryBytes = 10 ∧ s.usedMemoryBytes = 50 ∧ s.data.len = 1 := by
  decide +kernel

end GoRedis.Store
