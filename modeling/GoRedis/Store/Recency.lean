import GoRedis.Lib.Recency
import GoRedis.Store.Budget
import GoRedis.Store.Pointwise

/-! Which entry an eviction removes.

Every access stamps what it accesses with the next tick of the access clock, so the stamps
are in the order of the last accesses, whatever the operations and the draws. An eviction
takes the smallest stamp of a sample. -/
namespace GoRedis.Store
open Keyed Recency

/-- The stamps of a store. -/
def stamps (s : Store) : Stamps Bytes where
  stamp key := (s.data.toFinmap.lookup key).map Value.lastAccessedSeq
  clock := s.accessClock

/-! ### What is accessed -/

/-- The type of what a key holds, unless it has expired. -/
def liveType (now : Time) (key : Bytes) (s : Store) : Option ValueType :=
  ((s.live now).lookup key).map fun e => e.datum.type

/-- Whether deleting the fields leaves the hash at a key empty. -/
def emptied (key : Bytes) (fields : List Bytes) (s : Store) : Bool :=
  match s.data.get key with
  | none => true
  | some v => (deleteFields v.hashValue fields).1.len = 0

/-- A key, if it holds what the call is for. -/
def accessedAs (type : ValueType) (now : Time) (key : Bytes) (s : Store) : List Bytes :=
  if s.liveType now key = some type then [key] else []

/-- A key, unless it holds something else. -/
def accessedUnless (type : ValueType) (now : Time) (key : Bytes) (s : Store) : List Bytes :=
  if s.liveType now key = none ∨ s.liveType now key = some type then [key] else []

/-- The keys a call accesses. -/
def callAccesses (now : Time) (s : Store) : Call → List Bytes
  | .set key _ => [key]
  | .lPush key _ | .rPush key _ => s.accessedUnless .list now key
  | .hSet key _ => s.accessedUnless .hash now key
  | .hDel key fields => if s.emptied key fields then [] else s.accessedAs .hash now key
  | .get key => s.accessedAs .string now key
  | .lLen key | .lRange key _ _ => s.accessedAs .list now key
  | .hGet key _ | .hGetAll key | .hLen key | .hExists key _ | .hKeys key | .hVals key => s.accessedAs .hash now key
  | .del _ | .exists' _ | .keys | .flushAll | .expire .. | .ttl _ => []

/-- The keys an operation accesses, the last one first. -/
def accesses (s : Store) : Operation → List Bytes
  | .call env c => s.callAccesses env.now c
  | .loadSnapshot _ _ wallNow _ entries =>
    ((entries.filter fun entry => !entry.expiresAtWall.any (· ≤ wallNow)).map SnapshotEntry.key).reverse
  | .setMaxMemory .. | .sweepExpired _ | .deleteIfExpired .. => []

/-- The keys a run accesses, the last one first. -/
def accessLog : List Operation → Store → List Bytes
  | [], _ => []
  | op :: ops, s => accessLog ops (s.operate op) ++ s.accesses op

/-! ### What stamps -/

section
variable {s s' : Store} {key : Bytes} {v : Value}

theorem stamp_of_lookup (h : s.data.toFinmap.lookup key = some v) : s.stamps.stamp key = some v.lastAccessedSeq := by
  show (s.data.toFinmap.lookup key).map _ = _
  rw [h, Option.map_some]

/-- Entries may go, and the others keep their stamps. -/
theorem moves_keep (hdata : ∀ k v', s'.data.toFinmap.lookup k = some v' →
      ∃ v, s.data.toFinmap.lookup k = some v ∧ v.lastAccessedSeq = v'.lastAccessedSeq)
    (hclock : s'.accessClock = s.accessClock) : Moves s.stamps [] s'.stamps := by
  refine .keep (fun k n hk => ?_) (Nat.le_of_eq hclock.symm)
  obtain ⟨v', hv', rfl⟩ := Option.map_eq_some_iff.mp hk
  obtain ⟨v, hv, heq⟩ := hdata k v' hv'
  exact Option.map_eq_some_iff.mpr ⟨v, hv, heq⟩

theorem moves_erase (hdata : s'.data.toFinmap = s.data.toFinmap.erase key) (hclock : s'.accessClock = s.accessClock) :
    Moves s.stamps [] s'.stamps := by
  refine moves_keep (fun k v' hv' => ⟨v', ?_, rfl⟩) hclock
  rw [hdata] at hv'
  exact lookup_of_erase hv'

/-- A value rewritten without being stamped. -/
theorem moves_rewrite {v' : Value} (hv : s.data.toFinmap.lookup key = some v)
    (hdata : s'.data.toFinmap = s.data.toFinmap.insert key v') (hstamp : v'.lastAccessedSeq = v.lastAccessedSeq)
    (hclock : s'.accessClock = s.accessClock) : Moves s.stamps [] s'.stamps := by
  refine moves_keep (fun k v₁ hv₁ => ?_) hclock
  rw [hdata] at hv₁
  rcases lookup_of_insert hv₁ with ⟨rfl, rfl⟩ | hold
  · exact ⟨v, hv, hstamp.symm⟩
  · exact ⟨v₁, hold, rfl⟩

/-- A value written and stamped: `s'` is the store between the two. -/
theorem moves_touch (hdata : s'.data.toFinmap = s.data.toFinmap.insert key v)
    (hclock : s.accessClock ≤ s'.accessClock) : Moves s.stamps [key] (s'.touch key).stamps := by
  have hv : s'.data.toFinmap.lookup key = some v := by rw [hdata, Finmap.lookup_insert]
  have hget : s'.data.get key = some v := by rw [HashTable.get_eq, hv]
  have hticked : (s'.touch key).accessClock = s'.accessClock + 1 := by simp only [touch, hget]
  refine .access key s'.accessClock ?_ hclock ?_ fun k n hk hn => ?_
  · show ((s'.touch key).data.toFinmap.lookup key).map _ = _
    rw [touch_lookup hv]
    rfl
  · show _ < (s'.touch key).accessClock
    omega
  · have hlook : ((s'.touch key).data.toFinmap.lookup k).map Value.lastAccessedSeq = some n := hn
    rw [touch_lookup_ne s' hk, hdata, Finmap.lookup_insert_of_ne _ hk] at hlook
    exact hlook

theorem moves_touched (hv : s.data.toFinmap.lookup key = some v) : Moves s.stamps [key] (s.touch key).stamps :=
  moves_touch (insert_lookup hv).symm (Nat.le_refl _)

end

section
variable (s : Store)

theorem debit_clock (bytes : Nat) : (s.debit bytes).accessClock = s.accessClock := by
  unfold debit
  split <;> rfl

theorem rewrite_clock (key : Bytes) (v v' : Value) : (s.rewrite key v v').accessClock = s.accessClock :=
  debit_clock ..

theorem touch_clock (key : Bytes) : s.accessClock ≤ (s.touch key).accessClock := by
  unfold touch
  split
  · exact Nat.le_succ _
  · exact Nat.le_refl _

theorem discard_moves (key : Bytes) (v : Value) : Moves s.stamps [] (s.discard key v).stamps :=
  moves_erase (discard_data s key v) (debit_clock ..)

theorem Discards.moves {s s' : Store} (h : Discards s s') : Moves s.stamps [] s'.stamps :=
  h.keeps (P := fun t => Moves s.stamps [] t.stamps) (fun _ ht => (discard_moves ..).after ht) (.refl _)

/-- An eviction after other moves. -/
theorem evicted_moves {s' : Store} {accesses : List Bytes} (h : Moves s.stamps accesses s'.stamps)
    (draw : Nat → Nat → Nat) : Moves s.stamps accesses (evictIfOverBudget draw s').stamps :=
  h.trans (s'.evict_discards draw).moves

/-! ### What the calls access -/

theorem set_moves (draw : Nat → Nat → Nat) (key value : Bytes) :
    Moves s.stamps [key] (s.set draw key value).stamps := by
  let s₁ : Store := { s with data := (s.data.set key { type := .string, strValue := value }).1 }
  have hdata : (s₁.debit (s.bytesAt key)).data.toFinmap = s.data.toFinmap.insert key { strValue := value } := by
    rw [debit_data]
    exact HashTable.toFinmap_set ..
  have hclock : (s₁.debit (s.bytesAt key)).accessClock = s.accessClock := debit_clock ..
  have htouch : Moves s.stamps [key] (((s₁.debit (s.bytesAt key)).credit (s₁.bytesAt key)).touch key).stamps :=
    moves_touch hdata (Nat.le_of_eq hclock.symm)
  exact evicted_moves s htouch draw

theorem flushAll_moves : Moves s.stamps [] s.flushAll.stamps :=
  moves_keep (fun _ _ hk => absurd hk (by simp [flushAll])) rfl

theorem expire_moves (rep : ClockRep) (now : Time) (key : Bytes) (seconds : Int) :
    Moves s.stamps [] (s.expire rep now key seconds).1.stamps := by
  unfold expire
  split
  · exact .refl _
  · next v hv =>
    rw [HashTable.get_eq] at hv
    split
    · exact discard_moves ..
    · split
      · exact discard_moves ..
      · exact moves_rewrite hv (HashTable.toFinmap_assign _ _ _ (Finmap.mem_of_lookup_eq_some hv)) rfl rfl

theorem getOrCreate_clock (type : ValueType) (now : Time) (key : Bytes) :
    s.accessClock ≤ (s.getOrCreate type now key).1.accessClock := by
  have hdelete : (s.deleteIfExpired now key).1.accessClock = s.accessClock := by
    unfold deleteIfExpired
    split
    · split
      · exact debit_clock ..
      · rfl
    · rfl
  rw [← hdelete]
  unfold getOrCreate
  generalize (s.deleteIfExpired now key).1 = s'
  dsimp only
  split
  · let s₁ : Store := { s' with data := (s'.data.set key { type := type }).1 }
    exact touch_clock (s₁.credit (s₁.bytesAt key)) key
  · split <;> exact Nat.le_refl _

/-- A push or `HSet` accesses the key exactly when it got or created a value. -/
theorem accessedUnless_getOrCreate (type : ValueType) (now : Time) (key : Bytes) :
    s.accessedUnless type now key = if (s.getOrCreate type now key).2.isSome then [key] else [] := by
  have hc := s.getOrCreate_created type now key
  generalize s.getOrCreate type now key = r at hc ⊢
  unfold accessedUnless liveType
  cases hc with
  | wrongType v hv ht =>
    rw [hv]
    exact if_neg (by simp [Value.type_datum, ht])
  | found v hv hlive ht =>
    rw [hlive]
    exact if_pos (.inr (by simp [Value.type_datum, ht]))
  | fresh _ seq hnone =>
    rw [hnone]
    exact if_pos (.inl rfl)

theorem update_moves (type : ValueType) (f : Value → Value) (draw : Nat → Nat → Nat) (now : Time) (key : Bytes) :
    Moves s.stamps (s.accessedUnless type now key) (s.update type f draw now key).stamps := by
  have hc := s.getOrCreate_created type now key
  have hclock := s.getOrCreate_clock type now key
  rw [accessedUnless_getOrCreate]
  unfold update
  rcases hg : s.getOrCreate type now key with ⟨s', _ | v⟩ <;> rw [hg] at hc hclock
  · cases hc
    exact .refl _
  · exact evicted_moves _ (moves_touch (hc.rewrite_data _) (hclock.trans (Nat.le_of_eq (rewrite_clock ..).symm))) draw

section
variable {s : Store} {now : Time} {key : Bytes} {v : Value} (type : ValueType)

theorem accessedAs_none (h : (s.live now).lookup key = none) : s.accessedAs type now key = [] := by
  rw [accessedAs, liveType, h, if_neg (by simp)]

theorem accessedAs_some (hv : s.data.toFinmap.lookup key = some v) (hx : ¬isExpired now v = true) :
    s.accessedAs type now key = if v.type = type then [key] else [] := by
  rw [accessedAs, liveType, live_found hv hx]
  simp only [Option.map_some, Value.type_datum, Option.some.injEq]

end

theorem hDel_moves (now : Time) (key : Bytes) (fields : List Bytes) :
    Moves s.stamps (s.callAccesses now (.hDel key fields)) (s.hDel now key fields).1.stamps := by
  dsimp only [callAccesses]
  unfold hDel emptied
  cases hget : s.data.get key with
  | none => exact .refl _
  | some v =>
    have hv : s.data.toFinmap.lookup key = some v := by rwa [HashTable.get_eq] at hget
    dsimp only
    by_cases hx : isExpired now v = true
    · rw [if_pos hx, accessedAs_none _ (live_stale hv hx), ite_self]
      exact discard_moves ..
    · rw [if_neg hx, accessedAs_some _ hv hx]
      by_cases ht : v.type = .hash
      · rw [if_neg (not_not.mpr ht), if_pos ht]
        by_cases hempty : (deleteFields v.hashValue fields).1.len = 0
        · -- the emptied hash is deleted
          rw [if_pos hempty, if_pos (decide_eq_true hempty)]
          exact moves_erase (emptied_data hv _ _) (debit_clock ..)
        · rw [if_neg hempty, if_neg (by simpa using hempty)]
          exact moves_touch (rewrite_data hv _) (Nat.le_of_eq (rewrite_clock ..).symm)
      · rw [if_pos ht, if_neg ht, ite_self]
        exact .refl _

theorem read_moves {α : Type} (type : ValueType) (absent : Result α) (view : Value → Result α) (now : Time)
    (key : Bytes) : Moves s.stamps (s.accessedAs type now key) (s.read type absent view now key).store.stamps := by
  unfold read
  cases hget : s.data.get key with
  | none =>
    rw [accessedAs_none _ (live_absent (by rwa [HashTable.get_eq] at hget))]
    exact .refl _
  | some v =>
    have hv : s.data.toFinmap.lookup key = some v := by rwa [HashTable.get_eq] at hget
    dsimp only
    by_cases hx : isExpired now v = true
    · rw [if_pos hx, accessedAs_none _ (live_stale hv hx)]
      exact .refl _
    · rw [if_neg hx, accessedAs_some _ hv hx]
      by_cases ht : v.type = type
      · rw [if_neg (not_not.mpr ht), if_pos ht]
        exact moves_touched hv
      · rw [if_pos ht, if_neg ht]
        exact .refl _

theorem finish_moves {α : Type} {r : Shared α} {accesses : List Bytes} (h : Moves s.stamps accesses r.store.stamps)
    (now : Time) : Moves s.stamps accesses (r.finish now).1.stamps :=
  h.trans (r.store.deleteAllExpired_discards now r.stale).moves

theorem exec_moves (env : Env) (c : Call) : Moves s.stamps (s.callAccesses env.now c) (s.exec env c).1.stamps := by
  cases c with
  | set key value => exact s.set_moves env.draw key value
  | lPush key values | rPush key values =>
    dsimp only [exec, lPush, rPush]
    rw [push_store]
    exact s.update_moves ..
  | hSet key fields =>
    dsimp only [exec]
    rw [hSet_store]
    exact s.update_moves ..
  | hDel key fields => exact s.hDel_moves env.now key fields
  | del keys => exact (s.del_discards env.now keys).moves
  | flushAll => exact s.flushAll_moves
  | expire key seconds => exact s.expire_moves env.rep env.now key seconds
  | exists' keys | keys => exact finish_moves s (.refl _) env.now
  | ttl key => exact finish_moves s (by rw [ttl_store]; exact .refl _) env.now
  | get _ | lLen _ | lRange _ _ _ | hGet _ _ | hGetAll _ | hLen _ | hExists _ _ | hKeys _ | hVals _ =>
    exact finish_moves s (s.read_moves ..) env.now

theorem loadEntry_moves (rep : ClockRep) (steadyNow wallNow : Time) (entry : SnapshotEntry) :
    Moves s.stamps (if entry.expiresAtWall.any (· ≤ wallNow) then [] else [entry.key])
      (s.loadEntry rep steadyNow wallNow entry).stamps := by
  unfold loadEntry
  split
  · exact .refl _
  · let s₁ : Store := { s with data := (s.data.set entry.key (loadValue rep steadyNow wallNow entry)).1 }
    have htouch : Moves s.stamps [entry.key] ((s₁.credit (s₁.bytesAt entry.key)).touch entry.key).stamps :=
      moves_touch (HashTable.toFinmap_set ..) (Nat.le_refl _)
    exact htouch

/-- Entries are loaded in order, so the last one of a snapshot is the one accessed last. -/
theorem loadEntries_moves (rep : ClockRep) (steadyNow wallNow : Time) (entries : List SnapshotEntry) :
    Moves s.stamps
      ((entries.filter fun entry => !entry.expiresAtWall.any (· ≤ wallNow)).map SnapshotEntry.key).reverse
      (entries.foldl (loadEntry rep steadyNow wallNow) s).stamps := by
  induction entries generalizing s with
  | nil => exact .refl _
  | cons entry entries ih =>
    have hboth := (s.loadEntry_moves rep steadyNow wallNow entry).trans (ih _)
    rw [List.foldl_cons, List.filter_cons]
    by_cases hx : entry.expiresAtWall.any (· ≤ wallNow) = true
    · rw [if_pos hx, List.append_nil] at hboth
      rwa [if_neg (by simp [hx])]
    · rw [if_neg hx] at hboth
      rwa [if_pos (by simp [hx]), List.map_cons, List.reverse_cons]

/-- **One operation.** It stamps what it accesses, in the order of the accesses, and nothing
else. -/
theorem operate_moves (op : Operation) : Moves s.stamps (s.accesses op) (s.operate op).stamps := by
  cases op with
  | call env c => exact s.exec_moves env c
  | setMaxMemory draw maxMemoryBytes => exact ((s.withBudget maxMemoryBytes).evict_discards draw).moves
  | sweepExpired now => exact (s.deleteAllExpired_discards now _).moves
  | deleteIfExpired now key => exact (s.deleteIfExpired_discards now key).moves
  | loadSnapshot rep steadyNow wallNow draw entries =>
    have hload := (loadEntries_moves s.flushAll rep steadyNow wallNow entries).after s.flushAll_moves
    exact evicted_moves s hload draw

/-- The stamps an eviction finds are those of the operation it ends. -/
theorem unevicted_moves (op : Operation) : Moves s.stamps (s.accesses op) (s.unevicted op).stamps := by
  have hfree : Moves s.stamps (s.accesses op) ((s.withBudget 0).operate op).stamps := by
    have haccesses : (s.withBudget 0).accesses op = s.accesses op := by cases op <;> rfl
    rw [← haccesses]
    exact operate_moves (s.withBudget 0) op
  cases op with
  | setMaxMemory draw maxMemoryBytes => exact .refl _
  | _ => exact hfree

end

/-! ### The iterations of an eviction -/

/-- One iteration of the loop. -/
def evictOnce (draw : Nat → Nat) (s : Store) : Store :=
  match s.data.sampleKeys kSampleSize draw with
  | [] => s
  | e :: rest => s.discard (victim e rest).1 (victim e rest).2

/-- The iterations of the loop: the draws of each and the store it starts from. One that finds
its sample empty is the last. -/
def iterationsFor (draw : Nat → Nat → Nat) : (rounds round : Nat) → Store → List ((Nat → Nat) × Store)
  | 0, _, _ => []
  | rounds + 1, round, s =>
    if s.usedMemoryBytes > s.maxMemoryBytes ∧ s.data.len > 0 then
      (draw round, s) ::
        if (s.data.sampleKeys kSampleSize (draw round)).isEmpty then []
        else iterationsFor draw rounds (round + 1) (s.evictOnce (draw round))
    else []

def iterations (draw : Nat → Nat → Nat) (s : Store) : List ((Nat → Nat) × Store) :=
  if s.maxMemoryBytes = 0 then [] else iterationsFor draw s.data.len 0 s

theorem evictLoop_iterations (draw : Nat → Nat → Nat) (rounds round : Nat) (s : Store) :
    evictLoop draw rounds round s = (iterationsFor draw rounds round s).foldl (fun s i => s.evictOnce i.1) s := by
  induction rounds generalizing round s with
  | zero => rfl
  | succ rounds ih =>
    unfold evictLoop iterationsFor
    split
    · rw [List.foldl_cons]
      cases hs : s.data.sampleKeys kSampleSize (draw round) with
      | nil => simp only [List.isEmpty_nil, if_true, List.foldl_nil, evictOnce, hs]
      | cons e rest =>
        have honce : s.evictOnce (draw round) = s.discard (victim e rest).1 (victim e rest).2 := by
          simp only [evictOnce, hs]
        rw [honce]
        exact ih ..
    · rfl

/-- An eviction is its iterations. -/
theorem evict_iterations (draw : Nat → Nat → Nat) (s : Store) :
    evictIfOverBudget draw s = (s.iterations draw).foldl (fun s i => s.evictOnce i.1) s := by
  unfold evictIfOverBudget iterations
  split
  · rfl
  · exact evictLoop_iterations ..

/-- An iteration that finds its sample empty is the last. -/
theorem iterations_last {draw : Nat → Nat → Nat} {s : Store} {n : Nat} {i : (Nat → Nat) × Store}
    (hi : (s.iterations draw)[n]? = some i) (hsample : i.2.data.sampleKeys kSampleSize i.1 = []) :
    (s.iterations draw).length = n + 1 := by
  suffices hloop : ∀ (rounds round : Nat) (s : Store) (n : Nat), (iterationsFor draw rounds round s)[n]? = some i →
      (iterationsFor draw rounds round s).length = n + 1 by
    rw [iterations] at hi ⊢
    by_cases hmax : s.maxMemoryBytes = 0
    · rw [if_pos hmax] at hi
      cases hi
    · rw [if_neg hmax] at hi ⊢
      exact hloop _ _ s n hi
  intro rounds
  induction rounds with
  | zero => exact fun _ _ _ hi => absurd hi nofun
  | succ rounds ih =>
    intro round s n hi
    rw [iterationsFor] at hi ⊢
    by_cases hover : s.usedMemoryBytes > s.maxMemoryBytes ∧ s.data.len > 0
    · rw [if_pos hover] at hi ⊢
      cases n with
      | zero =>
        cases hi
        rw [if_pos (List.isEmpty_iff.mpr hsample)]
        rfl
      | succ n =>
        rw [List.getElem?_cons_succ] at hi
        by_cases hempty : (s.data.sampleKeys kSampleSize (draw round)).isEmpty = true
        · rw [if_pos hempty] at hi
          cases hi
        · rw [if_neg hempty] at hi ⊢
          exact congrArg (· + 1) (ih _ _ n hi)
    · rw [if_neg hover] at hi
      cases hi

theorem evictOnce_discards (s : Store) (draw : Nat → Nat) : Discards s (s.evictOnce draw) := by
  unfold evictOnce
  split
  · exact .refl _
  · next hs => exact .single (victim_lookup hs)

/-- What an iteration keeps holds at the start of every iteration, and there the store is over
its budget and not empty. -/
theorem iterations_keep {P : Store → Prop} (hkeep : ∀ draw s, P s → P (evictOnce draw s)) {draw : Nat → Nat → Nat}
    {s : Store} (h : P s) :
    ∀ i ∈ s.iterations draw, P i.2 ∧ i.2.usedMemoryBytes > i.2.maxMemoryBytes ∧ i.2.data.len > 0 := by
  suffices hloop : ∀ (rounds round : Nat) (s : Store), P s → ∀ i ∈ iterationsFor draw rounds round s,
      P i.2 ∧ i.2.usedMemoryBytes > i.2.maxMemoryBytes ∧ i.2.data.len > 0 by
    intro i hi
    unfold iterations at hi
    split at hi
    · cases hi
    · exact hloop _ _ s h i hi
  intro rounds
  induction rounds with
  | zero => exact fun _ _ _ i hi => absurd hi List.not_mem_nil
  | succ rounds ih =>
    intro round s h i hi
    unfold iterationsFor at hi
    split at hi
    · next hover =>
      rcases List.mem_cons.mp hi with rfl | hrest
      · exact ⟨h, hover⟩
      · split at hrest
        · cases hrest
        · exact ih _ _ (hkeep _ _ h) i hrest
    · cases hi

theorem iterations_moves {draw : Nat → Nat → Nat} {s : Store} {i : (Nat → Nat) × Store} (hi : i ∈ s.iterations draw) :
    Moves s.stamps [] i.2.stamps := by
  have hkeep : ∀ (draw : Nat → Nat) (t : Store), Moves s.stamps [] t.stamps →
      Moves s.stamps [] (t.evictOnce draw).stamps :=
    fun draw t ht => (t.evictOnce_discards draw).moves.after ht
  exact (iterations_keep hkeep (.refl _) i hi).1

theorem iterations_len {draw : Nat → Nat → Nat} {s : Store} {i : (Nat → Nat) × Store} (hi : i ∈ s.iterations draw) :
    i.2.data.len > 0 :=
  (iterations_keep (P := fun _ => True) (fun _ _ h => h) trivial i hi).2.2

/-- The scan ends at an entry that no other one of the sample is older than. -/
theorem victim_le (e : Node Value) (rest : List (Node Value)) :
    ∀ e' ∈ e :: rest, (victim e rest).2.lastAccessedSeq ≤ e'.2.lastAccessedSeq := by
  induction rest generalizing e with
  | nil => exact fun e' he' => by rw [List.mem_singleton.mp he', victim]
  | cons e₁ rest ih =>
    have hfirst := ih (if e₁.2.lastAccessedSeq < e.2.lastAccessedSeq then e₁ else e)
    have hkept := hfirst _ List.mem_cons_self
    intro e' he'
    unfold victim
    rcases List.mem_cons.mp he' with rfl | he'
    · split at hkept <;> split <;> omega
    · rcases List.mem_cons.mp he' with rfl | he'
      · split at hkept <;> split <;> omega
      · exact hfirst e' (List.mem_cons_of_mem _ he')

/-- One of the attempts of `SampleKeys` hits a bucket that is not empty. -/
def Hits (draw : Nat → Nat) (s : Store) : Prop :=
  ∃ n < kSampleSize * 20, s.data.buckets.getD (draw n % s.data.buckets.length) [] ≠ []

theorem sampleKeys_eq_nil {s : Store} (hlen : s.data.len > 0) (draw : Nat → Nat) :
    s.data.sampleKeys kSampleSize draw = [] ↔ ¬s.Hits draw := by
  have hentries : ¬s.data.numEntries = 0 := Nat.ne_of_gt hlen
  rw [HashTable.sampleKeys, HashTable.Raw.sampleKeys, if_neg hentries,
    s.data.sampleLoop_eq_nil (by decide), Hits]
  simp only [Nat.zero_add, not_exists, not_and, not_not]

/-- What an iteration is to do: of its sample it removes one key, every other key of the sample
was accessed later, and nothing else changes. -/
def EvictsOldest (log : List Bytes) (draw : Nat → Nat) (s : Store) : Prop :=
  ∃ e ∈ s.data.sampleKeys kSampleSize draw, s.data.toFinmap.lookup e.1 = some e.2 ∧
    (s.evictOnce draw).data.toFinmap = s.data.toFinmap.erase e.1 ∧
    ∀ e' ∈ s.data.sampleKeys kSampleSize draw, e'.1 ≠ e.1 → log.idxOf e'.1 < log.idxOf e.1

theorem evictOnce_oldest {s : Store} {log : List Bytes} (h : Ordered s.stamps log) (draw : Nat → Nat)
    (hsample : s.data.sampleKeys kSampleSize draw ≠ []) : s.EvictsOldest log draw := by
  have hstamp : ∀ e ∈ s.data.sampleKeys kSampleSize draw, s.stamps.stamp e.1 = some e.2.lastAccessedSeq :=
    fun e he => stamp_of_lookup (s.data.sampleKeys_mem _ _ he)
  unfold EvictsOldest evictOnce
  cases hs : s.data.sampleKeys kSampleSize draw with
  | nil => exact absurd hs hsample
  | cons e rest =>
    rw [hs] at hstamp
    refine ⟨victim e rest, victim_mem e rest, victim_lookup hs, discard_data .., fun e' he' hne => ?_⟩
    have hvictim := hstamp _ (victim_mem e rest)
    refine (h.order _ _ _ _ hvictim (hstamp e' he')).mp (lt_of_le_of_ne (victim_le e rest e' he') fun heq => ?_)
    exact hne (h.distinct (hstamp e' he') (heq ▸ hvictim))

/-! ### Runs -/

theorem run_ordered (ops : List Operation) : Ordered (stamps (ops.foldl operate {})) (accessLog ops {}) := by
  suffices h : ∀ (s : Store) (log : List Bytes), Ordered s.stamps log →
      Ordered (stamps (ops.foldl operate s)) (accessLog ops s ++ log) by
    have hrun := h {} [] (ordered_of_none (fun _ => rfl) [])
    rwa [List.append_nil] at hrun
  induction ops with
  | nil => exact fun _ _ h => h
  | cons op ops ih =>
    intro s log h
    rw [List.foldl_cons, accessLog, List.append_assoc]
    exact ih _ _ (h.moves (s.operate_moves op))

/-- **Least recently used.** After any run of operations with any draws, the stamps of
different entries differ, are below the access clock and are in the order of the last
accesses. So whatever operation comes next, an iteration of its eviction removes one key, which
is in the sample, all other keys of the sample were accessed later, and all other keys stay as
they were, exactly if one of its draws hits a bucket that is not empty. An iteration whose draws
all miss removes nothing and is the last one. -/
theorem run_leastRecent (ops : List Operation) :
    let s := ops.foldl operate {}
    let log := accessLog ops {}
    (∀ k v, s.data.toFinmap.lookup k = some v → v.lastAccessedSeq < s.accessClock ∧ k ∈ log) ∧
      (∀ k v k' v', s.data.toFinmap.lookup k = some v → s.data.toFinmap.lookup k' = some v' →
        (v.lastAccessedSeq = v'.lastAccessedSeq → k = k') ∧
        (v.lastAccessedSeq < v'.lastAccessedSeq ↔ log.idxOf k' < log.idxOf k)) ∧
      ∀ op : Operation, ∀ draw ∈ op.draw?,
        let its := (s.unevicted op).iterations draw
        ∀ n i, its[n]? = some i →
          (i.2.EvictsOldest (s.accesses op ++ log) i.1 ↔ i.2.Hits i.1) ∧
            (¬i.2.Hits i.1 → i.2.evictOnce i.1 = i.2 ∧ its.length = n + 1) := by
  intro s log
  have h : Ordered s.stamps log := run_ordered ops
  refine ⟨fun k v hk => ⟨h.below k _ (stamp_of_lookup hk), h.logged k _ (stamp_of_lookup hk)⟩,
    fun k v k' v' hk hk' => ⟨fun heq => ?_, ?_⟩, fun op draw _ => ?_⟩
  · exact h.distinct (stamp_of_lookup hk) (heq ▸ stamp_of_lookup hk')
  · exact h.order k k' _ _ (stamp_of_lookup hk) (stamp_of_lookup hk')
  · intro its n i hn
    have hi : i ∈ its := List.mem_of_getElem? hn
    have hempty := sampleKeys_eq_nil (iterations_len hi) i.1
    refine ⟨⟨fun hevicts => ?_, fun hhits => ?_⟩, fun hmiss => ?_⟩
    · obtain ⟨e, he, -⟩ := hevicts
      by_contra hmiss
      rw [hempty.mpr hmiss] at he
      cases he
    · exact evictOnce_oldest ((h.moves (s.unevicted_moves op)).moves (iterations_moves hi)) i.1
        fun hnil => hempty.mp hnil hhits
    · have hnil := hempty.mpr hmiss
      exact ⟨by simp only [evictOnce, hnil], iterations_last hn hnil⟩

/-- The iteration that makes room for a key, with draws that miss its bucket: the key stays. -/
theorem iteration_removes_nothing :
    let s := operate {} (.setMaxMemory (fun _ _ => 0) 10)
    let op : Operation := .call { now := 0, draw := fun _ _ => 0 } (.set [107] [118])
    let its := (s.unevicted op).iterations fun _ _ => 0
    its.length = 1 ∧ ∀ i ∈ its, (i.2.data.get [107]).isSome ∧ ((i.2.evictOnce i.1).data.get [107]).isSome := by
  decide +kernel

end GoRedis.Store
