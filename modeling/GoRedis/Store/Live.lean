import GoRedis.Store.Accounting
import GoRedis.Store.Keyspace

/-! The keyspace a store stands for.

Expired entries stay in the table until a call or the sweeper meets them. `Store.live`
forgets them, and how the tables are laid out; `Store.held` has the values themselves, but
for their stamps. What the calls are made of (stamping, discarding, deleting what is expired,
getting or creating a value, rewriting it) is described here by its effect on the live
part. -/
namespace GoRedis
open Keyed

def Value.datum (v : Value) : Datum :=
  match v.type with
  | .string => .str v.strValue
  | .list => .list v.listValue
  | .hash => .hash v.hashValue.toFinmap

def Value.entry (v : Value) : Entry := ⟨v.datum, v.expiresAt⟩

/-- The keyspace a store stands for: the entries whose deadline is not reached. -/
def Store.live (now : Time) (s : Store) : Keyspace :=
  select (fun v => v.entry.keep now) s.data.toFinmap

/-- A value without its stamp, unless it has expired. -/
def Value.kept (now : Time) (v : Value) : Option Value :=
  if isExpired now v then none else some { v with lastAccessedSeq := 0 }

/-- The values of a store whose deadline is not reached. -/
def Store.held (now : Time) (s : Store) : Finmap fun _ : Bytes => Value :=
  select (Value.kept now) s.data.toFinmap

theorem Value.asStr_entry (v : Value) :
    v.entry.datum.asStr = if v.type = .string then some v.strValue else none := by
  cases h : v.type <;> simp [Value.entry, Value.datum, Datum.asStr, h]

theorem Value.asList_entry (v : Value) :
    v.entry.datum.asList = if v.type = .list then some v.listValue else none := by
  cases h : v.type <;> simp [Value.entry, Value.datum, Datum.asList, h]

theorem Value.asHash_entry (v : Value) :
    v.entry.datum.asHash = if v.type = .hash then some v.hashValue.toFinmap else none := by
  cases h : v.type <;> simp [Value.entry, Value.datum, Datum.asHash, h]

theorem Value.keep_entry (now : Time) (v : Value) :
    v.entry.keep now = if isExpired now v then none else some v.entry := by
  unfold Entry.keep isExpired Value.entry
  cases v.expiresAt <;> simp

namespace Store
open Keyspace

variable {s s' : Store} {now : Time} {key : Bytes} {v : Value}

/-! ### What the live part of a store depends on -/

theorem lookup_live (now : Time) (s : Store) (key : Bytes) :
    (s.live now).lookup key = (s.data.toFinmap.lookup key).bind fun v => v.entry.keep now :=
  lookup_select ..

theorem live_absent (h : s.data.toFinmap.lookup key = none) : (s.live now).lookup key = none := by
  rw [lookup_live, h, Option.bind_none]

theorem live_stale (h : s.data.toFinmap.lookup key = some v) (hx : isExpired now v = true) :
    (s.live now).lookup key = none := by
  rw [lookup_live, h, Option.bind_some, v.keep_entry, if_pos hx]

theorem live_found (h : s.data.toFinmap.lookup key = some v) (hx : ¬isExpired now v = true) :
    (s.live now).lookup key = some v.entry := by
  rw [lookup_live, h, Option.bind_some, v.keep_entry, if_neg hx]

@[simp] theorem tick_live (s : Store) : tick now (s.live now) = s.live now := by
  simp only [tick, live, select_select, keep_keep (Int.le_refl now)]

theorem tick_live_later {later : Time} (h : now ≤ later) (s : Store) :
    tick later (s.live now) = s.live later := by
  simp only [tick, live, select_select, keep_keep h]

theorem live_insert (h : s'.data.toFinmap = s.data.toFinmap.insert key v) :
    s'.live now = tick now ((s.live now).insert key v.entry) := by
  apply Finmap.ext_lookup
  intro x
  rw [lookup_live, h, lookup_tick]
  by_cases hx : x = key
  · rw [hx, Finmap.lookup_insert, Finmap.lookup_insert, Option.bind_some, Option.bind_some]
  · rw [Finmap.lookup_insert_of_ne _ hx, Finmap.lookup_insert_of_ne _ hx, ← lookup_live,
      ← lookup_tick, tick_live]

theorem live_erase (h : s'.data.toFinmap = s.data.toFinmap.erase key) :
    s'.live now = (s.live now).erase key := by
  rw [live, h, select_erase, live]

theorem tick_erase_live (s : Store) (key : Bytes) :
    tick now ((s.live now).erase key) = (s.live now).erase key := by
  rw [tick, select_erase, ← tick, tick_live]

/-! ### What is held -/

theorem live_eq_held (now : Time) (s : Store) : s.live now = select (fun v => some v.entry) (s.held now) := by
  rw [live, held, select_select]
  congr 1
  funext v
  rw [v.keep_entry, Value.kept]
  split <;> rfl

theorem live_of_held (h : s'.held now = s.held now) : s'.live now = s.live now := by
  rw [live_eq_held, live_eq_held, h]

theorem lookup_held (now : Time) (s : Store) (key : Bytes) :
    (s.held now).lookup key = (s.data.toFinmap.lookup key).bind (Value.kept now) :=
  lookup_select ..

theorem held_absent (h : s.data.toFinmap.lookup key = none) : (s.held now).lookup key = none := by
  rw [lookup_held, h, Option.bind_none]

theorem held_stale (h : s.data.toFinmap.lookup key = some v) (hx : isExpired now v = true) :
    (s.held now).lookup key = none := by
  rw [lookup_held, h, Option.bind_some, Value.kept, if_pos hx]

theorem held_found (h : s.data.toFinmap.lookup key = some v) (hx : ¬isExpired now v = true) :
    (s.held now).lookup key = some { v with lastAccessedSeq := 0 } := by
  rw [lookup_held, h, Option.bind_some, Value.kept, if_neg hx]

theorem held_erase (h : s'.data.toFinmap = s.data.toFinmap.erase key) : s'.held now = (s.held now).erase key := by
  rw [held, h, select_erase, held]

theorem touch_held (s : Store) (key : Bytes) : (s.touch key).held now = s.held now := by
  cases hv : s.data.toFinmap.lookup key with
  | none => simp only [touch, HashTable.get_eq, hv]
  | some v =>
    apply Finmap.ext_lookup
    intro x
    rw [lookup_held, lookup_held, touch_data hv]
    by_cases hx : x = key
    · rw [hx, Finmap.lookup_insert, hv]
      rfl
    · rw [Finmap.lookup_insert_of_ne _ hx]

theorem touch_live (s : Store) (key : Bytes) : (s.touch key).live now = s.live now :=
  live_of_held (touch_held s key)

theorem discard_data (s : Store) (key : Bytes) (v : Value) :
    (s.discard key v).data.toFinmap = s.data.toFinmap.erase key := by
  show (s.data.delete key).1.toFinmap = _
  rw [HashTable.toFinmap_delete]

theorem discard_live (s : Store) (key : Bytes) (v : Value) :
    (s.discard key v).live now = (s.live now).erase key :=
  live_erase (discard_data s key v)

theorem discard_held (s : Store) (key : Bytes) (v : Value) :
    (s.discard key v).held now = (s.held now).erase key :=
  held_erase (discard_data s key v)

/-- Nothing that is held goes with a stale entry. -/
theorem discard_stale_held (h : s.data.toFinmap.lookup key = some v) (hx : isExpired now v = true) :
    (s.discard key v).held now = s.held now := by
  rw [discard_held, erase_of_lookup (held_stale h hx)]

theorem discard_stale (h : s.data.toFinmap.lookup key = some v) (hx : isExpired now v = true) :
    (s.discard key v).live now = s.live now :=
  live_of_held (discard_stale_held h hx)

theorem deleteIfExpired_held (s : Store) (now : Time) (key : Bytes) :
    (s.deleteIfExpired now key).1.held now = s.held now := by
  unfold deleteIfExpired
  split
  · next v hv =>
    rw [HashTable.get_eq] at hv
    split
    · next hx => exact discard_stale_held hv hx
    · rfl
  · rfl

theorem deleteIfExpired_live (s : Store) (now : Time) (key : Bytes) :
    (s.deleteIfExpired now key).1.live now = s.live now :=
  live_of_held (deleteIfExpired_held s now key)

theorem deleteAllExpired_held (s : Store) (keys : List Bytes) :
    (s.deleteAllExpired now keys).held now = s.held now := by
  unfold deleteAllExpired
  induction keys generalizing s with
  | nil => rfl
  | cons key keys ih => rw [List.foldl_cons, ih, deleteIfExpired_held]

theorem deleteAllExpired_live (s : Store) (keys : List Bytes) :
    (s.deleteAllExpired now keys).live now = s.live now :=
  live_of_held (deleteAllExpired_held s keys)

/-- With no budget nothing is evicted. -/
theorem evict_unbounded (h : s.maxMemoryBytes = 0) (draw : Nat → Nat → Nat) :
    s.evictIfOverBudget draw = s := if_pos h

/-! ### The budget -/

@[simp] theorem debit_max (s : Store) (bytes : Nat) :
    (s.debit bytes).maxMemoryBytes = s.maxMemoryBytes := by
  unfold debit
  split <;> rfl

@[simp] theorem discard_max (s : Store) (key : Bytes) (v : Value) :
    (s.discard key v).maxMemoryBytes = s.maxMemoryBytes := debit_max ..

@[simp] theorem touch_max (s : Store) (key : Bytes) :
    (s.touch key).maxMemoryBytes = s.maxMemoryBytes := by
  unfold touch
  split <;> rfl

@[simp] theorem rewrite_max (s : Store) (key : Bytes) (v v' : Value) :
    (s.rewrite key v v').maxMemoryBytes = s.maxMemoryBytes := debit_max ..

/-- What is left was there. -/
theorem Discards.lookup {s s' : Store} (h : Discards s s') {key : Bytes} {v : Value}
    (hv : s'.data.toFinmap.lookup key = some v) : s.data.toFinmap.lookup key = some v := by
  induction h with
  | refl => exact hv
  | discard _ _ ih =>
    have hrest := ih hv
    rw [discard_data] at hrest
    exact lookup_of_erase hrest

theorem Discards.max {s s' : Store} (h : Discards s s') : s'.maxMemoryBytes = s.maxMemoryBytes :=
  h.keeps (P := fun t => t.maxMemoryBytes = s.maxMemoryBytes) (fun _ hs => (discard_max ..).trans hs) rfl

@[simp] theorem deleteAllExpired_max (s : Store) (now : Time) (keys : List Bytes) :
    (s.deleteAllExpired now keys).maxMemoryBytes = s.maxMemoryBytes := (s.deleteAllExpired_discards now keys).max

theorem loadEntries_max (rep : ClockRep) (steadyNow wallNow : Time) (entries : List SnapshotEntry) (s : Store) :
    (entries.foldl (loadEntry rep steadyNow wallNow) s).maxMemoryBytes = s.maxMemoryBytes := by
  induction entries generalizing s with
  | nil => rfl
  | cons e entries ih =>
    rw [List.foldl_cons, ih, loadEntry]
    split
    · rfl
    · exact touch_max ..

/-! ### Getting or creating -/

/-- What `getOrCreate` can do. -/
inductive Created (type : ValueType) (now : Time) (key : Bytes) (s : Store) :
    Store × Option Value → Prop where
  | wrongType (v : Value) (hv : (s.live now).lookup key = some v.entry) (ht : v.type ≠ type) :
    Created type now key s (s, none)
  | found (v : Value) (hv : s.data.toFinmap.lookup key = some v)
    (hlive : (s.live now).lookup key = some v.entry) (ht : v.type = type) :
    Created type now key s (s, some v)
  | fresh (s' : Store) (seq : Nat) (hnone : (s.live now).lookup key = none)
    (hs' : s'.data.toFinmap = s.data.toFinmap.insert key { type := type, lastAccessedSeq := seq })
    (hmax : s'.maxMemoryBytes = s.maxMemoryBytes) :
    Created type now key s (s', some { type := type, lastAccessedSeq := seq })

/-- A store in which the key is not stale, as `getOrCreate` first makes it. -/
theorem deleteIfExpired_data (s : Store) (now : Time) (key : Bytes) (v : Value) :
    (s.deleteIfExpired now key).1.data.toFinmap.insert key v = s.data.toFinmap.insert key v := by
  unfold deleteIfExpired
  split
  · split
    · rw [discard_data, insert_erase_same]
    · rfl
  · rfl

theorem deleteIfExpired_fresh (h : (s.deleteIfExpired now key).1.data.toFinmap.lookup key = some v) :
    ¬isExpired now v = true ∧ (s.deleteIfExpired now key).1 = s := by
  unfold deleteIfExpired at h ⊢
  split at h
  · next v' hv' =>
    rw [HashTable.get_eq] at hv'
    split at h
    · rw [discard_lookup] at h
      cases h
    · next hx =>
      obtain rfl : v' = v := Option.some.inj (hv'.symm.trans h)
      exact ⟨hx, by simp [hx]⟩
  · next hnone =>
    rw [HashTable.get_eq, h] at hnone
    cases hnone

theorem getOrCreate_created (s : Store) (type : ValueType) (now : Time) (key : Bytes) :
    Created type now key s (s.getOrCreate type now key) := by
  have hins := s.deleteIfExpired_data now key
  have hlive := s.deleteIfExpired_live now key
  have hmax := s.deleteAllExpired_max now [key]
  have hfresh := @deleteIfExpired_fresh s now key
  rw [deleteAllExpired, List.foldl_cons, List.foldl_nil] at hmax
  unfold getOrCreate
  generalize (s.deleteIfExpired now key).1 = s' at hins hlive hmax hfresh
  dsimp only
  split
  · next hnone =>
    rw [HashTable.get_eq] at hnone
    -- the store with the empty value, before it is stamped
    generalize hs : Store.credit { s' with data := (s'.data.set key { type := type }).1 } _ = s₁
    have hdata : s₁.data.toFinmap = s'.data.toFinmap.insert key { type := type } := by
      rw [← hs]
      exact HashTable.toFinmap_set ..
    have hset : s₁.data.toFinmap.lookup key = some { type := type } := by
      rw [hdata, Finmap.lookup_insert]
    rw [HashTable.get_eq, touch_lookup hset]
    refine .fresh _ _ (by rw [← hlive, live_absent hnone]) ?_ ?_
    · rw [touch_data hset, hdata, Finmap.insert_insert]
      exact hins _
    · rw [touch_max, ← hs]
      exact hmax
  · next v hv =>
    rw [HashTable.get_eq] at hv
    obtain ⟨hx, rfl⟩ := hfresh hv
    split
    · next ht => exact .wrongType v (live_found hv hx) ht
    · next ht => exact .found v hv (live_found hv hx) (not_not.mp ht)

theorem rewrite_data (hv : s.data.toFinmap.lookup key = some v) (v' : Value) :
    (s.rewrite key v v').data.toFinmap = s.data.toFinmap.insert key v' := by
  show (({ s with data := s.data.assign key v' } : Store).debit _).data.toFinmap = _
  rw [debit_data]
  exact HashTable.toFinmap_assign _ _ _ (Finmap.mem_of_lookup_eq_some hv)

/-- The hash that `HDel` emptied, written back and then deleted. -/
theorem emptied_data (hv : s.data.toFinmap.lookup key = some v) (v' : Value) (bytes : Nat) :
    (((({ s with data := s.data.assign key v' } : Store).debit bytes).data).delete key).1.toFinmap =
      s.data.toFinmap.erase key := by
  rw [HashTable.toFinmap_delete, debit_data]
  dsimp only
  rw [HashTable.toFinmap_assign _ _ _ (Finmap.mem_of_lookup_eq_some hv), erase_insert_same]

/-- The value `getOrCreate` returned, rewritten. -/
theorem Created.rewrite_data {type : ValueType} (h : Created type now key s (s', some v)) (v' : Value) :
    (s'.rewrite key v v').data.toFinmap = s.data.toFinmap.insert key v' := by
  cases h with
  | found _ hv => exact Store.rewrite_data hv v'
  | fresh _ seq hnone hs' hmax =>
    have hv : s'.data.toFinmap.lookup key = some { type := type, lastAccessedSeq := seq } := by
      rw [hs', Finmap.lookup_insert]
    rw [Store.rewrite_data hv, hs', Finmap.insert_insert]

/-- The same, stamped. -/
theorem Created.rewritten {type : ValueType} (h : Created type now key s (s', some v)) (v' : Value) :
    ((s'.rewrite key v v').touch key).live now = tick now ((s.live now).insert key v'.entry) ∧
      ((s'.rewrite key v v').touch key).maxMemoryBytes = s.maxMemoryBytes := by
  rw [touch_live, touch_max, rewrite_max]
  refine ⟨live_insert (h.rewrite_data v'), ?_⟩
  cases h with
  | found => rfl
  | fresh _ seq hnone hs' hmax => exact hmax

/-- What a push and `HSet` do to the store: the value got or created is rewritten by `f`. -/
def update (type : ValueType) (f : Value → Value) (draw : Nat → Nat → Nat) (now : Time) (key : Bytes) (s : Store) :
    Store :=
  match s.getOrCreate type now key with
  | (s, none) => s
  | (s, some v) => evictIfOverBudget draw ((s.rewrite key v (f v)).touch key)

theorem push_store (join : List Bytes → List Bytes → List Bytes) (draw : Nat → Nat → Nat) (now : Time) (key : Bytes)
    (values : List Bytes) (s : Store) : (s.push join draw now key values).1 =
      s.update .list (fun v => { v with listValue := join v.listValue values }) draw now key := by
  unfold push update getOrCreateList
  rcases s.getOrCreate .list now key with ⟨s', _ | list⟩ <;> rfl

theorem hSet_store (draw : Nat → Nat → Nat) (now : Time) (key : Bytes) (fields : List (Bytes × Bytes)) (s : Store) :
    (s.hSet draw now key fields).1 =
      s.update .hash (fun v => { v with hashValue := (setFields v.hashValue fields).1 }) draw now key := by
  unfold hSet update getOrCreateHash
  rcases s.getOrCreate .hash now key with ⟨s', _ | hash⟩ <;> rfl

end Store

end GoRedis
