import GoRedis.Store.Live

/-! What holds of every value in a store.

Calls delete entries, stamp them, and write values: `Call.Keeps` says of each call what it
writes has to satisfy. What every value of a store satisfies is kept by the calls that keep
it, by evictions, and by loading values that satisfy it. -/
namespace GoRedis
open Keyed

/-- What a push or `HSet` makes of a value of its type, and of a new one. -/
structure Rewrites (Q : Value → Prop) (type : ValueType) (f : Value → Value) : Prop where
  found : ∀ v, v.type = type → Q v → Q (f v)
  fresh : ∀ seq, Q (f { type := type, lastAccessedSeq := seq })

/-- What a call writes satisfies `Q`, if what was there did. -/
def Call.Keeps (Q : Value → Prop) : Call → Prop
  | .set _ value => Q { type := .string, strValue := value }
  | .expire _ _ => ∀ v deadline, Q v → Q { v with expiresAt := some deadline }
  | .lPush _ values =>
    Rewrites Q .list fun v => { v with listValue := values.foldl (fun list value => value :: list) v.listValue }
  | .rPush _ values => Rewrites Q .list fun v => { v with listValue := v.listValue ++ values }
  | .hSet _ fields => Rewrites Q .hash fun v => { v with hashValue := (Store.setFields v.hashValue fields).1 }
  -- a hash that is emptied is deleted
  | .hDel _ fields => ∀ v, v.type = .hash → Q v → (Store.deleteFields v.hashValue fields).1.len ≠ 0 →
    Q { v with hashValue := (Store.deleteFields v.hashValue fields).1 }
  | _ => True

namespace Store

def Every (Q : Value → Prop) (s : Store) : Prop := ∀ key v, s.data.toFinmap.lookup key = some v → Q v

section
variable {Q : Value → Prop} {s s' : Store} {key : Bytes} {v : Value}

theorem Every.insert (h : s.Every Q) (hd : s'.data.toFinmap = s.data.toFinmap.insert key v) (hv : Q v) :
    s'.Every Q := by
  intro k w hw
  rw [hd] at hw
  rcases lookup_of_insert hw with ⟨-, rfl⟩ | hold
  · exact hv
  · exact h k w hold

theorem Every.erase (h : s.Every Q) (hd : s'.data.toFinmap = s.data.toFinmap.erase key) : s'.Every Q := by
  intro k w hw
  rw [hd] at hw
  exact h k w (lookup_of_erase hw)

theorem Every.discard (h : s.Every Q) (key : Bytes) (v : Value) : (s.discard key v).Every Q :=
  h.erase (discard_data s key v)

theorem every_of_empty (h : s.data = .empty) : s.Every Q := by
  intro k v hv
  rw [h] at hv
  simp at hv

/-! ### Deletions -/

theorem Every.discards (h : s.Every Q) (hd : Discards s s') : s'.Every Q :=
  hd.keeps (P := Every Q) (fun _ hs => hs.discard _ _) h

/-- A positive `Expire` writes a deadline. -/
theorem Every.expire (h : s.Every Q) (rep : ClockRep) (now : Time) (key : Bytes) (seconds : Int)
    (hset : ∀ v deadline, s.data.toFinmap.lookup key = some v → ¬isExpired now v = true → 0 < seconds →
      Q { v with expiresAt := some deadline }) : (s.expire rep now key seconds).1.Every Q := by
  unfold Store.expire
  split
  · exact h
  · next v hv =>
    rw [HashTable.get_eq] at hv
    split
    · exact h.discard _ _
    · next hx =>
      split
      · exact h.discard _ _
      · next hpos =>
        exact h.insert (HashTable.toFinmap_assign _ _ _ (Finmap.mem_of_lookup_eq_some hv))
          (hset v _ hv hx (Int.not_le.mp hpos))

/-! ### Writes and reads -/

section
variable (hstamp : ∀ v seq, Q v → Q { v with lastAccessedSeq := seq })
include hstamp

theorem Every.touch (h : s.Every Q) (key : Bytes) : (s.touch key).Every Q := by
  cases hv : s.data.toFinmap.lookup key with
  | none =>
    have hget : s.data.get key = none := by rw [HashTable.get_eq, hv]
    rw [Store.touch, hget]
    exact h
  | some v => exact h.insert (touch_data hv) (hstamp v _ (h key v hv))

theorem Every.set (h : s.Every Q) (draw : Nat → Nat → Nat) (key value : Bytes)
    (hv : Q { type := .string, strValue := value }) : (s.set draw key value).Every Q := by
  let s₁ : Store := { s with data := (s.data.set key { type := .string, strValue := value }).1 }
  have hdata : (s₁.debit (s.bytesAt key)).data.toFinmap =
      s.data.toFinmap.insert key { type := .string, strValue := value } := by
    rw [debit_data]
    exact HashTable.toFinmap_set ..
  have hwritten : ((s₁.debit (s.bytesAt key)).credit (s₁.bytesAt key)).Every Q := h.insert hdata hv
  exact (hwritten.touch hstamp key).discards (evict_discards _ draw)

theorem Every.update (h : s.Every Q) {type : ValueType} {f : Value → Value} (hf : Rewrites Q type f)
    (draw : Nat → Nat → Nat) (now : Time) (key : Bytes) : (s.update type f draw now key).Every Q := by
  have hc := s.getOrCreate_created type now key
  unfold Store.update
  rcases hg : s.getOrCreate type now key with ⟨s', _ | v⟩ <;> rw [hg] at hc
  · cases hc
    exact h
  · have hrewritten : Q (f v) := by
      cases hc with
      | found _ hv _ ht => exact hf.found v ht (h key v hv)
      | fresh _ seq => exact hf.fresh seq
    exact ((h.insert (hc.rewrite_data _) hrewritten).touch hstamp key).discards (evict_discards _ draw)

theorem Every.hDel (h : s.Every Q) (now : Time) (key : Bytes) (fields : List Bytes)
    (hdel : (Call.hDel key fields).Keeps Q) : (s.hDel now key fields).1.Every Q := by
  unfold Store.hDel
  split
  · exact h
  · next v hv =>
    rw [HashTable.get_eq] at hv
    split
    · exact h.discard _ _
    · split
      · exact h
      · next ht =>
        dsimp only
        split
        · exact h.erase (emptied_data hv _ _)
        · next hlen =>
          have hwritten := hdel v (not_not.mp ht) (h key v hv) hlen
          exact (h.insert (rewrite_data hv _) hwritten).touch hstamp key

theorem Every.read {α : Type} (h : s.Every Q) (type : ValueType) (absent : Result α) (view : Value → Result α)
    (now : Time) (key : Bytes) : ((s.read type absent view now key).finish now).1.Every Q := by
  have hstore : (s.read type absent view now key).store.Every Q := by
    unfold Store.read
    split
    · exact h
    · split
      · exact h
      · split
        · exact h
        · exact h.touch hstamp key
  exact hstore.discards (deleteAllExpired_discards _ now _)

/-- **One call** keeps what it keeps of what it writes. -/
theorem Every.exec (h : s.Every Q) (env : Env) {c : Call} (hc : c.Keeps Q) : (s.exec env c).1.Every Q := by
  cases c with
  | set key value => exact h.set hstamp env.draw key value hc
  | del keys => exact h.discards (s.del_discards env.now keys)
  | flushAll => exact every_of_empty rfl
  | expire key seconds =>
    exact h.expire env.rep env.now key seconds fun v deadline hv _ _ => hc v deadline (h key v hv)
  | lPush key values | rPush key values =>
    dsimp only [Store.exec, lPush, rPush]
    rw [push_store]
    exact h.update hstamp hc env.draw env.now key
  | hSet key fields =>
    dsimp only [Store.exec]
    rw [hSet_store]
    exact h.update hstamp hc env.draw env.now key
  | hDel key fields => exact h.hDel hstamp env.now key fields hc
  | exists' keys => exact h.discards (s.deleteAllExpired_discards env.now _)
  | keys => exact h.discards (s.deleteAllExpired_discards env.now _)
  | ttl key =>
    have hstore : (s.ttl env.now key).store.Every Q := by
      rw [ttl_store]
      exact h
    exact hstore.discards (deleteAllExpired_discards _ env.now _)
  | get key | lLen key | lRange key start stop | hGet key field | hLen key | hExists key field
  | hGetAll key | hKeys key | hVals key => exact h.read hstamp _ _ _ env.now key

/-- Loading values that satisfy it. -/
theorem every_loadSnapshot (rep : ClockRep) (steadyNow wallNow : Time) (draw : Nat → Nat → Nat)
    {entries : List SnapshotEntry} (hload : ∀ e ∈ entries, Q (loadValue rep steadyNow wallNow e)) (s : Store) :
    (s.loadSnapshot rep steadyNow wallNow draw entries).Every Q := by
  have hempty : ({ s with data := .empty, usedMemoryBytes := 0 } : Store).Every Q := every_of_empty rfl
  refine Every.discards ?_ (evict_discards _ draw)
  refine List.foldlRecOn entries _ hempty fun s hs e he => ?_
  unfold loadEntry
  split
  · exact hs
  · let s₁ : Store := { s with data := (s.data.set e.key (loadValue rep steadyNow wallNow e)).1 }
    have hwritten : (s₁.credit (s₁.bytesAt e.key)).Every Q := hs.insert (HashTable.toFinmap_set ..) (hload e he)
    exact hwritten.touch hstamp e.key

end
end
end Store
end GoRedis
