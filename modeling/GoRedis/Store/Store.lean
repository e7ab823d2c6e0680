import GoRedis.Store.Value

/-! The store (`store/store.cpp`), one public call at a time.

A call is a function of the store and of what it reads from outside: the clock reading,
and the random draws of an eviction. Reads take a shared lock first and escalate only
to delete what they found expired, so a read is its shared section (`Shared`) followed
by `DeleteIfExpired` on those keys; every other call is one section. Counts are returned as
`int`s (`asInt`), and so is the length `LRange` goes by; its other sums are exact.

`used_memory_bytes_` is a `size_t`. Sizes are taken to total less than 2^64, so `+=` is
exact, but `-=` wraps below zero; the ghost flag `wrapped` records that it ever did. -/
namespace GoRedis

structure Store where
  data : HashTable Value := .empty
  usedMemoryBytes : Nat := 0
  maxMemoryBytes : Nat := 0
  accessClock : Nat := 0
  wrapped : Bool := false

def kSampleSize : Nat := 5

def isExpired (now : Time) (v : Value) : Bool :=
  match v.expiresAt with
  | none => false
  | some deadline => deadline ≤ now

namespace Store

/-! ### Accounting, expiry, recency -/

/-- `used_memory_bytes_ -= bytes`. -/
def debit (s : Store) (bytes : Nat) : Store :=
  if bytes ≤ s.usedMemoryBytes then { s with usedMemoryBytes := s.usedMemoryBytes - bytes }
  else { s with usedMemoryBytes := s.usedMemoryBytes + 2 ^ 64 - bytes, wrapped := true }

/-- `used_memory_bytes_ += bytes`. -/
def credit (s : Store) (bytes : Nat) : Store :=
  { s with usedMemoryBytes := s.usedMemoryBytes + bytes }

/-- The size charged for what is at `key`, nothing if it is absent. -/
def bytesAt (s : Store) (key : Bytes) : Nat :=
  match s.data.get key with
  | some v => estimateEntryBytes key v
  | none => 0

/-- An entry's size given back and the entry deleted. -/
def discard (s : Store) (key : Bytes) (v : Value) : Store :=
  { s.debit (estimateEntryBytes key v) with data := (s.data.delete key).1 }

def deleteIfExpired (now : Time) (key : Bytes) (s : Store) : Store × Bool :=
  match s.data.get key with
  | some v => if isExpired now v then (s.discard key v, true) else (s, false)
  | none => (s, false)

def deleteAllExpired (now : Time) (keys : List Bytes) (s : Store) : Store :=
  keys.foldl (fun s key => (deleteIfExpired now key s).1) s

/-- The keys the sweeper's first phase finds. -/
def expiredKeys (now : Time) (s : Store) : List Bytes :=
  (s.data.nodes.filter fun node => isExpired now node.2).map Sigma.fst

def sweepExpired (now : Time) (s : Store) : Store := s.deleteAllExpired now (s.expiredKeys now)

/-- The value at `key` stamped with the next tick of the access clock. -/
def touch (s : Store) (key : Bytes) : Store :=
  match s.data.get key with
  | some v =>
    { s with
      data := s.data.assign key { v with lastAccessedSeq := s.accessClock }
      accessClock := s.accessClock + 1 }
  | none => s

/-! ### Eviction -/

/-- The first entry of a sample that no later one is older than. -/
def victim : Node Value → List (Node Value) → Node Value
  | oldest, [] => oldest
  | oldest, e :: rest =>
    victim (if e.2.lastAccessedSeq < oldest.2.lastAccessedSeq then e else oldest) rest

/-- The eviction loop. `draw round` are the draws of the sample taken in that round; each
round deletes one entry, so as many rounds as there are entries are enough. -/
def evictLoop (draw : Nat → Nat → Nat) : (rounds round : Nat) → Store → Store
  | 0, _, s => s
  | rounds + 1, round, s =>
    if s.usedMemoryBytes > s.maxMemoryBytes ∧ s.data.len > 0 then
      match s.data.sampleKeys kSampleSize (draw round) with
      | [] => s
      | e :: rest =>
        let v := victim e rest
        evictLoop draw rounds (round + 1) (s.discard v.1 v.2)
    else s

def evictIfOverBudget (draw : Nat → Nat → Nat) (s : Store) : Store :=
  if s.maxMemoryBytes = 0 then s else evictLoop draw s.data.len 0 s

def setMaxMemory (draw : Nat → Nat → Nat) (maxMemoryBytes : Nat) (s : Store) : Store :=
  evictIfOverBudget draw { s with maxMemoryBytes := maxMemoryBytes }

/-! ### Writes -/

def set (draw : Nat → Nat → Nat) (key value : Bytes) (s : Store) : Store :=
  let before := s.bytesAt key
  let s := { s with data := (s.data.set key { type := .string, strValue := value }).1 }
  let s := (s.debit before).credit (s.bytesAt key)
  evictIfOverBudget draw (s.touch key)

/-- One key of `Del`, with the count so far. -/
def delOne (now : Time) (acc : Store × Int) (key : Bytes) : Store × Int :=
  match acc.1.data.get key with
  | none => acc
  | some v => (acc.1.discard key v, if isExpired now v then acc.2 else acc.2 + 1)

def del (now : Time) (keys : List Bytes) (s : Store) : Store × Int :=
  let r := keys.foldl (delOne now) (s, 0)
  (r.1, asInt r.2)

def flushAll (s : Store) : Store := { s with data := .empty, usedMemoryBytes := 0 }

def expire (rep : ClockRep) (now : Time) (key : Bytes) (seconds : Int) (s : Store) : Store × Bool :=
  match s.data.get key with
  | none => (s, false)
  | some v =>
    if isExpired now v then (s.discard key v, false)
    else if seconds ≤ 0 then (s.discard key v, true)
    else
      let deadline := rep.count (now + rep.count (seconds * 1000000000))
      ({ s with data := s.data.assign key { v with expiresAt := some deadline } }, true)

/-- `GetOrCreateList` and `GetOrCreateHash`: the value at `key`, a fresh empty one of the
type if the key is absent or expired, nothing if it holds another type. -/
def getOrCreate (type : ValueType) (now : Time) (key : Bytes) (s : Store) : Store × Option Value :=
  let s := (s.deleteIfExpired now key).1
  match s.data.get key with
  | none =>
    let s := { s with data := (s.data.set key { type := type }).1 }
    let s := (s.credit (s.bytesAt key)).touch key
    (s, s.data.get key)
  | some v => if v.type ≠ type then (s, none) else (s, some v)

def getOrCreateList : Time → Bytes → Store → Store × Option Value := getOrCreate .list
def getOrCreateHash : Time → Bytes → Store → Store × Option Value := getOrCreate .hash

/-- A value rewritten in place: `v` was at `key` and `v'` is now, with the counter moved
by the difference. -/
def rewrite (s : Store) (key : Bytes) (v v' : Value) : Store :=
  ({ s with data := s.data.assign key v' }.debit (estimateEntryBytes key v)).credit
    (estimateEntryBytes key v')

/-- `LPush` and `RPush`, which differ in how the values join the list. -/
def push (join : List Bytes → List Bytes → List Bytes) (draw : Nat → Nat → Nat) (now : Time)
    (key : Bytes) (values : List Bytes) (s : Store) : Store × Result Int :=
  match s.getOrCreateList now key with
  | (s, none) => (s, .wrongType)
  | (s, some list) =>
    let list' := { list with listValue := join list.listValue values }
    let s := (s.rewrite key list list').touch key
    (evictIfOverBudget draw s, .just (asInt list'.listValue.length))

/-- Each value in turn goes to the front. -/
def lPush := push fun list values => values.foldl (fun list value => value :: list) list
def rPush := push fun list values => list ++ values

/-- `HSet`'s loop: the table and the number of new fields. -/
def setFields (hash : HashTable Bytes) (fields : List (Bytes × Bytes)) : HashTable Bytes × Int :=
  fields.foldl (fun acc field =>
    let r := acc.1.set field.1 field.2
    (r.1, if r.2 then acc.2 else acc.2 + 1)) (hash, 0)

def hSet (draw : Nat → Nat → Nat) (now : Time) (key : Bytes) (fields : List (Bytes × Bytes))
    (s : Store) : Store × Result Int :=
  match s.getOrCreateHash now key with
  | (s, none) => (s, .wrongType)
  | (s, some hash) =>
    let (table, added) := setFields hash.hashValue fields
    let s := (s.rewrite key hash { hash with hashValue := table }).touch key
    (evictIfOverBudget draw s, .just (asInt added))

/-- `HDel`'s loop: the table and the number of fields that were there. -/
def deleteFields (hash : HashTable Bytes) (fields : List Bytes) : HashTable Bytes × Int :=
  fields.foldl (fun acc field =>
    let r := acc.1.delete field
    (r.1, if r.2 then acc.2 + 1 else acc.2)) (hash, 0)

def hDel (now : Time) (key : Bytes) (fields : List Bytes) (s : Store) : Store × Result Int :=
  match s.data.get key with
  | none => (s, .just 0)
  | some v =>
    if isExpired now v then (s.discard key v, .just 0)
    else if v.type ≠ .hash then (s, .wrongType)
    else
      let (table, removed) := deleteFields v.hashValue fields
      let v' := { v with hashValue := table }
      if table.len = 0 then
        let s := { s with data := s.data.assign key v' }.debit (estimateEntryBytes key v)
        ({ s with data := (s.data.delete key).1 }, .just (asInt removed))
      else ((s.rewrite key v v').touch key, .just (asInt removed))

/-! ### Reads -/

/-- A read's shared section: the store after it (a read stamps what it reads), the reply,
and the keys it found expired. -/
structure Shared (α : Type) where
  store : Store
  reply : α
  stale : List Bytes := []

/-- The rest of the read: what was stale is deleted if it still is. -/
def Shared.finish {α : Type} (now : Time) (r : Shared α) : Store × α :=
  (r.store.deleteAllExpired now r.stale, r.reply)

/-- The reads of one key of one type: what they reply when the key is absent or expired,
and what they read off a value of the type. -/
def read {α : Type} (type : ValueType) (absent : Result α) (view : Value → Result α) (now : Time)
    (key : Bytes) (s : Store) : Shared (Result α) :=
  match s.data.get key with
  | none => ⟨s, absent, []⟩
  | some v =>
    if isExpired now v then ⟨s, absent, [key]⟩
    else if v.type ≠ type then ⟨s, .wrongType, []⟩
    else ⟨s.touch key, view v, []⟩

def get : Time → Bytes → Store → Shared (Result Bytes) :=
  read .string .missing fun v => .just v.strValue

def exists' (now : Time) (keys : List Bytes) (s : Store) : Shared Int :=
  { store := s
    reply := asInt (keys.countP fun key => match s.data.get key with
      | none => false
      | some v => !isExpired now v)
    stale := keys.filter fun key => match s.data.get key with
      | none => false
      | some v => isExpired now v }

def keys (now : Time) (s : Store) : Shared (List Bytes) :=
  { store := s
    reply := (s.data.nodes.filter fun node => !isExpired now node.2).map Sigma.fst
    stale := s.expiredKeys now }

/-- Milliseconds left, to the nearest second; division truncates. -/
def ttl (now : Time) (key : Bytes) (s : Store) : Shared Int :=
  match s.data.get key with
  | none => ⟨s, -2, []⟩
  | some v =>
    if isExpired now v then ⟨s, -2, [key]⟩
    else match v.expiresAt with
      | none => ⟨s, -1, []⟩
      | some deadline => ⟨s, (((deadline - now).tdiv 1000000) + 500).tdiv 1000, []⟩

def lLen : Time → Bytes → Store → Shared (Result Int) :=
  read .list (.just 0) fun v => .just (asInt v.listValue.length)

def normalizeIndex (index n : Int) : Int := if index < 0 then n + index else index

/-- The elements from `start` to `stop` inclusive, counted from the end when negative. -/
def slice (list : List Bytes) (start stop : Int) : List Bytes :=
  let n : Int := asInt list.length
  let normStart := max (normalizeIndex start n) 0
  let normStop := min (normalizeIndex stop n) (n - 1)
  if normStart > normStop ∨ n = 0 then []
  else (list.take (normStop + 1).toNat).drop normStart.toNat

def lRange (now : Time) (key : Bytes) (start stop : Int) : Store → Shared (Result (List Bytes)) :=
  read .list (.just []) (fun v => .just (slice v.listValue start stop)) now key

def hGet (now : Time) (key field : Bytes) : Store → Shared (Result Bytes) :=
  read .hash .missing (fun v => ⟨v.hashValue.get field, .none⟩) now key

def hGetAll : Time → Bytes → Store → Shared (Result (List (Bytes × Bytes))) :=
  read .hash (.just []) fun v => .just (v.hashValue.nodes.map fun node => (node.1, node.2))

def hLen : Time → Bytes → Store → Shared (Result Int) :=
  read .hash (.just 0) fun v => .just (asInt v.hashValue.len)

def hExists (now : Time) (key field : Bytes) : Store → Shared (Result Int) :=
  read .hash (.just 0) (fun v => .just (if (v.hashValue.get field).isSome then 1 else 0)) now key

def hKeys : Time → Bytes → Store → Shared (Result (List Bytes)) :=
  read .hash (.just []) fun v => .just v.hashValue.keys

def hVals : Time → Bytes → Store → Shared (Result (List Bytes)) :=
  read .hash (.just []) fun v => .just (v.hashValue.nodes.map fun node => node.2)

end Store

/-! ### Public calls -/

/-- What a call reads from outside the store: the clock, in its representation, and the
draws of each round of eviction. -/
structure Env where
  now : Time
  rep : ClockRep := .exact
  draw : Nat → Nat → Nat := fun _ _ => 0

inductive Call where
  | set (key value : Bytes)
  | get (key : Bytes)
  | del (keys : List Bytes)
  | exists' (keys : List Bytes)
  | keys
  | flushAll
  | expire (key : Bytes) (seconds : Int)
  | ttl (key : Bytes)
  | lPush (key : Bytes) (values : List Bytes)
  | rPush (key : Bytes) (values : List Bytes)
  | lLen (key : Bytes)
  | lRange (key : Bytes) (start stop : Int)
  | hSet (key : Bytes) (fields : List (Bytes × Bytes))
  | hGet (key field : Bytes)
  | hDel (key : Bytes) (fields : List Bytes)
  | hGetAll (key : Bytes)
  | hLen (key : Bytes)
  | hExists (key field : Bytes)
  | hKeys (key : Bytes)
  | hVals (key : Bytes)
  deriving DecidableEq

/-- What each call returns. -/
def Call.Reply : Call → Type
  | .set .. | .flushAll => Unit
  | .get _ | .hGet .. => Result Bytes
  | .del _ | .exists' _ | .ttl _ => Int
  | .keys => List Bytes
  | .expire .. => Bool
  | .lPush .. | .rPush .. | .lLen _ | .hSet .. | .hDel .. | .hLen _ | .hExists .. => Result Int
  | .lRange .. | .hKeys _ | .hVals _ => Result (List Bytes)
  | .hGetAll _ => Result (List (Bytes × Bytes))

/-- A whole call, at one clock reading. -/
def Store.exec (env : Env) (s : Store) : (c : Call) → Store × c.Reply
  | .set key value => (s.set env.draw key value, ())
  | .get key => (s.get env.now key).finish env.now
  | .del keys => s.del env.now keys
  | .exists' keys => (s.exists' env.now keys).finish env.now
  | .keys => (s.keys env.now).finish env.now
  | .flushAll => (s.flushAll, ())
  | .expire key seconds => s.expire env.rep env.now key seconds
  | .ttl key => (s.ttl env.now key).finish env.now
  | .lPush key values => s.lPush env.draw env.now key values
  | .rPush key values => s.rPush env.draw env.now key values
  | .lLen key => (s.lLen env.now key).finish env.now
  | .lRange key start stop => (s.lRange env.now key start stop).finish env.now
  | .hSet key fields => s.hSet env.draw env.now key fields
  | .hGet key field => (s.hGet env.now key field).finish env.now
  | .hDel key fields => s.hDel env.now key fields
  | .hGetAll key => (s.hGetAll env.now key).finish env.now
  | .hLen key => (s.hLen env.now key).finish env.now
  | .hExists key field => (s.hExists env.now key field).finish env.now
  | .hKeys key => (s.hKeys env.now key).finish env.now
  | .hVals key => (s.hVals env.now key).finish env.now

end GoRedis
