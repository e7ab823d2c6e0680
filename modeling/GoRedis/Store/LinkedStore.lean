import GoRedis.Lib.Total
import GoRedis.Store.Budget
import GoRedis.Store.Linked

/-! The store on the table in memory (`store/store.cpp`).

`Store`'s calls look a key up, keep the pointer that `Get` returns, read and write through
it, and insert, delete and evict in between. Here they are written over a `Linked` table,
with the pointers they keep and every dereference where the code has it: a program has no
result if one of them dereferences a null pointer or a node that was freed meanwhile. Each
program does what `Store`'s function does, so none of them ever does.

The fields of a hash are a table inside its value; it stays a list table here. -/
namespace GoRedis
open HashTable Chains

structure LinkedStore where
  data : Linked Value := .empty
  usedMemoryBytes : Nat := 0
  maxMemoryBytes : Nat := 0
  accessClock : Nat := 0
  wrapped : Bool := false

namespace LinkedStore

/-- A program on the store; it has no result where the code's behaviour is undefined. -/
abbrev Action := StateT LinkedStore Option

/-- `Value*`: an address, or null. -/
abbrev Pointer := Option Nat

/-! ### What programs are made of -/

/-- `data_.Get`. -/
def find (key : Bytes) : Action Pointer := fun l => (l.data.get key).map fun p => (p, l)

/-- `*p`. -/
def deref (p : Pointer) : Action Value := fun l => (p.bind l.data.deref).map fun v => (v, l)

/-- `*p = v`, or a member of `*p` assigned. -/
def write (p : Pointer) (v : Value) : Action Unit := fun l =>
  (p.bind fun a => l.data.write a v).map fun data => ((), { l with data })

/-- `data_.Set`, with the allocator's choice. -/
def insert (pick : Nat) (key : Bytes) (v : Value) : Action Unit := fun l =>
  (l.data.set pick key v).map fun r => ((), { l with data := r.1 })

/-- `data_.Delete`. -/
def erase (key : Bytes) : Action Unit := fun l => (l.data.delete key).map fun r => ((), { l with data := r.1 })

/-- `data_.Clear`, with the counter reset as both callers do. -/
def clear : Action Unit := fun l => l.data.clear.map fun data => ((), { l with data, usedMemoryBytes := 0 })

/-- `data_.ForEach`. -/
def nodes : Action (List (Node Value)) := fun l => l.data.nodes.map fun xs => (xs.map Sigma.snd, l)

/-- `data_.SampleKeys(kSampleSize)`. -/
def sample (draw : Nat → Nat) : Action (List (Bytes × Nat)) := fun l =>
  (l.data.sampleKeys kSampleSize draw).map fun xs => (xs, l)

def debit (bytes : Nat) : Action Unit := fun l => some ((),
  if bytes ≤ l.usedMemoryBytes then { l with usedMemoryBytes := l.usedMemoryBytes - bytes }
  else { l with usedMemoryBytes := l.usedMemoryBytes + 2 ^ 64 - bytes, wrapped := true })

def credit (bytes : Nat) : Action Unit := fun l => some ((), { l with usedMemoryBytes := l.usedMemoryBytes + bytes })

/-- `access_clock_.fetch_add(1)`. -/
def tick : Action Nat := fun l => some (l.accessClock, { l with accessClock := l.accessClock + 1 })

def touch (p : Pointer) : Action Unit := do
  let seq ← tick
  write p { ← deref p with lastAccessedSeq := seq }

/-- `used_memory_bytes_ += EstimateEntryBytes(key, *p)`, then `Touch(*p)`. -/
def charge (key : Bytes) (p : Pointer) : Action Unit := do
  credit (estimateEntryBytes key (← deref p))
  touch p

/-! ### Expiry and eviction -/

def discard (key : Bytes) (p : Pointer) : Action Unit := do
  debit (estimateEntryBytes key (← deref p))
  erase key

def deleteIfExpired (now : Time) (key : Bytes) : Action Bool := do
  match ← find key with
  | none => return false
  | some a =>
    if isExpired now (← deref (some a)) then
      discard key (some a)
      return true
    else return false

def deleteAllExpired (now : Time) : List Bytes → Action Unit
  | [] => return ()
  | key :: keys => do
    let _ ← deleteIfExpired now key
    deleteAllExpired now keys

def sweepExpired (now : Time) : Action Unit := do
  let expired := ((← nodes).filter fun node => isExpired now node.2).map Sigma.fst
  deleteAllExpired now expired

/-- The loop over a sample: the victim so far, and its stamp. -/
def victim (best : Bytes × Nat) (oldest : Nat) : List (Bytes × Nat) → Action (Bytes × Nat)
  | [] => return best
  | e :: rest => do
    let accessed := (← deref (some e.2)).lastAccessedSeq
    if accessed < oldest then victim e accessed rest else victim best oldest rest

def evictLoop (draw : Nat → Nat → Nat) : (rounds round : Nat) → Action Unit
  | 0, _ => return ()
  | rounds + 1, round => do
    let l ← get
    if l.usedMemoryBytes > l.maxMemoryBytes ∧ l.data.numEntries > 0 then
      match ← sample (draw round) with
      | [] => return ()
      | e :: rest =>
        let oldest := (← deref (some e.2)).lastAccessedSeq
        let v ← victim e oldest rest
        discard v.1 (some v.2)
        evictLoop draw rounds (round + 1)
    else return ()

def evictIfOverBudget (draw : Nat → Nat → Nat) : Action Unit := do
  let l ← get
  if l.maxMemoryBytes = 0 then return () else evictLoop draw l.data.numEntries 0

def setMaxMemory (draw : Nat → Nat → Nat) (maxMemoryBytes : Nat) : Action Unit := do
  modify fun l => { l with maxMemoryBytes }
  evictIfOverBudget draw

/-! ### Writes -/

def bytesAt (key : Bytes) : Pointer → Action Nat
  | none => return 0
  | p => do return estimateEntryBytes key (← deref p)

def set (pick : Nat) (draw : Nat → Nat → Nat) (key value : Bytes) : Action Unit := do
  let existing ← find key
  let before ← bytesAt key existing
  insert pick key { type := .string, strValue := value }
  let stored ← find key
  debit before
  charge key stored
  evictIfOverBudget draw

def delLoop (now : Time) (removed : Int) : List Bytes → Action Int
  | [] => return removed
  | key :: keys => do
    match ← find key with
    | none => delLoop now removed keys
    | some a =>
      debit (estimateEntryBytes key (← deref (some a)))
      let wasExpired := isExpired now (← deref (some a))
      erase key
      delLoop now (if wasExpired then removed else removed + 1) keys

def del (now : Time) (keys : List Bytes) : Action Int := return asInt (← delLoop now 0 keys)

def flushAll : Action Unit := clear

def expire (rep : ClockRep) (now : Time) (key : Bytes) (seconds : Int) : Action Bool := do
  let v ← find key
  if v = none then return false
  else if isExpired now (← deref v) then
    discard key v
    return false
  else if seconds ≤ 0 then
    discard key v
    return true
  else
    write v { ← deref v with expiresAt := some (rep.count (now + rep.count (seconds * 1000000000))) }
    return true

/-- An expired entry is dropped, and its pointer with it. -/
def dropExpired (now : Time) (key : Bytes) : Pointer → Action Pointer
  | none => return none
  | some a => do
    if isExpired now (← deref (some a)) then
      discard key (some a)
      return none
    else return some a

/-- A null pointer for a value of another type. -/
def getOrCreate (type : ValueType) (pick : Nat) (now : Time) (key : Bytes) : Action Pointer := do
  match ← dropExpired now key (← find key) with
  | none =>
    insert pick key { type }
    let v ← find key
    charge key v
    return v
  | some a => if (← deref (some a)).type ≠ type then return none else return some a

def getOrCreateList : Nat → Time → Bytes → Action Pointer := getOrCreate .list
def getOrCreateHash : Nat → Time → Bytes → Action Pointer := getOrCreate .hash

/-- The reply is read off the list before the eviction, which may free it. -/
def push (join : List Bytes → List Bytes → List Bytes) (pick : Nat) (draw : Nat → Nat → Nat) (now : Time)
    (key : Bytes) (values : List Bytes) : Action (Result Int) := do
  match ← getOrCreateList pick now key with
  | none => return .wrongType
  | list =>
    let before := estimateEntryBytes key (← deref list)
    write list { ← deref list with listValue := join (← deref list).listValue values }
    debit before
    charge key list
    let result := asInt (← deref list).listValue.length
    evictIfOverBudget draw
    return .just result

def lPush := push fun list values => values.foldl (fun list value => value :: list) list
def rPush := push fun list values => list ++ values

def hSet (pick : Nat) (draw : Nat → Nat → Nat) (now : Time) (key : Bytes) (fields : List (Bytes × Bytes)) :
    Action (Result Int) := do
  match ← getOrCreateHash pick now key with
  | none => return .wrongType
  | hash =>
    let before := estimateEntryBytes key (← deref hash)
    let (table, added) := Store.setFields (← deref hash).hashValue fields
    write hash { ← deref hash with hashValue := table }
    debit before
    charge key hash
    evictIfOverBudget draw
    return .just (asInt added)

def hDel (now : Time) (key : Bytes) (fields : List Bytes) : Action (Result Int) := do
  let v ← find key
  if v = none then return .just 0
  else if isExpired now (← deref v) then
    discard key v
    return .just 0
  else if (← deref v).type ≠ .hash then return .wrongType
  else
    let before := estimateEntryBytes key (← deref v)
    let (table, removed) := Store.deleteFields (← deref v).hashValue fields
    write v { ← deref v with hashValue := table }
    if (← deref v).hashValue.len = 0 then
      debit before
      erase key
    else
      debit before
      charge key v
    return .just (asInt removed)

/-! ### Reads -/

/-- A read of one key of one type, the deletion of an expired entry included. -/
def read {α : Type} (type : ValueType) (absent : Result α) (view : Value → Result α) (now : Time) (key : Bytes) :
    Action (Result α) := do
  let v ← find key
  if v = none then return absent
  else if isExpired now (← deref v) then
    let _ ← deleteIfExpired now key
    return absent
  else if (← deref v).type ≠ type then return .wrongType
  else
    touch v
    return view (← deref v)

/-- `Exists`' loop: the count so far and the keys found expired. -/
def existsLoop (now : Time) (count : Int) (stale : List Bytes) : List Bytes → Action (Int × List Bytes)
  | [] => return (count, stale)
  | key :: keys => do
    let v ← find key
    if v = none then existsLoop now count stale keys
    else if isExpired now (← deref v) then existsLoop now count (stale ++ [key]) keys
    else existsLoop now (count + 1) stale keys

def exists' (now : Time) (keys : List Bytes) : Action Int := do
  let (count, stale) ← existsLoop now 0 [] keys
  deleteAllExpired now stale
  return asInt count

def keys (now : Time) : Action (List Bytes) := do
  let entries ← nodes
  deleteAllExpired now ((entries.filter fun node => isExpired now node.2).map Sigma.fst)
  return (entries.filter fun node => !isExpired now node.2).map Sigma.fst

def ttl (now : Time) (key : Bytes) : Action Int := do
  let v ← find key
  if v = none then return -2
  else if isExpired now (← deref v) then
    let _ ← deleteIfExpired now key
    return -2
  else match (← deref v).expiresAt with
    | none => return -1
    | some deadline => return (((deadline - now).tdiv 1000000) + 500).tdiv 1000

/-- A whole call, with the allocator's choice for the node it may insert. -/
def exec (env : Env) (pick : Nat) : (c : Call) → Action c.Reply
  | .set key value => set pick env.draw key value
  | .get key => read .string .missing (fun v => .just v.strValue) env.now key
  | .del keys => del env.now keys
  | .exists' keys => exists' env.now keys
  | .keys => keys env.now
  | .flushAll => flushAll
  | .expire key seconds => expire env.rep env.now key seconds
  | .ttl key => ttl env.now key
  | .lPush key values => lPush pick env.draw env.now key values
  | .rPush key values => rPush pick env.draw env.now key values
  | .lLen key => read .list (.just 0) (fun v => .just (asInt v.listValue.length)) env.now key
  | .lRange key start stop => read .list (.just []) (fun v => .just (Store.slice v.listValue start stop)) env.now key
  | .hSet key fields => hSet pick env.draw env.now key fields
  | .hGet key field => read .hash .missing (fun v => ⟨v.hashValue.get field, .none⟩) env.now key
  | .hDel key fields => hDel env.now key fields
  | .hGetAll key =>
    read .hash (.just []) (fun v => .just (v.hashValue.nodes.map fun node => (node.1, node.2))) env.now key
  | .hLen key => read .hash (.just 0) (fun v => .just (asInt v.hashValue.len)) env.now key
  | .hExists key field =>
    read .hash (.just 0) (fun v => .just (if (v.hashValue.get field).isSome then 1 else 0)) env.now key
  | .hKeys key => read .hash (.just []) (fun v => .just v.hashValue.keys) env.now key
  | .hVals key => read .hash (.just []) (fun v => .just (v.hashValue.nodes.map fun node => node.2)) env.now key

/-! ### Snapshots -/

/-- `LoadSnapshot`'s loop, with the allocator's choices. -/
def loadEntries (rep : ClockRep) (steadyNow wallNow : Time) : (picks : Nat → Nat) → List SnapshotEntry → Action Unit
  | _, [] => return ()
  | picks, entry :: entries => do
    if entry.expiresAtWall.any (· ≤ wallNow) then loadEntries rep steadyNow wallNow (picks ∘ (· + 1)) entries
    else
      insert (picks 0) entry.key (Store.loadValue rep steadyNow wallNow entry)
      let stored ← find entry.key
      charge entry.key stored
      loadEntries rep steadyNow wallNow (picks ∘ (· + 1)) entries

def loadSnapshot (rep : ClockRep) (steadyNow wallNow : Time) (draw : Nat → Nat → Nat) (picks : Nat → Nat)
    (entries : List SnapshotEntry) : Action Unit := do
  clear
  loadEntries rep steadyNow wallNow picks entries
  evictIfOverBudget draw

def operate (picks : Nat → Nat) : Store.Operation → Action Unit
  | .call env c => do
    let _ ← exec env (picks 0) c
    return ()
  | .setMaxMemory draw maxMemoryBytes => setMaxMemory draw maxMemoryBytes
  | .sweepExpired now => sweepExpired now
  | .deleteIfExpired now key => do
    let _ ← deleteIfExpired now key
    return ()
  | .loadSnapshot rep steadyNow wallNow draw entries => loadSnapshot rep steadyNow wallNow draw picks entries

/-- Operations one after the other, each with the allocator's choices. -/
def run : List ((Nat → Nat) × Store.Operation) → Action Unit
  | [] => return ()
  | (picks, op) :: ops => do
    operate picks op
    run ops

end LinkedStore
end GoRedis
