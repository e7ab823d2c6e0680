import GoRedis.Store.Store

/-! Snapshots of a store (`Store::Snapshot`, `Store::LoadSnapshot`).

A deadline is held on the steady clock, which means nothing in another process, so a
snapshot carries it on the wall clock: what remains of it, in whole milliseconds, is
added to the wall time of the save, and loading anchors it to the steady clock again.
Each call reads each of its clocks once. -/
namespace GoRedis

structure SnapshotEntry where
  key : Bytes
  type : ValueType := .string
  strValue : Bytes := []
  listValue : List Bytes := []
  hashValue : List (Bytes × Bytes) := []
  expiresAtWall : Option Time := none
  deriving DecidableEq

/-- `duration_cast<milliseconds>`, as a count of milliseconds. -/
def toMillis (nanos : Int) : Int := nanos.tdiv 1000000

/-- Milliseconds as nanoseconds. -/
def ofMillis (rep : ClockRep) (millis : Int) : Int := rep.count (millis * 1000000)

namespace Store

def snapshotEntry (rep : ClockRep) (steadyNow wallNow : Time) (key : Bytes) (v : Value) :
    SnapshotEntry :=
  { key := key
    type := v.type
    strValue := v.strValue
    listValue := v.listValue
    hashValue := if v.type = .hash then v.hashValue.nodes.map fun node => (node.1, node.2) else []
    expiresAtWall := v.expiresAt.map fun deadline =>
      rep.count (wallNow + ofMillis rep (toMillis (rep.count (deadline - steadyNow)))) }

def snapshot (rep : ClockRep) (steadyNow wallNow : Time) (s : Store) : List SnapshotEntry :=
  (s.data.nodes.filter fun node => !isExpired steadyNow node.2).map fun node =>
    snapshotEntry rep steadyNow wallNow node.1 node.2

/-- The value an entry is loaded as. -/
def loadValue (rep : ClockRep) (steadyNow wallNow : Time) (entry : SnapshotEntry) : Value :=
  { type := entry.type
    strValue := entry.strValue
    listValue := entry.listValue
    hashValue := if entry.type = .hash then
        entry.hashValue.foldl (fun hash field => (hash.set field.1 field.2).1) .empty
      else .empty
    expiresAt := entry.expiresAtWall.map fun deadline =>
      rep.count (steadyNow + rep.count (deadline - wallNow)) }

/-- One entry of `LoadSnapshot`'s loop; one that has expired on the wall clock is skipped. -/
def loadEntry (rep : ClockRep) (steadyNow wallNow : Time) (s : Store) (entry : SnapshotEntry) :
    Store :=
  if entry.expiresAtWall.any (· ≤ wallNow) then s
  else
    let s := { s with data := (s.data.set entry.key (loadValue rep steadyNow wallNow entry)).1 }
    (s.credit (s.bytesAt entry.key)).touch entry.key

def loadSnapshot (rep : ClockRep) (steadyNow wallNow : Time) (draw : Nat → Nat → Nat)
    (entries : List SnapshotEntry) (s : Store) : Store :=
  evictIfOverBudget draw
    (entries.foldl (loadEntry rep steadyNow wallNow) { s with data := .empty, usedMemoryBytes := 0 })

end Store
end GoRedis
