import GoRedis.Lib.Codec
import GoRedis.Store.Snapshot

/-! The snapshot file (`persistence/rdb.cpp`).

`SaveRdb` serialises a snapshot: a header with the number of entries, the entries, and a
checksum of all that. `LoadRdb` reads the entries back, leaves out those that have expired
on the wall clock, and hands the rest to `LoadSnapshot`. A read that does not find enough
bytes, and any check that fails, ends it with the store untouched. Reservations of memory
are left out here; `ByteReader.lean` has them. -/
namespace GoRedis
open Codec

def kMagic : Bytes := [71, 82, 68, 66]
def kFormatVersion : Nat := 2
def kMinSize : Nat := 24

/-- `Fnv1a64`. -/
def fnv1a64 (data : Bytes) : UInt64 :=
  data.foldl (fun hash c => (hash ^^^ c.toUInt64) * 1099511628211) 14695981039346656037

/-! ### Writing -/

/-- `WriteString`; the length is cast to 32 bits. -/
def writeString (s : Bytes) : Bytes := le 4 s.length ++ s

def typeByte : ValueType → UInt8
  | .string => 0
  | .list => 1
  | .hash => 2

/-- The flag and, if there is a deadline, its whole milliseconds since the epoch. -/
def writeTtl : Option Time → Bytes
  | none => [0]
  | some deadline => 1 :: sle 8 (toMillis deadline)

def writeField (field : Bytes × Bytes) : Bytes := writeString field.1 ++ writeString field.2

def writeValue (entry : SnapshotEntry) : Bytes :=
  match entry.type with
  | .list => le 4 entry.listValue.length ++ entry.listValue.flatMap writeString
  | .hash => le 4 entry.hashValue.length ++ entry.hashValue.flatMap writeField
  | .string => writeString entry.strValue

def writeEntry (entry : SnapshotEntry) : Bytes :=
  writeString entry.key ++ ([typeByte entry.type] ++ (writeTtl entry.expiresAtWall ++ writeValue entry))

/-- All but the checksum. -/
def rdbPayload (entries : List SnapshotEntry) : Bytes :=
  kMagic ++ (le 4 kFormatVersion ++ (le 8 entries.length ++ entries.flatMap writeEntry))

/-- What `SaveRdb` writes, at one reading of each clock. -/
def saveRdb (rep : ClockRep) (steadyNow wallNow : Time) (s : Store) : Bytes :=
  let payload := rdbPayload (s.snapshot rep steadyNow wallNow)
  payload ++ le 8 (fnv1a64 payload).toNat

/-! ### Reading -/

def readString : Reader Bytes := do
  let len ← uint 4
  bytes len

/-- Any other byte is read as a string. -/
def readType : Reader ValueType := do
  let b ← byte
  pure (if b = 1 then .list else if b = 2 then .hash else .string)

def readTtl (rep : ClockRep) : Reader (Option Time) := do
  let hasTtl ← byte
  if hasTtl = 0 then pure none
  else do
    let ms ← sint 8
    pure (some (ofMillis rep ms))

def readField : Reader (Bytes × Bytes) := do
  let field ← readString
  let value ← readString
  pure (field, value)

/-- The value of an entry of which the rest is read. -/
def readValue (entry : SnapshotEntry) : Reader SnapshotEntry :=
  match entry.type with
  | .list => do
    let count ← uint 4
    let elems ← times readString count
    pure { entry with listValue := elems }
  | .hash => do
    let count ← uint 4
    let fields ← times readField count
    pure { entry with hashValue := fields }
  | .string => do
    let str ← readString
    pure { entry with strValue := str }

/-- One entry; nothing if it has expired, but its value is read off all the same. -/
def readEntry (rep : ClockRep) (wallNow : Time) : Reader (Option SnapshotEntry) := do
  let key ← readString
  let type ← readType
  let deadline ← readTtl rep
  let expired := deadline.any (· ≤ wallNow)
  let entry ← readValue { key := key, type := type, expiresAtWall := if expired then none else deadline }
  pure (if expired then none else some entry)

/-- The payload's entries that have not expired. -/
def readRdb (rep : ClockRep) (wallNow : Time) : Reader (List SnapshotEntry) := do
  let magic ← bytes 4
  if magic ≠ kMagic then failure
  let version ← uint 4
  if version ≠ kFormatVersion then failure
  let count ← uint 8
  let entries ← times (readEntry rep wallNow) count
  pure entries.reduceOption

/-- The clock readings of a load: `LoadRdb`'s wall clock, and `LoadSnapshot`'s clocks. -/
structure LoadClocks where
  rdbWall : Time
  steady : Time
  wall : Time

/-- `LoadRdb`, on the bytes of the file. -/
def loadRdb (rep : ClockRep) (now : LoadClocks) (draw : Nat → Nat → Nat) (buf : Bytes) (s : Store) : Store × Bool :=
  if buf.length < kMinSize then (s, false)
  else
    let payload := buf.take (buf.length - 8)
    match uint 8 (buf.drop (buf.length - 8)) with
    | none => (s, false)
    | some (storedChecksum, _) =>
      if storedChecksum ≠ (fnv1a64 payload).toNat then (s, false)
      else match readRdb rep now.rdbWall payload with
        | none => (s, false)
        | some (entries, _) => (s.loadSnapshot rep now.steady now.wall draw entries, true)

end GoRedis
