import GoRedis.Persistence.Rdb
import GoRedis.Store.Live

/-! What a snapshot file is read back as.

Every part of the file is read back as what was written, deadlines in whole milliseconds, so
`LoadRdb` hands `LoadSnapshot` the entries of the snapshot that have not expired since. -/
namespace GoRedis
open Codec

/-- Lengths that fit in the 32 bits, and deadlines that fit in the 64 bits, the file has for
them. -/
structure SnapshotEntry.Fits (e : SnapshotEntry) : Prop where
  key : e.key.length < 256 ^ 4
  str : e.strValue.length < 256 ^ 4
  list : e.listValue.length < 256 ^ 4
  elems : ∀ elem ∈ e.listValue, elem.length < 256 ^ 4
  hash : e.hashValue.length < 256 ^ 4
  fields : ∀ field ∈ e.hashValue, field.1.length < 256 ^ 4 ∧ field.2.length < 256 ^ 4
  deadline : ∀ t ∈ e.expiresAtWall, -256 ^ 8 ≤ 2 * toMillis t ∧ 2 * toMillis t < 256 ^ 8

instance (e : SnapshotEntry) : Decidable e.Fits :=
  decidable_of_iff
    ((e.key.length < 256 ^ 4 ∧ e.strValue.length < 256 ^ 4 ∧ e.listValue.length < 256 ^ 4 ∧
        (∀ elem ∈ e.listValue, elem.length < 256 ^ 4) ∧ e.hashValue.length < 256 ^ 4 ∧
        (∀ field ∈ e.hashValue, field.1.length < 256 ^ 4 ∧ field.2.length < 256 ^ 4)) ∧
      ∀ t ∈ e.expiresAtWall, -256 ^ 8 ≤ 2 * toMillis t ∧ 2 * toMillis t < 256 ^ 8)
    ⟨fun ⟨⟨hk, hs, hl, he, hh, hf⟩, hd⟩ => ⟨hk, hs, hl, he, hh, hf, hd⟩,
      fun ⟨hk, hs, hl, he, hh, hf, hd⟩ => ⟨⟨hk, hs, hl, he, hh, hf⟩, hd⟩⟩

/-- The lengths alone. -/
structure SnapshotEntry.Sized (e : SnapshotEntry) : Prop where
  key : e.key.length < 256 ^ 4
  str : e.strValue.length < 256 ^ 4
  list : e.listValue.length < 256 ^ 4
  elems : ∀ elem ∈ e.listValue, elem.length < 256 ^ 4
  hash : e.hashValue.length < 256 ^ 4
  fields : ∀ field ∈ e.hashValue, field.1.length < 256 ^ 4 ∧ field.2.length < 256 ^ 4

theorem SnapshotEntry.Fits.sized {e : SnapshotEntry} (h : e.Fits) : e.Sized :=
  ⟨h.key, h.str, h.list, h.elems, h.hash, h.fields⟩

/-- The entry with the value of its type only, and with this deadline. -/
def SnapshotEntry.trimmed (e : SnapshotEntry) (deadline : Option Time) : SnapshotEntry :=
  match e.type with
  | .list => { key := e.key, type := .list, listValue := e.listValue, expiresAtWall := deadline }
  | .hash => { key := e.key, type := .hash, hashValue := e.hashValue, expiresAtWall := deadline }
  | .string => { key := e.key, type := .string, strValue := e.strValue, expiresAtWall := deadline }

/-- The deadline in whole milliseconds. -/
def savedDeadline (rep : ClockRep) (e : SnapshotEntry) : Option Time :=
  e.expiresAtWall.map fun t => ofMillis rep (toMillis t)

/-- What an entry is read back as. -/
def reread (rep : ClockRep) (wallNow : Time) (e : SnapshotEntry) : Option SnapshotEntry :=
  if (savedDeadline rep e).any (· ≤ wallNow) then none else some (e.trimmed (savedDeadline rep e))

/-! ### The parts -/

theorem reads_string {s : Bytes} (h : s.length < 256 ^ 4) : Reads readString (writeString s) s :=
  (reads_uint h).bind (reads_bytes s)

theorem reads_type (type : ValueType) : Reads readType [typeByte type] type := by
  intro rest
  cases type <;> rfl

theorem reads_ttl (rep : ClockRep) {deadline : Option Time} {ms : Time → Int}
    (h : ∀ t ∈ deadline, Reads (sint 8) (sle 8 (toMillis t)) (ms t)) :
    Reads (readTtl rep) (writeTtl deadline) (deadline.map fun t => ofMillis rep (ms t)) := by
  cases deadline with
  | none => exact (reads_byte 0).bind (.pure none)
  | some t => exact (reads_byte 1).bind ((h t rfl).map fun ms => some (ofMillis rep ms))

theorem reads_field {field : Bytes × Bytes} (h : field.1.length < 256 ^ 4 ∧ field.2.length < 256 ^ 4) :
    Reads readField (writeField field) field :=
  (reads_string h.1).bind ((reads_string h.2).map fun value => (field.1, value))

theorem reads_value {e : SnapshotEntry} (h : e.Sized) (deadline : Option Time) :
    Reads (readValue { key := e.key, type := e.type, expiresAtWall := deadline }) (writeValue e)
      (e.trimmed deadline) := by
  unfold writeValue SnapshotEntry.trimmed readValue
  cases htype : e.type with
  | string => exact (reads_string h.str).map _
  | list =>
    have helems := reads_times (f := id) fun elem helem => reads_string (h.elems elem helem)
    rw [List.map_id] at helems
    exact (reads_uint h.list).bind (helems.map _)
  | hash =>
    have hfields := reads_times (f := id) fun field hfield => reads_field (h.fields field hfield)
    rw [List.map_id] at hfields
    exact (reads_uint h.hash).bind (hfields.map _)

/-- An entry, by what its deadline is read as. -/
theorem reads_entry_of (rep : ClockRep) (wallNow : Time) {e : SnapshotEntry} (h : e.Sized) {deadline : Option Time}
    (hd : Reads (readTtl rep) (writeTtl e.expiresAtWall) deadline) :
    Reads (readEntry rep wallNow) (writeEntry e)
      (if deadline.any (· ≤ wallNow) then none else some (e.trimmed deadline)) := by
  refine (reads_string h.key).bind ((reads_type e.type).bind (hd.bind ?_))
  change Reads (readValue ⟨e.key, e.type, [], [], [], if deadline.any (· ≤ wallNow) then none else deadline⟩ >>=
    fun entry => pure (if deadline.any (· ≤ wallNow) then none else some entry)) _ _
  split
  · exact (reads_value h none).map fun _ => none
  · exact (reads_value h deadline).map some

theorem reads_entry (rep : ClockRep) (wallNow : Time) {e : SnapshotEntry} (h : e.Fits) :
    Reads (readEntry rep wallNow) (writeEntry e) (reread rep wallNow e) :=
  reads_entry_of rep wallNow h.sized
    (reads_ttl rep fun t ht => reads_sint (h.deadline t ht).1 (h.deadline t ht).2)

theorem reduceOption_map {α β : Type} (l : List α) (f : α → Option β) : (l.map f).reduceOption = l.filterMap f :=
  List.filterMap_map ..

/-- The payload, by what its entries are read as. -/
theorem reads_rdb (rep : ClockRep) (wallNow : Time) {entries : List SnapshotEntry}
    {f : SnapshotEntry → Option SnapshotEntry}
    (h : ∀ e ∈ entries, Reads (readEntry rep wallNow) (writeEntry e) (f e)) (hcount : entries.length < 256 ^ 8) :
    Reads (readRdb rep wallNow) (rdbPayload entries) (entries.filterMap f) := by
  have hentries := (reads_times h).map List.reduceOption
  rw [reduceOption_map] at hentries
  have hversion : kFormatVersion < 256 ^ 4 := by decide
  refine (reads_bytes kMagic).bind ?_
  rw [if_neg (not_not.mpr rfl)]
  refine (reads_uint hversion).bind ?_
  rw [if_neg (not_not.mpr rfl)]
  exact (reads_uint hcount).bind hentries

/-! ### The file -/

theorem rdbPayload_length (entries : List SnapshotEntry) : 16 ≤ (rdbPayload entries).length := by
  simp only [rdbPayload, List.length_append, length_le, kMagic, List.length_cons, List.length_nil]
  omega

def withChecksum (payload : Bytes) : Bytes := payload ++ le 8 (fnv1a64 payload).toNat

/-- What `SaveRdb` writes for a list of entries. -/
def rdbFile (entries : List SnapshotEntry) : Bytes := withChecksum (rdbPayload entries)

theorem saveRdb_eq (rep : ClockRep) (steadyNow wallNow : Time) (s : Store) :
    saveRdb rep steadyNow wallNow s = rdbFile (s.snapshot rep steadyNow wallNow) := rfl

/-- A payload with its checksum is loaded as what is read from it. -/
theorem loadRdb_payload {rep : ClockRep} {now : LoadClocks} {payload rest : Bytes} {entries : List SnapshotEntry}
    (hread : readRdb rep now.rdbWall payload = some (entries, rest)) (hlength : 16 ≤ payload.length)
    (draw : Nat → Nat → Nat) (target : Store) :
    loadRdb rep now draw (withChecksum payload) target =
      (target.loadSnapshot rep now.steady now.wall draw entries, true) := by
  have hchecksum : uint 8 (le 8 (fnv1a64 payload).toNat) = some ((fnv1a64 payload).toNat, []) := by
    have hreads := reads_uint (k := 8) (fnv1a64 payload).toNat_lt []
    rwa [List.append_nil] at hreads
  unfold loadRdb withChecksum
  dsimp only
  rw [List.length_append, length_le, Nat.add_sub_cancel, List.take_left, List.drop_left, if_neg, hchecksum]
  · dsimp only
    rw [if_neg (not_not.mpr rfl), hread]
  · rw [kMinSize]
    omega

/-- A file is loaded as what its entries are read as. -/
theorem loadRdb_rdbFile {rep : ClockRep} {now : LoadClocks} {entries : List SnapshotEntry}
    {f : SnapshotEntry → Option SnapshotEntry}
    (h : ∀ e ∈ entries, Reads (readEntry rep now.rdbWall) (writeEntry e) (f e)) (hcount : entries.length < 256 ^ 8)
    (draw : Nat → Nat → Nat) (target : Store) :
    loadRdb rep now draw (rdbFile entries) target =
      (target.loadSnapshot rep now.steady now.wall draw (entries.filterMap f), true) := by
  have hread := reads_rdb rep now.rdbWall h hcount []
  rw [List.append_nil] at hread
  exact loadRdb_payload hread (rdbPayload_length entries) draw target

/-- **The file is read back**: `LoadRdb` loads the snapshot's entries that have not expired. -/
theorem loadRdb_saveRdb (rep : ClockRep) (steadyNow wallNow : Time) {s : Store}
    (h : ∀ e ∈ s.snapshot rep steadyNow wallNow, e.Fits)
    (hcount : (s.snapshot rep steadyNow wallNow).length < 256 ^ 8) (now : LoadClocks) (draw : Nat → Nat → Nat)
    (target : Store) :
    loadRdb rep now draw (saveRdb rep steadyNow wallNow s) target =
      (target.loadSnapshot rep now.steady now.wall draw
        ((s.snapshot rep steadyNow wallNow).filterMap (reread rep now.rdbWall)), true) := by
  rw [saveRdb_eq]
  exact loadRdb_rdbFile (fun e he => reads_entry rep now.rdbWall (h e he)) hcount draw target

end GoRedis
