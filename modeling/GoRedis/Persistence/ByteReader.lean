import GoRedis.Lib.Cursor
import GoRedis.Persistence.Canonical

/-! `LoadRdb` as it goes through the payload (`ByteReader`), with the memory it reserves.

The counts in a file are trusted: `LoadRdb` reserves memory for as many entries, elements and
fields as the file says before it has seen one of them. A vector asked for more than it can
ever hold throws, and nothing catches that. Everything else is safe for any bytes: no read
goes outside of the payload, the loops end within as many iterations as there are bytes and
two more, and a load that does not succeed leaves the store alone.

Positions are below 2^63 and lengths below 2^32, so the sums that are compared with the size
of the payload are exact. -/
namespace GoRedis
open Codec Cursor

/-- What `LoadRdb` reserves memory in: `entries`, and an entry's `list_value` and `hash_value`. -/
inductive Vec where
  | entries | listValue | hashValue
  deriving DecidableEq

/-! ### The counts in a file -/

def skipTtl : Reader Unit := do
  let hasTtl ← byte
  if hasTtl = 0 then pure ()
  else do
    let _ ← uint 8
    pure ()

def skipValue : ValueType → Reader Unit
  | .list => do
    let count ← uint 4
    let _ ← times readString count
    pure ()
  | .hash => do
    let count ← uint 4
    let _ ← times readField count
    pure ()
  | .string => do
    let _ ← readString
    pure ()

def skipEntry : Reader Unit := do
  let _ ← readString
  let type ← readType
  skipTtl
  skipValue type

def valueCounts : ValueType → Bytes → List (Vec × Nat)
  | .list => after (uint 4) fun count _ => [(.listValue, count)]
  | .hash => after (uint 4) fun count _ => [(.hashValue, count)]
  | .string => fun _ => []

def entryCounts : Bytes → List (Vec × Nat) :=
  after readString fun _ => after readType fun type => after skipTtl fun _ => valueCounts type

def payloadCounts : Bytes → List (Vec × Nat) :=
  after (bytes 4) fun magic =>
    if magic ≠ kMagic then fun _ => []
    else after (uint 4) fun version =>
      if version ≠ kFormatVersion then fun _ => []
      else after (uint 8) fun count bs => (.entries, count) :: inItems entryCounts skipEntry count bs

/-- The numbers of entries, of elements of lists and of fields of hashes that a file states, as far
as it goes; none if it is too short or has another checksum. -/
def fileCounts (buf : Bytes) : List (Vec × Nat) :=
  if buf.length < kMinSize then []
  else if (uint 8 (buf.drop (buf.length - 8))).map Prod.fst ≠ some (fnv1a64 (payloadOf buf)).toNat then []
  else payloadCounts (payloadOf buf)

/-! ### `ByteReader` -/

namespace ByteReader
variable (buf : Bytes)

def readBytes (len : Nat) : Load Vec Bytes := checked buf len fun pos => slice buf pos len

def readU8 : Load Vec UInt8 := checked buf 1 fun pos => byteAt buf pos

/-- `k` bytes from a position on, the lowest first. -/
def shiftIn (pos : Nat) : (k : Nat) → Load Vec Nat
  | 0 => pure 0
  | k + 1 => do
    let v ← shiftIn pos k
    let b ← byteAt buf (pos + k)
    pure (v ||| b.toNat <<< (8 * k))

/-- `ReadU32` and `ReadU64`. -/
def readUint (k : Nat) : Load Vec Nat := checked buf k fun pos => shiftIn buf pos k

def readU32 : Load Vec Nat := readUint buf 4

def readU64 : Load Vec Nat := readUint buf 8

def readI64 : Load Vec Int := do
  let v ← readU64 buf
  pure ((v : Int).bmod (256 ^ 8))

def readString : Load Vec Bytes := do
  let len ← readU32 buf
  readBytes buf len

end ByteReader

/-! ### `LoadRdb` -/

namespace LoadRdb
open ByteReader

section
variable (maxSize : Vec → Nat) (payload : Bytes)

def readType : Load Vec ValueType := do
  let typeByte ← readU8 payload
  pure (if typeByte = 1 then .list else if typeByte = 2 then .hash else .string)

def readTtl (rep : ClockRep) : Load Vec (Option Time) := do
  let hasTtl ← readU8 payload
  if hasTtl = 0 then pure none
  else do
    let ms ← readI64 payload
    pure (some (ofMillis rep ms))

def readField : Load Vec (Bytes × Bytes) := do
  let field ← ByteReader.readString payload
  let value ← ByteReader.readString payload
  pure (field, value)

def readValue (entry : SnapshotEntry) : Load Vec SnapshotEntry :=
  match entry.type with
  | .list => do
    let elemCount ← readU32 payload
    let elems ← filled maxSize .listValue (ByteReader.readString payload) elemCount
    pure { entry with listValue := elems }
  | .hash => do
    let fieldCount ← readU32 payload
    let fields ← filled maxSize .hashValue (readField payload) fieldCount
    pure { entry with hashValue := fields }
  | .string => do
    let str ← ByteReader.readString payload
    pure { entry with strValue := str }

def readEntry (rep : ClockRep) (wallNow : Time) : Load Vec (Option SnapshotEntry) := do
  let key ← ByteReader.readString payload
  let type ← readType payload
  let deadline ← readTtl payload rep
  let expired := deadline.any (· ≤ wallNow)
  let entry ← readValue maxSize payload
    { key := key, type := type, expiresAtWall := if expired then none else deadline }
  pure (if expired then none else some entry)

def readRdb (rep : ClockRep) (wallNow : Time) : Load Vec (List SnapshotEntry) := do
  let magic ← readBytes payload 4
  if magic ≠ kMagic then refuse
  else do
    let version ← readU32 payload
    if version ≠ kFormatVersion then refuse
    else do
      let count ← readU64 payload
      let entries ← filled maxSize .entries (readEntry maxSize payload rep wallNow) count
      pure entries.reduceOption

end

/-- How a call ends. -/
inductive Ending where
  | returns (loaded : Bool)
  | throws
  | readsOutside
  deriving DecidableEq

structure Run where
  store : Store
  ending : Ending
  steps : Nat := 0
  reserved : List (Vec × Nat) := []

def Ending.ofStop : Stop → Ending
  | .refused => .returns false
  | .thrown => .throws
  | .outside => .readsOutside

/-- `LoadRdb`, on the bytes of the file, with the largest sizes of its vectors. -/
def run (maxSize : Vec → Nat) (rep : ClockRep) (now : LoadClocks) (draw : Nat → Nat → Nat) (buf : Bytes) (s : Store) :
    Run :=
  if buf.length < kMinSize then ⟨s, .returns false, 0, []⟩
  else
    let payload := payloadOf buf
    match readU64 (buf.drop (buf.length - 8)) {} with
    | (.error stop, _) => ⟨s, .ofStop stop, 0, []⟩
    | (.ok storedChecksum, _) =>
      if storedChecksum ≠ (fnv1a64 payload).toNat then ⟨s, .returns false, 0, []⟩
      else match readRdb maxSize payload rep now.rdbWall {} with
        | (.error stop, p) => ⟨s, .ofStop stop, p.steps, p.reserved⟩
        | (.ok entries, p) => ⟨s.loadSnapshot rep now.steady now.wall draw entries, .returns true, p.steps, p.reserved⟩

/-! ### It follows the readers -/

section
variable {maxSize : Vec → Nat} {payload : Bytes}

theorem follows_bytes (len : Nat) : Follows payload maxSize len 0 (readBytes payload len) (bytes len) := by
  refine follows_checked (fun pos s hpos => ⟨(payload.drop pos).take len, ?_, ?_⟩) fun bs hbs => ?_
  · rw [slice, if_pos hpos]
  · rw [bytes, if_pos (by rw [List.length_drop]; omega), List.drop_drop]
  · rw [bytes, if_neg (Nat.not_le.mpr hbs)]

theorem follows_byte : Follows payload maxSize 1 0 (readU8 payload) byte := by
  refine follows_checked (fun pos s hpos => ⟨payload[pos], ?_, ?_⟩) fun bs hbs => ?_
  · rw [byteAt, List.getElem?_eq_getElem hpos]
  · rw [List.drop_eq_getElem_cons hpos]
    rfl
  · rw [List.eq_nil_of_length_eq_zero (Nat.lt_one_iff.mp hbs)]
    rfl

/-- A number with one byte more. -/
theorem uint_succ {k n : Nat} {bs rest : Bytes} {b : UInt8} (h : uint k bs = some (n, b :: rest)) :
    uint (k + 1) bs = some (n + b.toNat * 256 ^ k, rest) := by
  induction k generalizing bs n with
  | zero =>
    cases h
    show some (b.toNat + 256 * 0, rest) = _
    simp
  | succ k ih =>
    cases bs with
    | nil => cases h
    | cons low bs =>
      change (uint k bs).bind (fun p => some (low.toNat + 256 * p.1, p.2)) = _ at h
      obtain ⟨⟨high, rest'⟩, hhigh, heq⟩ := Option.bind_eq_some_iff.mp h
      cases heq
      change (uint (k + 1) bs).bind (fun p => some (low.toNat + 256 * p.1, p.2)) = _
      rw [ih hhigh, Option.bind_some, pow_succ]
      refine congrArg some (Prod.ext ?_ rfl)
      ring

theorem shiftIn_uint (pos k : Nat) (s : Progress Vec) (h : pos + k ≤ payload.length) :
    ∃ n, shiftIn payload pos k s = (.ok n, s) ∧ uint k (payload.drop pos) = some (n, payload.drop (pos + k)) := by
  induction k with
  | zero => exact ⟨0, rfl, rfl⟩
  | succ k ih =>
    obtain ⟨n, hshift, huint⟩ := ih (by omega)
    have hlt : pos + k < payload.length := by omega
    have hbyte : byteAt payload (pos + k) s = (.ok payload[pos + k], s) := by
      rw [byteAt, List.getElem?_eq_getElem hlt]
    rw [List.drop_eq_getElem_cons hlt] at huint
    obtain ⟨bs, -, -, hn⟩ := takes_uint k _ _ _ huint
    refine ⟨_, ?_, uint_succ huint⟩
    have hor : n ||| payload[pos + k].toNat <<< (8 * k) = n + payload[pos + k].toNat * 256 ^ k := by
      have hpow : 256 ^ k = 2 ^ (8 * k) := by rw [pow_mul]; rfl
      rw [hpow] at hn ⊢
      rw [Nat.or_comm, ← Nat.shiftLeft_add_eq_or_of_lt hn, Nat.shiftLeft_eq, Nat.add_comm]
    rw [shiftIn, bind_ok hshift, bind_ok hbyte, hor]
    rfl

theorem follows_uint (k : Nat) : Follows payload maxSize k 0 (readUint payload k) (uint k) := by
  refine follows_checked (fun pos s hpos => shiftIn_uint pos k s hpos) fun bs hbs => ?_
  cases hread : uint k bs with
  | none => rfl
  | some p =>
    obtain ⟨taken, rfl, rfl, -⟩ := takes_uint k _ _ _ hread
    rw [List.length_append, length_le] at hbs
    omega

theorem follows_string : Follows payload maxSize 4 0 (ByteReader.readString payload) GoRedis.readString :=
  (follows_uint 4).bind fun len => (follows_bytes len).weaken (Nat.zero_le len) (Nat.le_refl 0)

theorem follows_type : Follows payload maxSize 1 0 (readType payload) GoRedis.readType := follows_byte.map _

theorem follows_ttl (rep : ClockRep) : Follows payload maxSize 1 0 (readTtl payload rep) (GoRedis.readTtl rep) := by
  show Follows payload maxSize (1 + 0) 0 _ _
  refine follows_byte.bind fun hasTtl => ?_
  split
  · exact follows_pure none
  · exact (((follows_uint 8).map _).map fun ms => some (ofMillis rep ms)).weaken (Nat.zero_le 8) (Nat.le_refl 0)

theorem follows_field : Follows payload maxSize 8 0 (readField payload) GoRedis.readField :=
  follows_string.bind fun field => follows_string.map fun value => (field, value)

theorem follows_value (entry : SnapshotEntry) :
    Follows payload maxSize 4 1 (readValue maxSize payload entry) (GoRedis.readValue entry) := by
  have hcount : Follows payload maxSize 4 1 (readU32 payload) (uint 4) :=
    (follows_uint 4).weaken (Nat.le_refl 4) (Nat.zero_le 1)
  unfold readValue GoRedis.readValue
  cases entry.type with
  | list =>
    have helem : Follows payload maxSize 2 0 (ByteReader.readString payload) GoRedis.readString :=
      follows_string.weaken (by decide) (Nat.le_refl 0)
    exact hcount.bind fun n => (follows_filled helem .listValue n).map _
  | hash =>
    have hfield : Follows payload maxSize 2 0 (readField payload) GoRedis.readField :=
      follows_field.weaken (by decide) (Nat.le_refl 0)
    exact hcount.bind fun n => (follows_filled hfield .hashValue n).map _
  | string => exact (follows_string.map _).weaken (Nat.le_refl 4) (Nat.zero_le 1)

theorem follows_entry (rep : ClockRep) (wallNow : Time) :
    Follows payload maxSize 2 1 (readEntry maxSize payload rep wallNow) (GoRedis.readEntry rep wallNow) := by
  refine Follows.weaken (c := 4 + (1 + (1 + 4))) ?_ (by decide) (Nat.le_refl 1)
  refine (follows_string.weaken (Nat.le_refl 4) (Nat.zero_le 1)).bind fun key => ?_
  refine (follows_type.weaken (Nat.le_refl 1) (Nat.zero_le 1)).bind fun type => ?_
  refine ((follows_ttl rep).weaken (Nat.le_refl 1) (Nat.zero_le 1)).bind fun deadline => ?_
  exact (follows_value _).map _

/-- **`LoadRdb` goes through the payload as its reader does.** -/
theorem follows_rdb (rep : ClockRep) (wallNow : Time) :
    Follows payload maxSize 0 2 (readRdb maxSize payload rep wallNow) (GoRedis.readRdb rep wallNow) := by
  refine Follows.weaken (c := 4 + 0) ?_ (Nat.zero_le 4) (Nat.le_refl 2)
  refine ((follows_bytes 4).weaken (Nat.le_refl 4) (Nat.zero_le 2)).bind fun magic => ?_
  split
  · exact (follows_refuse _).weaken (Nat.le_refl 0) (Nat.zero_le 2)
  · refine Follows.weaken (c := 4 + 0) ?_ (Nat.zero_le 4) (Nat.le_refl 2)
    refine ((follows_uint 4).weaken (Nat.le_refl 4) (Nat.zero_le 2)).bind fun version => ?_
    split
    · exact (follows_refuse _).weaken (Nat.le_refl 0) (Nat.zero_le 2)
    · refine Follows.weaken (c := 8 + 0) ?_ (Nat.zero_le 8) (Nat.le_refl 2)
      refine ((follows_uint 8).weaken (Nat.le_refl 8) (Nat.zero_le 2)).bind fun count => ?_
      exact (follows_filled (follows_entry rep wallNow) .entries count).map _

end

/-! ### It asks for what the file states -/

section
variable {payload : Bytes}

theorem quiet_byteAt (i : Nat) : Quiet (byteAt payload i : Load Vec UInt8) := by
  intro s
  unfold byteAt
  split <;> rfl

theorem quiet_bytes (len : Nat) : Quiet (readBytes payload len) := by
  refine quiet_checked fun pos s => ?_
  unfold slice
  split <;> rfl

theorem quiet_byte : Quiet (readU8 payload) := quiet_checked fun pos => quiet_byteAt pos

theorem quiet_uint (k : Nat) : Quiet (readUint payload k) := by
  refine quiet_checked fun pos => ?_
  induction k with
  | zero => exact quiet_pure 0
  | succ k ih => exact ih.bind fun v => (quiet_byteAt _).bind fun b => quiet_pure _

theorem quiet_string : Quiet (ByteReader.readString payload) := (quiet_uint 4).bind quiet_bytes

theorem quiet_type : Quiet (readType payload) := quiet_byte.bind fun _ => quiet_pure _

theorem quiet_ttl (rep : ClockRep) : Quiet (readTtl payload rep) := by
  refine quiet_byte.bind fun hasTtl => ?_
  split
  · exact quiet_pure none
  · exact ((quiet_uint 8).bind fun _ => quiet_pure _).bind fun _ => quiet_pure _

theorem quiet_field : Quiet (readField payload) :=
  quiet_string.bind fun _ => quiet_string.bind fun _ => quiet_pure _

variable {maxSize : Vec → Nat}

/-- Items that have no counts of their own. -/
theorem asks_items {α : Type} {item : Load Vec α} {r : Reader α} {c d : Nat}
    (hitem : Follows payload maxSize c d item r) (h : Quiet item) (v : Vec) (n : Nat) :
    Asks payload (filled maxSize v item n) fun _ => [(v, n)] := by
  have hfilled := asks_filled hitem h.asks v n
  rwa [inItems_nil] at hfilled

theorem asks_value (entry : SnapshotEntry) :
    Asks payload (readValue maxSize payload entry) (valueCounts entry.type) := by
  unfold readValue
  cases entry.type with
  | list =>
    refine .behind maxSize (follows_uint 4) (quiet_uint 4) fun n => ?_
    exact (asks_items follows_string quiet_string .listValue n).map _
  | hash =>
    refine .behind maxSize (follows_uint 4) (quiet_uint 4) fun n => ?_
    exact (asks_items follows_field quiet_field .hashValue n).map _
  | string => exact quiet_string.asks.map _

theorem readTtl_sameRest (rep : ClockRep) : SameRest (GoRedis.readTtl rep) skipTtl := by
  refine SameRest.bind fun hasTtl => ?_
  split
  · exact .pure _ _
  · rw [sint, bind_assoc]
    exact .bind fun n => .pure _ _

theorem readValue_sameRest (entry : SnapshotEntry) : SameRest (GoRedis.readValue entry) (skipValue entry.type) := by
  unfold GoRedis.readValue skipValue
  cases entry.type with
  | list => exact .bind fun count => .bind fun _ => .pure _ _
  | hash => exact .bind fun count => .bind fun _ => .pure _ _
  | string => exact .bind fun _ => .pure _ _

theorem readEntry_sameRest (rep : ClockRep) (wallNow : Time) : SameRest (GoRedis.readEntry rep wallNow) skipEntry := by
  refine .bind fun key => .bind fun type => (readTtl_sameRest rep).seq fun deadline _ => ?_
  exact (readValue_sameRest _).map _

theorem asks_entry (rep : ClockRep) (wallNow : Time) :
    Asks payload (readEntry maxSize payload rep wallNow) entryCounts := by
  refine .behind maxSize follows_string quiet_string fun key => .behind maxSize follows_type quiet_type fun type => ?_
  rw [← (readTtl_sameRest rep).after]
  exact .behind maxSize (follows_ttl rep) (quiet_ttl rep) fun deadline => (asks_value _).map _

/-- **`LoadRdb` asks for as much as the file states.** -/
theorem asks_rdb (rep : ClockRep) (wallNow : Time) :
    Asks payload (readRdb maxSize payload rep wallNow) payloadCounts := by
  refine .behind maxSize (follows_bytes 4) (quiet_bytes 4) fun magic => ?_
  split
  · exact quiet_refuse.asks
  · refine .behind maxSize (follows_uint 4) (quiet_uint 4) fun version => ?_
    split
    · exact quiet_refuse.asks
    · refine .behind maxSize (follows_uint 8) (quiet_uint 8) fun count => ?_
      rw [← (readEntry_sameRest rep wallNow).inItems]
      exact (asks_filled (follows_entry rep wallNow) (asks_entry rep wallNow) .entries count).map _

end

/-! ### Calls -/

/-- The checksum is read, since the file is long enough. -/
theorem readU64_checksum {buf : Bytes} (h : ¬buf.length < kMinSize) :
    ∃ stored p, readU64 (buf.drop (buf.length - 8)) {} = (.ok stored, p) ∧
      uint 8 (buf.drop (buf.length - 8)) = some (stored, []) := by
  have hlength : (buf.drop (buf.length - 8)).length = 8 := by
    rw [kMinSize] at h
    rw [List.length_drop]
    omega
  obtain ⟨n, hshift, huint⟩ := shiftIn_uint 0 8 {} (Nat.le_of_eq hlength.symm)
  refine ⟨n, { pos := 8 }, ?_, by rwa [List.drop_of_length_le (Nat.le_of_eq hlength)] at huint⟩
  have hposition : position ({} : Progress Vec) = (.ok 0, {}) := rfl
  rw [readU64, readUint, checked, bind_ok hposition, if_neg (by omega), bind_ok hshift]
  rfl

/-- A file that is too short or has another checksum is refused before it is read, and its counts
are not; otherwise all go by what is read of the payload. -/
theorem run_cases (maxSize : Vec → Nat) (rep : ClockRep) (now : LoadClocks) (draw : Nat → Nat → Nat) (buf : Bytes)
    (s : Store) :
    (run maxSize rep now draw buf s = ⟨s, .returns false, 0, []⟩ ∧ loadRdb rep now draw buf s = (s, false) ∧
        fileCounts buf = []) ∨
      (run maxSize rep now draw buf s = match readRdb maxSize (payloadOf buf) rep now.rdbWall {} with
        | (.error stop, p) => ⟨s, .ofStop stop, p.steps, p.reserved⟩
        | (.ok entries, p) =>
          ⟨s.loadSnapshot rep now.steady now.wall draw entries, .returns true, p.steps, p.reserved⟩) ∧
      (loadRdb rep now draw buf s = match GoRedis.readRdb rep now.rdbWall (payloadOf buf) with
        | none => (s, false)
        | some (entries, _) => (s.loadSnapshot rep now.steady now.wall draw entries, true)) ∧
      fileCounts buf = payloadCounts (payloadOf buf) := by
  by_cases hlength : buf.length < kMinSize
  · exact .inl ⟨by rw [run, if_pos hlength], by rw [loadRdb, if_pos hlength], by rw [fileCounts, if_pos hlength]⟩
  · obtain ⟨stored, p, hstored, huint⟩ := readU64_checksum hlength
    by_cases hchecksum : stored = (fnv1a64 (payloadOf buf)).toNat
    · refine .inr ⟨?_, ?_, ?_⟩
      · rw [run, if_neg hlength]
        dsimp only
        rw [hstored]
        exact if_neg (not_not.mpr hchecksum)
      · rw [loadRdb, if_neg hlength]
        dsimp only
        rw [huint]
        exact if_neg (not_not.mpr hchecksum)
      · rw [fileCounts, if_neg hlength, huint]
        exact if_neg (not_not.mpr (congrArg some hchecksum))
    · refine .inl ⟨?_, ?_, ?_⟩
      · rw [run, if_neg hlength]
        dsimp only
        rw [hstored]
        exact if_pos hchecksum
      · rw [loadRdb, if_neg hlength]
        dsimp only
        rw [huint]
        exact if_pos hchecksum
      · rw [fileCounts, if_neg hlength, huint]
        exact if_pos fun heq => hchecksum (Option.some.inj heq)

/-- What holds of every call, whatever the file. -/
theorem run_total (maxSize : Vec → Nat) (rep : ClockRep) (now : LoadClocks) (draw : Nat → Nat → Nat) (buf : Bytes)
    (s : Store) :
    let r := run maxSize rep now draw buf s
    r.ending ≠ .readsOutside ∧ r.steps ≤ (payloadOf buf).length + 2 ∧ (r.ending ≠ .returns true → r.store = s) ∧
      (r.ending = .throws ↔ ∃ q ∈ r.reserved, maxSize q.1 < q.2) ∧
      (r.ending ≠ .throws → (r.store, r.ending) =
        ((loadRdb rep now draw buf s).1, .returns (loadRdb rep now draw buf s).2)) ∧
      (r.ending = .returns true → ∀ q ∈ r.reserved, q.2 ≤ (payloadOf buf).length) := by
  intro r
  rcases run_cases maxSize rep now draw buf s with ⟨hrun, hload, -⟩ | ⟨hrun, hload, -⟩
  · rw [show r = _ from hrun, hload]
    exact ⟨nofun, Nat.zero_le _, fun _ => rfl, iff_of_false nofun nofun, fun _ => rfl, nofun⟩
  · have hfollows : Follows (payloadOf buf) maxSize 0 2 (readRdb maxSize (payloadOf buf) rep now.rdbWall)
        (GoRedis.readRdb rep now.rdbWall) := follows_rdb rep now.rdbWall
    have hends := hfollows {} (Nat.zero_le _)
    rw [show r = _ from hrun, hload]
    generalize readRdb maxSize (payloadOf buf) rep now.rdbWall {} = result at hends ⊢
    cases hends with
    | ok hread hpos hmono htaken hreserved =>
      obtain ⟨more, hmore, hfits⟩ := hreserved
      rw [List.nil_append] at hmore
      rw [List.drop_zero] at hread
      dsimp only at htaken ⊢
      rw [hread, hmore]
      refine ⟨nofun, by omega, fun h => absurd rfl h, iff_of_false nofun ?_, fun _ => rfl,
        fun _ q hq => (hfits q hq).2⟩
      rintro ⟨q, hq, hlarge⟩
      exact Nat.not_lt.mpr (hfits q hq).1 hlarge
    | refused hread hsteps hreserved =>
      obtain ⟨more, hmore, hfits⟩ := hreserved
      rw [List.nil_append] at hmore
      rw [List.drop_zero] at hread
      dsimp only at hsteps ⊢
      rw [hread, hmore]
      refine ⟨nofun, by omega, fun _ => rfl, iff_of_false nofun ?_, fun _ => rfl, nofun⟩
      rintro ⟨q, hq, hlarge⟩
      exact Nat.not_lt.mpr (hfits q hq) hlarge
    | thrown hsteps hreserved =>
      obtain ⟨more, hmore, hlarge⟩ := hreserved
      rw [List.nil_append] at hmore
      dsimp only at hsteps ⊢
      rw [hmore]
      exact ⟨nofun, by omega, fun _ => rfl, iff_of_true rfl hlarge, fun h => absurd rfl h, nofun⟩

/-- The reservations of a call are the counts of the file, up to the one that throws. -/
theorem run_reserved (maxSize : Vec → Nat) (rep : ClockRep) (now : LoadClocks) (draw : Nat → Nat → Nat) (buf : Bytes)
    (s : Store) :
    let r := run maxSize rep now draw buf s
    r.reserved <+: fileCounts buf ∧ (r.ending ≠ .throws → r.reserved = fileCounts buf) := by
  intro r
  rcases run_cases maxSize rep now draw buf s with ⟨hrun, -, hcounts⟩ | ⟨hrun, -, hcounts⟩
  · rw [show r = _ from hrun, hcounts]
    exact ⟨List.prefix_rfl, fun _ => rfl⟩
  · have hasks : Asks (payloadOf buf) (readRdb maxSize (payloadOf buf) rep now.rdbWall) payloadCounts :=
      asks_rdb rep now.rdbWall
    obtain ⟨more, hmore, hfront, hall⟩ := hasks {} (Nat.zero_le _)
    rw [show r = _ from hrun, hcounts]
    generalize readRdb maxSize (payloadOf buf) rep now.rdbWall {} = result at hmore hall ⊢
    obtain ⟨result, p⟩ := result
    obtain rfl : p.reserved = more := hmore
    cases result with
    | ok entries => exact ⟨hfront, fun _ => hall nofun⟩
    | error stop =>
      refine ⟨hfront, fun hthrows => hall ?_⟩
      rintro ⟨⟩
      exact hthrows rfl

/-- **`LoadRdb` on any file.** It never reads outside of the payload, its loops begin at most
two iterations more than the payload has bytes, and unless it returns true the store is as it
was. It throws exactly when a count of the file that it comes to is more than its vector can hold;
if it does not throw it is `loadRdb`. That it does not throw and reserves for at most as many
elements as the payload has bytes is so exactly if no count of the file is larger than that or
than its vector can be; and so it is whenever it returns true. -/
theorem loadRdb_total (maxSize : Vec → Nat) (rep : ClockRep) (now : LoadClocks) (draw : Nat → Nat → Nat) (buf : Bytes)
    (s : Store) :
    let r := run maxSize rep now draw buf s
    (r.ending ≠ .readsOutside ∧ r.steps ≤ (payloadOf buf).length + 2 ∧ (r.ending ≠ .returns true → r.store = s) ∧
      (r.ending = .throws ↔ ∃ q ∈ r.reserved, maxSize q.1 < q.2) ∧
      (r.ending ≠ .throws → (r.store, r.ending) =
        ((loadRdb rep now draw buf s).1, .returns (loadRdb rep now draw buf s).2)) ∧
      (r.ending = .returns true → ∀ q ∈ r.reserved, q.2 ≤ (payloadOf buf).length)) ∧
      ((r.ending ≠ .throws ∧ ∀ q ∈ r.reserved, q.2 ≤ (payloadOf buf).length) ↔
        ∀ q ∈ fileCounts buf, q.2 ≤ maxSize q.1 ∧ q.2 ≤ (payloadOf buf).length) := by
  intro r
  have htotal := run_total maxSize rep now draw buf s
  refine ⟨htotal, ?_⟩
  obtain ⟨-, -, -, hthrows, -, -⟩ := htotal
  obtain ⟨hfront, hall⟩ : r.reserved <+: fileCounts buf ∧ (r.ending ≠ .throws → r.reserved = fileCounts buf) :=
    run_reserved maxSize rep now draw buf s
  constructor
  · rintro ⟨hreturns, hsmall⟩ q hq
    rw [← hall hreturns] at hq
    exact ⟨Nat.not_lt.mp fun hlarge => hreturns (hthrows.mpr ⟨q, hq, hlarge⟩), hsmall q hq⟩
  · intro hcounts
    refine ⟨fun hthrown => ?_, fun q hq => (hcounts q (hfront.subset hq)).2⟩
    obtain ⟨q, hq, hlarge⟩ := hthrows.mp hthrown
    exact Nat.not_lt.mpr (hcounts q (hfront.subset hq)).1 hlarge

/-- As many elements as go into 2^63 - 1 bytes: a `SnapshotEntry` has 136 of them, a string 32,
a pair of strings 64. -/
def vectorMaxSize : Vec → Nat
  | .entries => (2 ^ 63 - 1) / 136
  | .listValue => (2 ^ 63 - 1) / 32
  | .hashValue => (2 ^ 63 - 1) / 64

/-- A header that claims these many entries, what follows it, and their checksum. -/
def claimingFile (count : Nat) (rest : Bytes) : Bytes :=
  withChecksum (kMagic ++ le 4 kFormatVersion ++ le 8 count ++ rest)

/-- A header that claims 2^64 - 1 entries makes `LoadRdb` throw. One that claims a list of
2^32 - 1 elements makes it reserve memory for them before it refuses the file. -/
theorem run_throws :
    let r := run vectorMaxSize .int64 ⟨0, 0, 0⟩ (fun _ _ => 0) (claimingFile (2 ^ 64 - 1) []) {}
    let r' := run vectorMaxSize .int64 ⟨0, 0, 0⟩ (fun _ _ => 0)
      (claimingFile 1 (writeString [107] ++ [1, 0] ++ le 4 (2 ^ 32 - 1))) {}
    (r.ending = .throws ∧ r.reserved = [(.entries, 2 ^ 64 - 1)]) ∧
      r'.ending = .returns false ∧ r'.reserved = [(.entries, 1), (.listValue, 2 ^ 32 - 1)] := by
  decide +kernel

end LoadRdb
end GoRedis
