import GoRedis.Persistence.RdbRoundTrip

/-! Which files are the ones that `SaveRdb` writes.

`LoadRdb` takes any type byte it does not know for a string, any flag but 0 for a set one, a
count of milliseconds that does not fit in nanoseconds for the one it wraps around to, and does
not look at what follows the last entry. Here an entry is read with these bytes beside it
(`Marks`), so that nothing of the file is lost: a file is written again as it was exactly when
its marks are the ones of the writer and nothing follows the last entry. -/
namespace GoRedis
open Codec

/-! ### What a file says -/

/-- What the reader sees of an entry besides the key and the value: the type byte, the flag,
and the milliseconds if the flag is set. -/
structure Marks where
  tag : UInt8
  flag : UInt8
  millis : Option Int
  deriving DecidableEq

/-- An entry and its marks; its deadline is left to them. -/
abbrev Marked := Marks × SnapshotEntry

def typeOf (tag : UInt8) : ValueType := if tag = 1 then .list else if tag = 2 then .hash else .string

def readMillis (flag : UInt8) : Reader (Option Int) :=
  if flag = 0 then pure none
  else do
    let ms ← sint 8
    pure (some ms)

def readMarked : Reader Marked := do
  let key ← readString
  let tag ← byte
  let flag ← byte
  let millis ← readMillis flag
  let entry ← readValue { key := key, type := typeOf tag }
  pure (⟨tag, flag, millis⟩, entry)

def readMarkedRdb : Reader (List Marked) := do
  let magic ← bytes 4
  if magic ≠ kMagic then failure
  let version ← uint 4
  if version ≠ kFormatVersion then failure
  let count ← uint 8
  times readMarked count

/-- What `LoadRdb` makes of it; nothing if it has expired. -/
def interpret (rep : ClockRep) (wallNow : Time) (m : Marked) : Option SnapshotEntry :=
  let deadline := m.1.millis.map (ofMillis rep)
  if deadline.any (· ≤ wallNow) then none else some { m.2 with expiresAtWall := deadline }

/-! ### `LoadRdb` reads the same -/

theorem readValue_deadline (entry : SnapshotEntry) (deadline : Option Time) :
    readValue { entry with expiresAtWall := deadline } =
      (do let e ← readValue entry; pure { e with expiresAtWall := deadline }) := by
  unfold readValue
  dsimp only
  cases entry.type <;> simp only [bind_assoc, pure_bind]

theorem readEntry_eq (rep : ClockRep) (wallNow : Time) :
    readEntry rep wallNow = (do let m ← readMarked; pure (interpret rep wallNow m)) := by
  have hvalue : ∀ (key : Bytes) (tag flag : UInt8) (millis : Option Int),
      (do
        let entry ← readValue ⟨key, typeOf tag, [], [], [],
          if (millis.map (ofMillis rep)).any (· ≤ wallNow) then none else millis.map (ofMillis rep)⟩
        pure (if (millis.map (ofMillis rep)).any (· ≤ wallNow) then none else some entry)) =
      (do
        let entry ← readValue ⟨key, typeOf tag, [], [], [], none⟩
        pure (interpret rep wallNow (⟨tag, flag, millis⟩, entry))) := by
    intro key tag flag millis
    rw [readValue_deadline ⟨key, typeOf tag, [], [], [], none⟩]
    simp only [bind_assoc, pure_bind, interpret]
    split <;> rfl
  unfold readEntry readMarked readType readTtl readMillis
  simp only [bind_assoc, pure_bind]
  refine bind_congr fun key => bind_congr fun tag => bind_congr fun flag => ?_
  split
  · simp only [pure_bind]
    exact hvalue key tag flag none
  · simp only [bind_assoc, pure_bind]
    exact bind_congr fun ms => hvalue key tag flag (some ms)

theorem readRdb_eq (rep : ClockRep) (wallNow : Time) :
    readRdb rep wallNow = (do let l ← readMarkedRdb; pure (l.filterMap (interpret rep wallNow))) := by
  unfold readRdb readMarkedRdb
  simp only [readEntry_eq, times_map, bind_assoc, pure_bind]
  refine bind_congr fun magic => ?_
  split
  · rfl
  · simp only [bind_assoc]
    refine bind_congr fun version => ?_
    split
    · rfl
    · simp only [bind_assoc, reduceOption_map]

/-! ### Nothing is lost -/

def writeMillis (millis : Option Int) : Bytes := millis.elim [] (sle 8)

def writeMarked (m : Marked) : Bytes :=
  writeString m.2.key ++ ([m.1.tag] ++ (m.1.flag :: writeMillis m.1.millis ++ writeValue m.2))

/-- How the marks of an entry that was read go together. -/
structure Marked.Read (m : Marked) : Prop where
  type : m.2.type = typeOf m.1.tag
  flag : m.1.flag = 0 ↔ m.1.millis = none
  millis : ∀ ms ∈ m.1.millis, -256 ^ 8 ≤ 2 * ms ∧ 2 * ms < 256 ^ 8

theorem takes_string : Takes readString fun s bs => bs = writeString s := by
  refine (takes_uint 4).bind fun n bs hn => (takes_bytes n).imp fun s cs hs => ?_
  rw [hn.1, hs.1, writeString, hs.2]

theorem takes_field : Takes readField fun field bs => bs = writeField field := by
  refine takes_string.bind fun field bs hfield => takes_string.map _ fun value cs hvalue => ?_
  rw [hfield, hvalue]
  rfl

theorem takes_value (entry : SnapshotEntry) :
    Takes (readValue entry) fun e bs => bs = writeValue e ∧ e.key = entry.key ∧ e.type = entry.type := by
  unfold readValue
  split
  · next htype =>
    refine takes_counted takes_string 4 fun l => ⟨?_, rfl, rfl⟩
    rw [writeValue]
    dsimp only
    rw [htype]
  · next htype =>
    refine takes_counted takes_field 4 fun l => ⟨?_, rfl, rfl⟩
    rw [writeValue]
    dsimp only
    rw [htype]
  · next htype =>
    refine takes_string.map _ fun s bs hs => ⟨?_, rfl, rfl⟩
    rw [writeValue]
    dsimp only
    rw [htype, hs]

theorem takes_millis (flag : UInt8) : Takes (readMillis flag) fun millis bs => bs = writeMillis millis ∧
    (flag = 0 ↔ millis = none) ∧ ∀ ms ∈ millis, -256 ^ 8 ≤ 2 * ms ∧ 2 * ms < 256 ^ 8 := by
  unfold readMillis
  split
  · next hflag => exact takes_pure ⟨rfl, by simp [hflag], nofun⟩
  · next hflag =>
    refine (takes_sint (k := 8) (by decide)).map _ fun ms bs hms => ⟨hms.1, by simp [hflag], ?_⟩
    rintro ms' ⟨⟩
    exact hms.2

/-- **An entry is read with its marks as what it was.** -/
theorem takes_marked : Takes readMarked fun m bs => bs = writeMarked m ∧ m.Read := by
  refine takes_string.bind fun key ks hkey => takes_byte.bind fun tag ts htag => takes_byte.bind fun flag fs hflag =>
    (takes_millis flag).bind fun millis ms hmillis => (takes_value _).map _ fun entry vs hvalue => ?_
  obtain ⟨hvs, hkeys, htype⟩ := hvalue
  refine ⟨?_, htype, hmillis.2.1, hmillis.2.2⟩
  rw [hkey, htag, hflag, hmillis.1, hvs, writeMarked, hkeys]
  simp

/-- All but the checksum. -/
def markedPayload (l : List Marked) : Bytes :=
  kMagic ++ (le 4 kFormatVersion ++ (le 8 l.length ++ l.flatMap writeMarked))

theorem takes_markedRdb : Takes readMarkedRdb fun l bs => bs = markedPayload l ∧ ∀ m ∈ l, Marked.Read m := by
  refine (takes_bytes 4).bind fun magic bs hmagic => ?_
  split
  · exact takes_failure _ _
  · next hm =>
    refine (takes_uint 4).bind fun version cs hversion => ?_
    split
    · exact takes_failure _ _
    · next hv =>
      refine (takes_uint 8).bind fun count ds hcount => (takes_times takes_marked count).imp fun l es hl => ⟨?_, hl.2.2⟩
      rw [not_not] at hm hv
      rw [hmagic.1, hm, hversion.1, hv, hcount.1, hl.1, markedPayload, hl.2.1]

/-! ### What is written again -/

/-- The marks that the writer makes. -/
structure Marked.Canonical (rep : ClockRep) (m : Marked) : Prop where
  tag : m.1.tag ≤ 2
  flag : m.1.flag ≤ 1
  millis : ∀ ms ∈ m.1.millis, ofMillis rep ms = ms * 1000000

instance (rep : ClockRep) (m : Marked) : Decidable (m.Canonical rep) :=
  decidable_of_iff (m.1.tag ≤ 2 ∧ m.1.flag ≤ 1 ∧ ∀ ms ∈ m.1.millis, ofMillis rep ms = ms * 1000000)
    ⟨fun h => ⟨h.1, h.2.1, h.2.2⟩, fun h => ⟨h.tag, h.flag, h.millis⟩⟩

/-- The entry with the deadline of its marks. -/
def Marked.entry (rep : ClockRep) (m : Marked) : SnapshotEntry :=
  { m.2 with expiresAtWall := m.1.millis.map (ofMillis rep) }

theorem typeByte_typeOf (tag : UInt8) : typeByte (typeOf tag) = tag ↔ tag ≤ 2 := by
  unfold typeOf
  split
  · next h => subst h; decide
  · split
    · next h => subst h; decide
    · next h1 h2 =>
      show 0 = tag ↔ _
      rw [← UInt8.toNat_inj] at *
      rw [UInt8.le_iff_toNat_le]
      simp at *
      omega

/-- What is cut off is less than a millisecond. -/
theorem toMillis_near (n : Int) : -1000000 < n - 1000000 * toMillis n ∧ n - 1000000 * toMillis n < 1000000 := by
  have hsplit : 1000000 * toMillis n + n.tmod 1000000 = n := Int.mul_tdiv_add_tmod ..
  have hlt := Int.tmod_lt_of_pos n (show (0 : Int) < 1000000 by decide)
  have hgt := Int.lt_tmod_of_pos n (show (0 : Int) < 1000000 by decide)
  omega

/-- Milliseconds come back from nanoseconds, unless these do not fit. -/
theorem sle_toMillis (rep : ClockRep) {ms : Int} (hlow : -256 ^ 8 ≤ 2 * ms) (hhigh : 2 * ms < 256 ^ 8) :
    sle 8 (toMillis (ofMillis rep ms)) = sle 8 ms ↔ ofMillis rep ms = ms * 1000000 := by
  have hback : toMillis (ms * 1000000) = ms := Int.mul_tdiv_cancel ms (by decide)
  constructor
  · intro h
    cases rep with
    | exact => rfl
    | int64 =>
      have hcount : ofMillis .int64 ms = (ms * 1000000).bmod (2 ^ 64) := rfl
      have hge := Int.le_bmod (x := ms * 1000000) (m := 2 ^ 64) (by decide)
      have hlt := Int.bmod_lt (x := ms * 1000000) (m := 2 ^ 64) (by decide)
      obtain ⟨k, hk⟩ : (2 ^ 64 : Int) ∣ ms * 1000000 - (ms * 1000000).bmod (2 ^ 64) := by
        exact Int.dvd_self_sub_bmod
      rw [hcount] at h ⊢
      generalize hc : (ms * 1000000).bmod (2 ^ 64) = c at *
      have hnear := toMillis_near c
      have hrange : -256 ^ 8 ≤ 2 * toMillis c ∧ 2 * toMillis c < 256 ^ 8 := by omega
      have hread := reads_sint (k := 8) hrange.1 hrange.2 []
      rw [h, reads_sint (k := 8) hlow hhigh] at hread
      have hms : ms = toMillis c := (Prod.mk.inj (Option.some.inj hread)).1
      omega
  · intro h
    rw [h, hback]

theorem writeTtl_marks (rep : ClockRep) {m : Marked} (h : m.Read) :
    (writeTtl (m.1.millis.map (ofMillis rep))).length = (m.1.flag :: writeMillis m.1.millis).length ∧
      (writeTtl (m.1.millis.map (ofMillis rep)) = m.1.flag :: writeMillis m.1.millis ↔
        m.1.flag ≤ 1 ∧ ∀ ms ∈ m.1.millis, ofMillis rep ms = ms * 1000000) := by
  have hflag := h.flag
  have hrange := h.millis
  generalize m.1.flag = flag at *
  cases hm : m.1.millis with
  | none =>
    obtain rfl : flag = 0 := hflag.mpr hm
    exact ⟨rfl, iff_of_true rfl ⟨by decide, nofun⟩⟩
  | some ms =>
    have hne : flag ≠ 0 := fun h0 => by simp [hflag.mp h0] at hm
    obtain ⟨hlow, hhigh⟩ := hrange ms hm
    have hone : flag = 1 ↔ flag ≤ 1 := by
      rw [ne_eq, ← UInt8.toNat_inj] at hne
      rw [← UInt8.toNat_inj, UInt8.le_iff_toNat_le]
      simp at *
      omega
    refine ⟨by simp [writeTtl, writeMillis, sle, length_le], ?_⟩
    show 1 :: sle 8 (toMillis (ofMillis rep ms)) = flag :: sle 8 ms ↔ _
    rw [List.cons_eq_cons, sle_toMillis rep hlow hhigh, eq_comm, hone]
    simp

/-- An entry that was read is written as long as it was, and as it was if the marks are the
writer's. -/
theorem writeEntry_marked (rep : ClockRep) {m : Marked} (h : m.Read) :
    (writeEntry (m.entry rep)).length = (writeMarked m).length ∧
      (writeEntry (m.entry rep) = writeMarked m ↔ m.Canonical rep) := by
  obtain ⟨hlength, hiff⟩ := writeTtl_marks rep h
  have hentry : writeEntry (m.entry rep) = writeString m.2.key ++ ([typeByte (typeOf m.1.tag)] ++
      (writeTtl (m.1.millis.map (ofMillis rep)) ++ writeValue m.2)) := by
    rw [← h.type]
    rfl
  rw [hentry, writeMarked]
  constructor
  · simp only [List.length_append, List.length_cons, hlength, List.length_nil]
  · rw [List.append_cancel_left_eq, List.append_eq_append_iff_of_size_eq_left (by rfl), List.append_cancel_right_eq,
      hiff, List.singleton_inj, typeByte_typeOf]
    exact ⟨fun ⟨htag, hflag, hmillis⟩ => ⟨htag, hflag, hmillis⟩, fun hc => ⟨hc.tag, hc.flag, hc.millis⟩⟩

/-! ### Files -/

/-- All but the last eight bytes. -/
def payloadOf (buf : Bytes) : Bytes := buf.take (buf.length - 8)

/-- What an accepted file is: a payload that is read, and its checksum. -/
theorem loadRdb_accepted {rep : ClockRep} {now : LoadClocks} {draw : Nat → Nat → Nat} {buf : Bytes} {s : Store}
    (h : (loadRdb rep now draw buf s).2 = true) :
    buf = withChecksum (payloadOf buf) ∧
      ∃ entries surplus, readRdb rep now.rdbWall (payloadOf buf) = some (entries, surplus) ∧
        (loadRdb rep now draw buf s).1 = s.loadSnapshot rep now.steady now.wall draw entries := by
  revert h
  unfold loadRdb
  split
  · exact nofun
  · next hlength =>
    dsimp only
    split
    · exact nofun
    · next stored rest hstored =>
      split
      · exact nofun
      · next hchecksum =>
        split
        · exact nofun
        · next entries surplus hread =>
          intro _
          refine ⟨?_, entries, surplus, hread, rfl⟩
          obtain ⟨bs, hbytes, rfl, -⟩ := takes_uint 8 _ _ _ hstored
          have hrest : rest = [] := by
            have hsum := congrArg List.length hbytes
            rw [List.length_append, length_le, List.length_drop] at hsum
            rw [kMinSize] at hlength
            exact List.eq_nil_of_length_eq_zero (by omega)
          rw [hrest, List.append_nil, not_not.mp hchecksum] at hbytes
          rw [withChecksum, payloadOf, ← hbytes, List.take_append_drop]

theorem interpret_eq {rep : ClockRep} {wallNow : Time} {m : Marked} (h : (interpret rep wallNow m).isSome) :
    interpret rep wallNow m = some (m.entry rep) := by
  unfold interpret at h ⊢
  dsimp only at h ⊢
  split at h
  · cases h
  · next hlive => rw [if_neg hlive, Marked.entry]

theorem filterMap_interpret {rep : ClockRep} {wallNow : Time} {l : List Marked}
    (h : ∀ m ∈ l, (interpret rep wallNow m).isSome) : l.filterMap (interpret rep wallNow) = l.map (Marked.entry rep) := by
  rw [List.filterMap_congr fun m hm => interpret_eq (h m hm)]
  exact congrFun List.filterMap_eq_map l

/-- The payload written for entries that were read, against the payload they were read from. -/
theorem rdbPayload_marked (rep : ClockRep) {l : List Marked} (h : ∀ m ∈ l, m.Read) (surplus : Bytes) :
    rdbPayload (l.map (Marked.entry rep)) = markedPayload l ++ surplus ↔
      surplus = [] ∧ ∀ m ∈ l, m.Canonical rep := by
  have hflat : l.flatMap (fun m => writeEntry (m.entry rep)) = l.flatMap writeMarked ++ surplus ↔ _ :=
    flatMap_eq_append_iff fun m hm => (writeEntry_marked rep (h m hm)).1
  have hwritten : (∀ m ∈ l, writeEntry (m.entry rep) = writeMarked m) ↔ ∀ m ∈ l, m.Canonical rep :=
    forall₂_congr fun m hm => (writeEntry_marked rep (h m hm)).2
  simp only [rdbPayload, markedPayload, List.length_map, List.flatMap_map, List.append_assoc,
    List.append_cancel_left_eq]
  rw [hflat, hwritten]

/-- **Which files are written again as they were.** Of the file that is accepted nothing is
lost in the marked entries and what follows them. If no entry has expired, then what `SaveRdb`
writes for the entries is the file exactly when the type bytes are 0, 1 or 2, the flags 0 or
1, the milliseconds fit in nanoseconds, and nothing follows the last entry. -/
theorem accepted_canonical_iff {rep : ClockRep} {now : LoadClocks} {draw : Nat → Nat → Nat} {buf : Bytes} {s : Store}
    (h : (loadRdb rep now draw buf s).2 = true) :
    ∃ l surplus, readMarkedRdb (payloadOf buf) = some (l, surplus) ∧ payloadOf buf = markedPayload l ++ surplus ∧
      let entries := l.filterMap (interpret rep now.rdbWall)
      (loadRdb rep now draw buf s).1 = s.loadSnapshot rep now.steady now.wall draw entries ∧
        ((∀ m ∈ l, (interpret rep now.rdbWall m).isSome) →
          (rdbFile entries = buf ↔ surplus = [] ∧ ∀ m ∈ l, m.Canonical rep)) := by
  obtain ⟨hbuf, entries, surplus, hread, hload⟩ := loadRdb_accepted h
  rw [readRdb_eq] at hread
  change (readMarkedRdb (payloadOf buf)).bind (fun p => some (p.1.filterMap (interpret rep now.rdbWall), p.2)) = _ at hread
  obtain ⟨⟨l, rest⟩, hl, heq⟩ := Option.bind_eq_some_iff.mp hread
  cases heq
  obtain ⟨bs, hpayload, rfl, hmarks⟩ := takes_markedRdb _ _ _ hl
  refine ⟨l, rest, hl, hpayload, hload, fun hkept => ?_⟩
  have hfile : rdbFile (l.filterMap (interpret rep now.rdbWall)) = buf ↔
      rdbPayload (l.filterMap (interpret rep now.rdbWall)) = payloadOf buf := by
    constructor
    · intro heq
      rw [hbuf, rdbFile] at heq
      exact (List.append_inj' heq (by rw [length_le, length_le])).1
    · intro heq
      rw [rdbFile, heq, ← hbuf]
  rw [hfile, hpayload, filterMap_interpret hkept]
  exact rdbPayload_marked rep hmarks rest

/-- The file of a list with a deadline, and what is read from it. -/
theorem accepted_canonical_iff_list :
    let entry : SnapshotEntry := { key := [108], type := .list, listValue := [[97], [98]] }
    let file := rdbFile [{ entry with expiresAtWall := some 5000000 }]
    (loadRdb .int64 ⟨0, 0, 0⟩ (fun _ _ => 0) file {}).2 = true ∧
      rdbFile (List.filterMap (interpret .int64 0) [(⟨1, 1, some 5⟩, entry)]) = file := by
  intro entry file
  have haccepted : (loadRdb .int64 ⟨0, 0, 0⟩ (fun _ _ => 0) file {}).2 = true := by decide +kernel
  have hmarked : readMarkedRdb (payloadOf file) = some ([(⟨1, 1, some 5⟩, entry)], []) := by decide +kernel
  obtain ⟨l, surplus, hl, -, -, hiff⟩ := accepted_canonical_iff haccepted
  cases hl.symm.trans hmarked
  exact ⟨haccepted, (hiff (by decide)).mpr ⟨rfl, by decide⟩⟩

/-- A file with one string, with these bytes for its type and its flag, and these behind it. -/
def strangeFile (tag flag : UInt8) (surplus : Bytes) : Bytes :=
  withChecksum (kMagic ++ le 4 kFormatVersion ++ le 8 1 ++ writeString [107] ++ [tag, flag] ++
    (if flag = 0 then [] else sle 8 5) ++ writeString [118] ++ surplus)

/-- The file is accepted with one entry, which has not expired, and what is written for the entry
is another file. -/
def Rewritten (file : Bytes) : Prop :=
  (loadRdb .int64 ⟨0, 0, 0⟩ (fun _ _ => 0) file {}).2 = true ∧
    ∃ entries ∈ (readRdb .int64 0 (payloadOf file)).map Prod.fst, entries.length = 1 ∧ rdbFile entries ≠ file

/-- A type byte of 7, a flag of 2, and a byte behind the entry. -/
theorem accepted_strange :
    Rewritten (strangeFile 7 0 []) ∧ Rewritten (strangeFile 0 2 []) ∧ Rewritten (strangeFile 0 0 [255]) := by
  unfold Rewritten
  decide +kernel

end GoRedis
