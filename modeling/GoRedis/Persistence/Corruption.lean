import GoRedis.Persistence.RdbRoundTrip

/-! Damaged snapshot files.

A file that is cut short can have a checksum that fits, since clients choose the values in
it, so it is refused for another reason: its header still has the number of entries, and
reading them runs out of bytes. A file with one byte changed has another checksum, since a
step of FNV-1a can be undone: `xor` by itself, the multiplication by the inverse of an odd
number. -/
namespace GoRedis
open Codec

/-! ### The checksum -/

def fnvStep (hash : UInt64) (c : UInt8) : UInt64 := (hash ^^^ c.toUInt64) * 1099511628211

/-- The multiplier is odd, so it has an inverse. -/
theorem fnv_mul_injective : Function.Injective fun hash : UInt64 => hash * 1099511628211 := by
  intro a b h
  have hinverse : (1099511628211 : UInt64) * 14886173955864302971 = 1 := by decide
  have hcancel := congrArg (· * (14886173955864302971 : UInt64)) h
  simpa only [UInt64.mul_assoc, hinverse, UInt64.mul_one] using hcancel

theorem fnvStep_hash_injective (c : UInt8) : Function.Injective fun hash => fnvStep hash c := by
  intro a b h
  exact UInt64.xor_left_inj c.toUInt64 |>.mp (fnv_mul_injective h)

theorem fnvStep_byte_injective (hash : UInt64) : Function.Injective (fnvStep hash) := by
  intro a b h
  have hbyte := UInt64.xor_right_inj hash |>.mp (fnv_mul_injective h)
  exact UInt8.toNat_inj.mp (by simpa using congrArg UInt64.toNat hbyte)

/-- One byte changed changes the checksum. -/
theorem fnv1a64_replaced (before after : Bytes) {old new : UInt8} (hne : new ≠ old) :
    fnv1a64 (before ++ new :: after) ≠ fnv1a64 (before ++ old :: after) :=
  foldl_replaced fnvStep_hash_injective fnvStep_byte_injective _ before after hne

theorem checksum_injective {a b : UInt64} (h : le 8 a.toNat = le 8 b.toNat) : a = b := by
  have ha := reads_uint (k := 8) a.toNat_lt []
  rw [h, reads_uint (k := 8) b.toNat_lt] at ha
  exact UInt64.toNat_inj.mp (Prod.mk.inj (Option.some.inj ha)).1.symm

/-! ### Running out of bytes -/

theorem steady_string : Steady readString := (steady_uint 4).bind steady_bytes

theorem steady_ttl (rep : ClockRep) : Steady (readTtl rep) := by
  refine steady_byte.bind fun hasTtl => ?_
  split
  · exact steady_pure none
  · exact (steady_sint 8).bind fun ms => steady_pure _

theorem steady_field : Steady readField := steady_string.bind fun _ => steady_string.bind fun _ => steady_pure _

theorem steady_value (entry : SnapshotEntry) : Steady (readValue entry) := by
  unfold readValue
  split
  · exact (steady_uint 4).bind fun count => (steady_times steady_string count).bind fun _ => steady_pure _
  · exact (steady_uint 4).bind fun count => (steady_times steady_field count).bind fun _ => steady_pure _
  · exact steady_string.bind fun _ => steady_pure _

theorem steady_entry (rep : ClockRep) (wallNow : Time) : Steady (readEntry rep wallNow) :=
  steady_string.bind fun _ => (steady_byte.bind fun _ => steady_pure _).bind fun _ => (steady_ttl rep).bind fun _ =>
    (steady_value _).bind fun _ => steady_pure _

theorem steady_rdb (rep : ClockRep) (wallNow : Time) : Steady (readRdb rep wallNow) := by
  refine (steady_bytes 4).bind fun magic => ?_
  split
  · exact steady_failure _
  · refine (steady_uint 4).bind fun version => ?_
    split
    · exact steady_failure _
    · exact (steady_uint 8).bind fun count =>
        (steady_times (steady_entry rep wallNow) count).bind fun _ => steady_pure _

/-- A payload that is cut short is not read. -/
theorem readRdb_truncated (rep : ClockRep) (wallNow : Time) {entries : List SnapshotEntry}
    (h : ∀ e ∈ entries, e.Sized) (hcount : entries.length < 256 ^ 8) {payload : Bytes}
    (hpayload : payload <+: rdbPayload entries) (hne : payload ≠ rdbPayload entries) :
    readRdb rep wallNow payload = none := by
  have hentries : ∀ e ∈ entries, Reads (readEntry rep wallNow) (writeEntry e) _ := fun e he =>
    reads_entry_of rep wallNow (h e he) (reads_ttl rep fun t _ => reads_sint_bmod 8 (toMillis t))
  exact (steady_rdb rep wallNow).truncated (reads_rdb rep wallNow hentries hcount) hpayload hne

/-! ### The file -/

section
variable (rep : ClockRep) (now : LoadClocks) (draw : Nat → Nat → Nat) (target : Store)

/-- A file whose last eight bytes are not the checksum of the others, or whose payload is not
read, leaves the store alone. -/
theorem loadRdb_refused {payload checksum : Bytes} (hlength : checksum.length = 8)
    (h : checksum ≠ le 8 (fnv1a64 payload).toNat ∨ readRdb rep now.rdbWall payload = none) :
    loadRdb rep now draw (payload ++ checksum) target = (target, false) := by
  unfold loadRdb
  rw [List.length_append, hlength, Nat.add_sub_cancel, List.take_left, List.drop_left]
  split
  · rfl
  · dsimp only
    split
    · rfl
    · next stored rest hstored =>
      obtain ⟨bs, hbytes, rfl, -⟩ := takes_uint 8 _ _ _ hstored
      have hrest : rest = [] := by
        have hsum := congrArg List.length hbytes
        rw [List.length_append, length_le, hlength] at hsum
        exact List.eq_nil_of_length_eq_zero (by omega)
      rw [hrest, List.append_nil] at hbytes
      split
      · rfl
      · next heq =>
        rw [not_not] at heq
        rw [h.resolve_left (not_not.mpr (heq ▸ hbytes))]

variable (steadyNow wallNow : Time) {s : Store}

theorem loadRdb_truncated (h : ∀ e ∈ s.snapshot rep steadyNow wallNow, e.Sized)
    (hcount : (s.snapshot rep steadyNow wallNow).length < 256 ^ 8) {file : Bytes}
    (hfile : file <+: saveRdb rep steadyNow wallNow s) (hne : file ≠ saveRdb rep steadyNow wallNow s) :
    loadRdb rep now draw file target = (target, false) := by
  by_cases hshort : file.length < kMinSize
  · rw [loadRdb, if_pos hshort]
  · rw [kMinSize] at hshort
    have hlength : file.length < (rdbPayload (s.snapshot rep steadyNow wallNow)).length + 8 := by
      have hlt := lt_of_le_of_ne hfile.length_le fun heq => hne (hfile.eq_of_length heq)
      rwa [saveRdb, List.length_append, length_le] at hlt
    -- the last eight bytes are taken for the checksum, so the payload is cut short too
    have hpayload : file.take (file.length - 8) <+: rdbPayload (s.snapshot rep steadyNow wallNow) := by
      refine List.prefix_of_prefix_length_le ((List.take_prefix ..).trans hfile) (List.prefix_append ..) ?_
      rw [List.length_take]
      omega
    have hcut : file.take (file.length - 8) ≠ rdbPayload (s.snapshot rep steadyNow wallNow) := by
      intro heq
      have hsame := congrArg List.length heq
      rw [List.length_take] at hsame
      omega
    rw [← List.take_append_drop (file.length - 8) file]
    exact loadRdb_refused rep now draw target (by rw [List.length_drop]; omega)
      (.inr (readRdb_truncated rep _ h hcount hpayload hcut))

theorem loadRdb_replaced {before after : Bytes} {old new : UInt8} (hne : new ≠ old)
    (hfile : saveRdb rep steadyNow wallNow s = before ++ old :: after) :
    loadRdb rep now draw (before ++ new :: after) target = (target, false) := by
  unfold saveRdb at hfile
  generalize rdbPayload (s.snapshot rep steadyNow wallNow) = payload at hfile
  have hinPayload : ∀ after', payload = before ++ old :: after' → after = after' ++ le 8 (fnv1a64 payload).toNat →
      loadRdb rep now draw (before ++ new :: after) target = (target, false) := by
    intro after' hpayload hafter
    rw [hafter, ← List.cons_append, ← List.append_assoc]
    refine loadRdb_refused rep now draw target (length_le ..) (.inl fun heq => ?_)
    rw [hpayload] at heq
    exact fnv1a64_replaced before after' hne (checksum_injective heq).symm
  have hinChecksum : ∀ before', before = payload ++ before' →
      le 8 (fnv1a64 payload).toNat = before' ++ old :: after →
      loadRdb rep now draw (before ++ new :: after) target = (target, false) := by
    intro before' hbefore hchecksum
    have hlength := congrArg List.length hchecksum
    rw [length_le, List.length_append, List.length_cons] at hlength
    rw [hbefore, List.append_assoc]
    refine loadRdb_refused rep now draw target ?_ (.inl fun heq => ?_)
    · rw [List.length_append, List.length_cons, hlength]
    · rw [hchecksum] at heq
      exact hne (List.cons.inj (List.append_cancel_left heq)).1
  rcases List.append_eq_append_iff.mp hfile with ⟨before', hbefore, hchecksum⟩ | ⟨_ | ⟨c, after'⟩, hpayload, hafter⟩
  · exact hinChecksum before' hbefore hchecksum
  · exact hinChecksum [] (by rw [hpayload, List.append_nil, List.append_nil]) hafter.symm
  · obtain ⟨rfl, hrest⟩ := List.cons.inj hafter
    exact hinPayload after' hpayload hrest

end

/-- **Damage is noticed.** Of what was saved, a file that is cut short anywhere, and one with
any one byte changed, are refused and leave the store that was to be loaded as it is. -/
theorem loadRdb_corrupted (rep : ClockRep) (steadyNow wallNow : Time) {s : Store}
    (h : ∀ e ∈ s.snapshot rep steadyNow wallNow, e.Sized)
    (hcount : (s.snapshot rep steadyNow wallNow).length < 256 ^ 8) (now : LoadClocks) (draw : Nat → Nat → Nat)
    (target : Store) :
    (∀ file, file <+: saveRdb rep steadyNow wallNow s → file ≠ saveRdb rep steadyNow wallNow s →
      loadRdb rep now draw file target = (target, false)) ∧
    ∀ before old new after, saveRdb rep steadyNow wallNow s = before ++ old :: after → new ≠ old →
      loadRdb rep now draw (before ++ new :: after) target = (target, false) :=
  ⟨fun _ => loadRdb_truncated rep now draw target steadyNow wallNow h hcount,
    fun _ _ _ _ hfile hne => loadRdb_replaced rep now draw target steadyNow wallNow hne hfile⟩

/-- A string with a deadline: its file without the last byte, and with its first one changed. -/
theorem loadRdb_corrupted_string :
    let s := [Call.set [107] [118], .expire [107] 10].foldl (fun s c => (s.exec { now := 7 } c).1) ({} : Store)
    let file := saveRdb .exact 9 500 s
    ((∀ e ∈ s.snapshot .exact 9 500, e.Sized) ∧ (s.snapshot .exact 9 500).length < 256 ^ 8) ∧
      loadRdb .exact ⟨500, 3, 500⟩ (fun _ _ => 0) file.dropLast {} = ({}, false) ∧
      loadRdb .exact ⟨500, 3, 500⟩ (fun _ _ => 0) (70 :: file.tail) {} = ({}, false) := by
  intro s file
  have hfits : ∀ e ∈ s.snapshot .exact 9 500, e.Fits := by decide +kernel
  have hsized : ∀ e ∈ s.snapshot .exact 9 500, e.Sized := fun e he => (hfits e he).sized
  have hcount : (s.snapshot .exact 9 500).length < 256 ^ 8 := by decide +kernel
  have hfile : file = [] ++ 71 :: file.tail := by decide +kernel
  have hcorrupted := loadRdb_corrupted .exact 9 500 hsized hcount ⟨500, 3, 500⟩ (fun _ _ => 0) {}
  exact ⟨⟨hsized, hcount⟩, hcorrupted.1 _ (List.dropLast_prefix _) (by decide +kernel),
    hcorrupted.2 [] 71 70 _ hfile (by decide)⟩

end GoRedis
