import GoRedis.Store.Outcome

/-! Calls, key by key.

What a call makes of a key depends on what that key holds only. A push and the calls on
hashes succeed if the key holds nothing or what they are for. -/
namespace GoRedis
open Keyed

def Datum.type : Datum → ValueType
  | .str _ => .string
  | .list _ => .list
  | .hash _ => .hash

theorem Value.type_datum (v : Value) : v.entry.datum.type = v.type := by
  unfold Value.entry Value.datum
  cases v.type <;> rfl

/-- The key and the type a call insists on, if it writes to a value in place. -/
def Call.kind : Call → Option (Bytes × ValueType)
  | .lPush key _ | .rPush key _ => some (key, .list)
  | .hSet key _ | .hDel key _ => some (key, .hash)
  | .set .. | .del _ | .flushAll | .expire .. | .get _ | .exists' _ | .keys | .ttl _ | .lLen _ | .lRange .. | .hGet ..
  | .hGetAll _ | .hLen _ | .hExists .. | .hKeys _ | .hVals _ => none

namespace Keyspace

/-- What a call that writes to a value in place leaves at its key. -/
def upserted {δ : Type} (as : Datum → Option δ) (wrap : δ → Datum) (fresh : δ) (f : δ → δ) :
    Option Entry → Option Entry
  | none => some ⟨wrap (f fresh), none⟩
  | some e => some { e with datum := (as e.datum).elim e.datum fun d => wrap (f d) }

/-- The same for fields that are deleted. -/
def withoutFields (fields : List Bytes) : Option Entry → Option Entry
  | none => none
  | some e =>
    match e.datum.asHash with
    | none => some e
    | some m => if (eraseFields m fields).keys = ∅ then none else some { e with datum := .hash (eraseFields m fields) }

/-- What a call leaves at the key it is about. -/
def atKey (env : Env) : Call → Option Entry → Option Entry
  | .set _ value, _ => some ⟨.str value, none⟩
  | .del _, _ | .flushAll, _ => none
  | .expire _ seconds, held =>
    if seconds ≤ 0 then none
    else held.map fun e =>
      { e with deadline := some (env.rep.count (env.now + env.rep.count (seconds * 1000000000))) }
  | .lPush _ values, held => upserted Datum.asList .list [] (values.reverse ++ ·) held
  | .rPush _ values, held => upserted Datum.asList .list [] (· ++ values) held
  | .hSet _ fields, held => upserted Datum.asHash .hash ∅ (setFields · fields) held
  | .hDel _ fields, held => withoutFields fields held
  | .get _, held | .exists' _, held | .keys, held | .ttl _, held | .lLen _, held | .lRange .., held | .hGet .., held
  | .hGetAll _, held | .hLen _, held | .hExists .., held | .hKeys _, held | .hVals _, held => held

theorem lookup_upsert {δ : Type} (as : Datum → Option δ) (wrap : δ → Datum) (fresh : δ) (f : δ → δ)
    (reply : δ → δ → Int) (ks : Keyspace) (key : Bytes) :
    (upsert as wrap fresh f reply ks key).1.lookup key = upserted as wrap fresh f (ks.lookup key) := by
  unfold upsert
  cases he : ks.lookup key with
  | none => exact Finmap.lookup_insert ..
  | some e =>
    dsimp only [upserted]
    cases hd : as e.datum with
    | none => exact he
    | some d => exact Finmap.lookup_insert ..

theorem lookup_hashDel (ks : Keyspace) (key : Bytes) (fields : List Bytes) :
    (hashDel ks key fields).1.lookup key = withoutFields fields (ks.lookup key) := by
  unfold hashDel
  cases he : ks.lookup key with
  | none => exact he
  | some e =>
    dsimp only [withoutFields]
    cases hm : e.datum.asHash with
    | none => exact he
    | some m =>
      dsimp only
      split
      · exact Finmap.lookup_erase ..
      · exact Finmap.lookup_insert ..

theorem lookup_expire (env : Env) (ks : Keyspace) (key : Bytes) (seconds : Int) :
    (ks.actIn env (.expire key seconds)).1.lookup key = atKey env (.expire key seconds) (ks.lookup key) := by
  dsimp only [actIn, expireAt, atKey]
  cases he : ks.lookup key with
  | none => simp [he]
  | some e =>
    dsimp only
    split
    · exact Finmap.lookup_erase ..
    · exact Finmap.lookup_insert ..

/-- **A call, key by key.** -/
theorem lookup_act (env : Env) (ks : Keyspace) {c : Call} (hc : c.isWrite = true) {k : Bytes} (hk : c.touches k) :
    (ks.actIn env c).1.lookup k = atKey env c (ks.lookup k) := by
  cases c with
  | set key value =>
    obtain rfl : k = key := hk
    exact Finmap.lookup_insert ..
  | del keys => exact (lookup_eraseAll keys ks k).trans (if_pos hk)
  | flushAll => exact Finmap.lookup_empty k
  | expire key seconds =>
    obtain rfl : k = key := hk
    exact lookup_expire ..
  | lPush key values =>
    obtain rfl : k = key := hk
    exact lookup_upsert ..
  | rPush key values =>
    obtain rfl : k = key := hk
    exact lookup_upsert ..
  | hSet key fields =>
    obtain rfl : k = key := hk
    exact lookup_upsert ..
  | hDel key fields =>
    obtain rfl : k = key := hk
    exact lookup_hashDel ..
  | _ => cases hc

/-! ### Success -/

/-- Every key the call insists on a type of holds nothing or that type. -/
def Accepts (c : Call) (ks : Keyspace) : Prop :=
  ∀ k type, c.kind = some (k, type) → ∀ e, ks.lookup k = some e → e.datum.type = type

theorem accepts_free {c : Call} (hc : c.kind = none) {ks : Keyspace} : Accepts c ks := by
  intro k type hk
  rw [hc] at hk
  cases hk

theorem accepts_iff {c : Call} {key : Bytes} {type : ValueType} (hc : c.kind = some (key, type)) {ks : Keyspace} :
    Accepts c ks ↔ ∀ e, ks.lookup key = some e → e.datum.type = type := by
  constructor
  · exact fun h => h key type hc
  · intro h k type' hk
    rw [hc, Option.some.injEq, Prod.mk.injEq] at hk
    obtain ⟨rfl, rfl⟩ := hk
    exact h

theorem upsert_ok {δ : Type} {as : Datum → Option δ} {type : ValueType}
    (has : ∀ d : Datum, (as d).isSome ↔ d.type = type) (wrap : δ → Datum) (fresh : δ) (f : δ → δ)
    (reply : δ → δ → Int) (ks : Keyspace) (key : Bytes) :
    (upsert as wrap fresh f reply ks key).2.ok = true ↔ ∀ e, ks.lookup key = some e → e.datum.type = type := by
  unfold upsert
  cases he : ks.lookup key with
  | none => simp [Result.ok, Result.just]
  | some e =>
    have hd := has e.datum
    cases hd' : as e.datum with
    | none => simpa [hd', Result.ok, Result.wrongType] using hd
    | some d => simpa [hd', Result.ok, Result.just] using hd

theorem isSome_asList (d : Datum) : d.asList.isSome ↔ d.type = .list := by
  cases d <;> simp [Datum.asList, Datum.type]

theorem isSome_asHash (d : Datum) : d.asHash.isSome ↔ d.type = .hash := by
  cases d <;> simp [Datum.asHash, Datum.type]

theorem hashDel_ok (ks : Keyspace) (key : Bytes) (fields : List Bytes) :
    (hashDel ks key fields).2.ok = true ↔ ∀ e, ks.lookup key = some e → e.datum.type = .hash := by
  unfold hashDel
  cases he : ks.lookup key with
  | none => simp [Result.ok, Result.just]
  | some e =>
    have hd := isSome_asHash e.datum
    cases hd' : e.datum.asHash with
    | none => simpa [hd', Result.ok, Result.wrongType] using hd
    | some m => simpa [hd', Result.ok, Result.just] using hd

theorem upsert_failed {δ : Type} {as : Datum → Option δ} {wrap : δ → Datum} {fresh : δ} {f : δ → δ}
    {reply : δ → δ → Int} {ks : Keyspace} {key : Bytes}
    (h : ¬(upsert as wrap fresh f reply ks key).2.ok = true) : (upsert as wrap fresh f reply ks key).1 = ks := by
  unfold upsert at h ⊢
  split
  · next he => simp [he, Result.ok, Result.just] at h
  · next e he =>
    split
    · rfl
    · next d hd => simp [he, hd, Result.ok, Result.just] at h

theorem hashDel_failed {ks : Keyspace} {key : Bytes} {fields : List Bytes}
    (h : ¬(hashDel ks key fields).2.ok = true) : (hashDel ks key fields).1 = ks := by
  unfold hashDel at h ⊢
  split
  · rfl
  · next e he =>
    split
    · rfl
    · next m hm => simp [he, hm, Result.ok, Result.just] at h

/-- A call that meets another type leaves the keyspace. -/
theorem act_failed (env : Env) {ks : Keyspace} {c : Call} (h : ¬Accepts c ks) : (ks.actIn env c).1 = ks := by
  cases c with
  | lPush key values =>
    exact upsert_failed fun hok => h ((accepts_iff rfl).mpr ((upsert_ok isSome_asList ..).mp hok))
  | rPush key values =>
    exact upsert_failed fun hok => h ((accepts_iff rfl).mpr ((upsert_ok isSome_asList ..).mp hok))
  | hSet key fields =>
    exact upsert_failed fun hok => h ((accepts_iff rfl).mpr ((upsert_ok isSome_asHash ..).mp hok))
  | hDel key fields => exact hashDel_failed fun hok => h ((accepts_iff rfl).mpr ((hashDel_ok ..).mp hok))
  | _ => exact absurd (accepts_free rfl) h

end Keyspace

/-- **When a write succeeds.** -/
theorem Store.exec_ok_iff (env : Env) (s : Store) (hmax : s.maxMemoryBytes = 0) {c : Call} (hc : c.isWrite = true) :
    c.ok (s.exec env c).2 = true ↔ Keyspace.Accepts c (s.live env.now) := by
  have hreply := (s.exec_simulates env hmax c).reply
  have hresult : ∀ {a b : Result Int}, a = b → (a.ok = true ↔ b.ok = true) := fun h => by rw [h]
  cases c with
  | lPush key values =>
    exact (hresult hreply).trans ((Keyspace.upsert_ok Keyspace.isSome_asList ..).trans (Keyspace.accepts_iff rfl).symm)
  | rPush key values =>
    exact (hresult hreply).trans ((Keyspace.upsert_ok Keyspace.isSome_asList ..).trans (Keyspace.accepts_iff rfl).symm)
  | hSet key fields =>
    exact (hresult hreply).trans ((Keyspace.upsert_ok Keyspace.isSome_asHash ..).trans (Keyspace.accepts_iff rfl).symm)
  | hDel key fields =>
    exact (hresult hreply).trans ((Keyspace.hashDel_ok ..).trans (Keyspace.accepts_iff rfl).symm)
  | set key value => exact iff_of_true rfl (Keyspace.accepts_free rfl)
  | del keys => exact iff_of_true rfl (Keyspace.accepts_free rfl)
  | flushAll => exact iff_of_true rfl (Keyspace.accepts_free rfl)
  | expire key seconds => exact iff_of_true rfl (Keyspace.accepts_free rfl)
  | _ => cases hc

end GoRedis
