import GoRedis.Lib.Footprint
import GoRedis.Store.Every
import GoRedis.Store.Refinement

/-! What a call does to the keyspace, apart from the clock.

A call touches the keys it names, all of them if it is `Keys` or `FlushAll`. Only a positive
`Expire` of a key that is there writes a deadline. As long as no call does that, nothing in
the store depends on the clock, and a call is a function of the keyspace with the touched
keys as its footprint. -/
namespace GoRedis
open Keyed Footprint

/-- The calls that change what the store holds. -/
def Call.isWrite : Call → Bool
  | .set .. | .del _ | .flushAll | .expire .. | .lPush .. | .rPush .. | .hSet .. | .hDel .. => true
  | .get _ | .exists' _ | .keys | .ttl _ | .lLen _ | .lRange .. | .hGet .. | .hGetAll _ | .hLen _
  | .hExists .. | .hKeys _ | .hVals _ => false

/-- The keys a call reads or writes. -/
def Call.touches : Call → Bytes → Prop
  | .keys, _ | .flushAll, _ => True
  | .del ks, k | .exists' ks, k => k ∈ ks
  | .set key _, k | .get key, k | .expire key _, k | .ttl key, k | .lPush key _, k | .rPush key _, k
  | .lLen key, k | .lRange key _ _, k | .hSet key _, k | .hGet key _, k | .hDel key _, k | .hGetAll key, k
  | .hLen key, k | .hExists key _, k | .hKeys key, k | .hVals key, k => k = key

namespace Keyspace

/-- The call gives a key a deadline. -/
def SetsTtl (ks : Keyspace) : Call → Prop
  | .expire key seconds => 0 < seconds ∧ key ∈ ks
  | _ => False

/-- What a call that sets no deadline makes of a keyspace. -/
def effect (c : Call) (ks : Keyspace) : Keyspace := (ks.actIn { now := 0 } c).1

theorem act_read (env : Env) {c : Call} (h : c.isWrite = false) (ks : Keyspace) : (ks.actIn env c).1 = ks := by
  cases c <;> first | rfl | cases h

theorem effect_of_read {c : Call} (h : c.isWrite = false) (ks : Keyspace) : effect c ks = ks := act_read _ h ks

/-- Only a deadline depends on the clock. -/
theorem act_eq_effect (env : Env) {ks : Keyspace} {c : Call} (h : ¬ks.SetsTtl c) :
    (ks.actIn env c).1 = effect c ks := by
  cases c with
  | expire key seconds =>
    unfold effect
    dsimp only [actIn, act, expireAt]
    cases he : ks.lookup key with
    | none => rfl
    | some e =>
      have hs : seconds ≤ 0 := by
        by_contra hpos
        exact h ⟨by omega, Finmap.mem_of_lookup_eq_some he⟩
      simp only [hs, if_true]
  | _ => rfl

theorem upsert_local {δ : Type} (as : Datum → Option δ) (wrap : δ → Datum) (fresh : δ) (f : δ → δ)
    (reply : δ → δ → Int) (key : Bytes) :
    Local (· = key) fun ks => (upsert as wrap fresh f reply ks key).1 := by
  refine .at (fun ks => ?_) fun ks ks' h => ?_
  · unfold upsert
    split
    · exact .inr (.inr ⟨_, rfl⟩)
    · split
      · exact .inl rfl
      · exact .inr (.inr ⟨_, rfl⟩)
  · unfold upsert
    rw [← h]
    cases he : ks.lookup key with
    | none => simp
    | some e =>
      cases hd : as e.datum with
      | none => simp only [hd, he, h ▸ he]
      | some d => simp only [hd, Finmap.lookup_insert]

theorem hashDel_local (key : Bytes) (fields : List Bytes) :
    Local (· = key) fun ks => (hashDel ks key fields).1 := by
  refine .at (fun ks => ?_) fun ks ks' h => ?_
  · unfold hashDel
    split
    · exact .inl rfl
    · split
      · exact .inl rfl
      · dsimp only
        split
        · exact .inr (.inl rfl)
        · exact .inr (.inr ⟨_, rfl⟩)
  · unfold hashDel
    rw [← h]
    cases he : ks.lookup key with
    | none => simp only [he, h ▸ he]
    | some e =>
      cases hd : e.datum.asHash with
      | none => simp only [hd, he, h ▸ he]
      | some m =>
        simp only [hd]
        split <;> simp

theorem expire_local (env : Env) (key : Bytes) (seconds : Int) :
    Local (· = key) fun ks : Keyspace => (ks.actIn env (.expire key seconds)).1 := by
  refine .at (fun ks => ?_) fun ks ks' h => ?_
  · dsimp only [actIn, act, expireAt]
    split
    · exact .inl rfl
    · split
      · exact .inr (.inl rfl)
      · exact .inr (.inr ⟨_, rfl⟩)
  · dsimp only [actIn, act, expireAt]
    rw [← h]
    cases he : ks.lookup key with
    | none => simp only [he, h ▸ he]
    | some e =>
      dsimp only
      split <;> simp

theorem lookup_eraseAll (keys : List Bytes) (ks : Keyspace) (k : Bytes) :
    (keys.foldl (fun ks key => ks.erase key) ks).lookup k = if k ∈ keys then none else ks.lookup k := by
  induction keys generalizing ks with
  | nil => simp
  | cons key keys ih =>
    rw [List.foldl_cons, ih]
    by_cases hk : k = key
    · subst hk
      simp
    · simp [hk, Finmap.lookup_erase_ne hk]

theorem del_local (env : Env) (keys : List Bytes) :
    Local (· ∈ keys) fun ks : Keyspace => (ks.actIn env (.del keys)).1 := by
  refine ⟨fun ks k hk => ?_, fun ks ks' _ k hk => ?_⟩
  · exact (lookup_eraseAll keys ks k).trans (if_neg hk)
  · exact ((lookup_eraseAll keys ks k).trans (if_pos hk)).trans
      ((lookup_eraseAll keys ks' k).trans (if_pos hk)).symm

/-- **A call is local to the keys it touches.** -/
theorem act_local (env : Env) (c : Call) : Local c.touches fun ks : Keyspace => (ks.actIn env c).1 := by
  cases c with
  | set key value =>
    refine .at (fun ks => .inr (.inr ⟨_, rfl⟩)) fun ks ks' _ => ?_
    exact (Finmap.lookup_insert ks).trans (Finmap.lookup_insert ks').symm
  | del keys => exact del_local env keys
  | flushAll => exact .const ∅
  | expire key seconds => exact expire_local env key seconds
  | lPush key values => exact upsert_local _ _ _ _ _ key
  | rPush key values => exact upsert_local _ _ _ _ _ key
  | hSet key fields => exact upsert_local _ _ _ _ _ key
  | hDel key fields => exact hashDel_local key fields
  | _ => exact .id

theorem effect_local (c : Call) : Local c.touches (effect c) := act_local { now := 0 } c

theorem setsTtl_congr {c : Call} {ks ks' : Keyspace} (h : Agree c.touches ks ks') :
    ks.SetsTtl c ↔ ks'.SetsTtl c := by
  cases c with
  | expire key seconds =>
    have hmem : key ∈ ks ↔ key ∈ ks' := by
      rw [← Finmap.lookup_isSome, ← Finmap.lookup_isSome, h key rfl]
    exact and_congr Iff.rfl hmem
  | _ => exact Iff.rfl

/-! ### Keyspaces without deadlines -/

def Timeless (ks : Keyspace) : Prop := ∀ k e, ks.lookup k = some e → e.deadline = none

theorem Timeless.tick {ks : Keyspace} (h : ks.Timeless) (now : Time) : ks.tick now = ks := by
  apply Finmap.ext_lookup
  intro k
  rw [lookup_tick]
  cases he : ks.lookup k with
  | none => rfl
  | some e => simp [Entry.keep, h k e he]

theorem Timeless.insert {ks : Keyspace} (h : ks.Timeless) {key : Bytes} {e : Entry} (he : e.deadline = none) :
    Timeless (ks.insert key e) := by
  intro k e' hk
  rcases Keyed.lookup_of_insert hk with ⟨-, rfl⟩ | hold
  · exact he
  · exact h k e' hold

theorem Timeless.erase {ks : Keyspace} (h : ks.Timeless) {key : Bytes} : Timeless (ks.erase key) :=
  fun k e' hk => h k e' (Keyed.lookup_of_erase hk)

theorem timeless_empty : Timeless ∅ := fun k e h => by simp at h

theorem Timeless.upsert {ks : Keyspace} (h : ks.Timeless) {δ : Type} (as : Datum → Option δ)
    (wrap : δ → Datum) (fresh : δ) (f : δ → δ) (reply : δ → δ → Int) (key : Bytes) :
    Timeless (upsert as wrap fresh f reply ks key).1 := by
  unfold Keyspace.upsert
  split
  · exact h.insert rfl
  · next e he =>
    split
    · exact h
    · exact h.insert (h key e he)

/-- A call that sets no deadline leaves none. -/
theorem Timeless.effect {ks : Keyspace} (h : ks.Timeless) {c : Call} (hs : ¬ks.SetsTtl c) :
    Timeless (effect c ks) := by
  cases c with
  | set key value => exact h.insert rfl
  | del keys =>
    intro k e hk
    have hlookup := (lookup_eraseAll keys ks k).symm.trans hk
    split at hlookup
    · cases hlookup
    · exact h k e hlookup
  | flushAll => exact timeless_empty
  | expire key seconds =>
    unfold Keyspace.effect
    dsimp only [actIn, act, expireAt]
    split
    · exact h
    · next e he =>
      have hle : seconds ≤ 0 := by
        by_contra hpos
        exact hs ⟨by omega, Finmap.mem_of_lookup_eq_some he⟩
      rw [if_pos hle]
      exact h.erase
  | lPush key values => exact h.upsert _ _ _ _ _ key
  | rPush key values => exact h.upsert _ _ _ _ _ key
  | hSet key fields => exact h.upsert _ _ _ _ _ key
  | hDel key fields =>
    show Timeless (hashDel ks key fields).1
    unfold hashDel
    split
    · exact h
    · next e he =>
      split
      · exact h
      · dsimp only
        split
        · exact h.erase
        · exact h.insert (h key e he)
  | _ => exact h

end Keyspace

namespace Store
open Keyspace

variable {s s' : Store} {key : Bytes} {v : Value}

/-! ### Stores without deadlines -/

/-- Nothing in the store has a deadline. -/
def Timeless (s : Store) : Prop := ∀ key v, s.data.toFinmap.lookup key = some v → v.expiresAt = none

theorem isExpired_of_none (now : Time) (h : v.expiresAt = none) : ¬isExpired now v = true := by
  simp [isExpired, h]

/-- What such a store stands for does not depend on the time. -/
theorem Timeless.live_eq (h : s.Timeless) (now now' : Time) : s.live now = s.live now' := by
  apply Finmap.ext_lookup
  intro k
  cases hv : s.data.toFinmap.lookup k with
  | none => rw [live_absent hv, live_absent hv]
  | some v =>
    rw [live_found hv (isExpired_of_none now (h k v hv)), live_found hv (isExpired_of_none now' (h k v hv))]

theorem Timeless.live (h : s.Timeless) (now : Time) : Keyspace.Timeless (s.live now) := by
  intro k e he
  rw [lookup_live] at he
  obtain ⟨v, hv, hkeep⟩ := Option.bind_eq_some_iff.mp he
  rw [v.keep_entry, if_neg (isExpired_of_none now (h k v hv))] at hkeep
  rw [← Option.some.inj hkeep]
  exact h k v hv

theorem exec_timeless (h : s.Timeless) (env : Env) (c : Call) (hs : ¬(s.live env.now).SetsTtl c) :
    (s.exec env c).1.Timeless := by
  have hevery : s.Every fun v => v.expiresAt = none := h
  have hkept : c.Keeps (fun v => v.expiresAt = none) → (s.exec env c).1.Timeless :=
    hevery.exec (fun _ _ hv => hv) env
  cases c with
  | set key value => exact hkept rfl
  | expire key seconds =>
    refine hevery.expire env.rep env.now key seconds fun v deadline hv hx hpos => ?_
    exact absurd ⟨hpos, Finmap.mem_of_lookup_eq_some (live_found hv hx)⟩ hs
  | lPush key values | rPush key values | hSet key fields => exact hkept ⟨fun _ _ hv => hv, fun _ => rfl⟩
  | hDel key fields => exact hkept fun _ _ hv _ => hv
  | _ => exact hkept trivial

/-- **On a store without a budget and without deadlines** a call that sets none has its
effect on what the store holds, at any time. -/
theorem exec_effect (h : s.Timeless) (hmax : s.maxMemoryBytes = 0) (env : Env) (c : Call) (now : Time)
    (hs : ¬(s.live now).SetsTtl c) :
    (s.exec env c).1.Timeless ∧ (s.exec env c).1.maxMemoryBytes = 0 ∧
      (s.exec env c).1.live now = effect c (s.live now) := by
  have hsim := exec_simulates env s hmax c
  rw [h.live_eq now env.now] at hs ⊢
  have htimeless := exec_timeless h env c hs
  refine ⟨htimeless, hsim.unbounded.trans hmax, ?_⟩
  rw [htimeless.live_eq now env.now, hsim.live, act_eq_effect env hs]
  exact ((h.live env.now).effect hs).tick env.now

end Store
end GoRedis
