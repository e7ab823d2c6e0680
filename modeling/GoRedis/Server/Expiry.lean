import GoRedis.Server.Frame
import GoRedis.Store.Pointwise

/-! Replaying a log of commands between which keys expired.

Expiry is not logged. A key that had expired when a later command used it is still there
when the log is replayed at once, so that command can meet a value of another type. Eviction
is not logged either, with the same effect; but without a memory budget, expiry is the only way
in which a command that succeeded can fail when it is replayed. A `History` notes of every key
the type it held when it last expired, until a command puts the key, in the log too, into a
known state. -/
namespace GoRedis
open Interleaving Dispatcher Keyspace Keyed

/-! ### Histories -/

/-- The keys of which a call makes the same thing whatever they held. -/
def Call.resets : Call → Bytes → Bool
  | .set key _, k => k = key
  | .del ks, k => ks.contains k
  | .flushAll, _ => true
  | .expire key seconds, k => k = key ∧ seconds ≤ 0
  | .lPush .., _ | .rPush .., _ | .hSet .., _ | .hDel .., _ | .get _, _ | .exists' _, _ | .keys, _ | .ttl _, _
  | .lLen _, _ | .lRange .., _ | .hGet .., _ | .hGetAll _, _ | .hLen _, _ | .hExists .., _ | .hKeys _, _
  | .hVals _, _ => false

/-- The keyspace after the last call, and of every key that expired and has not been reset
since, the type it held. -/
structure History where
  contents : Keyspace := ∅
  former : Bytes → Option ValueType := fun _ => none

namespace History

/-- Keys expire. -/
def tick (now : Time) (h : History) : History where
  contents := h.contents.tick now
  former k :=
    match h.contents.lookup k with
    | none => h.former k
    | some e => if (e.keep now).isNone then some e.datum.type else h.former k

/-- A call at a clock reading. -/
def call (env : Env) (c : Call) (h : History) : History where
  contents := ((h.tick env.now).contents.actIn env c).1
  former k := if c.resets k then none else (h.tick env.now).former k

/-- The server with a history of its store. -/
def exec (envs : Nat → Env) (x : World × History) (op : Op) : (World × History) × op.Ans :=
  (((x.1.exec envs op).1,
    match op with
    | .call c => x.2.call (envs x.1.ticks) c
    | .append _ => x.2),
   (x.1.exec envs op).2)

/-- A call that succeeds does not insist on a type that is not the one its key held when it
expired. -/
def Unmixed (envs : Nat → Env) (x : World × History) : Op → Prop
  | .call c => c.ok (x.1.exec envs (.call c)).2 = true → ∀ p ∈ c.kind,
      (x.2.tick (envs x.1.ticks).now).former p.1 = none ∨ (x.2.tick (envs x.1.ticks).now).former p.1 = some p.2
  | .append _ => True

instance (envs : Nat → Env) (x : World × History) : (op : Op) → Decidable (Unmixed envs x op)
  | .call c => inferInstanceAs (Decidable (c.ok (x.1.exec envs (.call c)).2 = true → ∀ p ∈ c.kind, _ ∨ _))
  | .append _ => .isTrue trivial

/-- This holds of every call of a sequential run. -/
def UnmixedAll (envs : Nat → Env) : List (List Bytes) → World × History → Prop
  | [], _ => True
  | args :: commands, x =>
    (dispatch true args).Along (exec envs) (Unmixed envs) x ∧
      UnmixedAll envs commands ((dispatch true args).run (exec envs) x).1

instance decidableUnmixedAll (envs : Nat → Env) :
    (commands : List (List Bytes)) → (x : World × History) → Decidable (UnmixedAll envs commands x)
  | [], _ => .isTrue trivial
  | args :: commands, x =>
    have := decidableUnmixedAll envs commands ((dispatch true args).run (exec envs) x).1
    inferInstanceAs (Decidable ((dispatch true args).Along (exec envs) (Unmixed envs) x ∧ _))

end History

/-- The replies to commands dispatched one after another. -/
def replies (aof : Bool) (envs : Nat → Env) : List (List Bytes) → World → List (Option RespValue)
  | [], _ => []
  | args :: commands, w =>
    ((dispatch aof args).run (World.exec envs) w).2 ::
      replies aof envs commands ((dispatch aof args).run (World.exec envs) w).1

/-! ### One key -/

/-- The second datum can stand for the first when a log is replayed: it has the same type, and
as a hash it has all the fields. -/
def Datum.Within : Datum → Datum → Prop
  | .str _, .str _ | .list _, .list _ => True
  | .hash m', .hash m => m'.keys ⊆ m.keys
  | _, _ => False

theorem Datum.Within.type_eq {d' d : Datum} (h : d'.Within d) : d'.type = d.type := by
  cases d' <;> cases d <;> first | rfl | exact h.elim

/-- What a key holds when the log is replayed, against what it held then. -/
def Covers (former : Option ValueType) (held replayed : Option Entry) : Prop :=
  match former with
  | none => ∀ e', replayed = some e' → ∃ e, held = some e ∧ e'.datum.Within e.datum
  | some type => (∀ e, held = some e → e.datum.type = type) ∧ ∀ e', replayed = some e' → e'.datum.type = type

namespace Covers
variable {former : Option ValueType} {held replayed : Option Entry}

/-- In the replay the key expires. -/
theorem tick_replayed (h : Covers former held replayed) (now : Time) :
    Covers former held (replayed.bind (Entry.keep now)) := by
  have hkept : ∀ e', replayed.bind (Entry.keep now) = some e' → replayed = some e' := by
    intro e' he'
    obtain ⟨e, he, hkeep⟩ := Option.bind_eq_some_iff.mp he'
    unfold Entry.keep at hkeep
    split at hkeep
    · cases hkeep
    · rwa [← Option.some.inj hkeep]
  cases former with
  | none => exact fun e' he' => h e' (hkept e' he')
  | some type => exact ⟨h.1, fun e' he' => h.2 e' (hkept e' he')⟩

theorem type_eq (h : Covers former held replayed) {e e' : Entry} (he : held = some e) (he' : replayed = some e') :
    e'.datum.type = e.datum.type := by
  cases former with
  | none =>
    obtain ⟨e₁, he₁, hwithin⟩ := h e' he'
    rw [he] at he₁
    cases he₁
    exact hwithin.type_eq
  | some type => exact (h.2 e' he').trans (h.1 e he).symm

/-- A call that succeeded, on a key that did not expire holding another type, succeeds. -/
theorem accepts (h : Covers former held replayed) {type : ValueType} (hok : ∀ e, held = some e → e.datum.type = type)
    (hf : former = none ∨ former = some type) : ∀ e', replayed = some e' → e'.datum.type = type := by
  intro e' he'
  rcases hf with rfl | rfl
  · obtain ⟨e, he, hwithin⟩ := h e' he'
    rw [hwithin.type_eq, hok e he]
  · exact h.2 e' he'

/-- Deadlines do not matter. -/
theorem deadline (h : Covers former held replayed) (f g : Entry → Option Time) :
    Covers former (held.map fun e => { e with deadline := f e })
      (replayed.map fun e => { e with deadline := g e }) := by
  have hdatum : ∀ {o : Option Entry} {f : Entry → Option Time} {e : Entry},
      (o.map fun e => { e with deadline := f e }) = some e → ∃ e₁, o = some e₁ ∧ e₁.datum = e.datum := by
    intro o f e he
    obtain ⟨e₁, he₁, rfl⟩ := Option.map_eq_some_iff.mp he
    exact ⟨e₁, he₁, rfl⟩
  cases former with
  | none =>
    intro e' he'
    obtain ⟨e₁', he₁', hd'⟩ := hdatum he'
    obtain ⟨e, rfl, hwithin⟩ := h e₁' he₁'
    exact ⟨_, rfl, hd' ▸ hwithin⟩
  | some type =>
    refine ⟨fun e he => ?_, fun e' he' => ?_⟩
    · obtain ⟨e₁, he₁, hd⟩ := hdatum he
      rw [← hd, h.1 e₁ he₁]
    · obtain ⟨e₁', he₁', hd'⟩ := hdatum he'
      rw [← hd', h.2 e₁' he₁']

/-! Calls that write to a value in place -/

theorem list (h : Covers former held replayed) (hok : ∀ e, held = some e → e.datum.type = .list)
    (hf : former = none ∨ former = some .list) (f : List Bytes → List Bytes) :
    Covers former (upserted Datum.asList .list [] f held) (upserted Datum.asList .list [] f replayed) := by
  have hlist : ∀ {o : Option Entry}, (∀ e, o = some e → e.datum.type = .list) →
      ∃ xs deadline, upserted Datum.asList .list [] f o = some ⟨.list xs, deadline⟩ := by
    intro o ho
    rcases o with _ | ⟨_ | xs | m, deadline⟩
    · exact ⟨_, _, rfl⟩
    · cases ho _ rfl
    · exact ⟨_, _, rfl⟩
    · cases ho _ rfl
  obtain ⟨xs, deadline, hheld⟩ := hlist hok
  obtain ⟨xs', deadline', hreplayed⟩ := hlist (h.accepts hok hf)
  rw [hheld, hreplayed]
  rcases hf with rfl | rfl
  · rintro e' ⟨⟩
    exact ⟨_, rfl, trivial⟩
  · exact ⟨fun e he => by cases he; rfl, fun e' he' => by cases he'; rfl⟩

/-- The fields of a hash that may not be there. -/
def fieldsOf (o : Option Entry) : Finmap fun _ : Bytes => Bytes := (o.bind fun e => e.datum.asHash).getD ∅

theorem fieldsOf_subset (h : Covers none held replayed) : (fieldsOf replayed).keys ⊆ (fieldsOf held).keys := by
  cases replayed with
  | none => exact fun f hf => absurd hf (by simp [fieldsOf])
  | some e' =>
    obtain ⟨e, rfl, hwithin⟩ := h e' rfl
    rcases e' with ⟨_ | _ | m', deadline'⟩
    · exact fun f hf => absurd hf (by simp [fieldsOf, Datum.asHash])
    · exact fun f hf => absurd hf (by simp [fieldsOf, Datum.asHash])
    · rcases e with ⟨_ | _ | m, deadline⟩
      · exact hwithin.elim
      · exact hwithin.elim
      · exact hwithin

theorem upserted_hash (f : (Finmap fun _ : Bytes => Bytes) → Finmap fun _ : Bytes => Bytes) {o : Option Entry}
    (ho : ∀ e, o = some e → e.datum.type = .hash) :
    ∃ deadline, upserted Datum.asHash .hash ∅ f o = some ⟨.hash (f (fieldsOf o)), deadline⟩ := by
  rcases o with _ | ⟨_ | xs | m, deadline⟩
  · exact ⟨_, rfl⟩
  · cases ho _ rfl
  · cases ho _ rfl
  · exact ⟨_, rfl⟩

theorem mem_setFields (m : Finmap fun _ : Bytes => Bytes) (fields : List (Bytes × Bytes)) (f : Bytes) :
    f ∈ (Keyspace.setFields m fields).keys ↔ f ∈ m.keys ∨ f ∈ fields.map Prod.fst := by
  induction fields generalizing m with
  | nil => simp [Keyspace.setFields]
  | cons field fields ih =>
    have hstep : Keyspace.setFields m (field :: fields) = Keyspace.setFields (m.insert field.1 field.2) fields := rfl
    rw [hstep, ih, Finmap.mem_keys, Finmap.mem_insert, Finmap.mem_keys, List.map_cons, List.mem_cons]
    tauto

theorem mem_eraseFields (m : Finmap fun _ : Bytes => Bytes) (fields : List Bytes) (f : Bytes) :
    f ∈ (eraseFields m fields).keys ↔ f ∈ m.keys ∧ f ∉ fields := by
  induction fields generalizing m with
  | nil => simp [eraseFields]
  | cons field fields ih =>
    have hstep : eraseFields m (field :: fields) = eraseFields (m.erase field) fields := rfl
    rw [hstep, ih, Finmap.mem_keys, Finmap.mem_erase, Finmap.mem_keys, List.mem_cons]
    tauto

theorem hash (h : Covers former held replayed) (hok : ∀ e, held = some e → e.datum.type = .hash)
    (hf : former = none ∨ former = some .hash) (fields : List (Bytes × Bytes)) :
    Covers former (upserted Datum.asHash .hash ∅ (Keyspace.setFields · fields) held)
      (upserted Datum.asHash .hash ∅ (Keyspace.setFields · fields) replayed) := by
  obtain ⟨deadline, hheld⟩ := upserted_hash (Keyspace.setFields · fields) hok
  obtain ⟨deadline', hreplayed⟩ := upserted_hash (Keyspace.setFields · fields) (h.accepts hok hf)
  rw [hheld, hreplayed]
  rcases hf with rfl | rfl
  · rintro e' ⟨⟩
    refine ⟨_, rfl, fun f hf => ?_⟩
    rw [mem_setFields] at hf ⊢
    exact hf.imp_left (h.fieldsOf_subset ·)
  · exact ⟨fun e he => by cases he; rfl, fun e' he' => by cases he'; rfl⟩

theorem withoutFields_hash (fields : List Bytes) {o : Option Entry} (ho : ∀ e, o = some e → e.datum.type = .hash) :
    (withoutFields fields o = none ∧ (eraseFields (fieldsOf o) fields).keys = ∅) ∨
      ∃ deadline, withoutFields fields o = some ⟨.hash (eraseFields (fieldsOf o) fields), deadline⟩ ∧
        (eraseFields (fieldsOf o) fields).keys ≠ ∅ := by
  rcases o with _ | ⟨_ | xs | m, deadline⟩
  · refine .inl ⟨rfl, Finset.eq_empty_of_forall_notMem fun f hf => ?_⟩
    exact absurd ((mem_eraseFields ..).mp hf).1 (by simp [fieldsOf])
  · cases ho _ rfl
  · cases ho _ rfl
  · unfold withoutFields
    dsimp only [Datum.asHash]
    split
    · next hempty => exact .inl ⟨rfl, hempty⟩
    · next hempty => exact .inr ⟨deadline, rfl, hempty⟩

theorem hDel (h : Covers former held replayed) (hok : ∀ e, held = some e → e.datum.type = .hash)
    (hf : former = none ∨ former = some .hash) (fields : List Bytes) :
    Covers former (withoutFields fields held) (withoutFields fields replayed) := by
  have hheld := withoutFields_hash fields hok
  have hreplayed := withoutFields_hash fields (h.accepts hok hf)
  rcases hf with rfl | rfl
  · intro e' he'
    have hsub : (eraseFields (fieldsOf replayed) fields).keys ⊆ (eraseFields (fieldsOf held) fields).keys := by
      intro f hf
      rw [mem_eraseFields] at hf ⊢
      exact ⟨h.fieldsOf_subset hf.1, hf.2⟩
    rcases hreplayed with ⟨hnone, -⟩ | ⟨deadline', hsome, hne⟩
    · rw [hnone] at he'
      cases he'
    · rw [hsome] at he'
      cases he'
      -- a field is left in the replay, so one was left then
      rcases hheld with ⟨-, hempty⟩ | ⟨deadline, hsome, -⟩
      · exact absurd (Finset.subset_empty.mp (hempty ▸ hsub)) hne
      · exact ⟨_, hsome, hsub⟩
  · have htype : ∀ {o : Option Entry}, (∀ e, o = some e → e.datum.type = .hash) →
        ∀ e, withoutFields fields o = some e → e.datum.type = .hash := by
      intro o ho e he
      rcases withoutFields_hash fields ho with ⟨hnone, -⟩ | ⟨deadline, hsome, -⟩
      · rw [hnone] at he
        cases he
      · rw [hsome] at he
        cases he
        rfl
    exact ⟨htype h.1, htype h.2⟩

/-- **One key.** A call that succeeded, made again when the log is replayed. -/
theorem atKey (h : Covers former held replayed) {c : Call} (hc : c.isWrite = true) {k : Bytes} (hk : c.touches k)
    (hok : ∀ type, c.kind = some (k, type) → ∀ e, held = some e → e.datum.type = type)
    (hf : ∀ type, c.kind = some (k, type) → former = none ∨ former = some type) (env env' : Env) :
    Covers (if c.resets k then none else former) (Keyspace.atKey env c held) (Keyspace.atKey env' c replayed) := by
  cases c with
  | set key value =>
    have hreset : (Call.set key value).resets k = true := decide_eq_true (show k = key from hk)
    rw [if_pos hreset]
    rintro e' ⟨⟩
    exact ⟨_, rfl, trivial⟩
  | del keys =>
    have hreset : (Call.del keys).resets k = true := List.contains_iff_mem.mpr hk
    rw [if_pos hreset]
    rintro e' ⟨⟩
  | flushAll => rintro e' ⟨⟩
  | expire key seconds =>
    obtain rfl : k = key := hk
    dsimp only [Keyspace.atKey]
    by_cases hs : seconds ≤ 0
    · rw [if_pos hs, if_pos hs, if_pos (by simp [Call.resets, hs])]
      rintro e' ⟨⟩
    · rw [if_neg hs, if_neg hs, if_neg (by simp [Call.resets, hs])]
      exact h.deadline _ _
  | lPush key values =>
    obtain rfl : k = key := hk
    exact h.list (hok _ rfl) (hf _ rfl) (values.reverse ++ ·)
  | rPush key values =>
    obtain rfl : k = key := hk
    exact h.list (hok _ rfl) (hf _ rfl) (· ++ values)
  | hSet key fields =>
    obtain rfl : k = key := hk
    exact h.hash (hok _ rfl) (hf _ rfl) fields
  | hDel key fields =>
    obtain rfl : k = key := hk
    exact h.hDel (hok _ rfl) (hf _ rfl) fields
  | _ => cases hc

end Covers

/-! ### The whole keyspace -/

theorem Call.touches_of_resets {c : Call} {k : Bytes} (h : c.resets k = true) : c.touches k := by
  cases c with
  | set key value => exact show k = key from of_decide_eq_true h
  | del keys => exact List.contains_iff_mem.mp h
  | flushAll => trivial
  | expire key seconds => exact (of_decide_eq_true h).1
  | _ => cases h

namespace History
variable {h : History} {ks : Keyspace}

/-- A keyspace of the replay, against the history. -/
def Covers (h : History) (ks : Keyspace) : Prop :=
  ∀ k, GoRedis.Covers (h.former k) (h.contents.lookup k) (ks.lookup k)

theorem covers_empty : ({} : History).Covers ∅ := fun k e' he' => by simp at he'

/-- Time passes in the replay. -/
theorem Covers.tick_replayed (hks : h.Covers ks) (now : Time) : h.Covers (ks.tick now) := by
  intro k
  rw [lookup_tick]
  exact (hks k).tick_replayed now

/-- Time passed then. -/
theorem Covers.tick (hks : h.Covers ks) (now : Time) : (h.tick now).Covers ks := by
  intro k
  have hk := hks k
  dsimp only [History.tick]
  rw [lookup_tick]
  cases he : h.contents.lookup k with
  | none =>
    rw [he] at hk
    exact hk
  | some e =>
    rw [he] at hk
    dsimp only
    rw [Option.bind_some]
    cases hkeep : e.keep now with
    | none =>
      exact ⟨fun e₁ he₁ => absurd he₁ (by simp), fun e' he' => hk.type_eq rfl he'⟩
    | some e₁ =>
      obtain rfl : e = e₁ := by
        unfold Entry.keep at hkeep
        split at hkeep
        · cases hkeep
        · exact Option.some.inj hkeep
      exact hk

/-- **A call made again.** It succeeded then; it succeeds in the replay. -/
theorem Covers.act (hks : h.Covers ks) {c : Call} (hc : c.isWrite = true) (hok : Accepts c h.contents)
    (hf : ∀ k type, c.kind = some (k, type) → h.former k = none ∨ h.former k = some type) (env env' : Env) :
    Accepts c ks ∧ Covers ⟨(h.contents.actIn env c).1, fun k => if c.resets k then none else h.former k⟩
      (ks.actIn env' c).1 := by
  refine ⟨fun k type hkind => (hks k).accepts (hok k type hkind) (hf k type hkind), fun k => ?_⟩
  dsimp only
  by_cases hk : c.touches k
  · rw [lookup_act env _ hc hk, lookup_act env' _ hc hk]
    exact (hks k).atKey hc hk (hok k) (hf k) env env'
  · rw [(act_local env c).frame _ _ hk, (act_local env' c).frame _ _ hk,
      if_neg fun hreset => hk (Call.touches_of_resets hreset)]
    exact hks k

end History

/-! ### Stores -/

/-- From a clock reading on, the store stands for the keyspace. -/
structure Store.StandsFor (s : Store) (last : Time) (ks : Keyspace) : Prop where
  unbounded : s.maxMemoryBytes = 0
  live : ∀ now, last ≤ now → s.live now = ks.tick now

namespace Store.StandsFor
variable {s : Store} {last : Time} {ks : Keyspace}

theorem fresh (last : Time) : ({} : Store).StandsFor last ∅ := by
  refine ⟨rfl, fun now _ => ?_⟩
  show select _ (HashTable.empty : HashTable Value).toFinmap = select _ ∅
  rw [HashTable.toFinmap_empty, select_empty, select_empty]

theorem call (h : s.StandsFor last ks) {env : Env} (hnow : last ≤ env.now) (c : Call) :
    (s.exec env c).1.StandsFor env.now ((ks.tick env.now).actIn env c).1 := by
  have hsim := s.exec_simulates env h.unbounded c
  refine ⟨hsim.unbounded.trans h.unbounded, fun now hle => ?_⟩
  rw [← tick_live_later hle, hsim.live, tick_tick hle, h.live _ hnow]

theorem ok_iff (h : s.StandsFor last ks) {env : Env} (hnow : last ≤ env.now) {c : Call} (hc : c.isWrite = true) :
    c.ok (s.exec env c).2 = true ↔ Accepts c (ks.tick env.now) := by
  rw [exec_ok_iff env s h.unbounded hc, h.live _ hnow]

end Store.StandsFor

/-! ### A command then and again -/

/-- The store then: it stands for what the history says. -/
def Then (envs : Nat → Env) (x : World × History) : Prop :=
  ∃ last, last ≤ (envs x.1.ticks).now ∧ x.1.store.StandsFor last x.2.contents

/-- The store of the replay: what it stands for is covered by the history. -/
def Again (envs : Nat → Env) (h : History) (w : World) : Prop :=
  ∃ last ks, last ≤ (envs w.ticks).now ∧ w.store.StandsFor last ks ∧ h.Covers ks

section
variable {envs envs' : Nat → Env} {x : World × History} {w : World} {h : History} {c : Call}

theorem Then.call (hx : Then envs x) (hmono : Monotone fun n => (envs n).now) (c : Call) :
    Then envs (History.exec envs x (.call c)).1 := by
  obtain ⟨last, hlast, hstands⟩ := hx
  exact ⟨_, hmono (Nat.le_succ _), hstands.call hlast c⟩

/-- A call that is not made again, because it changed nothing. -/
theorem Again.skip (hw : Again envs' h w) {env : Env}
    (hsame : ((h.tick env.now).contents.actIn env c).1 = (h.tick env.now).contents)
    (hresets : ∀ k, c.resets k = false) : Again envs' (h.call env c) w := by
  obtain ⟨last, ks, hlast, hstands, hcovers⟩ := hw
  refine ⟨last, ks, hlast, hstands, ?_⟩
  have hcall : h.call env c = h.tick env.now := by
    unfold History.call
    simp only [hsame, hresets]
    rfl
  rw [hcall]
  exact hcovers.tick env.now

theorem Again.read (hw : Again envs' h w) (env : Env) (hc : c.isWrite = false) : Again envs' (h.call env c) w := by
  refine hw.skip (act_read env hc _) fun k => ?_
  cases c <;> first | rfl | cases hc

theorem Again.failed (hx : Then envs x) (hw : Again envs' x.2 w) (hc : c.isWrite = true)
    (hok : c.ok (x.1.exec envs (.call c)).2 = false) : Again envs' (x.2.call (envs x.1.ticks) c) w := by
  obtain ⟨last, hlast, hstands⟩ := hx
  have hrejects : ¬Accepts c (x.2.contents.tick (envs x.1.ticks).now) := by
    rw [← hstands.ok_iff hlast hc]
    exact ne_true_of_eq_false hok
  refine hw.skip (act_failed _ hrejects) fun k => ?_
  cases c with
  | set key value => cases hok
  | del keys => cases hok
  | flushAll => cases hok
  | expire key seconds => cases hok
  | _ => rfl

/-- **A call that succeeded is made again and succeeds again.** -/
theorem Again.call (hx : Then envs x) (hw : Again envs' x.2 w) (hmono : Monotone fun n => (envs' n).now)
    (hc : c.isWrite = true) (hok : c.ok (x.1.exec envs (.call c)).2 = true)
    (hunmixed : History.Unmixed envs x (.call c)) :
    c.ok (w.exec envs' (.call c)).2 = true ∧
      Again envs' (x.2.call (envs x.1.ticks) c) (w.exec envs' (.call c)).1 := by
  obtain ⟨last, hlast, hstands⟩ := hx
  obtain ⟨last', ks, hlast', hstands', hcovers⟩ := hw
  have haccepts : Accepts c (x.2.contents.tick (envs x.1.ticks).now) := (hstands.ok_iff hlast hc).mp hok
  obtain ⟨haccepts', hcovers'⟩ := ((hcovers.tick _).tick_replayed (envs' w.ticks).now).act hc haccepts
    (fun k type hkind => hunmixed hok (k, type) hkind) (envs x.1.ticks) (envs' w.ticks)
  exact ⟨(hstands'.ok_iff hlast' hc).mpr haccepts', _, _, hmono (Nat.le_succ _), hstands'.call hlast' c, hcovers'⟩

end

/-! ### Whole logs -/

/-- A run so far, against the replay of its log. -/
structure Rerun (envs envs' : Nat → Env) (x : World × History) : Prop where
  before : Then envs x
  again : Again envs' x.2 (dispatchAll false envs' x.1.log {})
  clean : ∀ r ∈ replies false envs' x.1.log {}, ∃ v, r = some v ∧ v.isError = false

theorem replies_concat (aof : Bool) (envs : Nat → Env) (commands : List (List Bytes)) (args : List Bytes)
    (w : World) : replies aof envs (commands ++ [args]) w = replies aof envs commands w ++
      [((dispatch aof args).run (World.exec envs) (dispatchAll aof envs commands w)).2] := by
  induction commands generalizing w with
  | nil => rfl
  | cons args' commands ih =>
    rw [List.cons_append, replies, ih]
    rfl

theorem rerun_fresh (envs envs' : Nat → Env) : Rerun envs envs' ({}, {}) where
  before := ⟨(envs 0).now, Int.le_refl _, .fresh _⟩
  again := ⟨(envs' 0).now, ∅, Int.le_refl _, .fresh _, History.covers_empty⟩
  clean := fun _ hr => absurd hr List.not_mem_nil

section
variable {envs envs' : Nat → Env} {x : World × History}

/-- One more command in the log, after calls that led to `x'`. -/
theorem Rerun.log (hx : Rerun envs envs' x) (x' : World × History) {args : List Bytes} {v : RespValue}
    (hlog : x'.1.log = x.1.log) (hthen : Then envs x')
    (hagain : Again envs' x'.2
      ((dispatch false args).run (World.exec envs') (dispatchAll false envs' x.1.log {})).1)
    (hreply : ((dispatch false args).run (World.exec envs') (dispatchAll false envs' x.1.log {})).2 = some v)
    (hv : v.isError = false) : Rerun envs envs' (History.exec envs x' (.append args)).1 := by
  have hlog' : (History.exec envs x' (.append args)).1.1.log = x.1.log ++ [args] := by
    show x'.1.log ++ [args] = _
    rw [hlog]
  refine ⟨hthen, ?_, ?_⟩
  · rw [hlog', dispatchAll_concat]
    exact hagain
  · rw [hlog', replies_concat, List.forall_mem_append]
    refine ⟨hx.clean, fun r hr => ?_⟩
    rw [List.mem_singleton.mp hr]
    exact ⟨v, hreply, hv⟩

theorem ReadOnly.rerun {name : Bytes} {p : Program} (h : ReadOnly name p) (hx : Rerun envs envs' x)
    (hmono : Monotone fun n => (envs n).now) : Rerun envs envs' (p.run (History.exec envs) x).1 := by
  cases h with
  | refused message _ => exact hx
  | pure v _ => exact hx
  | read c hc r hr next hnext =>
    have hend : ((call c next).run (History.exec envs) x).1 = (History.exec envs x (.call c)).1 := by
      show ((next _).run (History.exec envs) _).1 = _
      rw [hnext]
      split <;> rfl
    rw [hend]
    exact ⟨hx.before.call hmono c, hx.again.read _ hc, hx.clean⟩

/-- **One command**, logged or not. -/
theorem dispatch_rerun (hx : Rerun envs envs' x) (hmono : Monotone fun n => (envs n).now)
    (hmono' : Monotone fun n => (envs' n).now) (name : Bytes) (args : List Bytes)
    (hu : (dispatch true (name :: args)).Along (History.exec envs) (History.Unmixed envs) x) :
    Rerun envs envs' ((dispatch true (name :: args)).run (History.exec envs) x).1 := by
  have h := dispatch_conduct (name :: args)
  generalize hp : (fun aof => dispatch aof (name :: args)) = p at h
  have hp' : ∀ aof, dispatch aof (name :: args) = p aof := fun aof => congrFun hp aof
  rw [hp'] at hu ⊢
  cases h with
  | nothing h => cases h
  | readOnly p h => exact h.rerun hx hmono
  | write c hc r hr next hnext =>
    have hend : ((call c (next true)).run (History.exec envs) x).1 =
        ((next true (x.1.exec envs (.call c)).2).run (History.exec envs) (History.exec envs x (.call c)).1).1 := rfl
    rw [hend, hnext]
    cases hok : c.ok (x.1.exec envs (.call c)).2 with
    | false => exact ⟨hx.before.call hmono c, .failed hx.before hx.again hc hok, hx.clean⟩
    | true =>
      obtain ⟨hok', hagain⟩ := hx.again.call hx.before hmono' hc hok hu.1
      obtain ⟨v, hv, hproper⟩ := hr _ (call_answered envs' _ hok')
      have hrun : (dispatch false (name :: args)).run (World.exec envs') (dispatchAll false envs' x.1.log {}) =
          (((dispatchAll false envs' x.1.log {}).exec envs' (.call c)).1, some v) := by
        rw [hp']
        show (next false _).run (World.exec envs') _ = _
        rw [hnext, if_pos hok', hv]
        rfl
      refine hx.log (History.exec envs x (.call c)).1 rfl (hx.before.call hmono c) ?_
        (congrArg Prod.snd hrun) hproper.noError
      rw [hrun]
      exact hagain
  | setEx key value seconds =>
    obtain ⟨hu₁, hu₂, -⟩ := hu
    have hthen := hx.before.call hmono (.set key value)
    obtain ⟨-, hagain₁⟩ := hx.again.call hx.before hmono' (c := .set key value) rfl rfl hu₁
    obtain ⟨-, hagain₂⟩ := hagain₁.call hthen hmono' (c := .expire key seconds) rfl rfl hu₂
    have hrun : (dispatch false (name :: args)).run (World.exec envs') (dispatchAll false envs' x.1.log {}) =
        ((((dispatchAll false envs' x.1.log {}).exec envs' (.call (.set key value))).1.exec envs'
          (.call (.expire key seconds))).1, some ok) := by
      rw [hp']
      rfl
    refine hx.log (History.exec envs (History.exec envs x (.call (.set key value))).1
      (.call (.expire key seconds))).1 rfl (hthen.call hmono _) ?_ (congrArg Prod.snd hrun) proper_ok.noError
    rw [hrun]
    exact hagain₂

end

/-- Noting the history does not change the run. -/
theorem run_history (envs : Nat → Env) (p : Program) (x : World × History) :
    (p.run (History.exec envs) x).1.1 = (p.run (World.exec envs) x.1).1 := by
  induction p generalizing x with
  | ret r => rfl
  | step op next ih => exact ih _ _

/-- **What succeeded is replayed without an error.** Commands dispatched one at a time from an
empty store without a budget, with any amount of time between them, of which none that succeeds insists on
another type than its key held when it last expired: replayed into an empty store, at one
clock reading or more, every logged command gets a reply that is no error. -/
theorem replay_succeeds (commands : List (List Bytes)) (hne : ∀ args ∈ commands, args ≠ []) (envs envs' : Nat → Env)
    (hmono : Monotone fun n => (envs n).now) (hmono' : Monotone fun n => (envs' n).now)
    (h : History.UnmixedAll envs commands ({}, {})) :
    ∀ r ∈ replies false envs' (dispatchAll true envs commands {}).log {}, ∃ v, r = some v ∧ v.isError = false := by
  suffices hall : ∀ x : World × History, Rerun envs envs' x → History.UnmixedAll envs commands x →
      ∀ r ∈ replies false envs' (dispatchAll true envs commands x.1).log {}, ∃ v, r = some v ∧ v.isError = false by
    exact hall ({}, {}) (rerun_fresh envs envs') h
  clear h
  induction commands with
  | nil => exact fun x hx _ => hx.clean
  | cons args commands ih =>
    obtain ⟨hargs, hrest⟩ := List.forall_mem_cons.mp hne
    intro x hx hu
    cases args with
    | nil => exact absurd rfl hargs
    | cons name args =>
      have hstep := ih hrest _ (dispatch_rerun hx hmono hmono' name args hu.1) hu.2
      rw [run_history] at hstep
      exact hstep

/-- A key that expired as a string, is deleted and made a list. -/
theorem replay_succeeds_reset :
    let commands := [[ascii "SET", ascii "k", ascii "v", ascii "EX", ascii "1"], [ascii "DEL", ascii "k"],
      [ascii "LPUSH", ascii "k", ascii "x"]]
    let envs : Nat → Env := fun n => { now := 1000000000 * n }
    let envs' : Nat → Env := fun _ => { now := 0 }
    ((∀ args ∈ commands, args ≠ []) ∧ History.UnmixedAll envs commands ({}, {})) ∧
      ∀ r ∈ replies false envs' (dispatchAll true envs commands {}).log {}, ∃ v, r = some v ∧ v.isError = false := by
  intro commands envs envs'
  have hne : ∀ args ∈ commands, args ≠ [] := by decide
  have hmono : Monotone fun n => (envs n).now := by
    intro m n hmn
    show (1000000000 * m : Int) ≤ 1000000000 * n
    omega
  have hunmixed : History.UnmixedAll envs commands ({}, {}) := by decide +kernel
  exact ⟨⟨hne, hunmixed⟩, replay_succeeds commands hne envs envs' hmono monotone_const hunmixed⟩

/-- A key that expired as a string and is made a list: at one clock reading, the replay of
the list meets the string. -/
theorem replay_wrongType :
    let commands := [[ascii "SET", ascii "k", ascii "v", ascii "EX", ascii "1"], [ascii "LPUSH", ascii "k", ascii "x"]]
    let envs : Nat → Env := fun n => { now := 1000000000 * n }
    let w := dispatchAll true envs commands {}
    w.log = commands ∧ (replies true envs commands {}).map (fun r => r.map RespValue.encode) =
        [some ok.encode, some (RespValue.integer 1).encode] ∧
      (replies false (fun _ => { now := 0 }) w.log {}).map (fun r => r.map RespValue.encode) =
        [some ok.encode, some wrongTypeError.encode] := by
  decide +kernel

-- a key that was evicted as a string and is made a list: nothing has expired
example :
    let commands := [[ascii "SET", ascii "k", ascii "v"], [ascii "SET", ascii "l", ascii "v"],
      [ascii "LPUSH", ascii "k", ascii "x"]]
    let envs : Nat → Env := fun _ => { now := 0, draw := fun _ n => n }
    let w := dispatchAll true envs commands { store := ({} : Store).setMaxMemory (fun _ n => n) 60 }
    w.log = commands ∧ (replies false (fun _ => { now := 0 }) w.log {}).map (fun r => r.map RespValue.encode) =
      [some ok.encode, some ok.encode, some wrongTypeError.encode] := by
  decide +kernel

end GoRedis
