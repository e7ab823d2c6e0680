import GoRedis.Store.Held

/-! Calls as their critical sections.

A read that finds an expired key lets go of the shared lock and takes the exclusive one to
delete it, key by key; the sweeper looks for expired keys under one lock and deletes them
under another. In between anyone can change anything. Every deletion tests the key again, so
it takes nothing that is held, and the call did all it does at its first section: it is as if
each call ran alone at that moment. Only the tables differ: an entry that was deleted and
set again is elsewhere than one that was overwritten, so `Keys` and `Snapshot` list the
same in another order. -/
namespace GoRedis.Locking
open Keyed

/-- A call of the store's interface. -/
inductive Request where
  | call (c : Call)
  | snapshot
  | loadSnapshot (entries : List SnapshotEntry)

def Request.Reply : Request → Type
  | .call c => c.Reply
  | .snapshot => List SnapshotEntry
  | .loadSnapshot _ => Unit

/-- Replies that say the same. -/
def Request.Same : (r : Request) → r.Reply → r.Reply → Prop
  | .call c, reply, reply' => c.Same reply reply'
  | .snapshot, reply, reply' => List.Perm reply reply'
  | .loadSnapshot _, reply, reply' => reply = reply'

/-- What a section reads from outside the store. -/
structure Reading extends Env where
  wall : Time := 0

/-! ### Sections -/

/-- A call that is one section. -/
def alone {α : Type} (r : Store × α) : Store.Shared α := { store := r.1, reply := r.2 }

/-- The first section of a call: the shared one of a read, all of any other. -/
def firstOf (env : Env) (s : Store) : (c : Call) → Store.Shared c.Reply
  | .get key => s.get env.now key
  | .exists' keys => s.exists' env.now keys
  | .keys => s.keys env.now
  | .ttl key => s.ttl env.now key
  | .lLen key => s.lLen env.now key
  | .lRange key start stop => s.lRange env.now key start stop
  | .hGet key field => s.hGet env.now key field
  | .hGetAll key => s.hGetAll env.now key
  | .hLen key => s.hLen env.now key
  | .hExists key field => s.hExists env.now key field
  | .hKeys key => s.hKeys env.now key
  | .hVals key => s.hVals env.now key
  | .set key value => alone (s.exec env (.set key value))
  | .del keys => alone (s.exec env (.del keys))
  | .flushAll => alone (s.exec env .flushAll)
  | .expire key seconds => alone (s.exec env (.expire key seconds))
  | .lPush key values => alone (s.exec env (.lPush key values))
  | .rPush key values => alone (s.exec env (.rPush key values))
  | .hSet key fields => alone (s.exec env (.hSet key fields))
  | .hDel key fields => alone (s.exec env (.hDel key fields))

/-- A request that has the store to itself. -/
def whole (reading : Reading) (s : Store) : (r : Request) → Store × r.Reply
  | .call c => s.exec reading.toEnv c
  | .snapshot => (s, s.snapshot reading.rep reading.now reading.wall)
  | .loadSnapshot entries => (s.loadSnapshot reading.rep reading.now reading.wall reading.draw entries, ())

def first (reading : Reading) (s : Store) : (r : Request) → Store.Shared r.Reply
  | .call c => firstOf reading.toEnv s c
  | .snapshot => alone (whole reading s .snapshot)
  | .loadSnapshot entries => alone (whole reading s (.loadSnapshot entries))

/-- A first section and the deletions it asks for, at once, are the whole request. -/
theorem first_finish (reading : Reading) (s : Store) (r : Request) :
    (first reading s r).finish reading.now = whole reading s r := by
  cases r with
  | call c => cases c <;> rfl
  | snapshot => rfl
  | loadSnapshot entries => rfl

/-! ### The machine -/

/-- A request that a client has made, with its reply. -/
structure Answer (ι : Type) where
  client : ι
  request : Request
  reply : request.Reply

/-- The store, the keys that each client has yet to take the exclusive lock for, those that
the sweeper has found, and the replies in the order of the first sections. -/
structure System (ι : Type) where
  store : Store
  stale : ι → List Bytes := fun _ => []
  found : List Bytes := []
  answers : List (Answer ι) := []

/-- Whose section is next: a client makes a request, or goes on with its last one; the
sweeper's next one. -/
inductive Section (ι : Type) where
  | begin (i : ι) (request : Request)
  | escalate (i : ι)
  | sweep

variable {ι : Type} [DecidableEq ι]

namespace System

/-- One section. A client that is not done with its last request does not begin another. -/
def step (reading : Reading) (m : System ι) : Section ι → System ι
  | .begin i request =>
    if m.stale i = [] then
      let r := first reading m.store request
      { m with
        store := r.store
        stale := Function.update m.stale i r.stale
        answers := m.answers ++ [⟨i, request, r.reply⟩] }
    else m
  | .escalate i =>
    match m.stale i with
    | [] => m
    | key :: rest =>
      { m with
        store := (m.store.deleteIfExpired reading.now key).1
        stale := Function.update m.stale i rest }
  | .sweep =>
    match m.found with
    | [] => { m with found := m.store.expiredKeys reading.now }
    | key :: rest => { m with store := m.store.deleteAllExpired reading.now (key :: rest), found := [] }

/-- Sections one after another, the `n`th at the `n`th reading. -/
def run (readings : Nat → Reading) : Nat → List (Section ι) → System ι → System ι
  | _, [], m => m
  | n, x :: sections, m => run readings (n + 1) sections (m.step (readings n) x)

end System

/-! ### Each call at its first section -/

inductive Whole (ι : Type) where
  | request (i : ι) (request : Request)
  | sweep

/-- What a section is the first one of. -/
def System.begins (m : System ι) : Section ι → Option (Whole ι)
  | .begin i request => if m.stale i = [] then some (.request i request) else none
  | .escalate _ => none
  | .sweep => if m.found = [] then some .sweep else none

/-- What a run begins, with the readings of the first sections. -/
def System.begun (readings : Nat → Reading) : Nat → List (Section ι) → System ι → List (Reading × Whole ι)
  | _, [], _ => []
  | n, x :: sections, m =>
    ((m.begins x).map fun whole => (readings n, whole)).toList ++
      begun readings (n + 1) sections (m.step (readings n) x)

/-- A store that is used by one at a time. -/
structure Serial (ι : Type) where
  store : Store
  answers : List (Answer ι) := []

def Serial.execute (a : Serial ι) : Reading × Whole ι → Serial ι
  | (reading, .request i request) =>
    let r := whole reading a.store request
    { store := r.1, answers := a.answers ++ [⟨i, request, r.2⟩] }
  | (reading, .sweep) => { a with store := a.store.sweepExpired reading.now }

/-! ### One request -/

section
variable {s t : Store} (reading : Reading)

theorem whole_max (hs : s.maxMemoryBytes = 0) (r : Request) : (whole reading s r).1.maxMemoryBytes = 0 := by
  cases r with
  | call c => exact (Store.exec_simulates reading.toEnv s hs c).unbounded.trans hs
  | snapshot => exact hs
  | loadSnapshot entries =>
    have hload := Store.loadEntries_max reading.rep reading.now reading.wall entries s.flushAll
    exact (congrArg _ (Store.evict_unbounded (hload.trans hs) reading.draw)).trans (hload.trans hs)

theorem whole_held (hs : s.maxMemoryBytes = 0) (ht : t.maxMemoryBytes = 0)
    (h : s.held reading.now = t.held reading.now) (r : Request) :
    (whole reading s r).1.held reading.now = (whole reading t r).1.held reading.now := by
  cases r with
  | call c => exact Store.exec_held reading.toEnv hs ht h c
  | snapshot => exact h
  | loadSnapshot entries => exact Store.loadSnapshot_held hs ht ..

theorem whole_same (hs : s.maxMemoryBytes = 0) (ht : t.maxMemoryBytes = 0)
    (h : s.held reading.now = t.held reading.now) (r : Request) :
    r.Same (whole reading s r).2 (whole reading t r).2 := by
  cases r with
  | call c => exact Store.exec_same reading.toEnv hs ht h c
  | snapshot => exact Store.snapshot_perm h ..
  | loadSnapshot entries => rfl

/-- The first section of a request does all that can be seen of it. -/
theorem first_held (r : Request) :
    (first reading s r).store.held reading.now = (whole reading s r).1.held reading.now := by
  rw [← first_finish, Store.Shared.finish, Store.deleteAllExpired_held]

theorem first_max (hs : s.maxMemoryBytes = 0) (r : Request) : (first reading s r).store.maxMemoryBytes = 0 := by
  have hmax := whole_max reading hs r
  rwa [← first_finish, Store.Shared.finish, Store.deleteAllExpired_max] at hmax

theorem first_reply (r : Request) : (first reading s r).reply = (whole reading s r).2 := by
  rw [← first_finish]
  rfl

end

/-- A clock that goes on. -/
theorem held_later {s : Store} {now later : Int} (h : now ≤ later) :
    s.held later = select (Value.kept later) (s.held now) := by
  rw [Store.held, Store.held, select_select]
  congr 1
  funext v
  unfold Value.kept isExpired
  cases v.expiresAt with
  | none => rfl
  | some deadline =>
    by_cases hd : deadline ≤ now
    · simp [hd, hd.trans h]
    · simp [hd]

/-! ### One section -/

/-- Answers to one request of one client that say the same. -/
inductive Answer.Same : Answer ι → Answer ι → Prop where
  | mk (i : ι) (request : Request) {reply reply' : request.Reply} (h : request.Same reply reply') :
    Same ⟨i, request, reply⟩ ⟨i, request, reply'⟩

/-- The two stores hold the same, and have given the same answers. -/
structure Twins (now : Time) (m : System ι) (a : Serial ι) : Prop where
  held : m.store.held now = a.store.held now
  unbounded : m.store.maxMemoryBytes = 0
  unbounded' : a.store.maxMemoryBytes = 0
  answers : List.Forall₂ Answer.Same m.answers a.answers

omit [DecidableEq ι] in
theorem Twins.later {now later : Time} {m : System ι} {a : Serial ι} (h : Twins now m a) (hle : now ≤ later) :
    Twins later m a :=
  { h with held := by rw [held_later hle, held_later hle, h.held] }

/-- **Deletions take nothing that is held.** -/
theorem escalate_held (reading : Reading) (m : System ι) (i : ι) :
    (m.step reading (.escalate i)).store.held reading.now = m.store.held reading.now := by
  dsimp only [System.step]
  split
  · rfl
  · exact Store.deleteIfExpired_held ..

theorem sweep_held (reading : Reading) (m : System ι) :
    (m.step reading .sweep).store.held reading.now = m.store.held reading.now := by
  dsimp only [System.step]
  split
  · rfl
  · exact Store.deleteAllExpired_held ..

/-- **One section**, and what it begins executed at once. -/
theorem Twins.step {now : Time} {m : System ι} {a : Serial ι} (h : Twins now m a) {reading : Reading}
    (hle : now ≤ reading.now) (x : Section ι) :
    Twins reading.now (m.step reading x)
      (((m.begins x).map fun whole => (reading, whole)).toList.foldl Serial.execute a) := by
  have h := h.later hle
  cases x with
  | begin i request =>
    dsimp only [System.step, System.begins]
    split
    · refine ⟨?_, first_max reading h.unbounded request, whole_max reading h.unbounded' request, ?_⟩
      · exact (first_held reading request).trans (whole_held reading h.unbounded h.unbounded' h.held request)
      · refine List.rel_append h.answers (.cons ?_ .nil)
        refine .mk i request ?_
        rw [first_reply]
        exact whole_same reading h.unbounded h.unbounded' h.held request
    · exact h
  | escalate i =>
    refine ⟨(escalate_held reading m i).trans h.held, ?_, h.unbounded', ?_⟩ <;> dsimp only [System.step] <;> split
    · exact h.unbounded
    · exact (Store.deleteAllExpired_max _ _ [_]).trans h.unbounded
    · exact h.answers
    · exact h.answers
  | sweep =>
    have hheld := (sweep_held reading m).trans h.held
    dsimp only [System.step, System.begins] at hheld ⊢
    cases hfound : m.found with
    | nil =>
      rw [hfound] at hheld
      refine ⟨hheld.trans ?_, h.unbounded, (Store.deleteAllExpired_max ..).trans h.unbounded', h.answers⟩
      exact (Store.deleteAllExpired_held ..).symm
    | cons key rest =>
      rw [hfound] at hheld
      exact ⟨hheld, (Store.deleteAllExpired_max ..).trans h.unbounded, h.unbounded', h.answers⟩

/-! ### Runs -/

theorem Twins.run {readings : Nat → Reading} (hmono : ∀ n, (readings n).now ≤ (readings (n + 1)).now)
    (sections : List (Section ι)) {n : Nat} {now later : Time} (hnow : now ≤ (readings n).now) (hlater : now ≤ later)
    (hall : ∀ k < sections.length, (readings (n + k)).now ≤ later) {m : System ι} {a : Serial ι} (h : Twins now m a) :
    Twins later (m.run readings n sections) ((m.begun readings n sections).foldl Serial.execute a) := by
  induction sections generalizing n now m a with
  | nil => exact h.later hlater
  | cons x sections ih =>
    rw [System.begun, List.foldl_append]
    have hfirst := hall 0 (Nat.succ_pos _)
    refine ih (hmono n) hfirst (fun k hk => ?_) (h.step hnow x)
    have hnext := hall (k + 1) (Nat.succ_lt_succ hk)
    rwa [Nat.add_assoc, Nat.add_comm 1 k]

/-- **Escalation is atomic.** Any number of clients and the sweeper share a store without a
budget, section by section, at readings of a clock that does not go back. All replies are
those of calls that are each executed at once when their first section is, up to the order
of `Keys` and `Snapshot`, and so is what the store holds at the end. No deletion after an
escalation and none of the sweeper's takes anything that is held. -/
theorem sections_atomic {readings : Nat → Reading} (hmono : ∀ n, (readings n).now ≤ (readings (n + 1)).now)
    {s : Store} (hmax : s.maxMemoryBytes = 0) (sections : List (Section ι)) :
    let m := System.run readings 0 sections { store := s }
    let a := (System.begun readings 0 sections { store := s }).foldl Serial.execute { store := s }
    List.Forall₂ Answer.Same m.answers a.answers ∧
      (∀ now, (∀ n < sections.length, (readings n).now ≤ now) → m.store.held now = a.store.held now) ∧
      ∀ (m' : System ι) (reading : Reading),
        (∀ i, (m'.step reading (.escalate i)).store.held reading.now = m'.store.held reading.now) ∧
          (m'.step reading .sweep).store.held reading.now = m'.store.held reading.now := by
  intro m a
  have htwins : ∀ start now : Time, start ≤ (readings 0).now → start ≤ now →
      (∀ n < sections.length, (readings n).now ≤ now) → Twins now m a := by
    intro start now hstart hnow hall
    refine Twins.run hmono sections hstart hnow (fun k hk => ?_) ⟨rfl, hmax, hmax, .nil⟩
    rw [Nat.zero_add]
    exact hall k hk
  refine ⟨?_, fun now hall => ?_, fun m' reading => ⟨escalate_held reading m', sweep_held reading m'⟩⟩
  · have hlast : ∀ n < sections.length, (readings n).now ≤ (readings sections.length).now :=
      fun n hn => monotone_nat_of_le_succ hmono (Nat.le_of_lt hn)
    exact (htwins _ _ (le_refl _) (monotone_nat_of_le_succ hmono (Nat.zero_le _)) hlast).answers
  · exact (htwins (min (readings 0).now now) now (min_le_left ..) (min_le_right ..) hall).held

/-- A reading a second. -/
def seconds (n : Nat) : Reading := { now := n * 1000000000 }

theorem seconds_mono (n : Nat) : (seconds n).now ≤ (seconds (n + 1)).now := by
  show (n * 1000000000 : Int) ≤ (n + 1 : Nat) * 1000000000
  omega

/-- The first client finds a key expired, the second sets it, and the first goes on. -/
def overtaken : List (Section Nat) :=
  [.begin 0 (.call (.set [97] [49])), .begin 0 (.call (.expire [97] 1)), .begin 0 (.call (.set [113] [50])),
    .begin 0 (.call (.get [97])), .begin 1 (.call (.set [97] [51])), .escalate 0, .begin 1 (.call .keys)]

/-- The second client's write stays. -/
theorem sections_atomic_overtaken :
    let m := System.run seconds 0 overtaken { store := {} }
    let a := (System.begun seconds 0 overtaken { store := {} }).foldl Serial.execute { store := {} }
    (m.store.data.get [97]).map Value.strValue = some [51] ∧
      m.store.held 7000000000 = a.store.held 7000000000 := by
  intro m a
  have hlate : ∀ n < overtaken.length, (seconds n).now ≤ 7000000000 := by decide +kernel
  exact ⟨by decide +kernel, (sections_atomic seconds_mono rfl overtaken).2.1 7000000000 hlate⟩

/-- The keys that a reply lists. -/
def Answer.listed : Answer ι → Option (List Bytes)
  | ⟨_, .call .keys, reply⟩ => some reply
  | _ => none

/-- The second client lists the two keys, which share a bucket, in one order, and when the
first client's read is executed at once in the other one. -/
theorem sections_reordered :
    let m := System.run seconds 0 overtaken { store := {} }
    let a := (System.begun seconds 0 overtaken { store := {} }).foldl Serial.execute { store := {} }
    m.answers.filterMap Answer.listed = [[[113], [97]]] ∧ a.answers.filterMap Answer.listed = [[[97], [113]]] := by
  decide +kernel

end GoRedis.Locking
