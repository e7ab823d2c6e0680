import GoRedis.Store.Store

/-! What a store is for: an abstract keyspace.

A keyspace is a finite map from keys to what they hold and an optional deadline. Nothing
in it is stale: every call first advances the keyspace to its clock reading (`tick`), at
which a key whose deadline is reached vanishes, and then acts on live keys only. The
map has no order, so a reply that lists keys or fields is a multiset (`Call.View`). Counts are
exact, and a deadline is so many seconds after the clock reading it was set at. -/
namespace GoRedis
open Keyed

/-- What a key holds. -/
inductive Datum where
  | str (value : Bytes)
  | list (elems : List Bytes)
  | hash (fields : Finmap fun _ : Bytes => Bytes)

namespace Datum

def asStr : Datum → Option Bytes
  | .str value => some value
  | _ => none

def asList : Datum → Option (List Bytes)
  | .list elems => some elems
  | _ => none

def asHash : Datum → Option (Finmap fun _ : Bytes => Bytes)
  | .hash fields => some fields
  | _ => none

end Datum

structure Entry where
  datum : Datum
  deadline : Option Time := none

/-- The entry, unless the clock has reached its deadline. -/
def Entry.keep (now : Time) (e : Entry) : Option Entry :=
  if e.deadline.any (· ≤ now) then none else some e

abbrev Keyspace := Finmap fun _ : Bytes => Entry

/-- What a caller can rely on in a reply: the order of keys and fields is left open. -/
def Call.View : Call → Type
  | .keys => Multiset Bytes
  | .hKeys _ | .hVals _ => Result (Multiset Bytes)
  | .hGetAll _ => Result (Multiset (Bytes × Bytes))
  | .set .. | .flushAll => Unit
  | .get _ | .hGet .. => Result Bytes
  | .del _ | .exists' _ | .ttl _ => Int
  | .expire .. => Bool
  | .lPush .. | .rPush .. | .lLen _ | .hSet .. | .hDel .. | .hLen _ | .hExists .. => Result Int
  | .lRange .. => Result (List Bytes)

def Call.view : (c : Call) → c.Reply → c.View
  | .keys, reply => Multiset.ofList reply
  | .hKeys _, reply | .hVals _, reply => Result.map Multiset.ofList reply
  | .hGetAll _, reply => Result.map Multiset.ofList reply
  | .set .., reply | .get _, reply | .del _, reply | .exists' _, reply | .flushAll, reply
  | .expire .., reply | .ttl _, reply | .lPush .., reply | .rPush .., reply | .lLen _, reply
  | .lRange .., reply | .hSet .., reply | .hGet .., reply | .hDel .., reply | .hLen _, reply
  | .hExists .., reply => reply

namespace Keyspace

/-- The keyspace at a later time: the keys whose deadline is not reached. -/
def tick (now : Time) (ks : Keyspace) : Keyspace := select (Entry.keep now) ks

/-- A read of one key: `absent` if it is not there, an error if it holds another type. -/
def readAs {α δ : Type} (as : Datum → Option δ) (absent : Result α) (view : δ → Result α)
    (ks : Keyspace) (key : Bytes) : Result α :=
  match ks.lookup key with
  | none => absent
  | some e =>
    match as e.datum with
    | none => .wrongType
    | some d => view d

/-- The `xs[i]` with `lo ≤ i ≤ hi`, where a negative bound counts from the end. -/
def range (xs : List Bytes) (start stop : Int) : List Bytes :=
  let n : Int := xs.length
  let lo := if start < 0 then n + start else start
  let hi := if stop < 0 then n + stop else stop
  (xs.zipIdx.filter fun p => lo ≤ (p.2 : Int) ∧ (p.2 : Int) ≤ hi).map Prod.fst

/-- What remains until a deadline, in milliseconds, rounded to the nearest second. -/
def remainingSeconds (now deadline : Time) : Int := ((deadline - now) / 1000000 + 500) / 1000

/-- What is at a key updated by `f`, or started from `fresh`; the reply is read off the
old and the new. -/
def upsert {δ : Type} (as : Datum → Option δ) (wrap : δ → Datum) (fresh : δ) (f : δ → δ)
    (reply : δ → δ → Int) (ks : Keyspace) (key : Bytes) : Keyspace × Result Int :=
  match ks.lookup key with
  | none => (ks.insert key ⟨wrap (f fresh), none⟩, .just (reply fresh (f fresh)))
  | some e =>
    match as e.datum with
    | none => (ks, .wrongType)
    | some d => (ks.insert key { e with datum := wrap (f d) }, .just (reply d (f d)))

/-- A list lengthened by `grow`; the reply is its length. -/
def pushed (grow : List Bytes → List Bytes) : Keyspace → Bytes → Keyspace × Result Int :=
  upsert Datum.asList .list [] grow fun _ xs => xs.length

def setFields (m : Finmap fun _ : Bytes => Bytes) (fields : List (Bytes × Bytes)) :
    Finmap fun _ : Bytes => Bytes :=
  fields.foldl (fun m field => m.insert field.1 field.2) m

def eraseFields (m : Finmap fun _ : Bytes => Bytes) (fields : List Bytes) :
    Finmap fun _ : Bytes => Bytes :=
  fields.foldl (fun m field => m.erase field) m

/-- How many fields the second map has more than the first. -/
def growth (m m' : Finmap fun _ : Bytes => Bytes) : Int := (m'.keys.card : Int) - m.keys.card

/-- Fields set; the reply is how much the set of fields grew. -/
def hashSet (fields : List (Bytes × Bytes)) : Keyspace → Bytes → Keyspace × Result Int :=
  upsert Datum.asHash .hash ∅ (setFields · fields) growth

/-- Fields erased; the reply is how much the set of fields shrank, and a hash left with
none is a key that is gone. -/
def hashDel (ks : Keyspace) (key : Bytes) (fields : List Bytes) : Keyspace × Result Int :=
  match ks.lookup key with
  | none => (ks, .just 0)
  | some e =>
    match e.datum.asHash with
    | none => (ks, .wrongType)
    | some m =>
      let m' := eraseFields m fields
      (if m'.keys = ∅ then ks.erase key else ks.insert key { e with datum := .hash m' },
        .just (growth m' m))

/-- A deadline given to a key, or the key taken away when there is no time left. -/
def expireAt (deadline : Time) (ks : Keyspace) (key : Bytes) (seconds : Int) : Keyspace × Bool :=
  match ks.lookup key with
  | none => (ks, false)
  | some e => if seconds ≤ 0 then (ks.erase key, true) else (ks.insert key { e with deadline := some deadline }, true)

/-- A call on a keyspace in which every key is live. -/
def act (now : Time) (ks : Keyspace) : (c : Call) → Keyspace × c.View
  | .set key value => (ks.insert key ⟨.str value, none⟩, ())
  | .get key => (ks, ks.readAs Datum.asStr .missing .just key)
  | .del keys => (keys.foldl (fun ks key => ks.erase key) ks,
      ((ks.keys ∩ keys.toFinset).card : Int))
  | .exists' keys => (ks, (keys.countP fun key => key ∈ ks : Int))
  | .keys => (ks, ks.keys.val)
  | .flushAll => (∅, ())
  | .expire key seconds => expireAt (now + seconds * 1000000000) ks key seconds
  | .ttl key => (ks,
      match ks.lookup key with
      | none => (-2 : Int)
      | some e =>
        match e.deadline with
        | none => (-1 : Int)
        | some deadline => remainingSeconds now deadline)
  | .lPush key values => pushed (fun xs => values.reverse ++ xs) ks key
  | .rPush key values => pushed (fun xs => xs ++ values) ks key
  | .lLen key => (ks, ks.readAs Datum.asList (.just 0) (fun xs => .just (xs.length : Int)) key)
  | .lRange key start stop =>
    (ks, ks.readAs Datum.asList (.just []) (fun xs => .just (range xs start stop)) key)
  | .hSet key fields => hashSet fields ks key
  | .hGet key field => (ks, ks.readAs Datum.asHash .missing (fun m => ⟨m.lookup field, .none⟩) key)
  | .hDel key fields => ks.hashDel key fields
  | .hGetAll key => (ks, ks.readAs Datum.asHash (.just 0)
      (fun m => .just (m.entries.map fun e => (e.1, e.2))) key)
  | .hLen key => (ks, ks.readAs Datum.asHash (.just 0) (fun m => .just (m.keys.card : Int)) key)
  | .hExists key field =>
    (ks, ks.readAs Datum.asHash (.just 0) (fun m => .just (if field ∈ m then 1 else 0 : Int)) key)
  | .hKeys key => (ks, ks.readAs Datum.asHash (.just 0) (fun m => .just m.keys.val) key)
  | .hVals key => (ks, ks.readAs Datum.asHash (.just 0) (fun m => .just (m.entries.map Sigma.snd)) key)

/-- A call at a clock reading. -/
def exec (now : Time) (ks : Keyspace) (c : Call) : Keyspace × c.View := (ks.tick now).act now c

end Keyspace

/-! ### The widths of the code

The keyspace counts and dates exactly. The store has `int`s for its counts and a clock
representation for its deadlines, so what it does is first compared with the keyspace in these
widths, and that with the keyspace itself where they are wide enough. -/

/-- A reply with its count as an `int`. -/
def Call.narrow : (c : Call) → c.View → c.View
  | .del _, n | .exists' _, n => asInt n
  | .lPush .., r | .rPush .., r | .lLen _, r | .hSet .., r | .hDel .., r | .hLen _, r => Result.map asInt r
  | .set .., r | .get _, r | .keys, r | .flushAll, r | .expire .., r | .ttl _, r | .lRange .., r | .hGet .., r
  | .hGetAll _, r | .hExists .., r | .hKeys _, r | .hVals _, r => r

/-- The count of a reply is an `int`. -/
def Call.CountFits : (c : Call) → c.View → Prop
  | .del _, n | .exists' _, n => Signed.Fits 32 n
  | .lPush .., r | .rPush .., r | .lLen _, r | .hSet .., r | .hDel .., r | .hLen _, r =>
    ∀ n ∈ r.value, Signed.Fits 32 n
  | .set .., _ | .get _, _ | .keys, _ | .flushAll, _ | .expire .., _ | .ttl _, _ | .lRange .., _ | .hGet .., _
  | .hGetAll _, _ | .hExists .., _ | .hKeys _, _ | .hVals _, _ => True

/-- A deadline in the clock's representation. -/
def Env.deadline (env : Env) (seconds : Int) : Time := env.rep.count (env.now + env.rep.count (seconds * 1000000000))

namespace Keyspace

/-- A call as the code's widths have it. -/
def actIn (env : Env) (ks : Keyspace) : (c : Call) → Keyspace × c.View
  | .expire key seconds => expireAt (env.deadline seconds) ks key seconds
  | .lRange key start stop =>
    (ks, ks.readAs Datum.asList (.just []) (fun xs => .just (Store.slice xs start stop)) key)
  | c => ((ks.act env.now c).1, c.narrow (ks.act env.now c).2)

theorem actIn_expire (env : Env) (ks : Keyspace) (key : Bytes) (seconds : Int) :
    ks.actIn env (.expire key seconds) = expireAt (env.deadline seconds) ks key seconds := rfl

/-- The widths of the code are wide enough for a call: for the deadline it sets, for the length
of the list it takes a range of, and for the count it replies. -/
def InWidths (now : Time) (ks : Keyspace) : Call → Prop
  | .expire key seconds => key ∈ ks → 0 < seconds →
      Signed.Fits 64 (seconds * 1000000000) ∧ Signed.Fits 64 (now + seconds * 1000000000)
  | .lRange key _ _ => ∀ e ∈ ks.lookup key, ∀ xs ∈ e.datum.asList, xs.length < 2 ^ 31
  | c => c.CountFits (ks.act now c).2

theorem act_ttl {ks : Keyspace} {key : Bytes} {e : Entry} {now deadline : Time} (h : ks.lookup key = some e)
    (hd : e.deadline = some deadline) : (ks.act now (.ttl key)).2 = remainingSeconds now deadline := by
  simp only [act, h, hd]
  rfl

@[simp] theorem lookup_tick (now : Time) (ks : Keyspace) (key : Bytes) :
    (ks.tick now).lookup key = (ks.lookup key).bind (Entry.keep now) :=
  lookup_select ..

/-- Once reached, a deadline stays reached. -/
theorem keep_keep {now later : Time} (h : now ≤ later) (e : Entry) :
    (e.keep now).bind (Entry.keep later) = e.keep later := by
  unfold Entry.keep
  cases hd : e.deadline with
  | none => simp [hd]
  | some deadline =>
    by_cases hnow : deadline ≤ now
    · simp [hnow, Int.le_trans hnow h]
    · simp [hnow, hd]

theorem tick_tick {now later : Time} (h : now ≤ later) (ks : Keyspace) :
    (ks.tick now).tick later = ks.tick later := by
  simp only [tick, select_select, keep_keep h]

end Keyspace
end GoRedis
