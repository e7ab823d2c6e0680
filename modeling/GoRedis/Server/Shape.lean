import GoRedis.Resp.Decoder
import GoRedis.Server.Dispatcher
import GoRedis.Store.Outcome

/-! What a dispatch can do.

Whatever the command, `Dispatch` does one of four things: it replies at once, it reads and
replies, it writes and, if the write succeeded, appends, or it is a `SET … EX`, which
writes twice before it appends. `Conduct` says so together with what the replies are, and
everything about the dispatcher as a whole is derived from it. The commands are gone through by
name in one place (`dispatch_elim`). -/
namespace GoRedis
open Interleaving Dispatcher

/-- The first call of a program. -/
def firstCall : Program → Option Call
  | .step (.call c) _ => some c
  | _ => none

/-- A client of the server. -/
abbrev Session := Client Op Op.Ans (Option RespValue) (List Bytes)

/-- The call a client is about to make, if it is one. -/
def Session.nextCall (c : Session) : Option Call := c.running.bind fun x => firstCall x.2

/-! ### Replies -/

def RespValue.isError : RespValue → Bool
  | .error _ => true
  | _ => false

/-- A reply that is no error, and is read back. -/
structure RespValue.Proper (r : RespValue) : Prop where
  noError : r.isError = false
  lined : r.Lined

theorem RespValue.proper_bulks (items : List Bytes) : (stringsToBulkArray items).Proper := by
  refine ⟨rfl, ?_⟩
  show RespValue.LinedItems (items.map .bulkString)
  induction items with
  | nil => trivial
  | cons item items ih => exact ⟨trivial, ih⟩

theorem RespValue.proper_bulkOrNil (value : Option Bytes) : (bulkOrNil value).Proper := by
  cases value <;> exact ⟨rfl, trivial⟩

theorem proper_ok : Dispatcher.ok.Proper := ⟨rfl, show Unbroken (ascii "OK") by decide⟩

/-! ### The conduct of a dispatch -/

/-- The program of a command that does not write. -/
inductive ReadOnly (name : Bytes) : Program → Prop where
  | refused (message : Bytes) (h : Unbroken name → Unbroken message) :
    ReadOnly name (.ret (some (.error message)))
  | pure (x : RespValue) (h : x.Proper) : ReadOnly name (.ret (some x))
  | read (c : Call) (hc : c.isWrite = false) (r : c.Reply → Option RespValue)
    (hr : ∀ a, c.Answered a → ∃ x, r a = some x ∧ x.Proper) (next : c.Reply → Program)
    (hnext : ∀ a, next a = if c.ok a then .ret (r a) else .ret (some wrongTypeError)) :
    ReadOnly name (call c next)

/-- The program of a command, with and without a writer. -/
inductive Conduct (args : List Bytes) : (Bool → Program) → Prop where
  | nothing (h : args = []) : Conduct args fun _ => .ret none
  | readOnly (p : Program) (h : ReadOnly (args.headD []) p) : Conduct args fun _ => p
  | write (c : Call) (hc : c.isWrite = true) (r : c.Reply → Option RespValue)
    (hr : ∀ a, c.Answered a → ∃ x, r a = some x ∧ x.Proper) (next : Bool → c.Reply → Program)
    (hnext : ∀ aof a, next aof a =
      if c.ok a then logged aof args (.ret (r a)) else .ret (some wrongTypeError)) :
    Conduct args fun aof => call c (next aof)
  | setEx (key value : Bytes) (seconds : Int) :
    Conduct args fun aof => call (.set key value) fun _ =>
      call (.expire key seconds) fun _ => logged aof args (.ret (some ok))

variable {name : Bytes} {args : List Bytes}

/-- It is at its end, or one call away from it. -/
theorem ReadOnly.cases {p : Program} (h : ReadOnly name p) :
    (∃ r, p = .ret r) ∨ ∃ (c : Call) (r : c.Reply → Option RespValue) (next : c.Reply → Program),
      c.isWrite = false ∧ p = call c next ∧ ∀ a, next a = .ret (r a) := by
  cases h with
  | refused message _ => exact .inl ⟨_, rfl⟩
  | pure x _ => exact .inl ⟨_, rfl⟩
  | read c hc r _ next hnext =>
    refine .inr ⟨c, fun a => if c.ok a then r a else some wrongTypeError, next, hc, rfl, fun a => ?_⟩
    exact (hnext a).trans (apply_ite Prog.ret _ _ _).symm

/-- A text put in quotes. -/
theorem unbroken_quoted {before inner after : Bytes} (h : Unbroken inner) (hbefore : Unbroken before)
    (hafter : Unbroken after) (hquote : before.getLast? ≠ some 13 ∧ after.head? ≠ some 10) :
    Unbroken (before ++ inner ++ after) :=
  (hbefore.append h (.inl hquote.1)).append hafter (.inr hquote.2)

/-- Only line ends become line ends. -/
theorem lower_eq {c d : UInt8} (hd : d = 13 ∨ d = 10) (h : (if 65 ≤ c ∧ c ≤ 90 then c + 32 else c) = d) : c = d := by
  split at h
  · next hc =>
    rw [UInt8.le_iff_toNat_le, UInt8.le_iff_toNat_le] at hc
    have hadd := congrArg UInt8.toNat h
    rw [UInt8.toNat_add] at hadd
    rcases hd with rfl | rfl <;> simp at hadd hc <;> omega
  · exact h

theorem unbroken_toLower (h : Unbroken name) : Unbroken (toLower name) := by
  induction name with
  | nil => exact h
  | cons c name ih =>
    cases name with
    | nil => rfl
    | cons d name =>
      obtain ⟨hcd, hname⟩ := unbroken_cons_cons.mp h
      refine unbroken_cons_cons.mpr ⟨fun hlow => hcd ?_, ih hname⟩
      exact ⟨lower_eq (.inl rfl) hlow.1, lower_eq (.inr rfl) hlow.2⟩

theorem ReadOnly.wrongArgs : ReadOnly name (reply (wrongArgsError name)) :=
  .refused _ fun h => unbroken_quoted (unbroken_toLower h) (by decide) (by decide) (by decide)

theorem ReadOnly.unknown : ReadOnly name (reply (unknownCommandError name)) :=
  .refused _ fun h => unbroken_quoted h (by decide) (by decide) (by decide)

theorem ReadOnly.notInteger : ReadOnly name (reply notIntegerError) := .refused _ fun _ => by decide

theorem ReadOnly.syntaxError : ReadOnly name (reply syntaxError) := .refused _ fun _ => by decide

/-- A read whose result is dereferenced. -/
theorem ReadOnly.deref {α : Type} (c : Call) (hc : c.isWrite = false) (result : c.Reply → Result α)
    (hok : ∀ a, c.ok a = (result a).ok) (hans : ∀ a, c.Answered a → (result a).value.isSome)
    {f : α → RespValue} (hf : ∀ v, (f v).Proper) :
    ReadOnly name (call c fun a => checked (result a) (deref (result a).value f)) := by
  refine .read c hc (fun a => (result a).value.map f) (fun a ha => ?_) _ fun a => ?_
  · obtain ⟨v, hv⟩ := Option.isSome_iff_exists.mp (hans a ha)
    exact ⟨f v, by rw [hv, Option.map_some], hf v⟩
  · rw [hok]
    rfl

/-- A write whose result is dereferenced. -/
theorem Conduct.deref (c : Call) (hc : c.isWrite = true) (result : c.Reply → Result Int)
    (hok : ∀ a, c.ok a = (result a).ok) (hans : ∀ a, c.Answered a → (result a).value.isSome) :
    Conduct (name :: args) fun aof => call c fun a =>
      checked (result a) (logged aof (name :: args) (deref (result a).value .integer)) := by
  refine .write c hc (fun a => (result a).value.map .integer) (fun a ha => ?_) _ fun aof a => ?_
  · obtain ⟨v, hv⟩ := Option.isSome_iff_exists.mp (hans a ha)
    exact ⟨.integer v, by rw [hv, Option.map_some], rfl, trivial⟩
  · rw [hok]
    rfl

/-- A write that cannot meet another type. -/
theorem Conduct.logged (c : Call) (hc : c.isWrite = true) (hok : ∀ a, c.ok a = true) {f : c.Reply → RespValue}
    (hf : ∀ a, (f a).Proper) :
    Conduct (name :: args) fun aof => call c fun a => logged aof (name :: args) (reply (f a)) :=
  .write c hc (fun a => some (f a)) (fun a _ => ⟨f a, rfl, hf a⟩) _ fun aof a => by
    rw [if_pos (hok a)]
    rfl

theorem Conduct.wrongArgs : Conduct (name :: args) fun _ => reply (wrongArgsError name) := .readOnly _ .wrongArgs

/-! ### Commands that do not write -/

theorem ping_conduct : ReadOnly name (ping name args) := by
  unfold ping
  split
  · exact .pure _ ⟨rfl, show Unbroken (ascii "PONG") by decide⟩
  · exact .pure _ ⟨rfl, trivial⟩
  · exact .wrongArgs

theorem echo_conduct : ReadOnly name (echo name args) := by
  unfold echo
  split
  · exact .pure _ ⟨rfl, trivial⟩
  · exact .wrongArgs

theorem get_conduct : ReadOnly name (Dispatcher.get name args) := by
  unfold Dispatcher.get
  split
  · exact .read (.get _) rfl (fun a => some (bulkOrNil (Result.value a)))
      (fun a _ => ⟨_, rfl, RespValue.proper_bulkOrNil _⟩) _ fun _ => rfl
  · exact .wrongArgs

theorem hGet_conduct : ReadOnly name (hGet name args) := by
  unfold hGet
  split
  · exact .read (.hGet _ _) rfl (fun a => some (bulkOrNil (Result.value a)))
      (fun a _ => ⟨_, rfl, RespValue.proper_bulkOrNil _⟩) _ fun _ => rfl
  · exact .wrongArgs

theorem exists_conduct : ReadOnly name (exists' name args) := by
  unfold exists'
  split
  · exact .wrongArgs
  · exact .read (.exists' _) rfl (fun (count : Int) => some (.integer count))
      (fun a _ => ⟨_, rfl, rfl, trivial⟩) _ fun _ => rfl

theorem keys_conduct : ReadOnly name (keys name args) := by
  unfold keys
  split
  · exact .read .keys rfl _ (fun a _ => ⟨_, rfl, RespValue.proper_bulks _⟩) _ fun _ => rfl
  · exact .wrongArgs

theorem ttl_conduct : ReadOnly name (ttl name args) := by
  unfold ttl
  split
  · exact .read (.ttl _) rfl (fun (seconds : Int) => some (.integer seconds))
      (fun a _ => ⟨_, rfl, rfl, trivial⟩) _ fun _ => rfl
  · exact .wrongArgs

theorem lLen_conduct : ReadOnly name (lLen name args) := by
  unfold lLen
  split
  · exact .deref (.lLen _) rfl id (fun _ => rfl) (fun _ h => h) fun _ => ⟨rfl, trivial⟩
  · exact .wrongArgs

theorem lRange_conduct : ReadOnly name (lRange name args) := by
  unfold lRange
  split
  · split
    · exact .deref (.lRange _ _ _) rfl id (fun _ => rfl) (fun _ h => h) RespValue.proper_bulks
    · exact .notInteger
  · exact .wrongArgs

theorem hGetAll_conduct : ReadOnly name (hGetAll name args) := by
  unfold hGetAll
  split
  · exact .deref (.hGetAll _) rfl id (fun _ => rfl) (fun _ h => h) fun _ => RespValue.proper_bulks _
  · exact .wrongArgs

theorem hLen_conduct : ReadOnly name (hLen name args) := by
  unfold hLen
  split
  · exact .deref (.hLen _) rfl id (fun _ => rfl) (fun _ h => h) fun _ => ⟨rfl, trivial⟩
  · exact .wrongArgs

theorem hExists_conduct : ReadOnly name (hExists name args) := by
  unfold hExists
  split
  · exact .deref (.hExists _ _) rfl id (fun _ => rfl) (fun _ h => h) fun _ => ⟨rfl, trivial⟩
  · exact .wrongArgs

theorem hKeys_conduct : ReadOnly name (hKeys name args) := by
  unfold hKeys
  split
  · exact .deref (.hKeys _) rfl id (fun _ => rfl) (fun _ h => h) RespValue.proper_bulks
  · exact .wrongArgs

theorem hVals_conduct : ReadOnly name (hVals name args) := by
  unfold hVals
  split
  · exact .deref (.hVals _) rfl id (fun _ => rfl) (fun _ h => h) RespValue.proper_bulks
  · exact .wrongArgs

/-! ### Commands that write -/

theorem set_conduct : Conduct (name :: args) fun aof => Dispatcher.set aof name args := by
  unfold Dispatcher.set
  split
  · exact .logged (.set _ _) rfl (fun _ => rfl) fun _ => proper_ok
  · split
    · exact .readOnly _ .syntaxError
    · split
      · exact .readOnly _ .notInteger
      · exact .setEx _ _ _
  · exact .wrongArgs

theorem del_conduct : Conduct (name :: args) fun aof => del aof name args := by
  unfold del
  split
  · exact .wrongArgs
  · exact .logged (.del _) rfl (fun _ => rfl) (f := fun (removed : Int) => .integer removed)
      fun _ => ⟨rfl, trivial⟩

theorem flushAll_conduct : Conduct (name :: args) fun aof => flushAll aof name args := by
  unfold flushAll
  split
  · exact .logged .flushAll rfl (fun _ => rfl) fun _ => proper_ok
  · exact .wrongArgs

theorem expire_conduct : Conduct (name :: args) fun aof => expire aof name args := by
  unfold expire
  split
  · split
    · exact .readOnly _ .notInteger
    · exact .logged (.expire _ _) rfl (fun _ => rfl)
        (f := fun (existed : Bool) => .integer (if existed then 1 else 0)) fun _ => ⟨rfl, trivial⟩
  · exact .wrongArgs

theorem lPush_conduct : Conduct (name :: args) fun aof => lPush aof name args := by
  unfold lPush
  split
  · exact .deref (.lPush _ _) rfl id (fun _ => rfl) fun _ h => h
  · exact .wrongArgs

theorem rPush_conduct : Conduct (name :: args) fun aof => rPush aof name args := by
  unfold rPush
  split
  · exact .deref (.rPush _ _) rfl id (fun _ => rfl) fun _ h => h
  · exact .wrongArgs

theorem hSet_conduct : Conduct (name :: args) fun aof => hSet aof name args := by
  unfold hSet
  split
  · split
    · exact .wrongArgs
    · exact .deref (.hSet _ _) rfl id (fun _ => rfl) fun _ h => h
  · exact .wrongArgs

theorem hDel_conduct : Conduct (name :: args) fun aof => hDel aof name args := by
  unfold hDel
  split
  · exact .deref (.hDel _ _) rfl id (fun _ => rfl) fun _ h => h
  · exact .wrongArgs

/-! ### Commands by name -/

section
variable {aof : Bool}

theorem dispatch_set (h : toUpper name = ascii "SET") :
    dispatch aof (name :: args) = Dispatcher.set aof name args := by
  unfold dispatch
  dsimp only
  rw [h]
  rfl

theorem dispatch_keys (h : toUpper name = ascii "KEYS") : dispatch aof (name :: args) = keys name args := by
  unfold dispatch
  dsimp only
  rw [h]
  rfl

theorem dispatch_expire (h : toUpper name = ascii "EXPIRE") : dispatch aof (name :: args) = expire aof name args := by
  unfold dispatch
  dsimp only
  rw [h]
  rfl

theorem dispatch_ttl (h : toUpper name = ascii "TTL") : dispatch aof (name :: args) = ttl name args := by
  unfold dispatch
  dsimp only
  rw [h]
  rfl

theorem dispatch_rPush (h : toUpper name = ascii "RPUSH") : dispatch aof (name :: args) = rPush aof name args := by
  unfold dispatch
  dsimp only
  rw [h]
  rfl

theorem dispatch_lRange (h : toUpper name = ascii "LRANGE") : dispatch aof (name :: args) = lRange name args := by
  unfold dispatch
  dsimp only
  rw [h]
  rfl

end

/-! ### Every command -/

/-- The commands that only read. -/
def readCommands : List Bytes :=
  [ascii "GET", ascii "EXISTS", ascii "KEYS", ascii "TTL", ascii "LLEN", ascii "LRANGE", ascii "HGET",
    ascii "HGETALL", ascii "HLEN", ascii "HEXISTS", ascii "HKEYS", ascii "HVALS", ascii "PING", ascii "ECHO"]

section
variable {P : (Bool → Program) → Prop}

theorem ite_elim {C : Prop} [Decidable C] {p q : Bool → Program} (hp : C → P p) (hq : P q) :
    P fun aof => if C then p aof else q aof := by
  split
  · next h => exact hp h
  · exact hq

/-- Something holds of every dispatch if it holds of the programs that do not write, of those of
the commands that can, each by its name, and of the reply to a name that is unknown. -/
theorem dispatch_elim (hread : ∀ p, ReadOnly name p → toUpper name ∈ readCommands → P fun _ => p)
    (hunknown : P fun _ => reply (unknownCommandError name))
    (hset : toUpper name = ascii "SET" → P fun aof => Dispatcher.set aof name args)
    (hdel : toUpper name = ascii "DEL" → P fun aof => del aof name args)
    (hflushAll : toUpper name = ascii "FLUSHALL" → P fun aof => flushAll aof name args)
    (hexpire : toUpper name = ascii "EXPIRE" → P fun aof => expire aof name args)
    (hlPush : toUpper name = ascii "LPUSH" → P fun aof => lPush aof name args)
    (hrPush : toUpper name = ascii "RPUSH" → P fun aof => rPush aof name args)
    (hhSet : toUpper name = ascii "HSET" → P fun aof => hSet aof name args)
    (hhDel : toUpper name = ascii "HDEL" → P fun aof => hDel aof name args) :
    P fun aof => dispatch aof (name :: args) := by
  have hreads : ∀ {cmd : Bytes} {p : Program}, cmd ∈ readCommands → ReadOnly name p → toUpper name = cmd →
      P fun _ => p := fun hcmd hp heq => hread _ hp (heq ▸ hcmd)
  refine ite_elim (hreads (by decide) ping_conduct) ?_
  refine ite_elim (hreads (by decide) echo_conduct) ?_
  refine ite_elim hset ?_
  refine ite_elim (hreads (by decide) get_conduct) ?_
  refine ite_elim hdel ?_
  refine ite_elim (hreads (by decide) exists_conduct) ?_
  refine ite_elim (hreads (by decide) keys_conduct) ?_
  refine ite_elim hflushAll ?_
  refine ite_elim hexpire ?_
  refine ite_elim (hreads (by decide) ttl_conduct) ?_
  refine ite_elim hlPush ?_
  refine ite_elim hrPush ?_
  refine ite_elim (hreads (by decide) lLen_conduct) ?_
  refine ite_elim (hreads (by decide) lRange_conduct) ?_
  refine ite_elim hhSet ?_
  refine ite_elim (hreads (by decide) hGet_conduct) ?_
  refine ite_elim hhDel ?_
  refine ite_elim (hreads (by decide) hGetAll_conduct) ?_
  refine ite_elim (hreads (by decide) hLen_conduct) ?_
  refine ite_elim (hreads (by decide) hExists_conduct) ?_
  refine ite_elim (hreads (by decide) hKeys_conduct) ?_
  refine ite_elim (hreads (by decide) hVals_conduct) ?_
  exact hunknown

end

/-- **What a dispatch can do**, for every command. -/
theorem dispatch_conduct (args : List Bytes) : Conduct args fun aof => dispatch aof args := by
  cases args with
  | nil => exact .nothing rfl
  | cons name args =>
    exact dispatch_elim (fun _ h _ => .readOnly _ h) (.readOnly _ .unknown) (fun _ => set_conduct)
      (fun _ => del_conduct) (fun _ => flushAll_conduct) (fun _ => expire_conduct) (fun _ => lPush_conduct)
      (fun _ => rPush_conduct) (fun _ => hSet_conduct) fun _ => hDel_conduct

/-- The conduct of a dispatch, with its program given a name. -/
theorem dispatch_program (args : List Bytes) : ∃ p, Conduct args p ∧ ∀ aof, dispatch aof args = p aof :=
  ⟨_, dispatch_conduct args, fun _ => rfl⟩

/-- None of the commands that only read writes, whatever its arguments. -/
theorem dispatch_readOnly (aof : Bool) (args : List Bytes) (h : toUpper name ∈ readCommands) :
    ReadOnly name (dispatch aof (name :: args)) := by
  have hwrites : ∀ {cmd : Bytes} {p : Program}, cmd ∉ readCommands → toUpper name = cmd → ReadOnly name p :=
    fun hcmd heq => absurd (heq ▸ h) hcmd
  exact dispatch_elim (P := fun p => ReadOnly name (p aof)) (fun _ hp _ => hp) .unknown (hwrites (by decide))
    (hwrites (by decide)) (hwrites (by decide)) (hwrites (by decide)) (hwrites (by decide)) (hwrites (by decide))
    (hwrites (by decide)) (hwrites (by decide))

end GoRedis
