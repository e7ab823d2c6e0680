import GoRedis.Resp.Accepted
import GoRedis.Server.Frame

/-! The server as a client sees it.

A client sends commands and reads replies off the same connection, so it can tell them apart
only if each reply is exactly one value of the protocol. Every reply is, whatever the store
holds and whatever other clients do, except that the error for an unknown command repeats
the name as it was sent: a name with a CRLF in it ends that reply early. What a client sends
can also be logged, and then has to be read back from the log. -/
namespace GoRedis
open Interleaving Dispatcher CommandParser

/-! ### Replies -/

theorem RespValue.Lined.decode {x : RespValue} (h : x.Lined) : GoRedis.decode x.encode = some (x, []) := by
  have hread := reads_decode h []
  rwa [List.append_nil] at hread

theorem decode_error (message : Bytes) :
    decode (RespValue.error message).encode =
      (splitCrlf (message ++ crlf)).map fun p => (RespValue.error p.1, p.2) := by
  show Option.bind (splitCrlf (message ++ crlf)) _ = _
  cases splitCrlf (message ++ crlf) <;> rfl

/-- An error with a CRLF in its text is not read back. -/
theorem unbroken_of_decode {message : Bytes}
    (h : decode (RespValue.error message).encode = some (.error message, [])) : Unbroken message := by
  cases hs : splitCrlf message with
  | none => exact hs
  | some p =>
    obtain ⟨line, rest⟩ := p
    rw [decode_error, splitCrlf_append hs] at h
    have hrest := congrArg Prod.snd (Option.some.inj h)
    exact absurd hrest (by simp [crlf])

variable {aof : Bool} {envs : Nat → Env} {name : Bytes} {args : List Bytes}

theorem ReadOnly.ends {p : Program} (h : ReadOnly name p) {r : Option RespValue} (hr : p.Ends (World.exec envs) r) :
    ∃ x, r = some x ∧ (Unbroken name → x.Lined) := by
  cases h with
  | refused message h =>
    cases hr
    exact ⟨_, rfl, h⟩
  | pure x hx =>
    cases hr
    exact ⟨x, rfl, fun _ => hx.lined⟩
  | read c hc r hr' next hnext =>
    cases hr with
    | step w hr =>
      rw [hnext] at hr
      split at hr
      · next hok =>
        obtain ⟨x, hx, hproper⟩ := hr' _ (call_answered envs w hok)
        rw [hx] at hr
        cases hr
        exact ⟨x, rfl, fun _ => hproper.lined⟩
      · cases hr
        exact ⟨_, rfl, fun _ => show Unbroken _ by decide⟩

theorem ends_logged {r r' : Option RespValue}
    (h : (logged aof args (.ret r)).Ends (World.exec envs) r') : r' = r := by
  cases aof with
  | false =>
    cases h
    rfl
  | true =>
    cases h with
    | step w h =>
      cases h
      rfl

theorem Conduct.ends {p : Bool → Program} (h : Conduct (name :: args) p) {r : Option RespValue}
    (hr : (p aof).Ends (World.exec envs) r) : ∃ x, r = some x ∧ (Unbroken name → x.Lined) := by
  cases h with
  | nothing h => cases h
  | readOnly p h => exact h.ends hr
  | write c hc r hr' next hnext =>
    cases hr with
    | step w hr =>
      rw [hnext] at hr
      split at hr
      · next hok =>
        obtain ⟨x, hx, hproper⟩ := hr' _ (call_answered envs w hok)
        exact ⟨x, (ends_logged hr).trans hx, fun _ => hproper.lined⟩
      · cases hr
        exact ⟨_, rfl, fun _ => show Unbroken _ by decide⟩
  | setEx key value seconds =>
    cases hr with
    | step w hr =>
      cases hr with
      | step w' hr => exact ⟨ok, ends_logged hr, fun _ => proper_ok.lined⟩

/-- There is always a reply, and it is read back if the command's name is one line. -/
theorem dispatch_ends {r : Option RespValue} (h : (dispatch aof (name :: args)).Ends (World.exec envs) r) :
    ∃ x, r = some x ∧ (Unbroken name → x.Lined) :=
  (dispatch_conduct (name :: args)).ends h

theorem mem_toUpper (h : 13 ∈ name) : 13 ∈ toUpper name := List.mem_map.mpr ⟨13, h, by decide⟩

/-- No command has a CRLF in its name. -/
theorem dispatch_broken (h : ¬Unbroken name) : dispatch aof (name :: args) = reply (unknownCommandError name) := by
  obtain ⟨⟨line, rest⟩, hsplit⟩ := Option.ne_none_iff_exists'.mp h
  have hmem : 13 ∈ toUpper name := mem_toUpper (by simp [splitCrlf_eq hsplit, crlf])
  have hknown : ∀ {cmd : Bytes} {p : Program}, 13 ∉ cmd → toUpper name = cmd → p = reply (unknownCommandError name) :=
    fun hcmd heq => absurd (heq ▸ hmem) hcmd
  have hread : ∀ cmd ∈ readCommands, 13 ∉ cmd := by decide
  exact dispatch_elim (P := fun p => p aof = reply (unknownCommandError name))
    (fun _ _ hname => hknown (hread _ hname) rfl) rfl (hknown (by decide)) (hknown (by decide)) (hknown (by decide))
    (hknown (by decide)) (hknown (by decide)) (hknown (by decide)) (hknown (by decide)) (hknown (by decide))

theorem unbroken_of_append {before inner after : Bytes} (h : Unbroken (before ++ inner ++ after)) :
    Unbroken inner := by
  have hfront : Unbroken (before ++ inner) := by
    cases hs : splitCrlf (before ++ inner) with
    | none => exact hs
    | some p =>
      obtain ⟨line, rest⟩ := p
      rw [Unbroken, splitCrlf_append hs] at h
      cases h
  clear h
  induction before with
  | nil => exact hfront
  | cons c before ih =>
    refine ih ?_
    cases hs : before ++ inner with
    | nil => rfl
    | cons d s =>
      rw [List.cons_append, hs] at hfront
      exact (unbroken_cons_cons.mp hfront).2

/-- **One reply for one command**: from any store, the reply is read back exactly when the
command's name has no CRLF in it. -/
theorem reply_decoded (aof : Bool) (envs : Nat → Env) (w : World) (name : Bytes) (args : List Bytes) :
    ∃ x, ((dispatch aof (name :: args)).run (World.exec envs) w).2 = some x ∧
      (decode x.encode = some (x, []) ↔ Unbroken name) := by
  obtain ⟨x, hx, hlined⟩ := dispatch_ends (Prog.ends_run (World.exec envs) (dispatch aof (name :: args)) w)
  refine ⟨x, hx, fun h => ?_, fun h => (hlined h).decode⟩
  by_contra hname
  rw [dispatch_broken hname] at hx
  obtain rfl : unknownCommandError name = x := Option.some.inj hx
  exact hname (unbroken_of_append (unbroken_of_decode h))

/-! ### Connections -/

/-- The error `HandleClient` closes a connection with. -/
def protocolError (message : Bytes) : RespValue := .error (ascii "ERR Protocol error: " ++ message)

/-- What it has sent: the replies and, when it closes the connection, the error. -/
def sent (replies : List RespValue) (closing : Option Bytes) : List RespValue :=
  replies ++ (closing.map protocolError).toList

theorem protocolError_lined {message : Bytes} (h : Unbroken message) : (protocolError message).Lined :=
  Unbroken.append (s := ascii "ERR Protocol error: ") (by decide) h (.inl (by decide))

theorem times_decode {values : List RespValue} (h : ∀ x ∈ values, x.Lined) :
    Codec.times decode values.length (values.flatMap RespValue.encode) = some (values, []) := by
  have hread := Codec.reads_times (f := id) (fun x hx => reads_decode (h x hx)) []
  rwa [List.append_nil, List.map_id] at hread

/-- The results of a client's commands are replies that are read back. -/
theorem results_lined {commands : List (List Bytes)} {results : List (Option RespValue)}
    (h : List.Forall₂ (fun args r => (dispatch aof args).Ends (World.exec envs) r) commands results)
    (hnames : ∀ args ∈ commands, args ≠ [] ∧ Unbroken (args.headD [])) :
    ∃ replies : List RespValue, results = replies.map some ∧ (∀ x ∈ replies, x.Lined) ∧
      List.Forall₂ (fun args x => (dispatch aof args).Ends (World.exec envs) (some x)) commands replies := by
  induction h with
  | nil => exact ⟨[], rfl, fun _ hx => absurd hx List.not_mem_nil, .nil⟩
  | @cons args r commands results hr _ ih =>
    obtain ⟨⟨hne, hname⟩, hrest⟩ := List.forall_mem_cons.mp hnames
    obtain ⟨replies, hresults, hlined, hanswer⟩ := ih hrest
    cases args with
    | nil => exact absurd rfl hne
    | cons name args =>
      obtain ⟨x, rfl, hx⟩ := dispatch_ends hr
      exact ⟨x :: replies, by rw [hresults, List.map_cons], List.forall_mem_cons.mpr ⟨hx hname, hlined⟩,
        .cons hr hanswer⟩

/-- A client none of whose commands has a CRLF in its name decodes, off everything it has been
sent, the replies to its commands in order, the protocol error its connection is closed with, and
nothing else. -/
theorem client_decodes {ι : Type} [DecidableEq ι] (aof : Bool) (envs : Nat → Env) (chunks : ι → List Bytes)
    (w : World) (schedule : List ι) (i : ι)
    (h : ∀ args ∈ (handleClient (chunks i)).items, Unbroken (args.headD [])) :
    let commands := fun i => (handleClient (chunks i)).items
    let c := ((Config.start w commands).run (dispatch aof) (World.exec envs) schedule).clients i
    ∃ replies : List RespValue, c.results = replies.map some ∧
      List.Forall₂ (fun args x => (dispatch aof args).Ends (World.exec envs) (some x))
        ((commands i).take replies.length) replies ∧
      ∀ closing, closing = none ∨ closing = (handleClient (chunks i)).error →
        Codec.times decode (sent replies closing).length ((sent replies closing).flatMap RespValue.encode) =
          some (sent replies closing, []) := by
  intro commands c
  obtain ⟨hne, herror⟩ := handleClient_yields (chunks i)
  have hanswering : Config.Answering (dispatch aof) (World.exec envs) (commands i) c :=
    Config.run_answering w commands schedule i
  obtain ⟨done, hdone, hresults⟩ := hanswering.done
  obtain ⟨replies, hreplies, hlined, hanswer⟩ := results_lined hresults fun args hargs => by
    have hmem : args ∈ commands i := by
      rw [hdone, List.append_assoc]
      exact List.mem_append_left _ hargs
    exact ⟨hne args hmem, h args hmem⟩
  refine ⟨replies, hreplies, ?_, fun closing hclosing => times_decode (List.forall_mem_append.mpr ⟨hlined, ?_⟩)⟩
  · rw [hdone, List.append_assoc, ← hanswer.length_eq, List.take_left]
    exact hanswer
  · intro x hx
    rw [Option.mem_toList, Option.map_eq_some_iff] at hx
    obtain ⟨message, hmessage, rfl⟩ := hx
    rcases hclosing with rfl | rfl
    · cases hmessage
    · exact protocolError_lined (herror message hmessage)

/-- **The n-th reply answers the n-th command.** From any store, the reply to a command is read
back exactly when its name has no CRLF in it. So, with any number of clients served in any
interleaving, a client none of whose commands has such a name decodes the replies to its commands
in order, the protocol error its connection is closed with, and nothing else. -/
theorem replies_decoded (aof : Bool) (envs : Nat → Env) :
    (∀ (w : World) (name : Bytes) (args : List Bytes),
      ∃ x, ((dispatch aof (name :: args)).run (World.exec envs) w).2 = some x ∧
        (decode x.encode = some (x, []) ↔ Unbroken name)) ∧
    ∀ {ι : Type} [DecidableEq ι] (chunks : ι → List Bytes) (w : World) (schedule : List ι) (i : ι),
      (∀ args ∈ (handleClient (chunks i)).items, Unbroken (args.headD [])) →
      let commands := fun i => (handleClient (chunks i)).items
      let c := ((Config.start w commands).run (dispatch aof) (World.exec envs) schedule).clients i
      ∃ replies : List RespValue, c.results = replies.map some ∧
        List.Forall₂ (fun args x => (dispatch aof args).Ends (World.exec envs) (some x))
          ((commands i).take replies.length) replies ∧
        ∀ closing, closing = none ∨ closing = (handleClient (chunks i)).error →
          Codec.times decode (sent replies closing).length ((sent replies closing).flatMap RespValue.encode) =
            some (sent replies closing, []) :=
  ⟨reply_decoded aof envs, client_decodes aof envs⟩

/-- One client sends a `PING`, an unknown command and a malformed request, after the first two
of which its connection is closed. -/
theorem replies_decoded_unknown :
    let chunks : Unit → List Bytes := fun _ => [ascii "PING\r\nNO\r\n*x\r\n"]
    let commands := fun i => (handleClient (chunks i)).items
    let c := ((Config.start {} commands).run (dispatch false) (World.exec fun _ => { now := 0 })
      [(), (), (), ()]).clients ()
    (∀ args ∈ (handleClient (chunks ())).items, Unbroken (args.headD [])) ∧
      ∃ replies : List RespValue, c.results = replies.map some ∧
        Codec.times decode (sent replies none).length ((sent replies none).flatMap RespValue.encode) =
          some (sent replies none, []) := by
  intro chunks commands c
  have hitems : (handleClient [ascii "PING\r\nNO\r\n*x\r\n"]).items = [[ascii "PING"], [ascii "NO"]] := by
    decide +kernel
  have h : ∀ args ∈ (handleClient (chunks ())).items, Unbroken (args.headD []) := by
    rw [hitems]
    decide
  obtain ⟨replies, hreplies, -, hdecode⟩ :=
    (replies_decoded false fun _ => { now := 0 }).2 chunks {} [(), (), (), ()] () h
  exact ⟨h, replies, hreplies, hdecode none (.inl rfl)⟩

/-- A request whose name has a CRLF in it: the one reply to it is read as two. -/
theorem reply_broken :
    let args := [ascii "x\r\n+OK"]
    let x := unknownCommandError (ascii "x\r\n+OK")
    (handleClient [ascii "*1\r\n$6\r\nx\r\n+OK\r\n"]).items = [args] ∧
      ((dispatch false args).run (World.exec fun _ => { now := 0 }) {}).2 = some x ∧
      decode x.encode = some (.error (ascii "ERR unknown command 'x"), ascii "+OK'\r\n") ∧
      decode (ascii "+OK'\r\n") = some (.simpleString (ascii "OK'"), []) := by
  intro args x
  refine ⟨by decide +kernel, ?_, ?_, ?_⟩
  · rw [dispatch_broken (by decide)]
    rfl
  · have hsplit : splitCrlf (ascii "ERR unknown command '" ++ ascii "x\r\n+OK" ++ ascii "'" ++ crlf) =
        some (ascii "ERR unknown command 'x", ascii "+OK'\r\n") := by decide
    rw [show x = .error _ from rfl, decode_error, hsplit, Option.map_some]
  · have hlined : (RespValue.simpleString (ascii "OK'")).Lined := show Unbroken (ascii "OK'") by decide
    exact hlined.decode

/-! ### Requests that are logged -/

/-- Within the limits the parser has for arrays, which it does not hold inline lines to. -/
structure InLimits (args : List Bytes) : Prop where
  count : (args.length : Int) ≤ kMaxArgs
  sizes : ∀ arg ∈ args, (arg.length : Int) ≤ kMaxBulkLen

/-- Only a command that was sent inline can be beyond the limits, and exactly such a command
is not read back. -/
theorem accepted_iff {chunks : List Bytes} {args : List Bytes} (h : args ∈ (handleClient chunks).items) :
    tryParseCommand (encodeCommand args) = ([], .complete args) ↔ InLimits args := by
  have hpos : 0 < args.length := List.length_pos_iff.mpr ((handleClient_yields chunks).1 args h)
  rw [parse_encodeCommand_iff]
  exact ⟨fun hlog => ⟨hlog.count, hlog.sizes⟩, fun hlim => ⟨hpos, hlim.count, hlim.sizes⟩⟩

/-- **What clients send can be replayed.** A log of commands that the parser returned, to
whatever clients, each within the limits, is read back: each command's encoding is parsed as
the command, and `LoadAof` does not stop. -/
theorem accepted_replayable (log : List (List Bytes))
    (h : ∀ args ∈ log, ∃ chunks, args ∈ (handleClient chunks).items) (hlimits : ∀ args ∈ log, InLimits args) :
    (∀ args ∈ log, tryParseCommand (encodeCommand args) = ([], .complete args)) ∧
      ∀ envs w, (loadAof envs (encodeAll log) w).2 = true := by
  have hparse : ∀ args ∈ log, tryParseCommand (encodeCommand args) = ([], .complete args) := by
    intro args hargs
    obtain ⟨chunks, hchunks⟩ := h args hargs
    exact (accepted_iff hchunks).mpr (hlimits args hargs)
  refine ⟨hparse, fun envs w => ?_⟩
  have hlog := log_drain (fun args hargs => parse_encodeCommand_iff.mp (hparse args hargs)) (.inl rfl)
  rw [List.append_nil] at hlog
  rw [loadAof, hlog]
  rfl

/-- A command of one client that was sent inline, and one of another that was sent as an array. -/
theorem accepted_replayable_two :
    let log := [[ascii "DEL", ascii "k"], [ascii "FLUSHALL"]]
    (∀ args ∈ log, ∃ chunks, args ∈ (handleClient chunks).items) ∧
      (∀ args ∈ log, tryParseCommand (encodeCommand args) = ([], .complete args)) ∧
      (loadAof (fun _ => { now := 0 }) (encodeAll log) {}).2 = true := by
  intro log
  have hlog : ∀ args ∈ log, ∃ chunks, args ∈ (handleClient chunks).items := by
    have hline : (handleClient [ascii "DEL k\n"]).items = [[ascii "DEL", ascii "k"]] := by decide +kernel
    have harray : (handleClient [ascii "*1\r\n$8\r\nFLUSHALL\r\n"]).items = [[ascii "FLUSHALL"]] := by
      decide +kernel
    intro args hargs
    rcases List.mem_pair.mp hargs with rfl | rfl
    · exact ⟨_, hline ▸ List.mem_singleton_self _⟩
    · exact ⟨_, harray ▸ List.mem_singleton_self _⟩
  have hlimits : ∀ args ∈ log, InLimits args := by
    intro args hargs
    rcases List.mem_pair.mp hargs with rfl | rfl
    · exact ⟨by decide, by decide⟩
    · exact ⟨by decide, by decide⟩
  exact ⟨hlog, (accepted_replayable log hlog hlimits).1, (accepted_replayable log hlog hlimits).2 _ _⟩

/-- An inline line of 1025 words. -/
theorem accepted_too_many :
    let line := ascii "DEL" ++ (List.replicate 1024 (ascii " k")).flatten ++ [10]
    let args := ascii "DEL" :: List.replicate 1024 (ascii "k")
    (handleClient [line]).items = [args] ∧
      ((dispatch true args).run (World.exec fun _ => { now := 0 }) {}).1.log = [args] ∧
      (tryParseCommand (encodeCommand args)).2 = .error (ascii "invalid multibulk length") ∧
      (loadAof (fun _ => { now := 0 }) (encodeAll [args]) {}).2 = false := by
  intro line args
  exact ⟨by decide +kernel, by decide +kernel, by decide +kernel, by decide +kernel⟩

end GoRedis
