import GoRedis.Lib.Arrivals
import GoRedis.Resp.Arriving
import GoRedis.Server.Wire

/-! Connections (`HandleClient` and `SendAll` in `server/tcp_server.cpp`).

Each connection has a thread that receives a piece of what the client sends, parses and
dispatches the commands that have become complete, sending each reply before it parses the
next one, and receives again. `recv` and `send` move as many bytes as the kernel likes, and
can fail at any time. A turn is one such call, one attempt of the parser, or one step of a
dispatch, and connections take turns in any order. In between the sweeper deletes keys that
have expired.

`sockets_refine` says what this machine computes: there are chunks the clients' bytes were
received in, and a run of the machine that has all commands from the start and knows neither
sockets nor buffers (`Config`), that ends with the same world, and what each client has been
sent is its results, encoded, except for a part of the last one. -/
namespace GoRedis
open Interleaving Incremental CommandParser Dispatcher

def kRecvBufSize : Nat := 4096

/-- Where `HandleClient` is: in `recv`, before an attempt of the parser, in `Dispatch`, in
`SendAll` with what it has yet to send, which may be the `last` thing it does, or back. -/
inductive Phase where
  | receiving
  | parsing
  | dispatching (rest : Program)
  | sending (rest : Bytes) (last : Bool)
  | closed

/-- A connection: what the client has sent and `recv` has not returned, the parser's buffer,
and what `send` has taken. -/
structure Connection where
  inbound : Bytes
  buffer : Bytes := []
  phase : Phase := .receiving
  sent : Bytes := []

namespace Connection

/-- A call of `recv` that returns at most `n` bytes; none are an error or the peer's end. -/
def recv (n : Nat) (c : Connection) : Connection :=
  let chunk := (c.inbound.take kRecvBufSize).take n
  if chunk.isEmpty then { c with phase := .closed }
  else { c with inbound := c.inbound.drop chunk.length, buffer := c.buffer ++ chunk, phase := .parsing }

/-- An attempt of the parser. -/
def parse (aof : Bool) (c : Connection) : Connection :=
  match tryParseCommand c.buffer with
  | (buffer, .complete args) => { c with buffer, phase := .dispatching (dispatch aof args) }
  | (buffer, .incomplete) => { c with buffer, phase := .receiving }
  | (buffer, .error message) => { c with buffer, phase := .sending (protocolError message).encode true }

/-- A round of `SendAll`, in which `send` takes at most `n` bytes; taking none is an error. -/
def sendAll (n : Nat) (rest : Bytes) (last : Bool) (c : Connection) : Connection :=
  if rest.isEmpty then { c with phase := if last then .closed else .parsing }
  else if n = 0 then { c with phase := .closed }
  else { c with sent := c.sent ++ rest.take n, phase := .sending (rest.drop n) last }

end Connection

/-- The second phase of `SweepExpired`: the keys that the first one has found, and the clock. -/
structure Sweep where
  now : Time
  found : List Bytes

def World.sweep (sweep : Sweep) (w : World) : World :=
  { w with store := w.store.deleteAllExpired sweep.now sweep.found }

/-- What happens next: a connection has a turn, at which the kernel moves at most `n` bytes, or
the sweeper has one. -/
inductive Event (ι : Type) where
  | turn (i : ι) (n : Nat)
  | sweep (sweep : Sweep)

/-- The sweeps among some events. -/
def Event.sweeps {ι : Type} (events : List (Event ι)) : List Sweep :=
  events.filterMap fun
    | .turn .. => none
    | .sweep x => some x

/-- The connections and what they share. -/
structure Service (ι : Type) where
  world : World
  connections : ι → Connection

namespace Service
variable {ι : Type} [DecidableEq ι] (aof : Bool) (envs : Nat → Env)

/-- A step of `HandleClient`. A dispatch always has a reply, since no command is empty. -/
def handleClient (n : Nat) (c : Connection) (w : World) : Connection × World :=
  match c.phase with
  | .receiving => (c.recv n, w)
  | .parsing => (c.parse aof, w)
  | .dispatching (.ret (some reply)) => ({ c with phase := .sending reply.encode false }, w)
  | .dispatching (.ret none) => (c, w)
  | .dispatching (.step op next) =>
    let r := World.exec envs w op
    ({ c with phase := .dispatching (next r.2) }, r.1)
  | .sending rest last => (c.sendAll n rest last, w)
  | .closed => (c, w)

def step (s : Service ι) : Event ι → Service ι
  | .turn i n =>
    let r := handleClient aof envs n (s.connections i) s.world
    ⟨r.2, Function.update s.connections i r.1⟩
  | .sweep sweep => { s with world := s.world.sweep sweep }

def run (s : Service ι) (events : List (Event ι)) : Service ι := events.foldl (step aof envs) s

/-- The clients' bytes, of which nothing has been received. -/
def start (w : World) (streams : ι → Bytes) : Service ι := ⟨w, fun i => { inbound := streams i }⟩

end Service

/-! ### What a connection has been through -/

/-- What the parser has yet to give, of what has been received. -/
inductive Remains (b : Bytes) : Phase → Incremental.Session UInt8 (List Bytes) Bytes → Prop where
  | receiving : Remains b .receiving { buffer := b }
  | parsing : Remains b .parsing (parser.drain b)
  | dispatching (rest : Program) : Remains b (.dispatching rest) (parser.drain b)
  | sending (rest : Bytes) : Remains b (.sending rest false) (parser.drain b)
  | refusing (rest : Bytes) (message : Bytes) : Remains b (.sending rest true) { buffer := b, error := some message }
  | closed (t : Incremental.Session UInt8 (List Bytes) Bytes) : Remains b .closed t

namespace Phase

/-- The program that is running. -/
def program : Phase → Option Program
  | .dispatching rest => some rest
  | .receiving | .parsing | .sending .. | .closed => none

theorem eq_dispatching {phase : Phase} {rest : Program} (h : phase.program = some rest) :
    phase = .dispatching rest := by
  cases phase <;> simp_all [program]

/-- What is known to be left to send, and whether it is the last thing. -/
def left : Phase → Option (Bytes × Bool)
  | .receiving | .parsing | .dispatching _ => some ([], false)
  | .sending rest last => some (rest, last)
  | .closed => none

end Phase

/-- The wire of a connection: the values sent on it make up what `send` has taken and a
`rest`, which is the end of the last one. -/
structure Wired (phase : Phase) (out : Bytes) (values : List RespValue) (closing : Option Bytes) (rest : Bytes) :
    Prop where
  bytes : out ++ rest = (sent values closing).flatMap RespValue.encode
  within : rest <:+ ((sent values closing).getLast?.map RespValue.encode).getD []
  left : ∀ x ∈ phase.left, x = (rest, closing.isSome)

/-- A connection as its client sees it: of the client's bytes the `chunks` were received, each
of which fits the buffer; the `results` are replies, and they are on the wire. -/
structure Served (stream : Bytes) (chunks : List Bytes) (results : List (Option RespValue)) (c : Connection) :
    Prop where
  received : chunks.flatten ++ c.inbound = stream
  short : ∀ chunk ∈ chunks, chunk ≠ [] ∧ chunk.length ≤ kRecvBufSize
  wired : ∃ replies closing rest, results = replies.map some ∧
    (closing = none ∨ closing = (handleClient chunks).error) ∧ Wired c.phase c.sent replies closing rest

/-- What ties a connection to its client in the machine without sockets. -/
structure Serving (stream : Bytes) (chunks : List Bytes) (begun : List (List Bytes)) (client : Session)
    (c : Connection) : Prop where
  served : Served stream chunks client.results c
  running : client.running.map Prod.snd = c.phase.program
  parsed : ∃ t, Remains c.buffer c.phase t ∧
    handleClient chunks = Session.andThen { items := begun } t

/-! ### The wire -/

section Wire
variable {phase : Phase} {out rest : Bytes} {values : List RespValue} {closing : Option Bytes}

theorem sent_none (values : List RespValue) : sent values none = values := List.append_nil values

theorem Wired.known (h : Wired phase out values closing rest) {unsent : Bytes} {last : Bool}
    (hleft : phase.left = some (unsent, last)) : rest = unsent ∧ closing.isSome = last := by
  have hx := h.left _ hleft
  simp only [Prod.mk.injEq] at hx
  exact ⟨hx.1.symm, hx.2.symm⟩

/-- Between two replies everything has been sent. -/
theorem Wired.all (h : Wired phase out values closing rest) (hleft : phase.left = some ([], false)) :
    closing = none ∧ out = values.flatMap RespValue.encode := by
  obtain ⟨rfl, hclosing⟩ := h.known hleft
  have hnone : closing = none := by simpa using hclosing
  subst hnone
  have hbytes := h.bytes
  rw [List.append_nil, sent_none] at hbytes
  exact ⟨rfl, hbytes⟩

theorem wired_idle (hout : out = values.flatMap RespValue.encode) (hleft : phase.left = some ([], false)) :
    Wired phase out values none [] := by
  refine ⟨?_, List.nil_suffix, ?_⟩
  · rw [List.append_nil, sent_none, hout]
  · intro x hx
    rw [hleft] at hx
    exact (Option.some.inj hx).symm

/-- A value is put on the wire. -/
theorem wired_value {x : RespValue} (hout : out = values.flatMap RespValue.encode) {replies : List RespValue}
    (hvalues : sent replies closing = values ++ [x]) {last : Bool} (hlast : closing.isSome = last) :
    Wired (.sending x.encode last) out replies closing x.encode := by
  refine ⟨?_, ?_, ?_⟩
  · rw [hvalues, List.flatMap_append, ← hout]
    simp
  · rw [hvalues, List.getLast?_concat]
    exact List.suffix_rfl
  · intro y hy
    rw [hlast]
    exact (Option.some.inj hy).symm

theorem Wired.send {unsent : Bytes} {last : Bool} (h : Wired (.sending unsent last) out values closing rest)
    (n : Nat) :
    Wired (.sending (unsent.drop n) last) (out ++ unsent.take n) values closing (unsent.drop n) := by
  obtain ⟨rfl, hlast⟩ := h.known rfl
  refine ⟨?_, (List.drop_suffix n rest).trans h.within, ?_⟩
  · rw [List.append_assoc, List.take_append_drop, h.bytes]
  · intro x hx
    rw [hlast]
    exact (Option.some.inj hx).symm

theorem Wired.close (h : Wired phase out values closing rest) : Wired .closed out values closing rest :=
  ⟨h.bytes, h.within, fun x hx => by cases hx⟩

end Wire

/-! ### One turn -/

/-- What a turn of a connection is for its client in the machine without sockets: nothing, the
arrival of a command, or a turn of the client. -/
inductive Matched (aof : Bool) (envs : Nat → Env) (stream : Bytes) (chunks : List Bytes) (begun : List (List Bytes))
    (client : Session) (w : World) : Connection × World → Prop where
  | none (chunks' : List Bytes) (c : Connection) (h : Serving stream chunks' begun client c) :
    Matched aof envs stream chunks begun client w (c, w)
  | arrival (k : List Bytes) (c : Connection) (hidle : client.running = none)
    (h : Serving stream chunks (begun ++ [k]) { client with running := some (k, dispatch aof k) } c) :
    Matched aof envs stream chunks begun client w (c, w)
  | turn (client' : Session) (c : Connection) (w' : World) (hbusy : client.running.isSome = true)
    (hturn : client.turn (dispatch aof) (World.exec envs) w = (client', w'))
    (h : Serving stream chunks begun client' c) : Matched aof envs stream chunks begun client w (c, w')

section Turn
variable {aof : Bool} {envs : Nat → Env} {stream : Bytes} {chunks : List Bytes} {begun : List (List Bytes)}
  {client : Session} {c : Connection} {w : World}

theorem Serving.close (h : Serving stream chunks begun client c) (hprogram : c.phase.program = none) :
    Serving stream chunks begun client { c with phase := .closed } := by
  obtain ⟨⟨hreceived, hshort, replies, closing, rest, hresults, hclosing, hwired⟩, hrunning, t, -, hparsed⟩ := h
  refine ⟨⟨hreceived, hshort, replies, closing, rest, hresults, hclosing, hwired.close⟩, ?_, t, .closed t, hparsed⟩
  rw [hrunning, hprogram]
  rfl

theorem Serving.recv (h : Serving stream chunks begun client c) (hphase : c.phase = .receiving) (n : Nat) :
    Matched aof envs stream chunks begun client w (c.recv n, w) := by
  unfold Connection.recv
  dsimp only
  split
  · exact .none chunks _ (h.close (by rw [hphase]; rfl))
  · next hchunk =>
    generalize hdef : (c.inbound.take kRecvBufSize).take n = chunk at hchunk ⊢
    have hprefix : chunk <+: c.inbound := hdef ▸ (List.take_prefix _ _).trans (List.take_prefix _ _)
    obtain ⟨⟨hreceived, hshort, replies, closing, rest, hresults, -, hwired⟩, hrunning, t, hremains, hparsed⟩ := h
    obtain ⟨rfl, hsent⟩ := hwired.all (by rw [hphase]; rfl)
    rw [hphase] at hremains hrunning
    cases hremains
    refine .none (chunks ++ [chunk]) _
      ⟨⟨?_, ?_, replies, none, [], hresults, .inl rfl, wired_idle hsent rfl⟩, hrunning, _, .parsing, ?_⟩
    · have hcut : chunk ++ c.inbound.drop chunk.length = c.inbound := (List.prefix_append_drop hprefix).symm
      rw [List.flatten_append, List.flatten_singleton, List.append_assoc, hcut, hreceived]
    · intro piece hpiece
      rcases List.mem_append.mp hpiece with hold | hnew
      · exact hshort piece hold
      · rw [List.mem_singleton.mp hnew]
        refine ⟨by simpa using hchunk, ?_⟩
        rw [← hdef, List.length_take, List.length_take]
        omega
    · rw [CommandParser.handleClient, Parser.run_append]
      show parser.feed (CommandParser.handleClient chunks) chunk = _
      rw [hparsed, Parser.feed, Session.andThen_assoc]
      rfl

theorem Serving.parse (h : Serving stream chunks begun client c) (hphase : c.phase = .parsing) :
    Matched aof envs stream chunks begun client w (c.parse aof, w) := by
  obtain ⟨⟨hreceived, hshort, replies, closing, rest, hresults, -, hwired⟩, hrunning, t, hremains, hparsed⟩ := h
  obtain ⟨rfl, hsent⟩ := hwired.all (by rw [hphase]; rfl)
  rw [hphase] at hremains hrunning
  cases hremains
  have hidle : client.running = none := by simpa [Phase.program] using hrunning
  unfold Connection.parse
  rcases hparse : tryParseCommand c.buffer with ⟨buffer, _ | args | message⟩
  · have hdrain : parser.drain c.buffer = _ := Parser.drain_incomplete hparse
    rw [hdrain] at hparsed
    exact .none chunks _ ⟨⟨hreceived, hshort, replies, none, [], hresults, .inl rfl, wired_idle hsent rfl⟩, hrunning,
      _, .receiving, hparsed⟩
  · have hdrain : parser.drain c.buffer = _ := Parser.drain_complete hparse
    rw [hdrain, ← Session.andThen_assoc] at hparsed
    exact .arrival args _ hidle ⟨⟨hreceived, hshort, replies, none, [], hresults, .inl rfl, wired_idle hsent rfl⟩, rfl,
      _, .dispatching _, hparsed⟩
  · have hdrain : parser.drain c.buffer = _ := Parser.drain_error hparse
    rw [hdrain] at hparsed
    have hwire : Wired (.sending (protocolError message).encode true) c.sent replies (some message) _ :=
      wired_value hsent rfl rfl
    refine .none chunks _ ⟨⟨hreceived, hshort, replies, some message, _, hresults, .inr ?_, hwire⟩, hrunning, _,
      .refusing _ message, hparsed⟩
    rw [hparsed]
    rfl

theorem Serving.step (h : Serving stream chunks begun client c) {op : Op} {next : op.Ans → Program}
    (hphase : c.phase = .dispatching (.step op next)) :
    Matched aof envs stream chunks begun client w
      ({ c with phase := .dispatching (next (World.exec envs w op).2) }, (World.exec envs w op).1) := by
  obtain ⟨⟨hreceived, hshort, replies, closing, rest, hresults, -, hwired⟩, hrunning, t, hremains, hparsed⟩ := h
  obtain ⟨rfl, hsent⟩ := hwired.all (by rw [hphase]; rfl)
  rw [hphase] at hremains hrunning
  cases hremains
  obtain ⟨⟨k, p⟩, hk, rfl⟩ := Option.map_eq_some_iff.mp hrunning
  refine .turn { client with running := some (k, next (World.exec envs w op).2) } _ _ (by rw [hk]; rfl) ?_
    ⟨⟨hreceived, hshort, replies, none, [], hresults, .inl rfl, wired_idle hsent rfl⟩, rfl, _, .dispatching _, hparsed⟩
  rw [Client.turn, hk]

theorem Serving.reply (h : Serving stream chunks begun client c) {x : RespValue}
    (hphase : c.phase = .dispatching (.ret (some x))) :
    Matched aof envs stream chunks begun client w ({ c with phase := .sending x.encode false }, w) := by
  obtain ⟨⟨hreceived, hshort, replies, closing, rest, hresults, -, hwired⟩, hrunning, t, hremains, hparsed⟩ := h
  obtain ⟨rfl, hsent⟩ := hwired.all (by rw [hphase]; rfl)
  rw [hphase] at hremains hrunning
  cases hremains
  obtain ⟨⟨k, p⟩, hk, rfl⟩ := Option.map_eq_some_iff.mp hrunning
  have hwire : Wired (.sending x.encode false) c.sent (replies ++ [x]) none _ :=
    wired_value hsent (sent_none (replies ++ [x])) rfl
  refine .turn { client with running := none, results := client.results ++ [some x] } _ _ (by rw [hk]; rfl) ?_
    ⟨⟨hreceived, hshort, replies ++ [x], none, _, ?_, .inl rfl, hwire⟩, rfl, _, .sending _, hparsed⟩
  · rw [Client.turn, hk]
  · rw [hresults, List.map_append]
    rfl

theorem Serving.sendAll (h : Serving stream chunks begun client c) {unsent : Bytes} {last : Bool}
    (hphase : c.phase = .sending unsent last) (n : Nat) :
    Matched aof envs stream chunks begun client w (c.sendAll n unsent last, w) := by
  unfold Connection.sendAll
  split
  · next hempty =>
    cases last with
    | true => exact .none chunks _ (h.close (by rw [hphase]; rfl))
    | false =>
      obtain ⟨⟨hreceived, hshort, replies, closing, rest, hresults, -, hwired⟩, hrunning, t, hremains, hparsed⟩ := h
      rw [hphase, List.isEmpty_iff.mp hempty] at hwired hremains hrunning
      obtain ⟨rfl, hsent⟩ := hwired.all rfl
      cases hremains
      exact .none chunks _ ⟨⟨hreceived, hshort, replies, none, [], hresults, .inl rfl, wired_idle hsent rfl⟩, hrunning,
        _, .parsing, hparsed⟩
  · split
    · exact .none chunks _ (h.close (by rw [hphase]; rfl))
    · obtain ⟨⟨hreceived, hshort, replies, closing, rest, hresults, hclosing, hwired⟩, hrunning, t, hremains,
        hparsed⟩ := h
      rw [hphase] at hwired hremains hrunning
      refine .none chunks _
        ⟨⟨hreceived, hshort, replies, closing, _, hresults, hclosing, hwired.send n⟩, hrunning, t, ?_, hparsed⟩
      cases hremains with
      | sending => exact .sending _
      | refusing _ message => exact .refusing _ message

/-- **One turn.** Nothing but the reply of an empty command could stop a connection. -/
theorem Serving.matched (h : Serving stream chunks begun client c)
    (hanswer : ∀ r, c.phase = .dispatching (.ret r) → r.isSome = true) (n : Nat) :
    Matched aof envs stream chunks begun client w (Service.handleClient aof envs n c w) := by
  unfold Service.handleClient
  split
  · next hphase => exact h.recv hphase n
  · next hphase => exact h.parse hphase
  · next hphase => exact h.reply hphase
  · next hphase => exact absurd (hanswer _ hphase) Bool.false_ne_true
  · next hphase => exact h.step hphase
  · next hphase => exact h.sendAll hphase n
  · exact .none chunks c h

end Turn

/-! ### Whole runs -/

section Runs
variable {ι : Type} [DecidableEq ι] {aof : Bool} {envs : Nat → Env} {streams : ι → Bytes} {w : World}

/-- The machine without sockets has come as far. -/
def Simulated (aof : Bool) (envs : Nat → Env) (streams : ι → Bytes) (w : World) (swept : List Sweep)
    (s : Service ι) : Prop :=
  ∃ (chunks : ι → List Bytes) (begun : ι → List (List Bytes)) (m : Config Op Op.Ans (Option RespValue) _ World ι),
    Reached (dispatch aof) (World.exec envs) World.sweep w begun swept m ∧ m.shared = s.world ∧
      ∀ i, Serving (streams i) (chunks i) (begun i) (m.clients i) (s.connections i)

/-- A command that is being dispatched has a reply. -/
theorem Serving.answers {stream : Bytes} {chunks : List Bytes} {begun : List (List Bytes)} {client : Session}
    {c : Connection} (h : Serving stream chunks begun client c)
    (ha : Config.Answering (dispatch aof) (World.exec envs) begun { client with todo := [] }) {r : Option RespValue}
    (hphase : c.phase = .dispatching (.ret r)) : r.isSome = true := by
  obtain ⟨t, -, hparsed⟩ := h.parsed
  have hrunning := h.running
  rw [hphase] at hrunning
  obtain ⟨⟨k, p⟩, hk, rfl⟩ := Option.map_eq_some_iff.mp hrunning
  obtain ⟨done, hdone, -⟩ := ha.done
  have hmem : k ∈ (handleClient chunks).items := by
    rw [hparsed, Session.andThen_of_none rfl, hdone]
    simp [hk]
  have hends := ha.running k _ hk r (.ret r)
  cases k with
  | nil => exact absurd rfl ((handleClient_yields chunks).1 _ hmem)
  | cons name args =>
    obtain ⟨x, rfl, -⟩ := dispatch_ends hends
    rfl

/-- What holds of the connection that had the turn and held of the others, holds of all. -/
theorem serving_update {chunks : ι → List Bytes} {begun : ι → List (List Bytes)} {clients : ι → Session}
    {connections : ι → Connection}
    (h : ∀ j, Serving (streams j) (chunks j) (begun j) (clients j) (connections j)) {i : ι} {chunks' : List Bytes}
    {begun' : List (List Bytes)} {client : Session} {c : Connection}
    (hi : Serving (streams i) chunks' begun' client c) (j : ι) :
    Serving (streams j) (Function.update chunks i chunks' j) (Function.update begun i begun' j)
      (Function.update clients i client j) (Function.update connections i c j) := by
  by_cases hj : j = i
  · subst hj
    simpa using hi
  · simpa [hj] using h j

theorem turn_simulated {swept : List Sweep} {s : Service ι} (h : Simulated aof envs streams w swept s) (i : ι)
    (n : Nat) : Simulated aof envs streams w swept (s.step aof envs (.turn i n)) := by
  obtain ⟨chunks, begun, m, hreached, hshared, hserving⟩ := h
  have hmatched : Matched aof envs (streams i) (chunks i) (begun i) (m.clients i) s.world
      (Service.handleClient aof envs n (s.connections i) s.world) :=
    (hserving i).matched (fun r => (hserving i).answers (hreached.answering i)) n
  dsimp only [Service.step]
  generalize Service.handleClient aof envs n (s.connections i) s.world = r at hmatched
  cases hmatched with
  | none chunks' c h =>
    refine ⟨Function.update chunks i chunks', begun, m, hreached, hshared, fun j => ?_⟩
    simpa using serving_update hserving h j
  | arrival k c hidle h =>
    refine ⟨chunks, _, _, hreached.begin hidle k, hshared, fun j => ?_⟩
    simpa [Config.after] using serving_update hserving h j
  | turn client c w' hbusy hturn h =>
    rw [← hshared] at hturn
    refine ⟨chunks, begun, _, hreached.turn hbusy, ?_, fun j => ?_⟩
    · rw [Config.turn, hturn]
      rfl
    · rw [Config.turn, hturn]
      simpa [Config.after] using serving_update hserving h j

/-- A sweep is one of the machine without sockets. -/
theorem sweep_simulated {swept : List Sweep} {s : Service ι} (h : Simulated aof envs streams w swept s)
    (sweep : Sweep) : Simulated aof envs streams w (swept ++ [sweep]) (s.step aof envs (.sweep sweep)) := by
  obtain ⟨chunks, begun, m, hreached, hshared, hserving⟩ := h
  exact ⟨chunks, begun, _, hreached.disturb sweep, congrArg (World.sweep sweep) hshared, hserving⟩

theorem start_simulated (aof : Bool) (envs : Nat → Env) (streams : ι → Bytes) (w : World) :
    Simulated aof envs streams w [] (Service.start w streams) := by
  refine ⟨fun _ => [], fun _ => [], _, reached_start w, rfl, fun i => ⟨⟨rfl, ?_, [], none, [], rfl, .inl rfl, ?_⟩, rfl,
    _, .receiving, rfl⟩⟩
  · exact fun chunk hchunk => absurd hchunk List.not_mem_nil
  · exact wired_idle rfl rfl

theorem run_simulated {swept : List Sweep} {s : Service ι} (h : Simulated aof envs streams w swept s)
    (events : List (Event ι)) :
    Simulated aof envs streams w (swept ++ Event.sweeps events) (s.run aof envs events) := by
  induction events generalizing s swept with
  | nil =>
    rw [Event.sweeps, List.filterMap_nil, List.append_nil]
    exact h
  | cons event events ih =>
    cases event with
    | turn i n => exact ih (turn_simulated h i n)
    | sweep sweep =>
      have hswept : swept ++ Event.sweeps (.sweep sweep :: events) = swept ++ [sweep] ++ Event.sweeps events := by
        simp [Event.sweeps]
      rw [hswept]
      exact ih (sweep_simulated h sweep)

/-- The machine without sockets that has all commands of the chunks from the start has come to
the same world, by the same sweeps. -/
def Behind (aof : Bool) (envs : Nat → Env) (w : World) (events : List (Event ι)) (s : Service ι)
    (chunks : ι → List Bytes) (m : Config Op Op.Ans (Option RespValue) (List Bytes) World ι) : Prop :=
  ∃ moves : List (Move ι Sweep), Move.disturbances moves = Event.sweeps events ∧
    m = (Config.start w fun i => (handleClient (chunks i)).items).moves (dispatch aof) (World.exec envs) World.sweep
      moves ∧
    m.shared = s.world

theorem run_served (aof : Bool) (envs : Nat → Env) (streams : ι → Bytes) (w : World) (events : List (Event ι)) :
    let s := (Service.start w streams).run aof envs events
    ∃ (chunks : ι → List Bytes) (begun more : ι → List (List Bytes)) (m : Config Op Op.Ans _ _ World ι),
      Behind aof envs w events s chunks (m.expecting more) ∧
        Reached (dispatch aof) (World.exec envs) World.sweep w begun (Event.sweeps events) m ∧
        ∀ i, Serving (streams i) (chunks i) (begun i) (m.clients i) (s.connections i) := by
  intro s
  obtain ⟨chunks, begun, m, hreached, hshared, hserving⟩ := run_simulated (start_simulated aof envs streams w) events
  -- what follows the commands that have begun is what the parser has yet to give
  choose t _ hparsed using fun i => (hserving i).parsed
  have hitems : ∀ i, (handleClient (chunks i)).items = begun i ++ (t i).items := by
    intro i
    rw [hparsed i, Session.andThen_of_none rfl]
  obtain ⟨moves, hsweeps, hrun⟩ := hreached
  refine ⟨chunks, begun, fun i => (t i).items, m, ⟨moves, hsweeps, ?_, hshared⟩, ⟨moves, hsweeps, hrun⟩, hserving⟩
  simp only [hitems, hrun fun i => (t i).items]

/-- **The server behind the sockets.** Any number of connections, whatever their clients send,
however the kernel cuts it up, whichever calls fail and however the threads and the sweeper
interleave: the world is one that the machine without sockets reaches by the same sweeps with the
commands of the chunks that were received, and each client has been sent its results, one after
the other, but for a part of the last one. -/
theorem sockets_refine (aof : Bool) (envs : Nat → Env) (streams : ι → Bytes) (w : World) (events : List (Event ι)) :
    let s := (Service.start w streams).run aof envs events
    ∃ (chunks : ι → List Bytes) (moves : List (Move ι Sweep)), Move.disturbances moves = Event.sweeps events ∧
      let m := (Config.start w fun i => (handleClient (chunks i)).items).moves (dispatch aof) (World.exec envs)
        World.sweep moves
      m.shared = s.world ∧ ∀ i, Served (streams i) (chunks i) (m.clients i).results (s.connections i) := by
  intro s
  obtain ⟨chunks, begun, more, m, ⟨moves, hsweeps, hrun, hshared⟩, -, hserving⟩ :=
    run_served aof envs streams w events
  refine ⟨chunks, moves, hsweeps, ?_⟩
  rw [← hrun]
  exact ⟨hshared, fun i => (hserving i).served⟩

end Runs

/-! ### What the client reads -/

/-- What has been taken by `send`, cut into the values that are complete and a part of one. -/
theorem Wired.cut {phase : Phase} {out rest : Bytes} {values : List RespValue} {closing : Option Bytes}
    (h : Wired phase out values closing rest) :
    ∃ complete tail, out = complete.flatMap RespValue.encode ++ tail ∧
      (sent values closing = complete ∧ tail = [] ∨
        ∃ x, sent values closing = complete ++ [x] ∧ tail <+: x.encode ∧ tail ≠ x.encode) := by
  have hbytes := h.bytes
  by_cases hrest : rest = []
  · subst hrest
    refine ⟨_, [], ?_, .inl ⟨rfl, rfl⟩⟩
    rw [List.append_nil] at hbytes ⊢
    exact hbytes
  · have hwithin := h.within
    rcases List.eq_nil_or_concat' (sent values closing) with hnil | ⟨complete, x, hlast⟩
    · rw [hnil] at hwithin
      exact absurd (List.suffix_nil.mp hwithin) hrest
    · rw [hlast, List.getLast?_concat] at hwithin
      obtain ⟨tail, htail⟩ : rest <:+ x.encode := hwithin
      refine ⟨complete, tail, ?_, .inr ⟨x, hlast, ⟨rest, htail⟩, ?_⟩⟩
      · rw [hlast, List.flatMap_append, List.flatMap_singleton, ← htail, ← List.append_assoc] at hbytes
        exact List.append_cancel_right hbytes
      · rintro rfl
        exact hrest (List.append_cancel_left (htail.trans (List.append_nil _).symm))

/-- Off what has been taken by `send` those values are decoded, and nothing of the part. -/
theorem Wired.reads {phase : Phase} {out rest : Bytes} {values : List RespValue} {closing : Option Bytes}
    (h : Wired phase out values closing rest) (hlined : ∀ x ∈ sent values closing, x.Lined) :
    ∃ complete tail, Codec.times decode complete.length out = some (complete, tail) ∧ decode tail = none ∧
      (sent values closing = complete ∨ ∃ x, sent values closing = complete ++ [x]) := by
  obtain ⟨complete, tail, rfl, hcut⟩ := h.cut
  have hread : (∀ x ∈ complete, x.Lined) →
      Codec.times decode complete.length (complete.flatMap RespValue.encode ++ tail) = some (complete, tail) := by
    intro hcomplete
    have hall := Codec.reads_times (f := id) (fun x hx => reads_decode (hcomplete x hx)) tail
    rw [List.map_id] at hall
    exact hall
  rcases hcut with ⟨hall, rfl⟩ | ⟨x, hx, hprefix, htail⟩
  · exact ⟨complete, [], hread (hall ▸ hlined), rfl, .inl hall⟩
  · obtain ⟨hcomplete, hlast⟩ := List.forall_mem_append.mp (hx ▸ hlined)
    exact ⟨complete, tail, hread hcomplete, decode_truncated (hlast x (List.mem_singleton_self x)) hprefix htail,
      .inr ⟨x, hx⟩⟩

section Runs
variable {ι : Type} [DecidableEq ι] {aof : Bool} {envs : Nat → Env}

/-- The values on the wire are replies to the first commands, and are read back if the commands'
names are single lines. -/
theorem Serving.lined {stream : Bytes} {chunks : List Bytes} {begun : List (List Bytes)} {client : Session}
    {c : Connection} (h : Serving stream chunks begun client c)
    (ha : Config.Answering (dispatch aof) (World.exec envs) begun { client with todo := [] })
    (hnames : ∀ args ∈ (handleClient chunks).items, Unbroken (args.headD [])) :
    ∃ replies closing rest, client.results = replies.map some ∧ Wired c.phase c.sent replies closing rest ∧
      (closing = none ∨ closing = (handleClient chunks).error) ∧ (∀ x ∈ sent replies closing, x.Lined) ∧
      List.Forall₂ (fun args x => (dispatch aof args).Ends (World.exec envs) (some x))
        ((handleClient chunks).items.take replies.length) replies := by
  obtain ⟨-, -, replies, closing, rest, hresults, hclosing, hwired⟩ := h.served
  obtain ⟨t, -, hparsed⟩ := h.parsed
  obtain ⟨done, hdone, hanswers⟩ := ha.done
  obtain ⟨later, hlater⟩ : ∃ later, (handleClient chunks).items = done ++ later := by
    rw [hparsed, Session.andThen_of_none rfl, hdone, List.append_assoc, List.append_assoc]
    exact ⟨_, rfl⟩
  obtain ⟨hne, herror⟩ := handleClient_yields chunks
  obtain ⟨replies', hreplies', hlined, hanswer⟩ := results_lined hanswers fun args hargs => by
    have hmem : args ∈ (handleClient chunks).items := hlater ▸ List.mem_append_left later hargs
    exact ⟨hne args hmem, hnames args hmem⟩
  obtain rfl : replies = replies' :=
    List.map_injective_iff.mpr (Option.some_injective _) (hresults.symm.trans hreplies')
  refine ⟨replies, closing, rest, hresults, hwired, hclosing,
    List.forall_mem_append.mpr ⟨hlined, fun x hx => ?_⟩, ?_⟩
  · rw [Option.mem_toList, Option.map_eq_some_iff] at hx
    obtain ⟨message, hmessage, rfl⟩ := hx
    rcases hclosing with rfl | rfl
    · cases hmessage
    · exact protocolError_lined (herror message hmessage)
  · rw [hlater, ← hanswer.length_eq, List.take_left]
    exact hanswer

/-- **What a client reads at any time.** Whatever has happened to the connections so far, the
machine without sockets that has come to the same world by the same sweeps has results for each
client, and they are replies to the client's first commands. A client that has sent no name with
a CRLF in it decodes them in order, off the bytes that were sent to it, and the protocol error
its connection is closed with; at most the last of these is missing, and of that one it decodes
nothing yet. -/
theorem client_reads (aof : Bool) (envs : Nat → Env) (streams : ι → Bytes) (w : World) (events : List (Event ι)) :
    let s := (Service.start w streams).run aof envs events
    ∃ chunks m, Behind aof envs w events s chunks m ∧
      ∀ i, (chunks i).flatten ++ (s.connections i).inbound = streams i ∧
        ((∀ args ∈ (handleClient (chunks i)).items, Unbroken (args.headD [])) →
          ∃ replies closing complete tail, (m.clients i).results = replies.map some ∧
            List.Forall₂ (fun args x => (dispatch aof args).Ends (World.exec envs) (some x))
              ((handleClient (chunks i)).items.take replies.length) replies ∧
            (closing = none ∨ closing = (handleClient (chunks i)).error) ∧
            Codec.times decode complete.length (s.connections i).sent = some (complete, tail) ∧
            decode tail = none ∧ (sent replies closing = complete ∨ ∃ x, sent replies closing = complete ++ [x])) := by
  intro s
  obtain ⟨chunks, begun, more, m, hbehind, hreached, hserving⟩ := run_served aof envs streams w events
  refine ⟨chunks, _, hbehind, fun i => ⟨(hserving i).served.received, fun hnames => ?_⟩⟩
  obtain ⟨replies, closing, rest, hresults, hwired, hclosing, hlined, hanswer⟩ :=
    (hserving i).lined (hreached.answering i) hnames
  obtain ⟨complete, tail, hread, htail, hcut⟩ := hwired.reads hlined
  exact ⟨replies, closing, complete, tail, hresults, hanswer, hclosing, hread, htail, hcut⟩

end Runs
end GoRedis
