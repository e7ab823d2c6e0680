import GoRedis.Server.Aof

/-! The server's threads (`server/tcp_server.cpp`).

One thread accepts connections, one stops the server, and each connection has a thread of its
own. A turn is a thread's next step on what they share: the flag, the listening socket, the
list of clients, the count of clients, the open descriptors, and the store. A turn says what
the step cannot know: what `accept` returns, whether the deadline has passed, what a client
has sent. A thread that cannot go on does nothing at its turn.

A handler can leave at any time, since its client can. Shutting a connection down makes it
leave sooner or later and nothing else, so it changes nothing here. -/
namespace GoRedis
open Interleaving

abbrev Fd := Nat

/-- Where `AcceptLoop` is: at its test of the flag, in `accept`, at the test after a failed
one, before it lists, counts and starts a handler for the connection it has accepted, or
back. -/
inductive AcceptLoop where
  | testing
  | accepting
  | failed
  | pushing (fd : Fd)
  | counting (fd : Fd)
  | starting (fd : Fd)
  | returned
  deriving DecidableEq

namespace AcceptLoop

/-- The connection it has accepted and no handler has. -/
def held : AcceptLoop → Option Fd
  | .pushing fd | .counting fd | .starting fd => some fd
  | .testing | .accepting | .failed | .returned => none

/-- Such a connection that is not counted yet. -/
def uncounted : AcceptLoop → Option Fd
  | .pushing fd | .counting fd => some fd
  | .testing | .accepting | .failed | .starting _ | .returned => none

/-- Such a connection that is on the list. -/
def listed : AcceptLoop → Option Fd
  | .counting fd | .starting fd => some fd
  | .testing | .accepting | .failed | .pushing _ | .returned => none

end AcceptLoop

/-- Where `Stop` is: not called yet, before it closes the listening socket, before it copies
the list, at the connections it has yet to shut down, waiting, or back, because it read that
there are no clients or because the deadline passed. -/
inductive Stop where
  | flagging
  | closing
  | copying
  | shutting (fds : List Fd)
  | draining
  | returned (drained : Bool)
  deriving DecidableEq

/-- Where `HandleClient` is: reading and parsing, in `Dispatch`, or in the destructor of its
guard, before it takes itself off the list, before it takes itself off the count, or done. -/
inductive Stage where
  | receiving
  | dispatching (rest : Program)
  | closed
  | erased
  | ended

namespace Stage

/-- Whether the descriptor is still open. -/
def serving : Stage → Bool
  | .receiving | .dispatching _ => true
  | .closed | .erased | .ended => false

/-- Whether the descriptor is closed and still on the list. -/
def leaving : Stage → Bool
  | .closed => true
  | .receiving | .dispatching _ | .erased | .ended => false

def running : Stage → Bool
  | .ended => false
  | .receiving | .dispatching _ | .closed | .erased => true

end Stage

structure Handler where
  fd : Fd
  stage : Stage := .receiving

structure TcpServer where
  world : World
  openFds : List Fd
  stopFlag : Bool := false
  listening : Bool := true
  clientFds : List Fd := []
  activeClients : Int := 0
  accepter : AcceptLoop := .testing
  stopper : Stop := .flagging
  handlers : List Handler := []

inductive Turn where
  | acceptLoop (accepted : Option Fd)
  | stop (late : Bool)
  | handleClient (i : Nat) (request : Option (List Bytes))

namespace TcpServer

/-- A step of `AcceptLoop`. `accept` returns a descriptor that is not open, and none once the
listening socket is closed. -/
def acceptLoop (accepted : Option Fd) (s : TcpServer) : TcpServer :=
  match s.accepter with
  | .testing => { s with accepter := if s.stopFlag then .returned else .accepting }
  | .accepting =>
    match accepted with
    | none => { s with accepter := .failed }
    | some fd =>
      if s.listening = true ∧ fd ∉ s.openFds then { s with accepter := .pushing fd, openFds := fd :: s.openFds }
      else s
  | .failed => { s with accepter := if s.stopFlag then .returned else .testing }
  | .pushing fd => { s with accepter := .counting fd, clientFds := s.clientFds ++ [fd] }
  | .counting fd => { s with accepter := .starting fd, activeClients := s.activeClients + 1 }
  | .starting fd => { s with accepter := .testing, handlers := s.handlers ++ [{ fd := fd }] }
  | .returned => s

/-- A step of `Stop`. -/
def stop (late : Bool) (s : TcpServer) : TcpServer :=
  match s.stopper with
  | .flagging => { s with stopper := .closing, stopFlag := true }
  | .closing => { s with stopper := .copying, listening := false }
  | .copying => { s with stopper := .shutting s.clientFds }
  | .shutting (_ :: fds) => { s with stopper := .shutting fds }
  | .shutting [] => { s with stopper := .draining }
  | .draining =>
    if s.activeClients > 0 then if late then { s with stopper := .returned false } else s
    else { s with stopper := .returned true }
  | .returned _ => s

def setStage (i : Nat) (h : Handler) (stage : Stage) (s : TcpServer) : TcpServer :=
  { s with handlers := s.handlers.set i { h with stage := stage } }

variable (aof : Bool) (envs : Nat → Env)

/-- A step of the `i`th `HandleClient`: the next request is dispatched, or there is none and
the connection is closed. -/
def handleClient (i : Nat) (request : Option (List Bytes)) (s : TcpServer) : TcpServer :=
  match s.handlers[i]? with
  | none => s
  | some h =>
    match h.stage with
    | .receiving =>
      match request with
      | some args => s.setStage i h (.dispatching (dispatch aof args))
      | none => { s.setStage i h .closed with openFds := s.openFds.filter (· ≠ h.fd) }
    | .dispatching (.ret _) => s.setStage i h .receiving
    | .dispatching (.step op next) =>
      let r := World.exec envs s.world op
      { s.setStage i h (.dispatching (next r.2)) with world := r.1 }
    | .closed => { s.setStage i h .erased with clientFds := s.clientFds.filter (· ≠ h.fd) }
    | .erased => { s.setStage i h .ended with activeClients := s.activeClients - 1 }
    | .ended => s

def turn (s : TcpServer) : Turn → TcpServer
  | .acceptLoop accepted => s.acceptLoop accepted
  | .stop late => s.stop late
  | .handleClient i request => s.handleClient aof envs i request

def run (turns : List Turn) (s : TcpServer) : TcpServer := turns.foldl (turn aof envs) s

/-- A server that `Start` has made ready, with the descriptors the process has open. -/
def started (world : World) (openFds : List Fd) : TcpServer := { world := world, openFds := openFds }

/-! ### What a handler can do -/

/-- What a step of the `i`th handler can do: nothing, or what its stage has it do. -/
inductive Handles (i : Nat) (s : TcpServer) : TcpServer → Prop where
  | nothing : Handles i s s
  | serve (h : Handler) (hi : s.handlers[i]? = some h) (stage : Stage) (world : World) (hs : h.stage.serving = true)
    (hs' : stage.serving = true) : Handles i s { s.setStage i h stage with world := world }
  | close (h : Handler) (hi : s.handlers[i]? = some h) (hs : h.stage.serving = true) :
    Handles i s { s.setStage i h .closed with openFds := s.openFds.filter (· ≠ h.fd) }
  | erase (h : Handler) (hi : s.handlers[i]? = some h) (hs : h.stage = .closed) :
    Handles i s { s.setStage i h .erased with clientFds := s.clientFds.filter (· ≠ h.fd) }
  | uncount (h : Handler) (hi : s.handlers[i]? = some h) (hs : h.stage = .erased) :
    Handles i s { s.setStage i h .ended with activeClients := s.activeClients - 1 }

theorem handleClient_handles (i : Nat) (request : Option (List Bytes)) (s : TcpServer) :
    Handles i s (s.handleClient aof envs i request) := by
  unfold handleClient
  cases hi : s.handlers[i]? with
  | none => exact .nothing
  | some h =>
    dsimp only
    cases hs : h.stage with
    | receiving =>
      cases request with
      | none => exact .close h hi (by rw [hs]; rfl)
      | some args => exact .serve h hi (.dispatching _) s.world (by rw [hs]; rfl) rfl
    | dispatching rest =>
      cases rest with
      | ret r => exact .serve h hi .receiving s.world (by rw [hs]; rfl) rfl
      | step op next => exact .serve h hi (.dispatching _) _ (by rw [hs]; rfl) rfl
    | closed => exact .erase h hi hs
    | erased => exact .uncount h hi hs
    | ended => exact .nothing

/-- A handler at its new stage, and the others as they were. -/
theorem handlers_setStage {s : TcpServer} {i : Nat} {h : Handler} (hi : s.handlers[i]? = some h) (stage : Stage)
    (j : Nat) : (s.setStage i h stage).handlers[j]? =
      if i = j then some { h with stage := stage } else s.handlers[j]? := by
  obtain ⟨hlt, -⟩ := List.getElem?_eq_some_iff.mp hi
  rw [setStage, List.getElem?_set, if_pos hlt]

/-- What every turn keeps, every run keeps. -/
theorem run_invariant (inv : TcpServer → Prop) (hturn : ∀ s turn, inv s → inv (s.turn aof envs turn))
    (turns : List Turn) {s : TcpServer} (hs : inv s) : inv (s.run aof envs turns) := by
  induction turns generalizing s with
  | nil => exact hs
  | cons turn turns ih => exact ih (hturn s turn hs)

end TcpServer
end GoRedis
