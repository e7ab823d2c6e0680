import GoRedis.Server.TcpServer

/-! The list of clients.

`Stop` shuts down the connections it finds on the list. A handler closes its descriptor before
it takes it off the list, and it takes off all entries of that number. In between the number
is free: if `accept` returns it and `AcceptLoop` lists the new connection before the old
handler is done, the old handler takes the new connection off as well. If that does not
happen, every connection that was listed and is not closed is on the list. -/
namespace GoRedis.TcpServer

/-! ### Connections -/

/-- The `i`th connection that was accepted, while it is open. The first ones have handlers, and
the next one is `mine`, the one that `AcceptLoop` has. -/
def connection (s : TcpServer) (mine : Option Fd) (i : Nat) : Option Fd :=
  match s.handlers[i]? with
  | some h => if h.stage.serving then some h.fd else none
  | none => if i = s.handlers.length then mine else none

def openFd (s : TcpServer) : Nat → Option Fd := s.connection s.accepter.held

/-- The same once it has been pushed on the list. -/
def pushedFd (s : TcpServer) : Nat → Option Fd := s.connection s.accepter.listed

/-- A handler has closed the descriptor and not taken it off the list yet. -/
def Leaving (s : TcpServer) (fd : Fd) : Prop := ∃ h ∈ s.handlers, h.stage.leaving = true ∧ h.fd = fd

theorem connection_handler {s : TcpServer} {i : Nat} {h : Handler} (hi : s.handlers[i]? = some h) (mine : Option Fd) :
    s.connection mine i = if h.stage.serving then some h.fd else none := by
  rw [connection, hi]

theorem connection_some {s : TcpServer} {mine : Option Fd} {i : Nat} {fd : Fd} (h : s.connection mine i = some fd) :
    (i = s.handlers.length ∧ mine = some fd) ∨ ∀ other, s.connection other i = some fd := by
  unfold connection at h ⊢
  split at h
  · exact .inr fun _ => h
  · split at h
    · next heq => exact .inl ⟨heq, h⟩
    · cases h

theorem pushedFd_open {s : TcpServer} {i : Nat} {fd : Fd} (h : s.pushedFd i = some fd) : s.openFd i = some fd := by
  rcases connection_some h with ⟨rfl, hmine⟩ | hall
  · have hheld : s.accepter.held = s.accepter.listed := by
      cases hat : s.accepter <;> rw [hat] at hmine <;> first | rfl | cases hmine
    rw [openFd, hheld]
    exact h
  · exact hall _

/-- Every open connection has a number of its own, and every listed one is on the list and
will not be taken off by another's handler. -/
structure Tracks (s : TcpServer) : Prop where
  isOpen : ∀ i fd, s.openFd i = some fd → fd ∈ s.openFds
  distinct : ∀ i j fd, s.openFd i = some fd → s.openFd j = some fd → i = j
  listed : ∀ i fd, s.pushedFd i = some fd → fd ∈ s.clientFds
  lasting : ∀ i fd, s.pushedFd i = some fd → ¬s.Leaving fd

theorem started_tracks (world : World) (openFds : List Fd) : (started world openFds).Tracks := by
  have hopen : ∀ i, (started world openFds).openFd i = none := fun i => ite_self none
  have hpushed : ∀ i, (started world openFds).pushedFd i = none := fun i => ite_self none
  exact ⟨fun i fd h => absurd h (by simp [hopen]), fun i j fd h => absurd h (by simp [hopen]),
    fun i fd h => absurd h (by simp [hpushed]), fun i fd h => absurd h (by simp [hpushed])⟩

/-- Connections may be closed, and nothing of the others may go. -/
theorem Tracks.shrink {s t : TcpServer} (h : s.Tracks) (hopen : ∀ i fd, t.openFd i = some fd → s.openFd i = some fd)
    (hpushed : ∀ i fd, t.pushedFd i = some fd → s.pushedFd i = some fd)
    (hopens : ∀ i fd, t.openFd i = some fd → fd ∈ s.openFds → fd ∈ t.openFds)
    (hclients : ∀ i fd, t.pushedFd i = some fd → fd ∈ s.clientFds → fd ∈ t.clientFds)
    (hleaving : ∀ i fd, t.pushedFd i = some fd → t.Leaving fd → s.Leaving fd) : t.Tracks where
  isOpen i fd hi := hopens i fd hi (h.isOpen i fd (hopen i fd hi))
  distinct i j fd hi hj := h.distinct i j fd (hopen i fd hi) (hopen j fd hj)
  listed i fd hi := hclients i fd hi (h.listed i fd (hpushed i fd hi))
  lasting i fd hi hl := h.lasting i fd (hpushed i fd hi) (hleaving i fd hi hl)

/-- Steps that move nothing but their thread. -/
theorem Tracks.same {s t : TcpServer} (h : s.Tracks) (hhandlers : t.handlers = s.handlers)
    (hheld : t.accepter.held = s.accepter.held) (hlisted : t.accepter.listed = s.accepter.listed)
    (hopens : t.openFds = s.openFds) (hclients : t.clientFds = s.clientFds) : t.Tracks := by
  have hconnection : t.connection = s.connection := by
    unfold connection
    rw [hhandlers]
  have hopen : t.openFd = s.openFd := by rw [openFd, hconnection, hheld, openFd]
  have hpushed : t.pushedFd = s.pushedFd := by rw [pushedFd, hconnection, hlisted, pushedFd]
  have hleaving : t.Leaving = s.Leaving := by
    unfold Leaving
    rw [hhandlers]
  refine h.shrink ?_ ?_ ?_ ?_ ?_
  · exact fun _ _ hi => hopen ▸ hi
  · exact fun _ _ hi => hpushed ▸ hi
  · exact fun _ _ _ hm => hopens ▸ hm
  · exact fun _ _ _ hm => hclients ▸ hm
  · exact fun _ _ _ hl => hleaving ▸ hl

/-! ### The accept loop -/

/-- `accept` returned a number that was not open. -/
theorem Tracks.accept {s : TcpServer} (h : s.Tracks) (hat : s.accepter = .accepting) {fd : Fd}
    (hfd : fd ∉ s.openFds) :
    ({ s with accepter := .pushing fd, openFds := fd :: s.openFds } : TcpServer).Tracks := by
  have hnew : ∀ i fd', s.connection (some fd) i = some fd' →
      (i = s.handlers.length ∧ fd' = fd) ∨ s.openFd i = some fd' := by
    intro i fd' hi
    rcases connection_some hi with ⟨hlast, hmine⟩ | hall
    · exact .inl ⟨hlast, (Option.some.inj hmine).symm⟩
    · exact .inr (hall _)
  have hpushed : s.pushedFd = s.connection none := by rw [pushedFd, hat]; rfl
  refine ⟨fun i fd' hi => ?_, fun i j fd' hi hj => ?_, fun i fd' hi => ?_, fun i fd' hi => ?_⟩
  · rcases hnew i fd' hi with ⟨-, rfl⟩ | hold
    · exact List.mem_cons_self
    · exact List.mem_cons_of_mem _ (h.isOpen i fd' hold)
  · rcases hnew i fd' hi with ⟨hilast, rfl⟩ | hiold <;> rcases hnew j fd' hj with ⟨hjlast, heq⟩ | hjold
    · rw [hilast, hjlast]
    · exact absurd (h.isOpen j _ hjold) hfd
    · exact absurd (heq ▸ h.isOpen i _ hiold) hfd
    · exact h.distinct i j fd' hiold hjold
  · exact h.listed i fd' (hpushed ▸ hi)
  · exact h.lasting i fd' (hpushed ▸ hi)

/-- The connection goes on the list, and no handler is to take its number off. -/
theorem Tracks.push {s : TcpServer} (h : s.Tracks) {fd : Fd} (hat : s.accepter = .pushing fd) (hfd : ¬s.Leaving fd) :
    ({ s with accepter := .counting fd, clientFds := s.clientFds ++ [fd] } : TcpServer).Tracks := by
  have hopen : s.openFd = s.connection (some fd) := by rw [openFd, hat]; rfl
  have hnew : ∀ i fd', s.connection (some fd) i = some fd' → fd' = fd ∨ s.pushedFd i = some fd' := by
    intro i fd' hi
    rcases connection_some hi with ⟨-, hmine⟩ | hall
    · exact .inl (Option.some.inj hmine).symm
    · exact .inr (hall _)
  refine ⟨fun i fd' hi => ?_, fun i j fd' hi hj => ?_, fun i fd' hi => ?_, fun i fd' hi => ?_⟩
  · exact h.isOpen i fd' (hopen ▸ hi)
  · exact h.distinct i j fd' (hopen ▸ hi) (hopen ▸ hj)
  · rcases hnew i fd' hi with rfl | hold
    · exact List.mem_append_right _ List.mem_cons_self
    · exact List.mem_append_left _ (h.listed i fd' hold)
  · rcases hnew i fd' hi with rfl | hold
    · exact hfd
    · exact h.lasting i fd' hold

/-- The connection gets its handler, and is the same one as before. -/
theorem Tracks.start {s : TcpServer} (h : s.Tracks) {fd : Fd} (hat : s.accepter = .starting fd) :
    ({ s with accepter := .testing, handlers := s.handlers ++ [{ fd := fd }] } : TcpServer).Tracks := by
  let t : TcpServer := { s with accepter := .testing, handlers := s.handlers ++ [{ fd := fd }] }
  have hconnection : ∀ i, t.connection none i = s.connection (some fd) i := by
    intro i
    rcases Nat.lt_trichotomy i s.handlers.length with hlt | rfl | hgt
    · have hget : s.handlers[i]? = some s.handlers[i] := List.getElem?_eq_getElem hlt
      rw [connection_handler hget, connection_handler ((List.getElem?_append_left hlt).trans hget)]
    · have hget : t.handlers[s.handlers.length]? = some { fd := fd } := List.getElem?_concat_length ..
      rw [connection_handler hget, connection, List.getElem?_eq_none (Nat.le_refl _)]
      exact (if_pos rfl).symm
    · rw [connection, connection, List.getElem?_eq_none (Nat.le_of_lt hgt), List.getElem?_eq_none]
      · dsimp only
        rw [ite_self, if_neg (Nat.ne_of_gt hgt)]
      · show (s.handlers ++ [_]).length ≤ i
        rw [List.length_append]
        exact hgt
  have hleaving : ∀ fd', t.Leaving fd' → s.Leaving fd' := by
    rintro fd' ⟨hd, hmem, hl, heq⟩
    rcases List.mem_append.mp hmem with hold | hnew
    · exact ⟨hd, hold, hl, heq⟩
    · rw [List.mem_singleton.mp hnew] at hl
      cases hl
  have hopen : s.openFd = s.connection (some fd) := by rw [openFd, hat]; rfl
  have hpushed : s.pushedFd = s.connection (some fd) := by rw [pushedFd, hat]; rfl
  show t.Tracks
  refine h.shrink (fun i fd' hi => ?_) (fun i fd' hi => ?_) (fun _ _ _ hm => hm) (fun _ _ _ hm => hm)
    fun _ fd' _ => hleaving fd'
  · rw [hopen, ← hconnection]
    exact hi
  · rw [hpushed, ← hconnection]
    exact hi

/-- What a turn must not do: list a connection whose number a handler has closed and not taken
off the list yet. -/
def pushesLeaving (s : TcpServer) : Turn → Bool
  | .acceptLoop _ =>
    match s.accepter with
    | .pushing fd => s.handlers.any fun h => h.stage.leaving && h.fd == fd
    | .testing | .accepting | .failed | .counting _ | .starting _ | .returned => false
  | .stop _ | .handleClient .. => false

theorem pushesLeaving_iff {s : TcpServer} {fd : Fd} (hat : s.accepter = .pushing fd) (accepted : Option Fd) :
    s.pushesLeaving (.acceptLoop accepted) = true ↔ s.Leaving fd := by
  simp only [pushesLeaving, hat, Leaving, List.any_eq_true, Bool.and_eq_true, beq_iff_eq]

theorem acceptLoop_tracks {s : TcpServer} (h : s.Tracks) (accepted : Option Fd)
    (hclear : s.pushesLeaving (.acceptLoop accepted) = false) : (s.acceptLoop accepted).Tracks := by
  unfold acceptLoop
  cases hat : s.accepter with
  | testing => refine h.same rfl ?_ ?_ rfl rfl <;> rw [hat] <;> cases s.stopFlag <;> rfl
  | accepting =>
    cases accepted with
    | none => exact h.same rfl (by rw [hat]; rfl) (by rw [hat]; rfl) rfl rfl
    | some fd =>
      dsimp only
      split
      · next hfree => exact h.accept hat hfree.2
      · exact h
  | failed => refine h.same rfl ?_ ?_ rfl rfl <;> rw [hat] <;> cases s.stopFlag <;> rfl
  | pushing fd =>
    exact h.push hat fun hleaving => by
      rw [(pushesLeaving_iff hat accepted).mpr hleaving] at hclear
      cases hclear
  | counting fd => exact h.same rfl (by rw [hat]; rfl) (by rw [hat]; rfl) rfl rfl
  | starting fd => exact h.start hat
  | returned => exact h

theorem stop_tracks {s : TcpServer} (h : s.Tracks) (late : Bool) : (s.stop late).Tracks := by
  unfold stop
  cases s.stopper with
  | shutting fds => cases fds <;> exact h.same rfl rfl rfl rfl rfl
  | draining =>
    dsimp only
    split
    · split <;> exact h.same rfl rfl rfl rfl rfl
    · exact h.same rfl rfl rfl rfl rfl
  | _ => exact h.same rfl rfl rfl rfl rfl

/-! ### The handlers -/

theorem connection_setStage {s : TcpServer} {i : Nat} {h : Handler} (hi : s.handlers[i]? = some h) (stage : Stage)
    (mine : Option Fd) (j : Nat) : (s.setStage i h stage).connection mine j =
      if i = j then if stage.serving then some h.fd else none else s.connection mine j := by
  have hget := handlers_setStage hi stage j
  by_cases hij : i = j
  · rw [if_pos hij] at hget ⊢
    exact connection_handler hget mine
  · rw [if_neg hij] at hget ⊢
    have hlength : (s.setStage i h stage).handlers.length = s.handlers.length := List.length_set
    rw [connection, hget, hlength, connection]

/-- Only the handler that moved can have begun to leave. -/
theorem leaving_setStage {s : TcpServer} {i : Nat} {h : Handler} {stage : Stage} {fd : Fd}
    (hl : (s.setStage i h stage).Leaving fd) : s.Leaving fd ∨ stage.leaving = true ∧ h.fd = fd := by
  obtain ⟨hd, hmem, hleaving, hfd⟩ := hl
  rcases List.mem_or_eq_of_mem_set hmem with hold | rfl
  · exact .inl ⟨hd, hold, hleaving, hfd⟩
  · exact .inr ⟨hleaving, hfd⟩

/-- A handler at another stage, at which it is open as before and does not begin to leave; and
entries that are no open connection's taken off the list. -/
theorem Tracks.setStage {s : TcpServer} (h : s.Tracks) {i : Nat} {hd : Handler} (hi : s.handlers[i]? = some hd)
    (stage : Stage) (hserving : stage.serving = hd.stage.serving) (hleaving : stage.leaving = false)
    {clients : List Fd} (hclients : ∀ j fd, s.pushedFd j = some fd → fd ∈ s.clientFds → fd ∈ clients) :
    ({ s.setStage i hd stage with clientFds := clients } : TcpServer).Tracks := by
  have hconnection : (s.setStage i hd stage).connection = s.connection := by
    funext mine j
    rw [connection_setStage hi]
    split
    · next hij => rw [← hij, connection_handler hi, hserving]
    · rfl
  have hpushed : (s.setStage i hd stage).pushedFd = s.pushedFd := congrFun hconnection _
  refine h.shrink (fun j fd hj => ?_) (fun j fd hj => hpushed ▸ hj) (fun _ _ _ hm => hm)
    (fun j fd hj hm => hclients j fd (hpushed ▸ hj) hm) fun j fd _ hl => ?_
  · exact (congrFun (congrFun hconnection _) j).symm.trans hj
  · rcases leaving_setStage hl with hold | ⟨hnew, -⟩
    · exact hold
    · rw [hleaving] at hnew
      cases hnew

/-- The number that is closed is no other connection's. -/
theorem Tracks.close {s : TcpServer} (h : s.Tracks) {i : Nat} {hd : Handler} (hi : s.handlers[i]? = some hd)
    (hs : hd.stage.serving = true) :
    ({ s.setStage i hd .closed with openFds := s.openFds.filter (· ≠ hd.fd) } : TcpServer).Tracks := by
  have hmine : s.openFd i = some hd.fd := by rw [openFd, connection_handler hi, if_pos hs]
  have hother : ∀ {mine : Option Fd} {j : Nat} {fd : Fd}, (s.setStage i hd .closed).connection mine j = some fd →
      i ≠ j ∧ s.connection mine j = some fd := by
    intro mine j fd hj
    rw [connection_setStage hi] at hj
    split at hj
    · cases hj
    · next hij => exact ⟨hij, hj⟩
  have hne : ∀ {j : Nat} {fd : Fd}, i ≠ j → s.openFd j = some fd → fd ≠ hd.fd :=
    fun hij hj heq => hij (h.distinct _ _ _ hmine (heq ▸ hj))
  refine h.shrink (fun j fd hj => (hother hj).2) (fun j fd hj => (hother hj).2) (fun j fd hj hm => ?_)
    (fun _ _ _ hm => hm) fun j fd hj hl => ?_
  · exact List.mem_filter.mpr ⟨hm, decide_eq_true (hne (hother hj).1 (hother hj).2)⟩
  · rcases leaving_setStage hl with hold | ⟨-, heq⟩
    · exact hold
    · exact absurd heq.symm (hne (hother hj).1 (pushedFd_open (hother hj).2))

theorem Handles.tracks {s t : TcpServer} (h : s.Tracks) {i : Nat} (ht : Handles i s t) : t.Tracks := by
  cases ht with
  | nothing => exact h
  | serve hd hi stage world hs hs' =>
    have hleaving : stage.leaving = false := by cases stage <;> first | rfl | cases hs'
    exact (h.setStage hi stage (hs'.trans hs.symm) hleaving fun _ _ _ hm => hm).same rfl rfl rfl rfl rfl
  | close hd hi hs => exact h.close hi hs
  | erase hd hi hs =>
    have hleaving : s.Leaving hd.fd := ⟨hd, List.mem_of_getElem? hi, by rw [hs]; rfl, rfl⟩
    refine h.setStage hi .erased (by rw [hs]; rfl) rfl fun j fd hj hm => ?_
    exact List.mem_filter.mpr ⟨hm, decide_eq_true fun heq => h.lasting j fd hj (heq ▸ hleaving)⟩
  | uncount hd hi hs =>
    exact (h.setStage hi .ended (by rw [hs]; rfl) rfl fun _ _ _ hm => hm).same rfl rfl rfl rfl rfl

/-! ### Runs -/

variable (aof : Bool) (envs : Nat → Env)

/-- No turn lists a connection whose number is being taken off. -/
def Clear : List Turn → TcpServer → Prop
  | [], _ => True
  | turn :: turns, s => s.pushesLeaving turn = false ∧ Clear turns (s.turn aof envs turn)

instance decidableClear : (turns : List Turn) → (s : TcpServer) → Decidable (s.Clear aof envs turns)
  | [], _ => .isTrue trivial
  | turn :: turns, s =>
    have := decidableClear turns (s.turn aof envs turn)
    inferInstanceAs (Decidable (s.pushesLeaving turn = false ∧ _))

theorem turn_tracks {s : TcpServer} (h : s.Tracks) {turn : Turn} (hclear : s.pushesLeaving turn = false) :
    (s.turn aof envs turn).Tracks := by
  cases turn with
  | acceptLoop accepted => exact acceptLoop_tracks h accepted hclear
  | stop late => exact stop_tracks h late
  | handleClient i request => exact (handleClient_handles aof envs i request s).tracks h

theorem run_tracks {turns : List Turn} {s : TcpServer} (h : s.Tracks) (hclear : s.Clear aof envs turns) :
    (s.run aof envs turns).Tracks := by
  induction turns generalizing s with
  | nil => exact h
  | cons turn turns ih => exact ih (turn_tracks aof envs h hclear.1) hclear.2

/-- **The list.** As long as no connection is listed under a number that a handler has closed
and not taken off the list yet, every connection that was listed and whose handler has not
closed it is on the list, and `Stop` copies all of them. -/
theorem run_listed (world : World) (openFds : List Fd) (turns : List Turn)
    (hclear : (started world openFds).Clear aof envs turns) :
    let s := (started world openFds).run aof envs turns
    (∀ i fd, s.pushedFd i = some fd → fd ∈ s.clientFds) ∧
      ∀ late, s.stopper = .copying → ∃ fds, (s.stop late).stopper = .shutting fds ∧
        ∀ i fd, s.pushedFd i = some fd → fd ∈ fds := by
  intro s
  have hlisted := (run_tracks aof envs (started_tracks world openFds) hclear).listed
  refine ⟨hlisted, fun late hat => ⟨s.clientFds, ?_, hlisted⟩⟩
  rw [stop, hat]

/-- A number that is used again after its handler has taken it off the list. -/
theorem run_listed_again :
    let envs : Nat → Env := fun _ => { now := 0 }
    let turns : List Turn := List.replicate 5 (.acceptLoop (some 5)) ++ List.replicate 2 (.handleClient 0 none) ++
      List.replicate 5 (.acceptLoop (some 5)) ++ [.handleClient 0 none]
    let s := (started {} []).run false envs turns
    (started {} []).Clear false envs turns ∧ s.pushedFd 1 = some 5 ∧
      ∀ i fd, s.pushedFd i = some fd → fd ∈ s.clientFds := by
  intro envs turns s
  have hclear : (started {} []).Clear false envs turns := by decide +kernel
  exact ⟨hclear, by decide +kernel, (run_listed false envs {} [] turns hclear).1⟩

/-- The same number used again between the two steps: the second connection is being served
and is not on the list. -/
theorem run_unlisted :
    let envs : Nat → Env := fun _ => { now := 0 }
    let turns : List Turn := List.replicate 5 (.acceptLoop (some 5)) ++ [.handleClient 0 none] ++
      List.replicate 5 (.acceptLoop (some 5)) ++ [.handleClient 0 none]
    let s := (started {} []).run false envs turns
    s.handlers.map (fun h => (h.fd, h.stage.serving)) = [(5, false), (5, true)] ∧ s.pushedFd 1 = some 5 ∧
      s.clientFds = [] := by
  decide +kernel

/-- **The condition is needed.** When a connection is listed under such a number, the next turn
of the handler takes it off. -/
theorem unlisted_of_pushesLeaving {s : TcpServer} {turn : Turn} (h : s.pushesLeaving turn = true) :
    ∃ i j fd, (s.run aof envs [turn, .handleClient i none]).pushedFd j = some fd ∧
      fd ∉ (s.run aof envs [turn, .handleClient i none]).clientFds := by
  cases turn with
  | acceptLoop accepted =>
    cases hat : s.accepter with
    | pushing fd =>
      obtain ⟨hd, hmem, hl, rfl⟩ := (pushesLeaving_iff hat accepted).mp h
      obtain ⟨i, hi⟩ := List.getElem?_of_mem hmem
      have hclosed : hd.stage = .closed := by
        cases hstage : hd.stage <;> rw [hstage] at hl <;> first | rfl | cases hl
      have hpush : s.turn aof envs (.acceptLoop accepted) =
          { s with accepter := .counting hd.fd, clientFds := s.clientFds ++ [hd.fd] } := by
        simp only [turn, acceptLoop, hat]
      refine ⟨i, s.handlers.length, hd.fd, ?_⟩
      rw [run, List.foldl_cons, List.foldl_cons, List.foldl_nil, hpush]
      simp only [turn, handleClient, hi, hclosed]
      refine ⟨?_, by simp⟩
      have hnone : (s.handlers.set i { hd with stage := .erased })[s.handlers.length]? = none :=
        List.getElem?_eq_none (by rw [List.length_set])
      have hlength : (s.handlers.set i { hd with stage := .erased }).length = s.handlers.length := List.length_set
      simp only [pushedFd, connection, setStage, hnone, hlength, if_true, AcceptLoop.listed]
    | _ =>
      rw [pushesLeaving, hat] at h
      cases h
  | stop late => cases h
  | handleClient i request => cases h

end GoRedis.TcpServer
