import GoRedis.Server.TcpServer

/-! Stopping the server.

`Stop` waits until it reads that there are no clients. A connection is counted some steps
after it was accepted, so what it reads covers all handlers that have been started and not
the one that `AcceptLoop` is about to start. If `AcceptLoop` holds no such connection, no
handler runs from then on, and the store that is saved is final. -/
namespace GoRedis.TcpServer

/-! ### The count -/

/-- The connection that is counted and has no handler yet. -/
def counted : AcceptLoop → Nat
  | .starting _ => 1
  | .testing | .accepting | .failed | .pushing _ | .counting _ | .returned => 0

/-- What the count and the flag say while the server runs. -/
structure Sound (s : TcpServer) : Prop where
  count : s.activeClients = (s.handlers.countP fun h => h.stage.running) + counted s.accepter
  flagged : s.stopper ≠ .flagging → s.stopFlag = true
  closed : s.stopper ≠ .flagging → s.stopper ≠ .closing → s.listening = false

theorem started_sound (world : World) (openFds : List Fd) : (started world openFds).Sound :=
  ⟨rfl, fun h => absurd rfl h, fun h => absurd rfl h⟩

theorem acceptLoop_sound {s : TcpServer} (h : s.Sound) (accepted : Option Fd) : (s.acceptLoop accepted).Sound := by
  have hcount := h.count
  unfold acceptLoop
  cases hat : s.accepter with
  | testing =>
    rw [hat] at hcount
    refine ⟨hcount.trans ?_, h.flagged, h.closed⟩
    cases s.stopFlag <;> rfl
  | accepting =>
    rw [hat] at hcount
    cases accepted with
    | none => exact ⟨hcount, h.flagged, h.closed⟩
    | some fd =>
      dsimp only
      split
      · exact ⟨hcount, h.flagged, h.closed⟩
      · exact h
  | failed =>
    rw [hat] at hcount
    refine ⟨hcount.trans ?_, h.flagged, h.closed⟩
    cases s.stopFlag <;> rfl
  | pushing fd =>
    rw [hat] at hcount
    exact ⟨hcount, h.flagged, h.closed⟩
  | counting fd =>
    rw [hat] at hcount
    refine ⟨?_, h.flagged, h.closed⟩
    show s.activeClients + 1 = _
    rw [hcount]
    rfl
  | starting fd =>
    rw [hat] at hcount
    refine ⟨hcount.trans ?_, h.flagged, h.closed⟩
    rw [List.countP_append]
    rfl
  | returned => exact h

theorem stop_sound {s : TcpServer} (h : s.Sound) (late : Bool) : (s.stop late).Sound := by
  have hpast : ∀ stopper, s.stopper ≠ .flagging → s.stopper ≠ .closing →
      ({ s with stopper := stopper } : TcpServer).Sound :=
    fun _ hflagged hclosed => ⟨h.count, fun _ => h.flagged hflagged, fun _ _ => h.closed hflagged hclosed⟩
  unfold stop
  cases hat : s.stopper with
  | flagging => exact ⟨h.count, fun _ => rfl, fun _ hclosing => absurd rfl hclosing⟩
  | closing => exact ⟨h.count, fun _ => h.flagged (by simp [hat]), fun _ _ => rfl⟩
  | copying => exact hpast _ (by simp [hat]) (by simp [hat])
  | shutting fds => cases fds <;> exact hpast _ (by simp [hat]) (by simp [hat])
  | draining =>
    dsimp only
    split
    · split
      · exact hpast _ (by simp [hat]) (by simp [hat])
      · exact h
    · exact hpast _ (by simp [hat]) (by simp [hat])
  | returned drained => exact h

/-- The count of running handlers, when one goes to another stage. -/
theorem countP_setStage {s : TcpServer} {i : Nat} {h : Handler} (hi : s.handlers[i]? = some h)
    (hrunning : h.stage.running = true) (stage : Stage) :
    (s.setStage i h stage).handlers.countP (fun h => h.stage.running) + 1 =
      s.handlers.countP (fun h => h.stage.running) + if stage.running then 1 else 0 := by
  obtain ⟨hlt, heq⟩ := List.getElem?_eq_some_iff.mp hi
  have hpos : 0 < s.handlers.countP fun h => h.stage.running :=
    List.countP_pos_iff.mpr ⟨h, List.mem_of_getElem? hi, hrunning⟩
  rw [setStage, List.countP_set hlt, heq, if_pos hrunning]
  dsimp only
  omega

theorem running_of_serving {stage : Stage} (h : stage.serving = true) : stage.running = true := by
  cases stage <;> first | rfl | cases h

theorem Handles.sound {s t : TcpServer} (h : s.Sound) {i : Nat} (ht : Handles i s t) : t.Sound := by
  -- a handler that goes on running keeps the count
  have hkeeps : ∀ {hd : Handler} {stage : Stage}, s.handlers[i]? = some hd → hd.stage.running = true →
      stage.running = true → s.activeClients =
        ((s.setStage i hd stage).handlers.countP fun h => h.stage.running) + counted s.accepter := by
    intro hd stage hi hr hr'
    have hcount := countP_setStage hi hr stage
    rw [if_pos hr'] at hcount
    rw [h.count, Nat.add_right_cancel hcount]
  cases ht with
  | nothing => exact h
  | serve hd hi stage world hs hs' =>
    exact ⟨hkeeps hi (running_of_serving hs) (running_of_serving hs'), h.flagged, h.closed⟩
  | close hd hi hs => exact ⟨hkeeps hi (running_of_serving hs) rfl, h.flagged, h.closed⟩
  | erase hd hi hs => exact ⟨hkeeps hi (by rw [hs]; rfl) rfl, h.flagged, h.closed⟩
  | uncount hd hi hs =>
    have hcount := countP_setStage hi (by rw [hs]; rfl) .ended
    have hactive := h.count
    refine ⟨?_, h.flagged, h.closed⟩
    show s.activeClients - 1 = _ + (counted s.accepter : Int)
    rw [if_neg (by decide)] at hcount
    dsimp only at hcount ⊢
    omega

theorem run_sound (aof : Bool) (envs : Nat → Env) (world : World) (openFds : List Fd) (turns : List Turn) :
    ((started world openFds).run aof envs turns).Sound := by
  refine run_invariant aof envs Sound (fun s turn h => ?_) turns (started_sound world openFds)
  cases turn with
  | acceptLoop accepted => exact acceptLoop_sound h accepted
  | stop late => exact stop_sound h late
  | handleClient i request => exact (handleClient_handles aof envs i request s).sound h

/-! ### After the count was read -/

/-- No handler runs, and none can be started. -/
structure Quiet (s : TcpServer) : Prop where
  listening : s.listening = false
  held : s.accepter.held = none
  ended : ∀ h ∈ s.handlers, h.stage.running = false

theorem acceptLoop_quiet {s : TcpServer} (h : s.Quiet) (accepted : Option Fd) :
    (s.acceptLoop accepted).Quiet ∧ (s.acceptLoop accepted).world = s.world := by
  have hheld := h.held
  unfold acceptLoop
  cases hat : s.accepter with
  | testing => exact ⟨⟨h.listening, by cases s.stopFlag <;> rfl, h.ended⟩, rfl⟩
  | accepting =>
    cases accepted with
    | none => exact ⟨⟨h.listening, rfl, h.ended⟩, rfl⟩
    | some fd =>
      dsimp only
      rw [if_neg (by simp [h.listening])]
      exact ⟨h, rfl⟩
  | failed => exact ⟨⟨h.listening, by cases s.stopFlag <;> rfl, h.ended⟩, rfl⟩
  | returned => exact ⟨h, rfl⟩
  | pushing fd | counting fd | starting fd =>
    rw [hat] at hheld
    cases hheld

theorem stop_quiet {s : TcpServer} (h : s.Quiet) (late : Bool) :
    (s.stop late).Quiet ∧ (s.stop late).world = s.world := by
  have hheld := h.held
  have hended := h.ended
  unfold stop
  cases s.stopper with
  | shutting fds => cases fds <;> exact ⟨⟨h.listening, hheld, hended⟩, rfl⟩
  | draining =>
    dsimp only
    split
    · split <;> exact ⟨⟨h.listening, hheld, hended⟩, rfl⟩
    · exact ⟨⟨h.listening, hheld, hended⟩, rfl⟩
  | closing => exact ⟨⟨rfl, hheld, hended⟩, rfl⟩
  | _ => exact ⟨⟨h.listening, hheld, hended⟩, rfl⟩

theorem Handles.quiet {s t : TcpServer} (h : s.Quiet) {i : Nat} (ht : Handles i s t) : t = s := by
  have hended : ∀ {hd : Handler}, s.handlers[i]? = some hd → hd.stage.running = true → False := fun hi hr =>
    absurd hr (by simp [h.ended _ (List.mem_of_getElem? hi)])
  cases ht with
  | nothing => rfl
  | serve hd hi stage world hs => exact (hended hi (running_of_serving hs)).elim
  | close hd hi hs => exact (hended hi (running_of_serving hs)).elim
  | erase hd hi hs => exact (hended hi (by rw [hs]; rfl)).elim
  | uncount hd hi hs => exact (hended hi (by rw [hs]; rfl)).elim

/-- **From then on** nothing runs, and the store stays as it is. -/
theorem run_quiet (aof : Bool) (envs : Nat → Env) (turns : List Turn) {s : TcpServer} (h : s.Quiet) :
    (s.run aof envs turns).Quiet ∧ (s.run aof envs turns).world = s.world := by
  refine run_invariant aof envs (fun t => t.Quiet ∧ t.world = s.world) (fun t turn ht => ?_) turns ⟨h, rfl⟩
  rw [← ht.2]
  cases turn with
  | acceptLoop accepted => exact acceptLoop_quiet ht.1 accepted
  | stop late => exact stop_quiet ht.1 late
  | handleClient i request =>
    rw [show t.turn aof envs (.handleClient i request) = t from
      (handleClient_handles aof envs i request t).quiet ht.1]
    exact ⟨ht.1, rfl⟩

theorem Sound.quiet {s : TcpServer} (h : s.Sound) (hdraining : s.stopper = .draining) (hzero : s.activeClients ≤ 0)
    (hheld : s.accepter.uncounted = none) : s.Quiet := by
  have hcount := h.count
  have hnone : (s.handlers.countP fun h => h.stage.running) = 0 := by omega
  refine ⟨h.closed (by simp [hdraining]) (by simp [hdraining]), ?_, fun hd hmem => ?_⟩
  · cases hat : s.accepter with
    | starting fd =>
      rw [hat] at hcount
      have : (counted (.starting fd) : Int) = 1 := rfl
      omega
    | pushing fd | counting fd =>
      rw [hat] at hheld
      cases hheld
    | _ => rfl
  · exact Bool.eq_false_iff.mpr (List.countP_eq_zero.mp hnone hd hmem)

/-- `AcceptLoop` goes on with the connection it holds, and then sees the flag. -/
theorem acceptLoop_starts {s : TcpServer} (hflag : s.stopFlag = true) (hheld : s.accepter.uncounted ≠ none)
    (aof : Bool) (envs : Nat → Env) :
    (s.run aof envs (List.replicate 4 (.acceptLoop none))).accepter = .returned ∧
      ∃ h ∈ (s.run aof envs (List.replicate 4 (.acceptLoop none))).handlers, h.stage.running = true := by
  cases hat : s.accepter with
  | pushing fd => simp [run, turn, acceptLoop, hat, hflag, List.replicate, Stage.running]
  | counting fd => simp [run, turn, acceptLoop, hat, hflag, List.replicate, Stage.running]
  | _ =>
    rw [hat] at hheld
    exact absurd rfl hheld

/-- **Stopping.** When `Stop` reads that there are no clients, and `AcceptLoop` holds no
connection that it has accepted and not counted, no handler runs from then on, whoever's turn
it is, and the store and the log are final. If it holds one, a handler can be running
although both have returned. -/
theorem stop_final (aof : Bool) (envs : Nat → Env) (world : World) (openFds : List Fd) (turns : List Turn)
    (late : Bool) (hdraining : ((started world openFds).run aof envs turns).stopper = .draining)
    (hzero : ((started world openFds).run aof envs turns).activeClients ≤ 0) :
    let s := (started world openFds).run aof envs turns
    let t := s.stop late
    t.stopper = .returned true ∧
      (s.accepter.uncounted = none → ∀ later, (∀ h ∈ (t.run aof envs later).handlers, h.stage.running = false) ∧
        (t.run aof envs later).world = s.world) ∧
      (s.accepter.uncounted ≠ none → ∃ later, (t.run aof envs later).accepter = .returned ∧
        ∃ h ∈ (t.run aof envs later).handlers, h.stage.running = true) := by
  intro s t
  have hsound : s.Sound := run_sound aof envs world openFds turns
  have hread : t = { s with stopper := .returned true } := by
    show s.stop late = _
    unfold stop
    rw [show s.stopper = .draining from hdraining]
    exact if_neg (Int.not_lt.mpr hzero)
  refine ⟨by rw [hread], fun hheld later => ?_, fun hheld => ?_⟩
  · have hquiet := stop_quiet (hsound.quiet hdraining hzero hheld) late
    have hrun := run_quiet aof envs later hquiet.1
    exact ⟨hrun.1.ended, hrun.2.trans hquiet.2⟩
  · have hflag : t.stopFlag = true := by
      rw [hread]
      exact hsound.flagged (by simp [show s.stopper = .draining from hdraining])
    have hheld' : t.accepter.uncounted ≠ none := by
      rw [hread]
      exact hheld
    exact ⟨_, acceptLoop_starts hflag hheld' aof envs⟩

/-- A client that came and went. -/
theorem stop_final_client :
    let turns : List Turn := List.replicate 2 (.acceptLoop (some 5)) ++ List.replicate 3 (.acceptLoop none) ++
      List.replicate 3 (.handleClient 0 none) ++ List.replicate 4 (.stop false)
    let s := (started {} []).run false (fun _ => { now := 0 }) turns
    (s.stopper = .draining ∧ s.activeClients ≤ 0 ∧ s.accepter.uncounted = none) ∧
      ∀ later, ((s.stop false).run false (fun _ => { now := 0 }) later).world = s.world := by
  intro turns s
  have hdraining : s.stopper = .draining := by decide +kernel
  have hzero : s.activeClients ≤ 0 := by decide +kernel
  have hheld : s.accepter.uncounted = none := by decide +kernel
  have hfinal := stop_final false (fun _ => { now := 0 }) {} [] turns false hdraining hzero
  exact ⟨⟨hdraining, hzero, hheld⟩, fun later => (hfinal.2.1 hheld later).2⟩

/-- A connection accepted just before the flag is set: `Stop` reads that there are no clients,
`AcceptLoop` starts a handler and returns, and the handler goes on to write to the store. -/
theorem stop_unfinished :
    let turns : List Turn := List.replicate 2 (.acceptLoop (some 5)) ++ List.replicate 5 (.stop false) ++
      List.replicate 4 (.acceptLoop none)
    let envs : Nat → Env := fun _ => { now := 0 }
    let s := (started {} []).run false envs turns
    let t := s.run false envs [.handleClient 0 (some [ascii "SET", ascii "k", ascii "v"]), .handleClient 0 none]
    (s.stopper = .returned true ∧ s.accepter = .returned ∧ s.handlers.any (·.stage.running) ∧
      s.world.store.data.get (ascii "k") = none) ∧
      (t.world.store.data.get (ascii "k")).map Value.strValue = some (ascii "v") := by
  decide +kernel

end GoRedis.TcpServer
