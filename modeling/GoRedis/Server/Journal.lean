import GoRedis.Server.Connection
import GoRedis.Server.Durability

/-! What is in the log, while many clients write to it.

A write is appended between its effect on the store and its reply, and other clients' appends
come in between. `journal_confirmed` says that the calls of `Append` are still the sum of what
the clients were told: they are an interleaving of one list a connection, and each of these is
the connection's confirmed writes in the order in which it sent them, each of them once. A
write whose reply is not yet on the wire may be there as well, and nothing else is. Whether
such a call has written anything is another matter, and one the client is not told about: a
reply confirms a write whose `Append` has failed like any other. -/
namespace GoRedis
open Interleaving Incremental CommandParser Dispatcher

/-- The names of the commands that write. -/
def writes (name : Bytes) : Bool :=
  let cmd := toUpper name
  cmd = ascii "SET" || cmd = ascii "DEL" || cmd = ascii "FLUSHALL" || cmd = ascii "EXPIRE" ||
    cmd = ascii "LPUSH" || cmd = ascii "RPUSH" || cmd = ascii "HSET" || cmd = ascii "HDEL"

/-- The reply says that the command has written. -/
def confirms : List Bytes → Option RespValue → Bool
  | name :: _, some x => writes name && !x.isError
  | _, _ => false

/-- The commands whose replies say so. -/
def confirmed (commands : List (List Bytes)) (replies : List (Option RespValue)) : List (List Bytes) :=
  ((commands.zip replies).filter fun p => confirms p.1 p.2).map Prod.fst

/-! ### One program -/

/-- The program appends the command, once and as the last thing before it ends, if its reply
confirms the command, and otherwise not at all. -/
def Owes (envs : Nat → Env) (args : List Bytes) : Program → Prop
  | .ret r => confirms args r = false
  | .step (.call c) next => ∀ w : World, Owes envs args (next (w.exec envs (.call c)).2)
  | .step (.append args') next => args' = args ∧ ∃ r, next () = .ret r ∧ confirms args r = true

section Owes
variable {envs : Nat → Env} {name : Bytes} {args : List Bytes}

theorem owes_error (message : Bytes) : Owes envs (name :: args) (.ret (some (.error message))) := by
  simp [Owes, confirms, RespValue.isError]

theorem owes_logged (hw : writes name = true) {x : RespValue} (hx : x.isError = false) :
    Owes envs (name :: args) (logged true (name :: args) (.ret (some x))) :=
  ⟨rfl, some x, rfl, by simp [confirms, hw, hx]⟩

theorem ReadOnly.owes {p : Program} (h : ReadOnly name p) (hw : writes name = false) : Owes envs (name :: args) p := by
  have hnone : ∀ r, confirms (name :: args) r = false := by
    intro r
    cases r <;> simp [confirms, hw]
  cases h with
  | refused message _ => exact hnone _
  | pure x _ => exact hnone _
  | read c _ r _ next hnext =>
    intro w
    rw [hnext]
    split <;> exact hnone _

/-- A write that cannot meet another type. -/
theorem owes_call (hw : writes name = true) (c : Call) {f : c.Reply → RespValue} (hf : ∀ a, (f a).isError = false) :
    Owes envs (name :: args) (call c fun a => logged true (name :: args) (reply (f a))) :=
  fun _ => owes_logged hw (hf _)

/-- A write whose result is dereferenced. -/
theorem owes_deref (hw : writes name = true) (c : Call) (result : c.Reply → Result Int)
    (hok : ∀ a, c.ok a = (result a).ok) (hans : ∀ a, c.Answered a → (result a).value.isSome) :
    Owes envs (name :: args)
      (call c fun a => checked (result a) (logged true (name :: args) (deref (result a).value .integer))) := by
  intro w
  unfold checked
  beta_reduce
  split
  · next h =>
    have hanswered := call_answered envs w ((hok _).trans h)
    obtain ⟨v, hv⟩ := Option.isSome_iff_exists.mp (hans _ hanswered)
    rw [deref, hv, Option.map_some]
    exact owes_logged hw rfl
  · exact owes_error _

theorem set_owes (hw : writes name = true) : Owes envs (name :: args) (Dispatcher.set true name args) := by
  unfold Dispatcher.set
  split
  · exact owes_call hw (.set _ _) fun _ => rfl
  · split
    · exact owes_error _
    · split
      · exact owes_error _
      · exact fun _ _ => owes_logged hw rfl
  · exact owes_error _

theorem del_owes (hw : writes name = true) : Owes envs (name :: args) (del true name args) := by
  unfold del
  split
  · exact owes_error _
  · exact owes_call hw (.del _) fun _ => rfl

theorem flushAll_owes (hw : writes name = true) : Owes envs (name :: args) (flushAll true name args) := by
  unfold flushAll
  split
  · exact owes_call hw .flushAll fun _ => rfl
  · exact owes_error _

theorem expire_owes (hw : writes name = true) : Owes envs (name :: args) (expire true name args) := by
  unfold expire
  split
  · split
    · exact owes_error _
    · exact owes_call hw (.expire _ _) fun _ => rfl
  · exact owes_error _

theorem lPush_owes (hw : writes name = true) : Owes envs (name :: args) (lPush true name args) := by
  unfold lPush
  split
  · exact owes_deref hw (.lPush _ _) id (fun _ => rfl) fun _ h => h
  · exact owes_error _

theorem rPush_owes (hw : writes name = true) : Owes envs (name :: args) (rPush true name args) := by
  unfold rPush
  split
  · exact owes_deref hw (.rPush _ _) id (fun _ => rfl) fun _ h => h
  · exact owes_error _

theorem hSet_owes (hw : writes name = true) : Owes envs (name :: args) (hSet true name args) := by
  unfold hSet
  split
  · split
    · exact owes_error _
    · exact owes_deref hw (.hSet _ _) id (fun _ => rfl) fun _ h => h
  · exact owes_error _

theorem hDel_owes (hw : writes name = true) : Owes envs (name :: args) (hDel true name args) := by
  unfold hDel
  split
  · exact owes_deref hw (.hDel _ _) id (fun _ => rfl) fun _ h => h
  · exact owes_error _

theorem writes_eq {cmd : Bytes} (h : toUpper name = cmd) (hcmd : toUpper cmd = cmd) : writes name = writes cmd := by
  unfold writes
  rw [h, hcmd]

/-- Every command does so. -/
theorem dispatch_owes (args : List Bytes) : Owes envs args (dispatch true args) := by
  cases args with
  | nil => rfl
  | cons name args =>
    have hw : ∀ {cmd : Bytes}, writes cmd = true ∧ toUpper cmd = cmd → toUpper name = cmd → writes name = true :=
      fun hcmd h => (writes_eq h hcmd.2).trans hcmd.1
    have hreads : ∀ cmd ∈ readCommands, writes cmd = false ∧ toUpper cmd = cmd := by decide
    have hread : ∀ p, ReadOnly name p → toUpper name ∈ readCommands → Owes envs (name :: args) p :=
      fun p hp h => hp.owes ((writes_eq rfl (hreads _ h).2).trans (hreads _ h).1)
    exact dispatch_elim (P := fun p => Owes envs (name :: args) (p true)) hread (owes_error _)
      (fun h => set_owes (hw (by decide) h)) (fun h => del_owes (hw (by decide) h))
      (fun h => flushAll_owes (hw (by decide) h)) (fun h => expire_owes (hw (by decide) h))
      (fun h => lPush_owes (hw (by decide) h)) (fun h => rPush_owes (hw (by decide) h))
      (fun h => hSet_owes (hw (by decide) h)) fun h => hDel_owes (hw (by decide) h)

end Owes

/-! ### One client -/

theorem confirmed_concat {commands : List (List Bytes)} {replies : List (Option RespValue)}
    (h : commands.length = replies.length) (args : List Bytes) (r : Option RespValue) :
    confirmed (commands ++ [args]) (replies ++ [r]) =
      confirmed commands replies ++ if confirms args r then [args] else [] := by
  unfold confirmed
  rw [List.zip_append h, List.filter_append, List.map_append, List.zip_cons_cons, List.zip_nil_right,
    List.filter_cons, List.filter_nil]
  split <;> rfl

/-- Whether the command a client is at has been appended. -/
inductive InFlight (envs : Nat → Env) : Option (List Bytes × Program) → List (List Bytes) → Prop where
  | none : InFlight envs .none []
  | before (k : List Bytes) (p : Program) (h : Owes envs k p) : InFlight envs (some (k, p)) []
  | after (k : List Bytes) (r : Option RespValue) (h : confirms k r = true) : InFlight envs (some (k, .ret r)) [k]

/-- Of the log, `mine` are the client's confirmed writes, and the one that is about to be. -/
def Journaled (envs : Nat → Env) (commands : List (List Bytes)) (c : Session) (mine : List (List Bytes)) : Prop :=
  ∃ done inFlight, commands = done ++ (c.running.map Prod.fst).toList ++ c.todo ∧
    done.length = c.results.length ∧ mine = confirmed done c.results ++ inFlight ∧ InFlight envs c.running inFlight

/-- **A client's turn** appends what becomes part of its share, and nothing else. -/
theorem Journaled.turn {envs : Nat → Env} {commands : List (List Bytes)} {c : Session} {mine : List (List Bytes)}
    (h : Journaled envs commands c mine) (w : World) :
    ∃ more, (c.turn (dispatch true) (World.exec envs) w).2.log = w.log ++ more ∧
      Journaled envs commands (c.turn (dispatch true) (World.exec envs) w).1 (mine ++ more) := by
  obtain ⟨done, inFlight, hcommands, hlength, rfl, hflight⟩ := h
  unfold Client.turn
  rcases hr : c.running with _ | ⟨k, r | ⟨op, next⟩⟩ <;> rw [hr] at hcommands hflight <;> dsimp only
  · cases hflight
    rcases ht : c.todo with _ | ⟨k, todo⟩ <;> dsimp only
    · refine ⟨[], (List.append_nil _).symm, done, [], ?_, hlength, List.append_nil _, ?_⟩
      · rw [hr, hcommands]
      · rw [hr]
        exact .none
    · refine ⟨[], (List.append_nil _).symm, done, [], ?_, hlength, List.append_nil _, .before k _ (dispatch_owes k)⟩
      rw [hcommands, ht]
      simp
  · refine ⟨[], (List.append_nil _).symm, done ++ [k], [], ?_, by simp [hlength], ?_, .none⟩
    · rw [hcommands]
      simp
    · rw [List.append_nil, List.append_nil, confirmed_concat hlength]
      -- the reply confirms the command exactly if it has been appended
      cases hflight with
      | before _ _ howes => rw [if_neg (by rw [show confirms k r = false from howes]; decide)]
      | after _ _ hconfirms => rw [if_pos hconfirms]
  · cases hflight with
    | before _ _ howes =>
      cases op with
      | call call =>
        refine ⟨[], (List.append_nil _).symm, done, [], ?_, hlength, List.append_nil _, .before k _ (howes w)⟩
        rw [hcommands]
        rfl
      | append args =>
        obtain ⟨rfl, hafter⟩ := howes
        obtain ⟨r, hnext, hconfirms⟩ := hafter
        refine ⟨[args], rfl, done, [args], ?_, hlength, by rw [List.append_nil], ?_⟩
        · rw [hcommands]
          rfl
        · show InFlight envs (some (args, next ())) [args]
          rw [hnext]
          exact .after args r hconfirms

/-! ### All clients -/

section Clients
variable {ι : Type} [DecidableEq ι] {envs : Nat → Env} {commands : ι → List (List Bytes)} {w : World}

section Shares
variable {α : Type}

/-- A client's share of a log whose entries say whose they are. -/
def share (i : ι) (tagged : List (ι × α)) : List α := (tagged.filter fun entry => decide (entry.1 = i)).map Prod.snd

theorem share_append (i : ι) (tagged tagged' : List (ι × α)) :
    share i (tagged ++ tagged') = share i tagged ++ share i tagged' := by
  rw [share, List.filter_append, List.map_append]
  rfl

theorem share_self (i : ι) (more : List α) : share i (more.map (Prod.mk i)) = more := by
  induction more with
  | nil => rfl
  | cons args more ih =>
    unfold share at ih ⊢
    simp [ih]

theorem share_ne {i j : ι} (h : j ≠ i) (more : List α) : share j (more.map (Prod.mk i)) = [] := by
  simp [share, h.symm]

end Shares

/-- How the calls go, with whose they are. -/
def taggedFrom (outcomes : Outcomes) : Nat → List (ι × List Bytes) → List (ι × Attempt)
  | _, [] => []
  | k, (i, args) :: tagged => (i, ⟨args, (outcomes k).1, (outcomes k).2⟩) :: taggedFrom outcomes (k + 1) tagged

omit [DecidableEq ι] in
theorem taggedFrom_snd (outcomes : Outcomes) (k : Nat) (tagged : List (ι × List Bytes)) :
    (taggedFrom outcomes k tagged).map Prod.snd = attemptsFrom outcomes k (tagged.map Prod.snd) := by
  induction tagged generalizing k with
  | nil => rfl
  | cons entry tagged ih => exact congrArg (List.cons _) (ih _)

theorem share_taggedFrom (outcomes : Outcomes) (i : ι) (k : Nat) (tagged : List (ι × List Bytes)) :
    (share i (taggedFrom outcomes k tagged)).map Attempt.args = share i tagged := by
  induction tagged generalizing k with
  | nil => rfl
  | cons entry tagged ih =>
    have hrest := ih (k + 1)
    unfold share at hrest ⊢
    rw [taggedFrom, List.filter_cons, List.filter_cons]
    by_cases hi : entry.1 = i
    · simp [hi, ← hrest]
    · simp [hi, ← hrest]

/-- What was appended to the log is an interleaving of the clients' shares. -/
def Shared (envs : Nat → Env) (commands : ι → List (List Bytes)) (w : World)
    (m : Config Op Op.Ans (Option RespValue) (List Bytes) World ι) : Prop :=
  ∃ tagged : List (ι × List Bytes), m.shared.log = w.log ++ tagged.map Prod.snd ∧
    ∀ i, Journaled envs (commands i) (m.clients i) (share i tagged)

theorem turn_shared {m : Config Op Op.Ans (Option RespValue) (List Bytes) World ι} (h : Shared envs commands w m)
    (i : ι) : Shared envs commands w (m.turn (dispatch true) (World.exec envs) i) := by
  obtain ⟨tagged, hlog, hclients⟩ := h
  obtain ⟨more, hmore, hturn⟩ := (hclients i).turn m.shared
  refine ⟨tagged ++ more.map (Prod.mk i), ?_, fun j => ?_⟩
  · have htags : (more.map (Prod.mk i)).map Prod.snd = more := by simp
    rw [List.map_append, htags, ← List.append_assoc, ← hlog]
    exact hmore
  · rw [share_append, Config.turn]
    by_cases hj : j = i
    · subst hj
      rw [share_self, Config.after_self]
      exact hturn
    · rw [share_ne hj, List.append_nil, Config.after_ne hj]
      exact hclients j

theorem start_shared (w : World) (commands : ι → List (List Bytes)) :
    Shared envs commands w (Config.start w commands) :=
  ⟨[], (List.append_nil _).symm, fun _ => ⟨[], [], rfl, rfl, rfl, .none⟩⟩

theorem Serving.journaled {stream : Bytes} {chunks : List Bytes} {begun : List (List Bytes)} {client : Session}
    {c : Connection} {mine : List (List Bytes)} (h : Serving stream chunks begun client c)
    (hj : Journaled envs begun { client with todo := [] } mine) :
    ∃ replies closing rest inFlight, client.results = replies.map some ∧
      Wired c.phase c.sent replies closing rest ∧
      mine = confirmed (handleClient chunks).items (replies.map some) ++ inFlight ∧
      (inFlight = [] ∨ ∃ r, c.phase = .dispatching (.ret r) ∧
        inFlight = (handleClient chunks).items[replies.length]?.toList) := by
  obtain ⟨-, -, replies, closing, rest, hresults, -, hwired⟩ := h.served
  obtain ⟨t, -, hparsed⟩ := h.parsed
  obtain ⟨done, inFlight, hbegun, hlength, hmine, hflight⟩ := hj
  have hrunning := h.running
  dsimp only at hbegun hlength hmine hflight
  have hdone : done.length = replies.length := by rw [hlength, hresults, List.length_map]
  have hitems : (handleClient chunks).items = done ++ ((client.running.map Prod.fst).toList ++ t.items) := by
    rw [hparsed, Session.andThen_of_none rfl, hbegun]
    simp
  refine ⟨replies, closing, rest, inFlight, hresults, hwired, ?_, ?_⟩
  · rw [hmine, hresults, hitems]
    unfold confirmed
    rw [← List.append_nil (replies.map some), List.zip_append (by simpa using hdone)]
    simp
  · generalize hclient : client.running = running at hflight hrunning hitems
    cases hflight with
    | none => exact .inl rfl
    | before => exact .inl rfl
    | after k r _ =>
      refine .inr ⟨r, ?_, ?_⟩
      · exact Phase.eq_dispatching hrunning.symm
      · rw [hitems, ← hdone]
        simp

/-- What `Append` was called with in a run, with whose it is. -/
theorem run_tagged (envs : Nat → Env) (streams : ι → Bytes) (w : World) (events : List (Event ι)) :
    let s := (Service.start w streams).run true envs events
    ∃ chunks m, Behind true envs w events s chunks m ∧
      ∃ tagged : List (ι × List Bytes), s.world.log = w.log ++ tagged.map Prod.snd ∧
        ∀ i, (chunks i).flatten ++ (s.connections i).inbound = streams i ∧
          ∃ replies closing rest inFlight, (m.clients i).results = replies.map some ∧
            Wired (s.connections i).phase (s.connections i).sent replies closing rest ∧
            share i tagged = confirmed (handleClient (chunks i)).items (replies.map some) ++ inFlight ∧
            (inFlight = [] ∨ ∃ r, (s.connections i).phase = .dispatching (.ret r) ∧
              inFlight = (handleClient (chunks i)).items[replies.length]?.toList) := by
  intro s
  obtain ⟨chunks, begun, more, m, hbehind, hreached, hserving⟩ := run_served true envs streams w events
  obtain ⟨tagged, hlog, hclients⟩ : Shared envs begun w (m.expecting fun _ => []) :=
    hreached.invariant (start_shared w begun) (fun _ i h => turn_shared h i) fun _ _ h => h
  have hshared : m.shared = s.world := hbehind.choose_spec.2.2
  exact ⟨chunks, _, hbehind, tagged, hshared ▸ hlog,
    fun i => ⟨(hserving i).served.received, (hserving i).journaled (hclients i)⟩⟩

/-- The calls of `Append` of a run, with whose they are. -/
theorem run_attempts (envs : Nat → Env) (streams : ι → Bytes) (w : World) (events : List (Event ι))
    (outcomes : Outcomes) :
    let s := (Service.start w streams).run true envs events
    ∃ chunks m, Behind true envs w events s chunks m ∧
      ∃ tagged : List (ι × Attempt), s.world.attempts outcomes = w.attempts outcomes ++ tagged.map Prod.snd ∧
        ∀ i, (chunks i).flatten ++ (s.connections i).inbound = streams i ∧
          ∃ replies closing rest inFlight, (m.clients i).results = replies.map some ∧
            Wired (s.connections i).phase (s.connections i).sent replies closing rest ∧
            (share i tagged).map Attempt.args =
              confirmed (handleClient (chunks i)).items (replies.map some) ++ inFlight ∧
            (inFlight = [] ∨ ∃ r, (s.connections i).phase = .dispatching (.ret r) ∧
              inFlight = (handleClient (chunks i)).items[replies.length]?.toList) := by
  intro s
  obtain ⟨chunks, m, hbehind, tagged, hlog, hclients⟩ := run_tagged envs streams w events
  refine ⟨chunks, m, hbehind, taggedFrom outcomes w.log.length tagged, ?_, fun i => ?_⟩
  · rw [World.attempts, hlog, attemptsFrom_append, Nat.zero_add, taggedFrom_snd]
    rfl
  · rw [share_taggedFrom]
    exact hclients i

/-- **The log is what the clients were told.** Any number of connections, in any interleaving,
with any pieces received and sent, any calls failing and any sweeps, and however the writes of
the log go: the calls of `Append` are an interleaving of one list a connection, and the file has
what each of them has written, in their order. That list is the commands of the connection whose
replies, all of which but the last have been sent whole, confirm a write, in the order in which
they were sent to the server and each once. One more can follow them: the command that is
between its append and its reply. -/
theorem journal_confirmed (envs : Nat → Env) (streams : ι → Bytes) (w : World) (events : List (Event ι))
    (outcomes : Outcomes) :
    let s := (Service.start w streams).run true envs events
    ∃ chunks m, Behind true envs w events s chunks m ∧
      ∃ tagged : List (ι × Attempt),
        (s.world.attempts outcomes = w.attempts outcomes ++ tagged.map Prod.snd ∧
          ∀ file, session file (s.world.attempts outcomes) =
            session file (w.attempts outcomes) ++ (tagged.map fun entry => entry.2.bytes).flatten) ∧
        ∀ i, (chunks i).flatten ++ (s.connections i).inbound = streams i ∧
          ∃ replies closing rest inFlight, (m.clients i).results = replies.map some ∧
            Wired (s.connections i).phase (s.connections i).sent replies closing rest ∧
            (share i tagged).map Attempt.args =
              confirmed (handleClient (chunks i)).items (replies.map some) ++ inFlight ∧
            (inFlight = [] ∨ ∃ r, (s.connections i).phase = .dispatching (.ret r) ∧
              inFlight = (handleClient (chunks i)).items[replies.length]?.toList) := by
  intro s
  obtain ⟨chunks, m, hbehind, tagged, hattempts, hclients⟩ := run_attempts envs streams w events outcomes
  refine ⟨chunks, m, hbehind, tagged, ⟨hattempts, fun file => ?_⟩, hclients⟩
  rw [hattempts, session_eq, session_eq, List.map_append, List.flatten_append, List.append_assoc, List.map_map]
  rfl

end Clients
end GoRedis
