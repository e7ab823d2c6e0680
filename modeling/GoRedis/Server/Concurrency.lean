import GoRedis.Server.Replay

/-! The log of clients that run at the same time.

A write is two steps, the store call and the `Append`, and other clients come in between, so
the commands may stand in the log in another order than the store executed them. The log is
faithful if that happens only to commands without a common key. -/
namespace GoRedis
open Interleaving Dispatcher Keyspace Footprint CommandParser

/-! ### Calls that commute -/

theorem effects_append (cs ds : List Call) (ks : Keyspace) :
    effects (cs ++ ds) ks = effects ds (effects cs ks) :=
  List.foldl_append

theorem quiet_append {cs ds : List Call} {ks : Keyspace} :
    Quiet (cs ++ ds) ks ↔ Quiet cs ks ∧ Quiet ds (effects cs ks) := by
  induction cs generalizing ks with
  | nil => exact (and_iff_right trivial).symm
  | cons c cs ih =>
    rw [List.cons_append, Quiet, Quiet, ih, and_assoc]
    rfl

/-- The calls touch these keys only. -/
def Within (K : Bytes → Prop) (cs : List Call) : Prop := ∀ c ∈ cs, ∀ k, c.touches k → K k

section Within
variable {K : Bytes → Prop} {cs ds : List Call}

theorem Within.local (h : Within K cs) : Local K (effects cs) :=
  .foldl fun c hc => (effect_local c).mono (h c hc)

theorem Within.quiet (h : Within K cs) {ks ks' : Keyspace} (hks : Agree K ks ks') (hq : Quiet cs ks) :
    Quiet cs ks' := by
  induction cs generalizing ks ks' with
  | nil => trivial
  | cons c cs ih =>
    obtain ⟨hc, hcs⟩ := List.forall_mem_cons.mp h
    refine ⟨fun hs => hq.1 ((setsTtl_congr fun k hk => hks k (hc k hk)).mpr hs), ?_⟩
    exact ih hcs (((effect_local c).mono hc).congr ks ks' hks) hq.2

/-- Calls on some keys can be made before calls on other keys. -/
theorem Within.comm (hc : Within (fun k => ¬K k) cs) (hd : Within K ds) (ks : Keyspace) :
    effects ds (effects cs ks) = effects cs (effects ds ks) :=
  hd.local.comm hc.local (fun _ hk hn => hn hk) ks

theorem Within.quiet_comm (hc : Within (fun k => ¬K k) cs) (hd : Within K ds) {ks : Keyspace}
    (h : Quiet (cs ++ ds) ks) : Quiet (ds ++ cs) ks := by
  rw [quiet_append] at h ⊢
  refine ⟨hd.quiet (hc.local.agree (fun _ hk hn => hn hk) ks) h.2, ?_⟩
  exact hc.quiet (hd.local.agree (fun _ hn => hn) ks).symm h.1

end Within

/-! ### The machine -/

section Machine
variable {ι : Type*}

/-- The clients' commands and what is left of them, the store and the log. -/
abbrev Machine (ι : Type*) := Config Op Op.Ans (Option RespValue) (List Bytes) World ι

/-- The command touches the key; the second call of a `SET … EX` touches the same. -/
def Touches (args : List Bytes) (k : Bytes) : Prop := ∃ c ∈ firstCall (dispatch true args), c.touches k

/-- The client is at a command that touches the key. -/
def Machine.At (m : Machine ι) (i : ι) (k : Bytes) : Prop :=
  ∃ x ∈ (m.clients i).running, Touches x.1 k

/-- The clients are not at commands with a common key. -/
def Machine.Apart (m : Machine ι) (i j : ι) : Prop := ∀ k, m.At i k → ¬m.At j k

variable [DecidableEq ι] (envs : Nat → Env)

/-- The clients at commands that have called the store and have steps left, so are not in
the log yet, in the order of their first calls. -/
def unlogged (q : List ι) (m : Machine ι) (i : ι) : List ι :=
  match (m.clients i).running with
  | some (_, .step op next) =>
    match next (m.shared.exec envs op).2 with
    | .step _ _ => if i ∈ q then q else q ++ [i]
    | .ret _ => q.erase i
  | _ => q

/-- **The log follows the store.** A command is appended after those that called the store
before it and have a key in common with it, and none of these comes between the two calls
of a `SET … EX`. -/
def InOrder (q : List ι) (m : Machine ι) (i : ι) : Prop :=
  match (m.clients i).running with
  | some (_, .step (.append _) _) => ∀ earlier later, q = earlier ++ i :: later → ∀ j ∈ earlier, m.Apart i j
  | some (_, .step (.call _) _) => ∀ earlier later, q = earlier ++ i :: later → ∀ j ∈ later, m.Apart i j
  | _ => True

/-- The turn gives no key a deadline. -/
def NoTtlTurn (m : Machine ι) (i : ι) : Prop :=
  match (m.clients i).running with
  | some (_, .step op _) => NoTtl envs m.shared op
  | _ => True

end Machine

/-! ### Commands that are not in the log yet -/

/-- What is left of a command that has written, and the calls it has made. -/
inductive Pending (args : List Bytes) : Program → List Call → Prop where
  | written (r : Option RespValue) (cs : List Call) (hreplay : ReplaysAs args cs)
    (hwithin : Within (Touches args) cs) : Pending args (.step (.append args) fun _ => .ret r) cs
  | half (key value : Bytes) (seconds : Int)
    (hreplay : ReplaysAs args [.set key value, .expire key seconds])
    (hfirst : firstCall (dispatch true args) = some (.set key value)) :
    Pending args (.step (.call (.expire key seconds)) fun _ => .step (.append args) fun _ => .ret (some ok))
      [.set key value]

theorem within_of_first {args : List Bytes} {c : Call} (h : firstCall (dispatch true args) = some c) :
    Within (Touches args) [c] := by
  intro d hd k hk
  rw [List.mem_singleton.mp hd] at hk
  exact ⟨c, h, hk⟩

theorem Pending.within {args : List Bytes} {p : Program} {cs : List Call} (h : Pending args p cs) :
    Within (Touches args) cs := by
  cases h with
  | written r cs hreplay hwithin => exact hwithin
  | half key value seconds hreplay hfirst => exact within_of_first hfirst

/-- The first step of a command: it ends and has changed nothing, or it has written. -/
theorem dispatch_first {args : List Bytes} {op : Op} {next : op.Ans → Program}
    (h : dispatch true args = .step op next) (envs : Nat → Env) {w : World} (hw : Plain w)
    (hs : NoTtl envs w op) :
    Plain (w.exec envs op).1 ∧ (w.exec envs op).1.log = w.log ∧
      ((∃ r, next (w.exec envs op).2 = .ret r) ∧ (w.exec envs op).1.contents = w.contents ∨
        ∃ c, Pending args (next (w.exec envs op).2) [c] ∧ ¬w.contents.SetsTtl c ∧
          (w.exec envs op).1.contents = effect c w.contents) := by
  obtain ⟨p, hconduct, hp⟩ := dispatch_program args
  have hfirst : firstCall (dispatch true args) = firstCall (p true) := by rw [hp]
  rw [hp] at h
  have hnow : ∀ {c : Call}, NoTtl envs w (.call c) → ¬w.contents.SetsTtl c := fun hs => hw.live _ ▸ hs
  cases hconduct with
  | nothing _ => cases h
  | readOnly p hread =>
    rcases hread.cases with ⟨r, rfl⟩ | ⟨c, r, next, hc, rfl, hnext⟩
    · cases h
    · cases h
      obtain ⟨hplain, hcontents⟩ := hw.call envs (hnow hs)
      rw [effect_of_read hc] at hcontents
      exact ⟨hplain, World.call_log envs w c, .inl ⟨⟨_, hnext _⟩, hcontents⟩⟩
  | write c hc r _ next hnext =>
    cases h
    obtain ⟨hplain, hcontents⟩ := hw.call envs (hnow hs)
    refine ⟨hplain, World.call_log envs w c, ?_⟩
    rw [hnext]
    cases hok : c.ok (w.exec envs (.call c)).2 with
    | true =>
      refine .inr ⟨c, ?_, hnow hs, hcontents⟩
      rw [if_pos rfl]
      exact .written _ [c] (replaysAs_write hnext (hp false)) (within_of_first hfirst)
    | false =>
      refine .inl ⟨⟨_, if_neg Bool.false_ne_true⟩, ?_⟩
      exact hcontents.trans (hw.failed envs hc hok)
  | setEx key value seconds =>
    cases h
    obtain ⟨hplain, hcontents⟩ := hw.call envs (hnow hs)
    refine ⟨hplain, World.call_log envs w _, .inr ⟨_, ?_, hnow hs, hcontents⟩⟩
    exact .half key value seconds (replaysAs_setEx (hp false)) hfirst

/-! ### The log and the store -/

section Invariant
variable {ι : Type*}

/-- All commands of the client can be logged. -/
def LoggableAll (c : Session) : Prop :=
  (∀ args ∈ c.todo, Loggable args) ∧ ∀ x ∈ c.running, Loggable x.1

/-- The client is between two commands, at the beginning or at the end of one. -/
def Idle (c : Session) : Prop := ∀ x ∈ c.running, x.2 = dispatch true x.1 ∨ ∃ r, x.2 = .ret r

/-- The client is at a command that has made these calls. -/
def Busy (c : Session) (cs : List Call) : Prop := ∃ args p, c.running = some (args, p) ∧ Pending args p cs

/-- What replaying the log gives. -/
def replayed (envs : Nat → Env) (w : World) : World := dispatchAll false envs w.log {}

/-- The store is what the calls of the commands that are not in the log yet, in the order
in which the store executed them, make of what the log replays to. -/
structure Follows (envs : Nat → Env) (pending : List (ι × List Call)) (m : Machine ι) : Prop where
  plain : Plain m.shared
  plain' : Plain (replayed envs m.shared)
  loggable : ∀ args ∈ m.shared.log, Loggable args
  commands : ∀ i, LoggableAll (m.clients i)
  nodup : (pending.map Prod.fst).Nodup
  busy : ∀ d ∈ pending, Busy (m.clients d.1) d.2
  idle : ∀ i ∉ pending.map Prod.fst, Idle (m.clients i)
  quiet : Quiet (pending.flatMap Prod.snd) (replayed envs m.shared).contents
  contents : m.shared.contents = effects (pending.flatMap Prod.snd) (replayed envs m.shared).contents

/-- The calls of commands that have no key in common with that of a client. -/
theorem Follows.within {envs : Nat → Env} {pending : List (ι × List Call)} {m : Machine ι} {i : ι}
    (h : Follows envs pending m) (others : List (ι × List Call)) (hsub : others ⊆ pending)
    (hapart : ∀ d ∈ others, m.Apart i d.1) : Within (fun k => ¬m.At i k) (others.flatMap Prod.snd) := by
  intro e he k hk hat
  obtain ⟨d, hd, he⟩ := List.mem_flatMap.mp he
  obtain ⟨args, p, hrunning, hpending⟩ := h.busy d (hsub hd)
  exact hapart d hd k hat ⟨_, hrunning, hpending.within e he k hk⟩

theorem split_calls (earlier later : List (ι × List Call)) (i : ι) (cs : List Call) :
    (earlier ++ (i, cs) :: later).flatMap Prod.snd =
      earlier.flatMap Prod.snd ++ (cs ++ later.flatMap Prod.snd) := by
  rw [List.flatMap_append, List.flatMap_cons]

theorem Follows.split_nodup {envs : Nat → Env} {earlier later : List (ι × List Call)} {cs : List Call}
    {m : Machine ι} {i : ι} (h : Follows envs (earlier ++ (i, cs) :: later) m) :
    i ∉ earlier.map Prod.fst ∧ i ∉ later.map Prod.fst ∧ ((earlier ++ later).map Prod.fst).Nodup := by
  obtain ⟨hi, hnodup⟩ := nodup_fst_middle h.nodup
  rw [List.map_append, List.mem_append, not_or] at hi
  exact ⟨hi.1, hi.2, hnodup⟩

theorem Follows.loggableAll_next {envs : Nat → Env} {pending : List (ι × List Call)} {m : Machine ι} {i : ι}
    (h : Follows envs pending m) {args : List Bytes} {p : Program} (hrun : (m.clients i).running = some (args, p))
    (p' : Program) : LoggableAll { m.clients i with running := some (args, p') } := by
  obtain ⟨htodo, hrunning⟩ := h.commands i
  refine ⟨htodo, ?_⟩
  rintro x ⟨⟩
  exact hrunning (args, p) hrun

variable [DecidableEq ι]

namespace Follows
variable {envs : Nat → Env} {pending : List (ι × List Call)} {m : Machine ι} {i : ι} {c : Session} {w : World}

theorem busy_after (h : Follows envs pending m) {others : List (ι × List Call)} (hsub : others ⊆ pending)
    (hi : i ∉ others.map Prod.fst) : ∀ d ∈ others, Busy ((m.after i c w).clients d.1) d.2 := by
  intro d hd
  have hne : d.1 ≠ i := fun heq => hi (heq ▸ List.mem_map_of_mem hd)
  rw [Config.after_ne hne]
  exact h.busy d (hsub hd)

/-- A turn of a client that is not waiting to be logged, and changes nothing. -/
theorem stay (h : Follows envs pending m) (hi : i ∉ pending.map Prod.fst) (hplain : Plain w)
    (hlog : w.log = m.shared.log) (hcontents : w.contents = m.shared.contents) (hc : LoggableAll c)
    (hidle : Idle c) : Follows envs pending (m.after i c w) := by
  have hreplayed : replayed envs w = replayed envs m.shared := by rw [replayed, hlog, replayed]
  refine ⟨hplain, hreplayed ▸ h.plain', hlog ▸ h.loggable, ?_, h.nodup, ?_, ?_, hreplayed ▸ h.quiet, ?_⟩
  · exact Config.after_forall (fun j _ => h.commands j) hc
  · exact h.busy_after (List.Subset.refl _) hi
  · exact Config.after_forall (P := fun j s => j ∉ pending.map Prod.fst → Idle s) (fun j _ => h.idle j)
      fun _ => hidle
  · exact hcontents.trans (hreplayed ▸ h.contents)

/-- The first call of a command that will be logged. -/
theorem push (h : Follows envs pending m) (hi : i ∉ pending.map Prod.fst) (hplain : Plain w)
    (hlog : w.log = m.shared.log) {d : Call} (hquiet : ¬m.shared.contents.SetsTtl d)
    (hcontents : w.contents = effect d m.shared.contents) (hc : LoggableAll c) (hbusy : Busy c [d]) :
    Follows envs (pending ++ [(i, [d])]) (m.after i c w) := by
  have hreplayed : replayed envs w = replayed envs m.shared := by rw [replayed, hlog, replayed]
  have hcalls : (pending ++ [(i, [d])]).flatMap Prod.snd = pending.flatMap Prod.snd ++ [d] := by simp
  refine ⟨hplain, hreplayed ▸ h.plain', hlog ▸ h.loggable, ?_, ?_, ?_, ?_, ?_, ?_⟩
  · exact Config.after_forall (fun j _ => h.commands j) hc
  · rw [List.map_append, List.nodup_append']
    exact ⟨h.nodup, List.nodup_singleton i, List.disjoint_singleton.mpr hi⟩
  · intro e he
    rcases List.mem_append.mp he with he | he
    · exact h.busy_after (List.Subset.refl _) hi e he
    · rw [List.mem_singleton.mp he, Config.after_self]
      exact hbusy
  · intro j hj
    rw [List.map_append, List.mem_append, not_or] at hj
    have hne : j ≠ i := fun heq => hj.2 (heq ▸ List.mem_singleton_self i)
    rw [Config.after_ne hne]
    exact h.idle j hj.1
  · rw [hcalls, quiet_append]
    exact hreplayed ▸ ⟨h.quiet, h.contents ▸ hquiet, trivial⟩
  · rw [hcalls, effects_append]
    exact hreplayed ▸ h.contents ▸ hcontents

section Split
variable {earlier later : List (ι × List Call)} {cs : List Call}

/-- A further call of a command, with none of those after it on the same keys. -/
theorem extend (h : Follows envs (earlier ++ (i, cs) :: later) m)
    (hapart : ∀ d ∈ later, m.Apart i d.1) (hplain : Plain w) (hlog : w.log = m.shared.log) {d : Call}
    (hwithin : Within (m.At i) [d]) (hquiet : ¬m.shared.contents.SetsTtl d)
    (hcontents : w.contents = effect d m.shared.contents) (hc : LoggableAll c) (hbusy : Busy c (cs ++ [d])) :
    Follows envs (earlier ++ (i, cs ++ [d]) :: later) (m.after i c w) := by
  have hreplayed : replayed envs w = replayed envs m.shared := by rw [replayed, hlog, replayed]
  have hclients : (earlier ++ (i, cs ++ [d]) :: later).map Prod.fst =
      (earlier ++ (i, cs) :: later).map Prod.fst := by simp
  obtain ⟨hearlier, hlater, -⟩ := h.split_nodup
  have hothers := h.within later (by simp) hapart
  have hq := h.quiet
  have hk := h.contents
  rw [split_calls, ← List.append_assoc] at hq hk
  rw [quiet_append] at hq
  rw [effects_append] at hk
  refine ⟨hplain, hreplayed ▸ h.plain', hlog ▸ h.loggable, ?_, hclients ▸ h.nodup, ?_, ?_, ?_, ?_⟩
  · exact Config.after_forall (fun j _ => h.commands j) hc
  · rw [List.forall_mem_append, List.forall_mem_cons, Config.after_self]
    exact ⟨h.busy_after (by simp) hearlier, hbusy, h.busy_after (by simp) hlater⟩
  · intro j hj
    rw [hclients] at hj
    have hne : j ≠ i := fun heq => hj (heq ▸ by simp)
    rw [Config.after_ne hne]
    exact h.idle j hj
  · rw [split_calls, List.append_assoc, ← List.append_assoc, quiet_append]
    refine hreplayed ▸ ⟨hq.1, hothers.quiet_comm hwithin (quiet_append.mpr ⟨hq.2, ?_⟩)⟩
    exact ⟨hk ▸ hquiet, trivial⟩
  · rw [split_calls, List.append_assoc, ← List.append_assoc, effects_append, effects_append]
    refine hcontents.trans ?_
    rw [hk]
    exact hreplayed ▸ hothers.comm hwithin _

/-- A command is logged, before those that come before it and touch other keys. -/
theorem logged (h : Follows envs (earlier ++ (i, cs) :: later) m) (hapart : ∀ d ∈ earlier, m.Apart i d.1)
    (hplain : Plain w) {args : List Bytes} (hlog : w.log = m.shared.log ++ [args]) (hargs : Loggable args)
    (hwithin : Within (m.At i) cs) (hreplay : ReplaysAs args cs) (hcontents : w.contents = m.shared.contents)
    (hc : LoggableAll c) (hidle : Idle c) : Follows envs (earlier ++ later) (m.after i c w) := by
  obtain ⟨hearlier, hlater, hnodup⟩ := h.split_nodup
  have hothers := h.within earlier (by simp) hapart
  have hq := h.quiet
  have hk := h.contents
  rw [split_calls, ← List.append_assoc] at hq hk
  rw [quiet_append] at hq
  have hfirst := quiet_append.mp (hothers.quiet_comm hwithin hq.1)
  obtain ⟨hplain', hcontents'⟩ := hreplay envs _ h.plain' hfirst.1
  rw [effects_append, effects_append, hothers.comm hwithin, ← hcontents'] at hk
  rw [effects_append, hothers.comm hwithin, ← hcontents'] at hq
  have hreplayed : replayed envs w = ((dispatch false args).run (World.exec envs) (replayed envs m.shared)).1 := by
    rw [replayed, hlog, dispatchAll_concat, replayed]
  refine ⟨hplain, hreplayed ▸ hplain', ?_, ?_, hnodup, ?_, ?_, ?_, ?_⟩
  · rw [show (m.after i c w).shared.log = m.shared.log ++ [args] from hlog, List.forall_mem_append]
    exact ⟨h.loggable, fun a ha => List.mem_singleton.mp ha ▸ hargs⟩
  · exact Config.after_forall (fun j _ => h.commands j) hc
  · rw [List.forall_mem_append]
    exact ⟨h.busy_after (by simp) hearlier, h.busy_after (by simp) hlater⟩
  · refine Config.after_forall (P := fun j s => j ∉ (earlier ++ later).map Prod.fst → Idle s) (fun j hj hn => ?_)
      fun _ => hidle
    exact h.idle j (by simp_all)
  · rw [List.flatMap_append, quiet_append]
    exact hreplayed ▸ ⟨hcontents' ▸ hfirst.2, hq.2⟩
  · rw [List.flatMap_append, effects_append]
    exact hreplayed ▸ hcontents.trans hk

end Split

/-- A turn of a client that is not at a command waiting to be logged, up to the next operation. -/
theorem turn_idle {envs : Nat → Env} (h : Follows envs pending m) (envs' : Nat → Env)
    (hi : i ∉ pending.map Prod.fst) (hrun : ∀ args op next, (m.clients i).running ≠ some (args, .step op next)) :
    Follows envs pending (Config.turn (dispatch true) (World.exec envs') m i) := by
  have hcommands := h.commands i
  suffices hc : ((m.clients i).turn (dispatch true) (World.exec envs') m.shared).2 = m.shared ∧
      LoggableAll ((m.clients i).turn (dispatch true) (World.exec envs') m.shared).1 ∧
      Idle ((m.clients i).turn (dispatch true) (World.exec envs') m.shared).1 by
    refine h.stay hi ?_ ?_ ?_ hc.2.1 hc.2.2
    · rw [hc.1]
      exact h.plain
    · rw [hc.1]
    · rw [hc.1]
  unfold Client.turn
  split
  · next hnone =>
    split
    · exact ⟨rfl, hcommands, h.idle i hi⟩
    · next args todo htodo =>
      rw [LoggableAll, htodo, List.forall_mem_cons] at hcommands
      refine ⟨rfl, ⟨hcommands.1.2, ?_⟩, ?_⟩
      · rintro x ⟨⟩
        exact hcommands.1.1
      · rintro x ⟨⟩
        exact .inl rfl
  · exact ⟨rfl, ⟨hcommands.1, nofun⟩, nofun⟩
  · next args op next hsome => exact absurd hsome (hrun _ _ _)

theorem unlogged_ret {envs' : Nat → Env} {args : List Bytes} {op : Op} {next : op.Ans → Program} {q : List ι}
    (hrun : (m.clients i).running = some (args, .step op next)) {r : Option RespValue}
    (hr : next (m.shared.exec envs' op).2 = .ret r) : unlogged envs' q m i = q.erase i := by
  simp only [unlogged, hrun, hr]

theorem unlogged_pending {envs' : Nat → Env} {args : List Bytes} {op : Op} {next : op.Ans → Program} {q : List ι}
    (hrun : (m.clients i).running = some (args, .step op next)) {cs : List Call}
    (hp : Pending args (next (m.shared.exec envs' op).2) cs) :
    unlogged envs' q m i = if i ∈ q then q else q ++ [i] := by
  simp only [unlogged, hrun]
  generalize next (m.shared.exec envs' op).2 = p at hp
  cases hp <;> rfl

/-- The first operation of a command. -/
theorem turn_first (h : Follows envs pending m) {envs' : Nat → Env} (hi : i ∉ pending.map Prod.fst)
    {args : List Bytes} {op : Op} {next : op.Ans → Program}
    (hrun : (m.clients i).running = some (args, .step op next)) (hs : NoTtl envs' m.shared op) :
    ∃ pending', pending'.map Prod.fst = unlogged envs' (pending.map Prod.fst) m i ∧
      Follows envs pending' (Config.turn (dispatch true) (World.exec envs') m i) := by
  have hd : dispatch true args = .step op next := by
    rcases h.idle i hi _ hrun with hd | ⟨r, hr⟩
    · exact hd.symm
    · cases hr
  have hc := h.loggableAll_next hrun (next (m.shared.exec envs' op).2)
  rw [Config.turn_step hrun]
  obtain ⟨hplain, hlog, ⟨⟨r, hr⟩, hcontents⟩ | ⟨c, hpending, hquiet, hcontents⟩⟩ :=
    dispatch_first hd envs' h.plain hs
  · refine ⟨pending, ?_, h.stay hi hplain hlog hcontents hc ?_⟩
    · rw [unlogged_ret hrun hr, List.erase_of_not_mem hi]
    · rintro x ⟨⟩
      exact .inr ⟨r, hr⟩
  · refine ⟨pending ++ [(i, [c])], ?_, h.push hi hplain hlog hquiet hcontents hc ⟨args, _, rfl, hpending⟩⟩
    rw [unlogged_pending hrun hpending, if_neg hi, List.map_append]
    rfl

section Next
variable {earlier later : List (ι × List Call)} {cs : List Call} {envs' : Nat → Env} {args : List Bytes}

/-- The `Append` of a command. -/
theorem turn_append (h : Follows envs (earlier ++ (i, cs) :: later) m)
    (hin : InOrder ((earlier ++ (i, cs) :: later).map Prod.fst) m i) {r : Option RespValue}
    (hrun : (m.clients i).running = some (args, .step (.append args) fun _ => .ret r)) (hreplay : ReplaysAs args cs)
    (hwithin : Within (Touches args) cs) :
    ∃ pending', pending'.map Prod.fst = unlogged envs' ((earlier ++ (i, cs) :: later).map Prod.fst) m i ∧
      Follows envs pending' (Config.turn (dispatch true) (World.exec envs') m i) := by
  simp only [InOrder, hrun] at hin
  have hapart : ∀ d ∈ earlier, m.Apart i d.1 := fun d hd =>
    hin (earlier.map Prod.fst) (later.map Prod.fst) (by simp) d.1 (List.mem_map_of_mem hd)
  have hargs : Loggable args := (h.commands i).2 _ hrun
  have hat : Within (m.At i) cs := fun d hd k hk => ⟨_, hrun, hwithin d hd k hk⟩
  refine ⟨earlier ++ later, ?_, ?_⟩
  · rw [unlogged_ret hrun rfl, List.map_append, List.map_append, List.map_cons,
      List.erase_append_right _ h.split_nodup.1, List.erase_cons_head]
  · rw [Config.turn_step hrun]
    refine h.logged hapart (h.plain.append envs' args) (World.append_log envs' _ args) hargs hat
      hreplay (append_contents envs' _ args) (h.loggableAll_next hrun _) ?_
    rintro x ⟨⟩
    exact .inr ⟨r, rfl⟩

/-- The second call of a `SET … EX`; both touch its key only. -/
theorem turn_expire {key value : Bytes} {seconds : Int}
    (h : Follows envs (earlier ++ (i, [.set key value]) :: later) m)
    (hin : InOrder ((earlier ++ (i, [.set key value]) :: later).map Prod.fst) m i)
    (hrun : (m.clients i).running = some (args, .step (.call (.expire key seconds)) fun _ =>
      .step (.append args) fun _ => .ret (some ok)))
    (hs : NoTtlTurn envs' m i) (hreplay : ReplaysAs args [.set key value, .expire key seconds])
    (hfirst : firstCall (dispatch true args) = some (.set key value)) :
    ∃ pending',
      pending'.map Prod.fst = unlogged envs' ((earlier ++ (i, [.set key value]) :: later).map Prod.fst) m i ∧
      Follows envs pending' (Config.turn (dispatch true) (World.exec envs') m i) := by
  simp only [InOrder, hrun] at hin
  simp only [NoTtlTurn, hrun] at hs
  have hquiet : ¬m.shared.contents.SetsTtl (.expire key seconds) := h.plain.live _ ▸ hs
  have hapart : ∀ d ∈ later, m.Apart i d.1 := fun d hd =>
    hin (earlier.map Prod.fst) (later.map Prod.fst) (by simp) d.1 (List.mem_map_of_mem hd)
  have hset := within_of_first hfirst
  have hexpire : Within (Touches args) [.expire key seconds] := by
    intro d hd k hk
    rw [List.mem_singleton.mp hd] at hk
    exact hset (.set key value) (List.mem_singleton_self _) k hk
  have hpending : Pending args (.step (.append args) fun _ => .ret (some ok))
      ([.set key value] ++ [.expire key seconds]) :=
    .written _ _ hreplay (List.forall_mem_append.mpr ⟨hset, hexpire⟩)
  have hat : Within (m.At i) [.expire key seconds] := fun d hd k hk => ⟨_, hrun, hexpire d hd k hk⟩
  obtain ⟨hplain, hcontents⟩ := h.plain.call envs' hquiet
  refine ⟨earlier ++ (i, [.set key value] ++ [.expire key seconds]) :: later, ?_, ?_⟩
  · rw [unlogged_pending hrun hpending, if_pos (by simp)]
    simp
  · rw [Config.turn_step hrun]
    exact h.extend hapart hplain (World.call_log envs' _ _) hat hquiet hcontents (h.loggableAll_next hrun _)
      ⟨args, _, rfl, hpending⟩

/-- A further operation of a command that is waiting to be logged. -/
theorem turn_next (h : Follows envs (earlier ++ (i, cs) :: later) m)
    (hin : InOrder ((earlier ++ (i, cs) :: later).map Prod.fst) m i) (hs : NoTtlTurn envs' m i) :
    ∃ pending', pending'.map Prod.fst = unlogged envs' ((earlier ++ (i, cs) :: later).map Prod.fst) m i ∧
      Follows envs pending' (Config.turn (dispatch true) (World.exec envs') m i) := by
  obtain ⟨args, p, hrun, hp⟩ := h.busy (i, cs) (by simp)
  cases hp with
  | written r cs hreplay hwithin => exact h.turn_append hin hrun hreplay hwithin
  | half key value seconds hreplay hfirst => exact h.turn_expire hin hrun hs hreplay hfirst

end Next

/-- **One turn** in which the log follows the store. -/
theorem turn (h : Follows envs pending m) {envs' : Nat → Env} (hin : InOrder (pending.map Prod.fst) m i)
    (hs : NoTtlTurn envs' m i) :
    ∃ pending', pending'.map Prod.fst = unlogged envs' (pending.map Prod.fst) m i ∧
      Follows envs pending' (Config.turn (dispatch true) (World.exec envs') m i) := by
  by_cases hi : i ∈ pending.map Prod.fst
  · obtain ⟨⟨j, cs⟩, hd, heq⟩ := List.mem_map.mp hi
    obtain rfl : j = i := heq
    obtain ⟨earlier, later, rfl⟩ := List.append_of_mem hd
    exact h.turn_next hin hs
  · by_cases hstep : ∃ args op next, (m.clients i).running = some (args, .step op next)
    · obtain ⟨args, op, next, hrun⟩ := hstep
      simp only [NoTtlTurn, hrun] at hs
      exact h.turn_first hi hrun hs
    · push Not at hstep
      refine ⟨pending, ?_, h.turn_idle envs' hi hstep⟩
      unfold unlogged
      split
      · next args op next hrun => exact absurd hrun (hstep args op next)
      · rfl

end Follows

/-- **The log of concurrent clients is faithful** if it follows the store: whatever the
interleaving, once all clients have ended, the log loads into a store with the contents of
the server's. -/
theorem concurrent_replay (commands : ι → List (List Bytes)) (hcommands : ∀ i, ∀ args ∈ commands i, Loggable args)
    (envs envs' : Nat → Env) (schedule : List ι)
    (h : Config.Along (dispatch true) (World.exec envs) (unlogged envs)
      (fun q m i => NoTtlTurn envs m i ∧ InOrder q m i) [] (Config.start {} commands) schedule)
    (hend : ((Config.start {} commands).run (dispatch true) (World.exec envs) schedule).Finished) :
    let w := ((Config.start {} commands).run (dispatch true) (World.exec envs) schedule).shared
    (loadAof envs' w.file {}).2 = true ∧
      ∀ now, (loadAof envs' w.file {}).1.store.live now = w.store.live now := by
  have hstart : Follows envs' [] (Config.start {} commands) :=
    ⟨plain_fresh, plain_fresh, fun _ h => absurd h List.not_mem_nil, fun i => ⟨hcommands i, nofun⟩, List.nodup_nil,
      nofun, fun i _ => nofun, trivial, rfl⟩
  have hstep : ∀ (q : List ι) m i, (∃ pending, pending.map Prod.fst = q ∧ Follows envs' pending m) →
      NoTtlTurn envs m i ∧ InOrder q m i → ∃ pending, pending.map Prod.fst = unlogged envs q m i ∧
        Follows envs' pending (Config.turn (dispatch true) (World.exec envs) m i) := by
    rintro q m i ⟨pending, rfl, hm⟩ ⟨hs, hin⟩
    exact hm.turn hin hs
  obtain ⟨q, pending, -, hm⟩ := h.invariant hstep ⟨[], rfl, hstart⟩
  have hnil : pending = [] := by
    refine List.eq_nil_iff_forall_not_mem.mpr fun d hd => ?_
    obtain ⟨args, p, hrun, -⟩ := hm.busy d hd
    rw [(hend d.1).1] at hrun
    cases hrun
  have hcontents := hm.contents
  rw [hnil] at hcontents
  exact Mirrored.load ⟨hm.plain, hm.loggable, hm.plain', hcontents.symm⟩

end Invariant

/-- Two clients set one key, the second before the first has appended; they append in turn. -/
theorem concurrent_replay_in_turn :
    let commands : Bool → List (List Bytes) := fun i => [[ascii "SET", ascii "k", if i then ascii "b" else ascii "a"]]
    let envs : Nat → Env := fun n => { now := n }
    let schedule := [false, false, true, true, false, false, true, true]
    let m := (Config.start {} commands).run (dispatch true) (World.exec envs) schedule
    ((∀ i, ∀ args ∈ commands i, Loggable args) ∧ m.Finished ∧
      Config.Along (dispatch true) (World.exec envs) (unlogged envs)
        (fun q m i => NoTtlTurn envs m i ∧ InOrder q m i) [] (Config.start {} commands) schedule) ∧
      (loadAof envs m.shared.file {}).2 = true ∧
      ∀ now, (loadAof envs m.shared.file {}).1.store.live now = m.shared.store.live now := by
  intro commands envs schedule m
  have hcommands : ∀ i, ∀ args ∈ commands i, Loggable args := by decide
  have hend : m.Finished := by
    rintro (_ | _)
    · exact ⟨rfl, rfl⟩
    · exact ⟨rfl, rfl⟩
  -- the client that appends is the first of those waiting
  have hfirst : ∀ {i : Bool} {q earlier later : List Bool}, i ∉ q → i :: q = earlier ++ i :: later →
      earlier = [] := by
    rintro i q (_ | ⟨j, earlier⟩) later hi heq
    · rfl
    · obtain ⟨rfl, rfl⟩ := List.cons.inj heq
      simp at hi
  have halong : Config.Along (dispatch true) (World.exec envs) (unlogged envs)
      (fun q m i => NoTtlTurn envs m i ∧ InOrder q m i) [] (Config.start {} commands) schedule := by
    refine ⟨⟨trivial, trivial⟩, ⟨id, ?_⟩, ⟨trivial, trivial⟩, ⟨id, ?_⟩, ⟨trivial, ?_⟩, ⟨trivial, trivial⟩,
      ⟨trivial, ?_⟩, ⟨trivial, trivial⟩, trivial⟩
    · intro earlier later (heq : [] = earlier ++ false :: later)
      simp at heq
    · intro earlier later (heq : [false] = earlier ++ true :: later)
      have hmem : true ∈ [false] := heq ▸ List.mem_append_right _ List.mem_cons_self
      simp at hmem
    · intro earlier later heq
      rw [hfirst (by decide) heq]
      exact fun j hj => absurd hj List.not_mem_nil
    · intro earlier later heq
      rw [hfirst (by decide) heq]
      exact fun j hj => absurd hj List.not_mem_nil
  exact ⟨⟨hcommands, hend, halong⟩, concurrent_replay commands hcommands envs envs schedule halong hend⟩

/-- Two clients set one key; the second is the first to append. -/
theorem concurrent_replay_reversed :
    let commands : Bool → List (List Bytes) := fun i => [[ascii "SET", ascii "k", if i then ascii "b" else ascii "a"]]
    let envs : Nat → Env := fun _ => { now := 0 }
    let m := (Config.start {} commands).run (dispatch true) (World.exec envs)
      [false, false, true, true, true, true, false, false]
    (∀ i, ∀ args ∈ commands i, Loggable args) ∧ m.Finished ∧
      Config.Along (dispatch true) (World.exec envs) (unlogged envs) (fun _ m i => NoTtlTurn envs m i) []
        (Config.start {} commands) [false, false, true, true, true, true, false, false] ∧
      (loadAof envs m.shared.file {}).1.store.live 0 ≠ m.shared.store.live 0 := by
  intro commands envs m
  refine ⟨by decide, ?_, ?_, ?_⟩
  · rintro (_ | _)
    · exact ⟨rfl, rfl⟩
    · exact ⟨rfl, rfl⟩
  · exact ⟨trivial, id, trivial, id, trivial, trivial, trivial, trivial, trivial⟩
  · intro h
    have hvalue := congrArg (fun ks : Keyspace => (ks.lookup (ascii "k")).bind fun e => e.datum.asStr) h
    revert hvalue
    decide +kernel

end GoRedis
