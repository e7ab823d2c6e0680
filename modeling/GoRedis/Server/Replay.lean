import GoRedis.Server.Aof

/-! Replaying the log of commands that were executed one at a time.

A command that is logged changed the store by calls whose effect depends on what the store
holds only, and its replay makes the same calls; one that is not logged changed nothing. -/
namespace GoRedis
open Interleaving Dispatcher Keyspace CommandParser

/-- What a list of calls makes of a keyspace. -/
def effects (cs : List Call) (ks : Keyspace) : Keyspace := cs.foldl (fun ks c => effect c ks) ks

/-- None of the calls sets a deadline. -/
def Quiet : List Call → Keyspace → Prop
  | [], _ => True
  | c :: cs, ks => ¬ks.SetsTtl c ∧ Quiet cs (effect c ks)

/-- Replaying the command has the effects of these calls. -/
def ReplaysAs (args : List Bytes) (cs : List Call) : Prop :=
  ∀ (envs : Nat → Env) (w : World), Plain w → Quiet cs w.contents →
    Plain ((dispatch false args).run (World.exec envs) w).1 ∧
      ((dispatch false args).run (World.exec envs) w).1.contents = effects cs w.contents

/-- No `Expire` of the run gives a key a deadline. -/
def NoTtl (envs : Nat → Env) (w : World) : Op → Prop
  | .call c => ¬(w.store.live (envs w.ticks).now).SetsTtl c
  | .append _ => True

section Writes
variable {args : List Bytes}

/-- A write, whether it succeeds or not. -/
theorem replaysAs_write {c : Call} {r : c.Reply → Option RespValue} {next : Bool → c.Reply → Program}
    (hnext : ∀ aof a, next aof a =
      if c.ok a then logged aof args (.ret (r a)) else .ret (some wrongTypeError))
    (hd : dispatch false args = call c (next false)) : ReplaysAs args [c] := by
  intro envs w hw hq
  have hrun : ((dispatch false args).run (World.exec envs) w).1 = (w.exec envs (.call c)).1 := by
    rw [hd]
    show ((next false _).run (World.exec envs) _).1 = _
    rw [hnext]
    split <;> rfl
  rw [hrun]
  exact hw.call envs hq.1

theorem replaysAs_setEx {key value : Bytes} {seconds : Int}
    (hd : dispatch false args = call (.set key value) fun _ => call (.expire key seconds) fun _ =>
      logged false args (.ret (some ok))) :
    ReplaysAs args [.set key value, .expire key seconds] := by
  intro envs w hw hq
  rw [hd]
  obtain ⟨hw₁, hc₁⟩ := hw.call envs hq.1
  obtain ⟨hw₂, hc₂⟩ := hw₁.call envs (hc₁ ▸ hq.2.1)
  exact ⟨hw₂, hc₂.trans (by rw [hc₁]; rfl)⟩

end Writes

/-- **One command.** It is logged and its replay has the same effect, or it is not and it
had none. -/
theorem dispatch_logged (envs : Nat → Env) {w : World} (hw : Plain w) (args : List Bytes)
    (h : (dispatch true args).Along (World.exec envs) (NoTtl envs) w) :
    let w' := ((dispatch true args).run (World.exec envs) w).1
    Plain w' ∧ (w'.log = w.log ∧ w'.contents = w.contents ∨
      w'.log = w.log ++ [args] ∧
        ∃ cs, ReplaysAs args cs ∧ Quiet cs w.contents ∧ w'.contents = effects cs w.contents) := by
  intro w'
  have hnow : ∀ {w : World} {c : Call}, Plain w → NoTtl envs w (.call c) → ¬w.contents.SetsTtl c :=
    fun hw hs => hw.live _ ▸ hs
  obtain ⟨p, hconduct, hp⟩ := dispatch_program args
  have hrun : w' = ((p true).run (World.exec envs) w).1 := by rw [← hp]
  rw [hp] at h
  cases hconduct with
  | nothing _ =>
    rw [hrun]
    exact ⟨hw, .inl ⟨rfl, rfl⟩⟩
  | readOnly p hread =>
    rcases hread.cases with ⟨r, rfl⟩ | ⟨c, r, next, hc, rfl, hnext⟩
    · rw [hrun]
      exact ⟨hw, .inl ⟨rfl, rfl⟩⟩
    · obtain ⟨hplain, hcontents⟩ := hw.call envs (hnow hw h.1)
      rw [effect_of_read hc] at hcontents
      have hend : w' = (w.exec envs (.call c)).1 := by
        rw [hrun]
        show ((next _).run (World.exec envs) _).1 = _
        rw [hnext]
        rfl
      rw [hend]
      exact ⟨hplain, .inl ⟨rfl, hcontents⟩⟩
  | write c hc r _ next hnext =>
    obtain ⟨hplain, hcontents⟩ := hw.call envs (hnow hw h.1)
    have hend : w' = ((next true (w.exec envs (.call c)).2).run (World.exec envs)
        (w.exec envs (.call c)).1).1 := hrun
    rw [hnext] at hend
    cases hs : c.ok (w.exec envs (.call c)).2 with
    | true =>
      rw [if_pos hs] at hend
      rw [hend]
      refine ⟨hplain.append envs args, .inr ⟨?_, [c], replaysAs_write hnext (hp false), ⟨hnow hw h.1, trivial⟩, ?_⟩⟩
      · exact World.append_log envs _ args
      · exact (append_contents envs _ args).trans hcontents
    | false =>
      rw [if_neg (by simp [hs])] at hend
      rw [hend]
      exact ⟨hplain, .inl ⟨rfl, hcontents.trans (hw.failed envs hc hs)⟩⟩
  | setEx key value seconds =>
    obtain ⟨hs₁, hs₂, -⟩ := h
    obtain ⟨hw₁, hc₁⟩ := hw.call envs (hnow hw hs₁)
    obtain ⟨hw₂, hc₂⟩ := hw₁.call envs (hnow hw₁ hs₂)
    have hend : w' = (((w.exec envs (.call (.set key value))).1.exec envs
        (.call (.expire key seconds))).1.exec envs (.append args)).1 := hrun
    rw [hend]
    refine ⟨hw₂.append envs args, .inr ⟨?_, _, replaysAs_setEx (hp false), ?_, ?_⟩⟩
    · rw [World.append_log, World.call_log, World.call_log]
    · exact ⟨hnow hw hs₁, hc₁ ▸ hnow hw₁ hs₂, trivial⟩
    · rw [append_contents, hc₂, hc₁]
      rfl

/-! ### Whole logs -/

/-- No command of a sequential run gives a key a deadline. -/
def NoTtlAll (envs : Nat → Env) : List (List Bytes) → World → Prop
  | [], _ => True
  | args :: commands, w =>
    (dispatch true args).Along (World.exec envs) (NoTtl envs) w ∧
      NoTtlAll envs commands ((dispatch true args).run (World.exec envs) w).1

/-- The log mirrors the store: whenever it is replayed, into a fresh store, the same
contents come out. -/
structure Mirrored (envs : Nat → Env) (w : World) : Prop where
  plain : Plain w
  loggable : ∀ args ∈ w.log, Loggable args
  plain' : Plain (dispatchAll false envs w.log {})
  contents : (dispatchAll false envs w.log {}).contents = w.contents

theorem mirrored_fresh (envs : Nat → Env) : Mirrored envs {} :=
  ⟨plain_fresh, fun _ h => absurd h List.not_mem_nil, plain_fresh, rfl⟩

/-- A whole log is loaded by replaying it. -/
theorem loadAof_encodeAll (envs : Nat → Env) {log : List (List Bytes)} (h : ∀ args ∈ log, Loggable args)
    (w : World) : loadAof envs (encodeAll log) w = (dispatchAll false envs log w, true) := by
  have hdrain := log_drain h (.inl rfl)
  rw [List.append_nil] at hdrain
  rw [loadAof, loaded, hdrain]
  rfl

/-- Loading the log of a mirrored world. -/
theorem Mirrored.load {envs : Nat → Env} {w : World} (h : Mirrored envs w) :
    (loadAof envs w.file {}).2 = true ∧ ∀ now, (loadAof envs w.file {}).1.store.live now = w.store.live now := by
  rw [World.file, loadAof_encodeAll envs h.loggable]
  refine ⟨rfl, fun now => ?_⟩
  rw [h.plain'.live, h.plain.live, h.contents]

theorem Mirrored.dispatch {envs' : Nat → Env} {w : World} (h : Mirrored envs' w) (envs : Nat → Env)
    {args : List Bytes} (hargs : Loggable args)
    (hq : (dispatch true args).Along (World.exec envs) (NoTtl envs) w) :
    Mirrored envs' ((GoRedis.dispatch true args).run (World.exec envs) w).1 := by
  obtain ⟨hplain, hlog | ⟨hlog, cs, hreplay, hquiet, hcontents⟩⟩ := dispatch_logged envs h.plain args hq
  · exact ⟨hplain, hlog.1 ▸ h.loggable, hlog.1 ▸ h.plain', by rw [hlog.1, hlog.2, h.contents]⟩
  · obtain ⟨hplain', hcontents'⟩ := hreplay envs' _ h.plain' (h.contents ▸ hquiet)
    rw [h.contents] at hcontents'
    refine ⟨hplain, ?_, ?_, ?_⟩
    · rw [hlog, List.forall_mem_append]
      exact ⟨h.loggable, fun a ha => List.mem_singleton.mp ha ▸ hargs⟩
    · rw [hlog, dispatchAll_concat]
      exact hplain'
    · rw [hlog, dispatchAll_concat, hcontents', hcontents]

/-- **A sequential log is faithful.** Commands executed one at a time, of which none gives a
key a deadline, leave a log that loads, whatever the clock readings then and later, into a
store with the same contents. -/
theorem replay_faithful (commands : List (List Bytes)) (hcommands : ∀ args ∈ commands, Loggable args)
    (envs envs' : Nat → Env) (h : NoTtlAll envs commands {}) :
    let w := dispatchAll true envs commands {}
    (loadAof envs' w.file {}).2 = true ∧
      ∀ now, (loadAof envs' w.file {}).1.store.live now = w.store.live now := by
  suffices hm : ∀ w, Mirrored envs' w → NoTtlAll envs commands w →
      Mirrored envs' (dispatchAll true envs commands w) from (hm {} (mirrored_fresh envs') h).load
  clear h
  induction commands with
  | nil => exact fun w hw _ => hw
  | cons args commands ih =>
    obtain ⟨hargs, hrest⟩ := List.forall_mem_cons.mp hcommands
    exact fun w hw hq => ih hrest _ (hw.dispatch envs hargs hq.1) hq.2

/-- A value set, a list pushed onto it in vain, and the value set again to be gone at once. -/
theorem replay_faithful_commands :
    let commands := [[ascii "set", ascii "k", ascii "v"], [ascii "LPUSH", ascii "k", ascii "x"],
      [ascii "SET", ascii "k", ascii "v", ascii "EX", ascii "0"]]
    let envs : Nat → Env := fun n => { now := n }
    let w := dispatchAll true envs commands {}
    ((∀ args ∈ commands, Loggable args) ∧ NoTtlAll envs commands {}) ∧
      (loadAof envs w.file {}).2 = true ∧
      ∀ now, (loadAof envs w.file {}).1.store.live now = w.store.live now := by
  intro commands envs w
  have hcommands : ∀ args ∈ commands, Loggable args := by decide
  have hquiet : NoTtlAll envs commands {} := by
    refine ⟨⟨id, trivial, trivial⟩, ⟨id, ?_⟩, ⟨id, fun h => absurd h.1 (by decide), trivial, trivial⟩, trivial⟩
    dsimp only [checked]
    split
    · exact ⟨trivial, trivial⟩
    · exact trivial
  exact ⟨⟨hcommands, hquiet⟩, replay_faithful commands hcommands envs envs hquiet⟩

end GoRedis
