import GoRedis.Server.Durability
import GoRedis.Server.Frame

/-! What a refused log leaves behind.

`LoadAof` dispatches each command before it parses the next. If it comes to a protocol error
it returns false, and every command before the error stays applied. What the store holds is
as before only if none of them had anything to change. -/
namespace GoRedis
open Interleaving Dispatcher Keyspace CommandParser

/-- The world after a command is dispatched without a writer. -/
abbrev replay (envs : Nat → Env) (w : World) (args : List Bytes) : World :=
  ((dispatch false args).run (World.exec envs) w).1

/-- A command that only reads, or is answered with an error. -/
def Harmless (envs : Nat → Env) (w : World) (args : List Bytes) : Prop :=
  (∃ name rest, args = name :: rest ∧ toUpper name ∈ readCommands) ∨
    ∃ message, ((dispatch false args).run (World.exec envs) w).2 = some (.error message)

/-- Commands each of which is harmless when its turn comes. -/
def HarmlessRun (envs : Nat → Env) : World → List (List Bytes) → Prop
  | _, [] => True
  | w, args :: rest => Harmless envs w args ∧ HarmlessRun envs (replay envs w args) rest

variable {envs : Nat → Env} {w : World} {now : Time}

theorem dispatch_ticks (aof : Bool) (envs : Nat → Env) (w : World) (args : List Bytes) :
    w.ticks ≤ ((dispatch aof args).run (World.exec envs) w).1.ticks := by
  cases args with
  | nil => exact Nat.le_refl _
  | cons name args =>
    have hran := dispatch_ran aof envs w name args
    generalize (dispatch aof (name :: args)).run (World.exec envs) w = r at hran ⊢
    cases hran with
    | refused | replied => exact Nat.le_refl _
    | read | mistyped => exact Nat.le_succ _
    | wrote c => cases aof <;> exact Nat.le_succ _
    | setEx => cases aof <;> exact Nat.le_add_right _ 2

theorem dispatchAll_ticks (aof : Bool) (envs : Nat → Env) (commands : List (List Bytes)) (w : World) :
    w.ticks ≤ (dispatchAll aof envs commands w).ticks := by
  induction commands generalizing w with
  | nil => exact Nat.le_refl _
  | cons args commands ih => exact (dispatch_ticks aof envs w args).trans (ih _)

/-- A harmless command keeps what is live. -/
theorem Harmless.live {args : List Bytes} (h : Harmless envs w args) (hnow : (envs w.ticks).now ≤ now) :
    (replay envs w args).store.live now = w.store.live now := by
  rcases h with ⟨name, rest, rfl, hname⟩ | ⟨message, hmessage⟩
  · exact ((dispatch_readOnly false rest hname).frame hnow).1
  cases args with
  | nil => cases hmessage
  | cons name args =>
    have hsame := (dispatch_ran false envs w name args).of_error hmessage rfl
    rw [hsame.1]

theorem HarmlessRun.live {commands : List (List Bytes)} (h : HarmlessRun envs w commands)
    (hnow : ∀ n ≤ (dispatchAll false envs commands w).ticks, (envs n).now ≤ now) :
    (dispatchAll false envs commands w).store.live now = w.store.live now := by
  induction commands generalizing w with
  | nil => rfl
  | cons args commands ih =>
    obtain ⟨hargs, hcommands⟩ := h
    have hticks : w.ticks ≤ (dispatchAll false envs (args :: commands) w).ticks := dispatchAll_ticks ..
    exact (ih hcommands hnow).trans (hargs.live (hnow _ hticks))

/-- **A log whose commands have nothing to change leaves the contents as they were**, at every
time the clock has not passed, and a log refused before its first command is complete leaves
everything as it was. -/
theorem loadAof_keeps (envs : Nat → Env) (file : Bytes) (w : World) (h : HarmlessRun envs w (loaded file)) :
    (loaded file = [] → (loadAof envs file w).1 = w) ∧
      ∀ now, (∀ n ≤ (loadAof envs file w).1.ticks, (envs n).now ≤ now) →
        (loadAof envs file w).1.store.live now = w.store.live now := by
  refine ⟨fun hnone => ?_, fun now hnow => h.live hnow⟩
  rw [loadAof, hnone]
  rfl

/-- A log that reads a key, would set it with an argument missing, and breaks. -/
theorem loadAof_keeps_read :
    let envs : Nat → Env := fun _ => { now := 0 }
    let w : World := { store := ({} : Store).set (fun _ _ => 0) (ascii "k") (ascii "v") }
    let file := encodeAll [[ascii "GET", ascii "k"], [ascii "SET", ascii "k"]] ++ ascii "*x\r\n"
    (loadAof envs file w).2 = false ∧ HarmlessRun envs w (loaded file) ∧
      (loadAof envs file w).1.store.live 0 = w.store.live 0 := by
  intro envs w file
  have hloaded : loaded file = [[ascii "GET", ascii "k"], [ascii "SET", ascii "k"]] := by decide +kernel
  have hharmless : HarmlessRun envs w (loaded file) := by
    rw [hloaded]
    exact ⟨.inl ⟨_, _, rfl, by decide⟩, .inr ⟨_, rfl⟩, trivial⟩
  exact ⟨by decide +kernel, hharmless, (loadAof_keeps envs file w hharmless).2 0 fun _ _ => Int.le_refl 0⟩

/-- A log of any commands, broken behind them: it is refused, and all of them are applied. -/
theorem loadAof_broken {commands : List (List Bytes)} (h : ∀ args ∈ commands, Loggable args) {tail rest : Bytes}
    {e : Bytes} (htail : tryParseCommand tail = (rest, .error e)) (envs : Nat → Env) (w : World) :
    loadAof envs (encodeAll commands ++ tail) w = (dispatchAll false envs commands w, false) := by
  have hparse : parser.parse tail = (rest, .error e) := htail
  rw [loadAof, loaded, drain_encodeAll h, Incremental.Parser.drain_error hparse]
  show (dispatchAll false envs (commands ++ []) w, _) = _
  rw [List.append_nil]
  rfl

/-- A log that sets a key and then breaks: it is refused, and the key is set. -/
theorem loadAof_refused_applied :
    let file := encodeCommand [ascii "SET", ascii "k", ascii "v"] ++ ascii "*x\r\n"
    let r := loadAof (fun _ => { now := 0 }) file {}
    r.2 = false ∧ (({} : World).store.live 0).lookup (ascii "k") = none ∧
      ((r.1.store.live 0).lookup (ascii "k")).isSome = true := by
  decide +kernel

end GoRedis
