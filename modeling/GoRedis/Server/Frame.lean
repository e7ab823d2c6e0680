import GoRedis.Server.Aof

/-! What a whole dispatch leaves unchanged, and what it logs.

`Ran` lists how a dispatch can end: with what reply, after which calls, and whether the
command was appended. An error means that nothing happened; whatever changes what is live is
logged. -/
namespace GoRedis
open Interleaving Dispatcher Keyspace

/-- The command appended if there is a writer. -/
def World.logged (aof : Bool) (args : List Bytes) (w : World) : World :=
  if aof then { w with log := w.log ++ [args] } else w

theorem run_logged (aof : Bool) (args : List Bytes) (envs : Nat → Env) (w : World) (r : Option RespValue) :
    (logged aof args (.ret r)).run (World.exec envs) w = (w.logged aof args, r) := by
  cases aof <;> rfl

/-- How a dispatch from `w` can end. -/
inductive Ran (aof : Bool) (envs : Nat → Env) (w : World) (name : Bytes) (args : List Bytes) :
    World × Option RespValue → Prop where
  | refused (message : Bytes) (h : Unbroken name → Unbroken message) :
    Ran aof envs w name args (w, some (.error message))
  | replied (x : RespValue) (hx : x.Proper) : Ran aof envs w name args (w, some x)
  | read (c : Call) (hc : c.isWrite = false) (x : RespValue) (hx : x.Proper) :
    Ran aof envs w name args ((w.exec envs (.call c)).1, some x)
  | mistyped (c : Call) (h : c.ok (w.exec envs (.call c)).2 = false) :
    Ran aof envs w name args ((w.exec envs (.call c)).1, some wrongTypeError)
  | wrote (c : Call) (hc : c.isWrite = true) (h : c.ok (w.exec envs (.call c)).2 = true) (x : RespValue)
    (hx : x.Proper) : Ran aof envs w name args ((w.exec envs (.call c)).1.logged aof (name :: args), some x)
  | setEx (key value : Bytes) (seconds : Int) :
    Ran aof envs w name args
      ((((w.exec envs (.call (.set key value))).1.exec envs (.call (.expire key seconds))).1.logged aof
        (name :: args)), some ok)

variable {aof : Bool} {envs : Nat → Env} {w : World} {name : Bytes} {args : List Bytes}

theorem call_answered (envs : Nat → Env) (w : World) {c : Call} (h : c.ok (w.exec envs (.call c)).2 = true) :
    c.Answered (w.exec envs (.call c)).2 := Store.exec_answered _ _ c h

theorem ReadOnly.ran {p : Program} (h : ReadOnly name p) (aof : Bool) (envs : Nat → Env) (w : World)
    (args : List Bytes) : Ran aof envs w name args (p.run (World.exec envs) w) := by
  cases h with
  | refused message h => exact .refused message h
  | pure x hx => exact .replied x hx
  | read c hc r hr next hnext =>
    show Ran _ _ _ _ _ ((next (w.exec envs (.call c)).2).run (World.exec envs) (w.exec envs (.call c)).1)
    rw [hnext]
    split
    · next hok =>
      obtain ⟨x, hx, hproper⟩ := hr _ (call_answered envs w hok)
      rw [hx]
      exact .read c hc x hproper
    · next hok => exact .mistyped c (Bool.not_eq_true _ ▸ hok)

/-- **How a dispatch ends**, for every command. -/
theorem dispatch_ran (aof : Bool) (envs : Nat → Env) (w : World) (name : Bytes) (args : List Bytes) :
    Ran aof envs w name args ((dispatch aof (name :: args)).run (World.exec envs) w) := by
  have h := dispatch_conduct (name :: args)
  generalize hp : (fun aof => dispatch aof (name :: args)) = p at h
  rw [show dispatch aof (name :: args) = p aof from congrFun hp aof]
  cases h with
  | nothing h => cases h
  | readOnly p h => exact h.ran aof envs w args
  | write c hc r hr next hnext =>
    show Ran _ _ _ _ _ ((next aof (w.exec envs (.call c)).2).run (World.exec envs) (w.exec envs (.call c)).1)
    rw [hnext]
    split
    · next hok =>
      obtain ⟨x, hx, hproper⟩ := hr _ (call_answered envs w hok)
      rw [hx, run_logged]
      exact .wrote c hc hok x hproper
    · next hok => exact .mistyped c (Bool.not_eq_true _ ▸ hok)
  | setEx key value seconds =>
    show Ran _ _ _ _ _ ((logged aof (name :: args) (.ret (some ok))).run (World.exec envs) _)
    rw [run_logged]
    exact .setEx key value seconds

/-! ### Frame and logging -/

theorem call_failed {c : Call} (h : c.ok (w.exec envs (.call c)).2 = false) :
    (w.exec envs (.call c)).1.store = w.store := Store.exec_failed _ _ c h

/-- A read keeps what is live at its clock reading and later. -/
theorem call_read_live {c : Call} (h : c.isWrite = false) {now : Time} (hnow : (envs w.ticks).now ≤ now) :
    (w.exec envs (.call c)).1.store.live now = w.store.live now := by
  rw [← Store.tick_live_later hnow, ← Store.tick_live_later hnow]
  exact congrArg _ (Store.exec_read_live _ _ h)

/-- A command that is no write keeps what is live and is not logged. -/
theorem ReadOnly.frame {p : Program} (h : ReadOnly name p) {now : Time} (hnow : (envs w.ticks).now ≤ now) :
    (p.run (World.exec envs) w).1.store.live now = w.store.live now ∧
      (p.run (World.exec envs) w).1.log = w.log := by
  cases h with
  | refused message h => exact ⟨rfl, rfl⟩
  | pure x hx => exact ⟨rfl, rfl⟩
  | read c hc r hr next hnext =>
    have hend : ((call c next).run (World.exec envs) w).1 = (w.exec envs (.call c)).1 := by
      show ((next _).run (World.exec envs) _).1 = _
      rw [hnext]
      split <;> rfl
    rw [hend]
    exact ⟨call_read_live hc hnow, rfl⟩

theorem Ran.answered {r : World × Option RespValue} (h : Ran aof envs w name args r) : ∃ x, r.2 = some x := by
  cases h <;> exact ⟨_, rfl⟩

/-- A command that gets an error has changed nothing. -/
theorem Ran.of_error {r : World × Option RespValue} (h : Ran aof envs w name args r) {x : RespValue}
    (hx : r.2 = some x) (herr : x.isError = true) : r.1.store = w.store ∧ r.1.log = w.log := by
  cases h with
  | refused | replied => exact ⟨rfl, rfl⟩
  | mistyped c h => exact ⟨call_failed h, rfl⟩
  | read c hc y hy =>
    cases hx
    exact absurd herr (by simp [hy.noError])
  | wrote c hc h y hy =>
    cases hx
    exact absurd herr (by simp [hy.noError])
  | setEx =>
    cases hx
    cases herr

/-- **Frame and logging.** From any store, at any clock readings: a command that gets an
error has changed nothing and is not logged; one that changed what is live is logged, once,
as it was sent; and the commands that read neither change what is live nor are logged. -/
theorem dispatch_frame (envs : Nat → Env) (w : World) (name : Bytes) (args : List Bytes) :
    let r := (dispatch true (name :: args)).run (World.exec envs) w
    (∃ x, r.2 = some x ∧ (x.isError = true → r.1.store = w.store ∧ r.1.log = w.log)) ∧
      ∀ now, (envs w.ticks).now ≤ now →
        (r.1.store.live now ≠ w.store.live now → r.1.log = w.log ++ [name :: args]) ∧
        (toUpper name ∈ readCommands → r.1.store.live now = w.store.live now ∧ r.1.log = w.log) := by
  intro r
  have hran : Ran true envs w name args r := dispatch_ran true envs w name args
  have hread : ∀ now, (envs w.ticks).now ≤ now → toUpper name ∈ readCommands →
      r.1.store.live now = w.store.live now ∧ r.1.log = w.log :=
    fun now hnow h => (dispatch_readOnly true args h).frame hnow
  clear_value r
  refine ⟨?_, fun now hnow => ⟨fun hchanged => ?_, hread now hnow⟩⟩
  · obtain ⟨x, hx⟩ := hran.answered
    exact ⟨x, hx, hran.of_error hx⟩
  · cases hran with
    | refused message h => exact absurd rfl hchanged
    | mistyped c h => exact absurd (by rw [call_failed h]) hchanged
    | replied x hx => exact absurd rfl hchanged
    | read c hc x hx => exact absurd (call_read_live hc hnow) hchanged
    | wrote c hc h x hx => rfl
    | setEx key value seconds => rfl

end GoRedis
