import GoRedis.Server.Frame
import GoRedis.Store.Refinement

/-! Deadlines in 64 bits.

`EXPIRE` and `SET … EX` take any 64-bit number of seconds. The deadline is formed in
nanoseconds, in 64 bits as well, so some nine billion seconds are the most that can be asked
for; beyond that the sum wraps around and the key may be gone at once. -/
namespace GoRedis
open Interleaving Dispatcher Keyspace Signed

/-- The deadline of `Expire` in 64-bit nanoseconds, unless an operation overflows. -/
def deadlineInt64 (now seconds : Int) : Option Int := do
  let nanos ← bounded 64 (seconds * 1000000000)
  bounded 64 (now + nanos)

theorem deadlineInt64_iff {now seconds : Int} (hnow : 0 ≤ now) (hpos : 0 < seconds) :
    deadlineInt64 now seconds = some (now + seconds * 1000000000) ↔ now + seconds * 1000000000 < 2 ^ 63 := by
  constructor
  · intro h
    obtain ⟨nanos, -, hsum⟩ := Option.bind_eq_some_iff.mp h
    unfold bounded at hsum
    split at hsum
    · next hfits =>
      rw [Option.some.inj hsum, fits_64] at hfits
      exact hfits.2
    · cases hsum
  · intro h
    have hnanos : bounded 64 (seconds * 1000000000) = some (seconds * 1000000000) :=
      bounded_of_fits (fits_64.mpr (by omega))
    rw [deadlineInt64, hnanos]
    exact bounded_of_fits (fits_64.mpr (by omega))

namespace Store
variable {s : Store} {key : Bytes} {e : Entry} {now seconds : Int}

/-- A live key and a deadline that fits. -/
theorem expire_fits (hlive : (s.live now).lookup key = some e) (hnow : 0 ≤ now) (hpos : 0 < seconds)
    (hfits : now + seconds * 1000000000 < 2 ^ 63) {env : Env} (henv : env.now = now) :
    ((s.exec env (.expire key seconds)).1.live now).lookup key =
      some { e with deadline := some (now + seconds * 1000000000) } := by
  subst henv
  have hdeadline : env.deadline seconds = env.now + seconds * 1000000000 :=
    deadline_of_fits (fits_64.mpr (by omega)) (fits_64.mpr (by omega))
  rw [(expire_simulates env s key seconds).live, lookup_tick, actIn_expire, hdeadline]
  simp only [expireAt, hlive, if_neg (Int.not_le.mpr hpos), Finmap.lookup_insert, Option.bind_some]
  exact if_neg (by simpa using hpos)

theorem ttl_fits (hlive : (s.live now).lookup key = some { e with deadline := some (now + seconds * 1000000000) })
    {env : Env} (henv : env.now = now) : ((s.ttl env.now key).finish env.now).2 = seconds := by
  subst henv
  have hsim : ((s.ttl env.now key).finish env.now).2 = _ := (ttl_simulates env s key).reply
  rw [hsim]
  show ((s.live env.now).act env.now (.ttl key)).2 = seconds
  rw [act_ttl hlive rfl, remainingSeconds, add_sub_cancel_left]
  show ((seconds * 1000000000 : Int) / 1000000 + 500) / 1000 = seconds
  omega

end Store

/-! ### Commands -/

/-- One clock reading, in 64 bits. -/
def clockAt (now : Time) (draw : Nat → Nat → Nat → Nat) : Nat → Env :=
  fun tick => { now := now, rep := .int64, draw := draw tick }

/-- A command that asks for a TTL, on a key that is live when `Expire` is called. -/
inductive AsksTtl (envs : Nat → Env) (w : World) (key : Bytes) (seconds : Int) : List Bytes → Prop where
  | expire (name arg : Bytes) (hname : toUpper name = ascii "EXPIRE") (harg : parseInt64Arg arg = some seconds)
    (hlive : key ∈ w.store.live (envs w.ticks).now) : AsksTtl envs w key seconds [name, key, arg]
  | setEx (name value option arg : Bytes) (hname : toUpper name = ascii "SET") (hoption : toUpper option = ascii "EX")
    (harg : parseInt64Arg arg = some seconds)
    (hlive : key ∈ (w.exec envs (.call (.set key value))).1.store.live (envs (w.ticks + 1)).now) :
    AsksTtl envs w key seconds [name, key, value, option, arg]

/-- What the command calls last. -/
theorem AsksTtl.store {envs : Nat → Env} {w : World} {key : Bytes} {seconds : Int} {args : List Bytes}
    (h : AsksTtl envs w key seconds args) (aof : Bool) :
    ∃ w₁ : World, key ∈ w₁.store.live (envs w₁.ticks).now ∧
      ((dispatch aof args).run (World.exec envs) w).1.store =
        (w₁.store.exec (envs w₁.ticks) (.expire key seconds)).1 := by
  cases h with
  | expire name arg hname harg hlive =>
    refine ⟨w, hlive, ?_⟩
    rw [dispatch_expire hname]
    simp only [Dispatcher.expire, harg]
    cases aof <;> rfl
  | setEx name value option arg hname hoption harg hlive =>
    refine ⟨(w.exec envs (.call (.set key value))).1, hlive, ?_⟩
    rw [dispatch_set hname]
    simp only [Dispatcher.set, hoption, harg, ne_eq, not_true, if_false]
    cases aof <;> rfl

/-- **TTLs.** A positive number of seconds can be asked for, at a clock reading that is not
negative, exactly as long as the deadline in nanoseconds is below 2^63. Then nothing
overflows, the key is still live, and its TTL is that number of seconds. -/
theorem ttl_exact (aof : Bool) (draw : Nat → Nat → Nat → Nat) (w : World) {now : Int} {key : Bytes} {seconds : Int}
    {args : List Bytes} (h : AsksTtl (clockAt now draw) w key seconds args) (hnow : 0 ≤ now) (hpos : 0 < seconds) :
    let w' := ((dispatch aof args).run (World.exec (clockAt now draw)) w).1
    (deadlineInt64 now seconds = some (now + seconds * 1000000000) ↔ now + seconds * 1000000000 < 2 ^ 63) ∧
      (now + seconds * 1000000000 < 2 ^ 63 → key ∈ w'.store.live now ∧
        ∀ name, toUpper name = ascii "TTL" →
          ((dispatch aof [name, key]).run (World.exec (clockAt now draw)) w').2 = some (.integer seconds)) := by
  intro w'
  refine ⟨deadlineInt64_iff hnow hpos, fun hfits => ?_⟩
  obtain ⟨w₁, hmem, hstore⟩ := h.store aof
  obtain ⟨e, hlive⟩ := Finmap.mem_iff.mp hmem
  have hset : (w'.store.live now).lookup key = some { e with deadline := some (now + seconds * 1000000000) } := by
    rw [hstore]
    exact Store.expire_fits hlive hnow hpos hfits rfl
  refine ⟨Finmap.mem_of_lookup_eq_some hset, fun name hname => ?_⟩
  rw [dispatch_ttl hname]
  show some (RespValue.integer ((w'.store.ttl now key).finish now).2) = _
  have hseconds : ((w'.store.ttl now key).finish now).2 = seconds :=
    Store.ttl_fits hset (rfl : ({ now := now } : Env).now = now)
  rw [hseconds]

/-- A hundred seconds. -/
theorem ttl_exact_hundred :
    let w : World := { store := (({} : Store).exec { now := 5 } (.set [107] [118])).1 }
    let envs := clockAt 5 fun _ _ _ => 0
    let w' := ((dispatch false [ascii "expire", [107], ascii "100"]).run (World.exec envs) w).1
    ((dispatch false [ascii "ttl", [107]]).run (World.exec envs) w').2 = some (.integer 100) := by
  intro w envs w'
  have hlive : [107] ∈ w.store.live 5 := (Store.mem_live ..).mpr (by decide +kernel)
  have hasks : AsksTtl envs w [107] 100 [ascii "expire", [107], ascii "100"] :=
    .expire _ _ (by decide) (by decide) hlive
  exact ((ttl_exact false _ w hasks (by decide) (by decide)).2 (by decide)).2 (ascii "ttl") (by decide)

/-- The most seconds an `EXPIRE` accepts: the deadline overflows, and the key is gone. -/
theorem expire_overflows :
    let w : World := { store := (({} : Store).exec { now := 0 } (.set [107] [118])).1 }
    let envs := clockAt 0 fun _ _ _ => 0
    let w' := ((dispatch false [ascii "EXPIRE", [107], ascii "9223372036854775807"]).run (World.exec envs) w).1
    [107] ∈ w.store.live 0 ∧ deadlineInt64 0 9223372036854775807 = none ∧ [107] ∉ w'.store.live 0 := by
  intro w envs w'
  refine ⟨(Store.mem_live ..).mpr (by decide +kernel), by decide, ?_⟩
  rw [Store.mem_live]
  decide +kernel

end GoRedis
