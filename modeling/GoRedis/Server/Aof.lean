import GoRedis.Resp.RoundTrip
import GoRedis.Server.Shape

/-! The append-only log (`server/aof.cpp`) and what replaying it does.

The server's state is its store and its log, by which we mean the calls of `Append`. `Dispatch`
does not look at what they return, so how their writes go matters to the file only: here all of
them are written in full, and the file is the encoding of the commands; what fails and what is
torn is in `Server/Durability`. The n-th store call of a run reads the clock reading `envs n`. -/
namespace GoRedis
open Interleaving Dispatcher Keyspace Footprint CommandParser

/-- The store, the commands that `Append` was called with, and the number of store calls. -/
structure World where
  store : Store := {}
  log : List (List Bytes) := []
  ticks : Nat := 0

namespace World

def exec (envs : Nat → Env) (w : World) : (op : Op) → World × op.Ans
  | .call c =>
    let r := w.store.exec (envs w.ticks) c
    ({ w with store := r.1, ticks := w.ticks + 1 }, r.2)
  | .append args => ({ w with log := w.log ++ [args] }, ())

theorem call_log (envs : Nat → Env) (w : World) (c : Call) : (w.exec envs (.call c)).1.log = w.log := rfl

theorem append_log (envs : Nat → Env) (w : World) (args : List Bytes) :
    (w.exec envs (.append args)).1.log = w.log ++ [args] := rfl

/-- The bytes of the log file, when every call has written its command. -/
def file (w : World) : Bytes := encodeAll w.log

end World

/-- Commands dispatched one after another. -/
def dispatchAll (aof : Bool) (envs : Nat → Env) (commands : List (List Bytes)) (w : World) : World :=
  commands.foldl (fun w args => ((dispatch aof args).run (World.exec envs) w).1) w

theorem dispatchAll_concat (aof : Bool) (envs : Nat → Env) (commands : List (List Bytes))
    (args : List Bytes) (w : World) : dispatchAll aof envs (commands ++ [args]) w =
      ((dispatch aof args).run (World.exec envs) (dispatchAll aof envs commands w)).1 := by
  rw [dispatchAll, List.foldl_append]
  rfl

/-- The commands `LoadAof` takes off the file, up to the first protocol error. The parser
does not look at the store, so parsing them all first is the same. -/
def loaded (file : Bytes) : List (List Bytes) := (parser.drain file).items

/-- `LoadAof`: they are dispatched without a writer. -/
def loadAof (envs : Nat → Env) (file : Bytes) (w : World) : World × Bool :=
  (dispatchAll false envs (loaded file) w, (parser.drain file).error.isNone)

/-! ### Worlds without a budget and without deadlines -/

structure Plain (w : World) : Prop where
  unbounded : w.store.maxMemoryBytes = 0
  timeless : w.store.Timeless

/-- What the store holds; in a plain world it does not depend on the time. -/
def World.contents (w : World) : Keyspace := w.store.live 0

theorem append_contents (envs : Nat → Env) (w : World) (args : List Bytes) :
    (w.exec envs (.append args)).1.contents = w.contents := rfl

theorem plain_fresh : Plain {} := ⟨rfl, fun k v h => by simp at h⟩

theorem Plain.live {w : World} (h : Plain w) (now : Time) : w.store.live now = w.contents :=
  h.timeless.live_eq now 0

/-- A call that sets no deadline has its effect. -/
theorem Plain.call {w : World} (h : Plain w) (envs : Nat → Env) {c : Call} (hs : ¬w.contents.SetsTtl c) :
    Plain (w.exec envs (.call c)).1 ∧ (w.exec envs (.call c)).1.contents = effect c w.contents := by
  obtain ⟨ht, hm, hl⟩ := Store.exec_effect h.timeless h.unbounded (envs w.ticks) c 0 hs
  exact ⟨⟨hm, ht⟩, hl⟩

theorem Plain.append {w : World} (h : Plain w) (envs : Nat → Env) (args : List Bytes) :
    Plain (w.exec envs (.append args)).1 :=
  ⟨h.unbounded, h.timeless⟩

/-! ### Writes that fail -/

/-- A write that met another type changed nothing. -/
theorem Plain.failed {w : World} (h : Plain w) (envs : Nat → Env) {c : Call} (hc : c.isWrite = true)
    (hf : c.ok (w.exec envs (.call c)).2 = false) : effect c w.contents = w.contents := by
  have hsets : ¬w.contents.SetsTtl c := by
    cases c with
    | expire key seconds => cases hf
    | _ => exact id
  have hsame : (w.exec envs (.call c)).1.store = w.store := Store.exec_failed _ _ c hf
  rw [← (h.call envs hsets).2, World.contents, World.contents, hsame]

end GoRedis
