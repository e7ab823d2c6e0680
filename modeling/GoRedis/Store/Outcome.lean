import GoRedis.Store.Effects

/-! What the result of a call says about the store, whatever its budget.

A call that meets another type says so and has changed nothing, not even a stamp. Otherwise
there is a result wherever the caller takes one without a test. A read never changes what is
live. -/
namespace GoRedis

/-- Whether a call met the type it is for. -/
def Call.ok : (c : Call) → c.Reply → Bool
  | .get _, reply | .hGet .., reply | .lPush .., reply | .rPush .., reply | .lLen _, reply | .hSet .., reply
  | .hDel .., reply | .hLen _, reply | .hExists .., reply | .lRange .., reply | .hKeys _, reply | .hVals _, reply
  | .hGetAll _, reply => Result.ok reply
  | .set .., _ | .del _, _ | .flushAll, _ | .expire .., _ | .exists' _, _ | .keys, _ | .ttl _, _ => true

/-- There is a result where `Dispatch` takes it without a test. -/
def Call.Answered : (c : Call) → c.Reply → Prop
  | .lPush .., reply | .rPush .., reply | .lLen _, reply | .hSet .., reply | .hDel .., reply | .hLen _, reply
  | .hExists .., reply | .lRange .., reply | .hKeys _, reply | .hVals _, reply | .hGetAll _, reply =>
    (Result.value reply).isSome
  | .get _, _ | .hGet .., _ | .set .., _ | .del _, _ | .flushAll, _ | .expire .., _ | .exists' _, _ | .keys, _
  | .ttl _, _ => True

namespace Store

/-- A typed call: another type was met and nothing changed, or the result is `good`. -/
inductive Outcome {α : Type} (s : Store) (good : Result α → Prop) : Store × Result α → Prop where
  | wrongType : Outcome s good (s, .wrongType)
  | good (s' : Store) (result : Result α) (h : good result) : Outcome s good (s', result)

section
variable {α : Type} {s : Store} {good : Result α → Prop} {r : Store × Result α}

theorem Outcome.failed (h : Outcome s good r) (hgood : ∀ result, good result → result.ok = true)
    (hr : r.2.ok = false) : r.1 = s := by
  cases h with
  | wrongType => rfl
  | good s' result hres =>
    rw [hgood result hres] at hr
    cases hr

theorem Outcome.answered (h : Outcome s good r) (hgood : ∀ result, good result → result.value.isSome)
    (hr : r.2.ok = true) : r.2.value.isSome := by
  cases h with
  | wrongType => cases hr
  | good s' result hres => exact hgood result hres

/-- A result that carries a value. -/
def Just (result : Result α) : Prop := ∃ a, result = .just a

theorem Just.ok {result : Result α} (h : Just result) : result.ok = true := by
  obtain ⟨a, rfl⟩ := h
  rfl

theorem Just.isSome {result : Result α} (h : Just result) : result.value.isSome := by
  obtain ⟨a, rfl⟩ := h
  rfl

theorem read_outcome (type : ValueType) (absent : Result α) (view : Value → Result α) (now : Time) (key : Bytes)
    (s : Store) (habsent : good absent) (hview : ∀ v, good (view v)) :
    Outcome s good ((s.read type absent view now key).finish now) := by
  unfold read
  split
  · exact .good _ _ habsent
  · split
    · exact .good _ _ habsent
    · split
      · exact .wrongType
      · exact .good _ _ (hview _)

end

theorem push_outcome (join : List Bytes → List Bytes → List Bytes) (draw : Nat → Nat → Nat) (now : Time)
    (key : Bytes) (values : List Bytes) (s : Store) : Outcome s Just (s.push join draw now key values) := by
  have hc := s.getOrCreate_created .list now key
  unfold push getOrCreateList
  rcases hg : s.getOrCreate .list now key with ⟨s', _ | v⟩
  · rw [hg] at hc
    cases hc
    exact .wrongType
  · exact .good _ _ ⟨_, rfl⟩

theorem hSet_outcome (draw : Nat → Nat → Nat) (now : Time) (key : Bytes) (fields : List (Bytes × Bytes))
    (s : Store) : Outcome s Just (s.hSet draw now key fields) := by
  have hc := s.getOrCreate_created .hash now key
  unfold hSet getOrCreateHash
  rcases hg : s.getOrCreate .hash now key with ⟨s', _ | v⟩
  · rw [hg] at hc
    cases hc
    exact .wrongType
  · exact .good _ _ ⟨_, rfl⟩

theorem hDel_outcome (now : Time) (key : Bytes) (fields : List Bytes) (s : Store) :
    Outcome s Just (s.hDel now key fields) := by
  unfold hDel
  split
  · exact .good _ _ ⟨_, rfl⟩
  · split
    · exact .good _ _ ⟨_, rfl⟩
    · split
      · exact .wrongType
      · dsimp only
        split <;> exact .good _ _ ⟨_, rfl⟩

/-- **A call that meets another type changes nothing**: no entry, no stamp, no count. -/
theorem exec_failed (env : Env) (s : Store) (c : Call) (h : c.ok (s.exec env c).2 = false) :
    (s.exec env c).1 = s := by
  have hread : ∀ {α : Type} {type : ValueType} {absent : Result α} {view : Value → Result α} {key : Bytes},
      absent.ok = true → (∀ v, (view v).ok = true) →
      ((s.read type absent view env.now key).finish env.now).2.ok = false →
      ((s.read type absent view env.now key).finish env.now).1 = s :=
    fun habsent hview hf =>
      Outcome.failed (read_outcome _ _ _ _ _ s habsent hview) (fun _ h => h) hf
  cases c with
  | lPush key values => exact (push_outcome _ _ _ _ _ s).failed (fun _ => Just.ok) h
  | rPush key values => exact (push_outcome _ _ _ _ _ s).failed (fun _ => Just.ok) h
  | hSet key fields => exact (hSet_outcome _ _ _ _ s).failed (fun _ => Just.ok) h
  | hDel key fields => exact (hDel_outcome _ _ _ s).failed (fun _ => Just.ok) h
  | get _ | lLen _ | lRange _ _ _ | hGet _ _ | hGetAll _ | hLen _ | hExists _ _ | hKeys _ | hVals _ =>
    exact hread rfl (fun _ => rfl) h
  | _ => cases h

/-- A call that met its type has a result. -/
theorem exec_answered (env : Env) (s : Store) (c : Call) (h : c.ok (s.exec env c).2 = true) :
    c.Answered (s.exec env c).2 := by
  have hread : ∀ {α : Type} {type : ValueType} {absent : Result α} {view : Value → Result α} {key : Bytes},
      Just absent → (∀ v, Just (view v)) → ((s.read type absent view env.now key).finish env.now).2.ok = true →
      ((s.read type absent view env.now key).finish env.now).2.value.isSome :=
    fun habsent hview hf => (read_outcome _ _ _ _ _ s habsent hview).answered (fun _ => Just.isSome) hf
  cases c with
  | lPush key values => exact (push_outcome _ _ _ _ _ s).answered (fun _ => Just.isSome) h
  | rPush key values => exact (push_outcome _ _ _ _ _ s).answered (fun _ => Just.isSome) h
  | hSet key fields => exact (hSet_outcome _ _ _ _ s).answered (fun _ => Just.isSome) h
  | hDel key fields => exact (hDel_outcome _ _ _ s).answered (fun _ => Just.isSome) h
  | lLen _ | lRange _ _ _ | hGetAll _ | hLen _ | hExists _ _ | hKeys _ | hVals _ =>
    exact hread ⟨_, rfl⟩ (fun _ => ⟨_, rfl⟩) h
  | _ => trivial

/-! ### Reads -/

theorem read_held {α : Type} (type : ValueType) (absent : Result α) (view : Value → Result α) (now : Time)
    (key : Bytes) (s : Store) : (s.read type absent view now key).store.held now = s.held now := by
  unfold read
  split
  · rfl
  · split
    · rfl
    · split
      · rfl
      · exact touch_held s key

theorem finish_held {α : Type} {r : Shared α} {now : Time} {s : Store} (h : r.store.held now = s.held now) :
    (r.finish now).1.held now = s.held now := by
  rw [Shared.finish, deleteAllExpired_held, h]

/-- **Reads keep what is held.** -/
theorem exec_read_held (env : Env) (s : Store) {c : Call} (h : c.isWrite = false) :
    (s.exec env c).1.held env.now = s.held env.now := by
  cases c with
  | exists' keys | keys => exact finish_held rfl
  | ttl key => exact finish_held (by rw [ttl_store])
  | get _ | lLen _ | lRange _ _ _ | hGet _ _ | hGetAll _ | hLen _ | hExists _ _ | hKeys _ | hVals _ =>
    exact finish_held (read_held ..)
  | _ => cases h

theorem exec_read_live (env : Env) (s : Store) {c : Call} (h : c.isWrite = false) :
    (s.exec env c).1.live env.now = s.live env.now :=
  live_of_held (exec_read_held env s h)

end Store
end GoRedis
