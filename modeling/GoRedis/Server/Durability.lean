import GoRedis.Server.Aof

/-! Appends that fail.

`Append` writes in a loop, and an error or a crash leaves a part of the command in the file.
The next session loads what it can and goes on appending behind that part, and so does the
session itself, since `Dispatch` does not look at what `Append` returns. What was
acknowledged before the torn command is never lost; what comes after it is read as its
continuation. A command that is beyond the limits of the parser does the same damage whole. -/
namespace GoRedis
open Interleaving Incremental CommandParser

/-- What one `::write` does: some bytes written, `EINTR`, or another error. -/
inductive Write where
  | wrote (n : Nat)
  | interrupted
  | failed

/-- The loop of `Append`: the bytes that reach the file, and whether all did. When there is
no next `::write`, the process is gone. -/
def writeLoop : List Write → Bytes → Bytes × Bool
  | [], data => ([], data.isEmpty)
  | write :: writes, data =>
    if data.isEmpty then ([], true)
    else match write with
      | .wrote n => (data.take n ++ (writeLoop writes (data.drop n)).1, (writeLoop writes (data.drop n)).2)
      | .interrupted => writeLoop writes data
      | .failed => ([], false)

/-- A call of `Append`: what its writes do, and its `fsync`. -/
structure Attempt where
  args : List Bytes
  writes : List Write
  synced : Bool := true

namespace Attempt

/-- What it adds to the file. -/
def bytes (a : Attempt) : Bytes := (writeLoop a.writes (encodeCommand a.args)).1

/-- It returned `true`. -/
def acknowledged (a : Attempt) : Bool := (writeLoop a.writes (encodeCommand a.args)).2 && a.synced

/-- It left a part of the command. -/
def Torn (a : Attempt) : Prop := a.bytes ≠ [] ∧ a.bytes ≠ encodeCommand a.args

instance (a : Attempt) : Decidable a.Torn := inferInstanceAs (Decidable (_ ∧ _))

/-- It left something that is not a command the parser takes: a part of one, or one beyond its
limits. -/
def Spoils (a : Attempt) : Prop := a.bytes ≠ [] ∧ ¬(a.bytes = encodeCommand a.args ∧ Loggable a.args)

instance (a : Attempt) : Decidable a.Spoils := inferInstanceAs (Decidable (_ ∧ ¬(_ ∧ _)))

end Attempt

/-- A session: it loads the file, which does not change it, and appends behind what is there. -/
def session (file : Bytes) (attempts : List Attempt) : Bytes :=
  attempts.foldl (fun file a => file ++ a.bytes) file

/-- The file after a history of sessions. -/
def history (sessions : List (List Attempt)) : Bytes := sessions.foldl session []

/-- How the calls of `Append` go, one after another: their writes, and their `fsync`. -/
abbrev Outcomes := Nat → List Write × Bool

/-- The calls on these commands, of which the first is the `k`-th of all. -/
def attemptsFrom (outcomes : Outcomes) : Nat → List (List Bytes) → List Attempt
  | _, [] => []
  | k, args :: log => ⟨args, (outcomes k).1, (outcomes k).2⟩ :: attemptsFrom outcomes (k + 1) log

def World.attempts (outcomes : Outcomes) (w : World) : List Attempt := attemptsFrom outcomes 0 w.log

/-- The commands that were written in full. -/
def recorded (attempts : List Attempt) : List (List Bytes) :=
  (attempts.filter fun a => decide (a.bytes = encodeCommand a.args)).map Attempt.args

/-- The commands that were acknowledged. -/
def acknowledged (attempts : List Attempt) : List (List Bytes) :=
  (attempts.filter Attempt.acknowledged).map Attempt.args

/-! ### One append -/

/-- The loop adds a prefix, and all of it if it says so. -/
theorem writeLoop_written (writes : List Write) (data : Bytes) :
    (writeLoop writes data).1 <+: data ∧ ((writeLoop writes data).2 = true → (writeLoop writes data).1 = data) := by
  induction writes generalizing data with
  | nil =>
    refine ⟨List.nil_prefix, fun h => ?_⟩
    exact (List.isEmpty_iff.mp h).symm
  | cons write writes ih =>
    unfold writeLoop
    split
    · next hempty => exact ⟨List.nil_prefix, fun _ => (List.isEmpty_iff.mp hempty).symm⟩
    · cases write with
      | wrote n =>
        obtain ⟨⟨rest, hrest⟩, hwhole⟩ := ih (data.drop n)
        dsimp only
        refine ⟨⟨rest, ?_⟩, fun h => ?_⟩
        · rw [List.append_assoc, hrest, List.take_append_drop]
        · rw [hwhole h, List.take_append_drop]
      | interrupted => exact ih data
      | failed => exact ⟨List.nil_prefix, nofun⟩

theorem Attempt.bytes_of_acknowledged {a : Attempt} (h : a.acknowledged = true) : a.bytes = encodeCommand a.args :=
  (writeLoop_written a.writes _).2 (Bool.and_eq_true_iff.mp h).1

/-! ### Whole histories -/

theorem session_eq (file : Bytes) (attempts : List Attempt) :
    session file attempts = file ++ (attempts.map Attempt.bytes).flatten := by
  induction attempts generalizing file with
  | nil => exact (List.append_nil file).symm
  | cons a attempts ih => exact (ih _).trans (List.append_assoc ..)

theorem history_eq (sessions : List (List Attempt)) :
    history sessions = (sessions.flatten.map Attempt.bytes).flatten := by
  suffices h : ∀ file, sessions.foldl session file = file ++ (sessions.flatten.map Attempt.bytes).flatten from h []
  induction sessions with
  | nil => exact fun file => (List.append_nil file).symm
  | cons attempts sessions ih =>
    intro file
    rw [List.foldl_cons, ih, session_eq, List.flatten_cons, List.map_append, List.flatten_append, List.append_assoc]

theorem attemptsFrom_append (outcomes : Outcomes) (k : Nat) (log log' : List (List Bytes)) :
    attemptsFrom outcomes k (log ++ log') =
      attemptsFrom outcomes k log ++ attemptsFrom outcomes (k + log.length) log' := by
  induction log generalizing k with
  | nil => rfl
  | cons args log ih =>
    rw [List.cons_append, attemptsFrom, attemptsFrom, ih, List.length_cons, Nat.add_assoc, Nat.add_comm 1]
    rfl

/-- Whole commands at the front of a file are taken off it, whatever follows. -/
theorem drain_encodeAll {commands : List (List Bytes)} (h : ∀ args ∈ commands, Loggable args) (tail : Bytes) :
    parser.drain (encodeAll commands ++ tail) =
      { parser.drain tail with items := commands ++ (parser.drain tail).items } := by
  induction commands with
  | nil => rfl
  | cons args commands ih =>
    obtain ⟨hargs, hcommands⟩ := List.forall_mem_cons.mp h
    have hparse : parser.parse (encodeCommand args ++ (encodeAll commands ++ tail)) = _ := hargs.parse _
    rw [encodeAll_cons, Parser.drain_complete hparse, ih hcommands]
    rfl

theorem loaded_encodeAll {commands : List (List Bytes)} (h : ∀ args ∈ commands, Loggable args) (tail : Bytes) :
    loaded (encodeAll commands ++ tail) = commands ++ loaded tail :=
  congrArg Incremental.Session.items (drain_encodeAll h tail)

theorem loaded_nil : loaded [] = [] :=
  congrArg Incremental.Session.items (log_drain (List.forall_mem_nil Loggable) (.inl rfl))

theorem encodeCommand_ne_nil (args : List Bytes) : encodeCommand args ≠ [] := by
  simp [encodeCommand, RespValue.encode]

/-- A file to which nothing acknowledged was added behind what the parser does not take begins
with whole commands, among them all that were acknowledged. -/
theorem exists_whole {attempts : List Attempt}
    (hargs : ∀ a ∈ attempts, a.acknowledged = true → Loggable a.args)
    (h : attempts.Pairwise fun a b => a.Spoils → b.acknowledged = false) :
    ∃ commands tail, (attempts.map Attempt.bytes).flatten = encodeAll commands ++ tail ∧
      (∀ args ∈ commands, Loggable args) ∧ (acknowledged attempts).Sublist commands := by
  induction attempts with
  | nil => exact ⟨[], [], rfl, nofun, List.Sublist.refl _⟩
  | cons a attempts ih =>
    obtain ⟨ha, hattempts⟩ := List.forall_mem_cons.mp hargs
    obtain ⟨hafter, hrest⟩ := List.pairwise_cons.mp h
    obtain ⟨commands, tail, hfile, hcommands, hsub⟩ := ih hattempts hrest
    by_cases hwhole : a.bytes = encodeCommand a.args ∧ Loggable a.args
    · refine ⟨a.args :: commands, tail, ?_, List.forall_mem_cons.mpr ⟨hwhole.2, hcommands⟩, ?_⟩
      · rw [List.map_cons, List.flatten_cons, hfile, hwhole.1, encodeAll_cons]
      · unfold acknowledged
        rw [List.filter_cons]
        split
        · exact hsub.cons_cons a.args
        · exact hsub.cons a.args
    · have hunacknowledged : a.acknowledged = false :=
        Bool.eq_false_iff.mpr fun hack => hwhole ⟨Attempt.bytes_of_acknowledged hack, ha hack⟩
      have hacknowledged : acknowledged (a :: attempts) = acknowledged attempts := by
        rw [acknowledged, List.filter_cons_of_neg (by rw [hunacknowledged]; decide), acknowledged]
      rw [hacknowledged]
      by_cases hempty : a.bytes = []
      · refine ⟨commands, tail, ?_, hcommands, hsub⟩
        rw [List.map_cons, List.flatten_cons, hempty, List.nil_append, hfile]
      · -- the file is spoiled, and nothing after that was acknowledged
        have hnone : acknowledged attempts = [] := by
          rw [acknowledged, List.filter_eq_nil_iff.mpr, List.map_nil]
          intro b hb
          rw [hafter b hb ⟨hempty, hwhole⟩]
          decide
        rw [hnone]
        exact ⟨[], _, rfl, nofun, List.nil_sublist _⟩

/-- A file to which nothing was added behind a torn command is whole commands and what was torn. -/
theorem exists_torn {attempts : List Attempt} (hargs : ∀ a ∈ attempts, a.bytes ≠ [] → Loggable a.args)
    (h : attempts.Pairwise fun a b => a.Torn → b.bytes = []) :
    ∃ torn, Torn torn ∧ (attempts.map Attempt.bytes).flatten = encodeAll (recorded attempts) ++ torn ∧
      ∀ args ∈ recorded attempts, Loggable args := by
  induction attempts with
  | nil => exact ⟨[], .inl rfl, rfl, nofun⟩
  | cons a attempts ih =>
    obtain ⟨ha, hattempts⟩ := List.forall_mem_cons.mp hargs
    obtain ⟨hafter, hrest⟩ := List.pairwise_cons.mp h
    obtain ⟨torn, htorn, hfile, hwritten⟩ := ih hattempts hrest
    by_cases hwhole : a.bytes = encodeCommand a.args
    · have hcons : recorded (a :: attempts) = a.args :: recorded attempts := by
        rw [recorded, List.filter_cons_of_pos (by simpa using hwhole), List.map_cons, recorded]
      have hloggable : Loggable a.args := ha (hwhole ▸ encodeCommand_ne_nil a.args)
      refine ⟨torn, htorn, ?_, hcons ▸ List.forall_mem_cons.mpr ⟨hloggable, hwritten⟩⟩
      rw [List.map_cons, List.flatten_cons, hfile, hwhole, hcons, encodeAll_cons]
    · have hskip : recorded (a :: attempts) = recorded attempts := by
        rw [recorded, List.filter_cons_of_neg (by simpa using hwhole), recorded]
      rw [hskip, List.map_cons, List.flatten_cons]
      by_cases hempty : a.bytes = []
      · exact ⟨torn, htorn, by rw [hempty, List.nil_append, hfile], hwritten⟩
      · -- what follows a torn command has written nothing
        have hnothing : (attempts.map Attempt.bytes).flatten = [] := by
          rw [List.flatten_eq_nil_iff]
          intro bytes hbytes
          obtain ⟨b, hb, rfl⟩ := List.mem_map.mp hbytes
          exact hafter b hb ⟨hempty, hwhole⟩
        have hnone : recorded attempts = [] := by
          rw [recorded, List.filter_eq_nil_iff.mpr, List.map_nil]
          intro b hb
          rw [hafter b hb ⟨hempty, hwhole⟩]
          simpa using (encodeCommand_ne_nil b.args).symm
        obtain ⟨missing, hmissing⟩ := (writeLoop_written a.writes (encodeCommand a.args)).1
        refine ⟨a.bytes, .inr ⟨a.args, missing, ha hempty, ?_, hmissing⟩, ?_, hwritten⟩
        · rintro rfl
          exact hwhole (by rw [← hmissing, List.append_nil]; rfl)
        · rw [hnothing, hnone, List.append_nil]
          rfl

/-- **What was acknowledged is loaded**, in order, if it is within the limits of the parser and
nothing was acknowledged behind what the parser does not take. -/
theorem acknowledged_loaded (sessions : List (List Attempt))
    (hargs : ∀ a ∈ sessions.flatten, a.acknowledged = true → Loggable a.args)
    (h : sessions.flatten.Pairwise fun a b => a.Spoils → b.acknowledged = false) :
    (acknowledged sessions.flatten).Sublist (loaded (history sessions)) := by
  obtain ⟨commands, tail, hfile, hcommands, hsub⟩ := exists_whole hargs h
  rw [history_eq, hfile, loaded_encodeAll hcommands]
  exact hsub.trans (List.sublist_append_left commands _)

/-- Two sessions; an append that wrote nothing, and the last one torn. -/
theorem acknowledged_loaded_torn_last :
    let set (value : String) := [ascii "SET", ascii "k", ascii value]
    let sessions : List (List Attempt) := [[⟨set "a", [.wrote 5, .interrupted, .wrote 22], true⟩],
      [⟨set "b", [.failed], true⟩, ⟨set "c", [.wrote 27], true⟩, ⟨set "d", [.wrote 10], true⟩]]
    ((∀ a ∈ sessions.flatten, a.acknowledged = true → Loggable a.args) ∧
      sessions.flatten.Pairwise fun a b => a.Spoils → b.acknowledged = false) ∧
    acknowledged sessions.flatten = [set "a", set "c"] ∧
      (acknowledged sessions.flatten).Sublist (loaded (history sessions)) := by
  intro set sessions
  have hargs : ∀ a ∈ sessions.flatten, a.acknowledged = true → Loggable a.args := by decide +kernel
  have hspoils : sessions.flatten.Pairwise fun a b => a.Spoils → b.acknowledged = false := by decide +kernel
  exact ⟨⟨hargs, hspoils⟩, by decide +kernel, acknowledged_loaded sessions hargs hspoils⟩

/-- An append that is acknowledged behind a torn one is lost. -/
theorem acknowledged_behind_torn :
    let set (value : String) := [ascii "SET", ascii "k", ascii value]
    let sessions : List (List Attempt) := [[⟨set "a", [.wrote 10, .failed], true⟩], [⟨set "b", [.wrote 27], true⟩]]
    (∀ a ∈ sessions.flatten, Loggable a.args) ∧ acknowledged sessions.flatten = [set "b"] ∧
      ¬(acknowledged sessions.flatten).Sublist (loaded (history sessions)) := by
  intro set sessions
  exact ⟨by decide, by decide +kernel, by decide +kernel⟩

/-- By coincidence it may be read all the same. -/
example : loaded (history [[⟨[ascii "hi"], [.wrote 8], true⟩, ⟨[ascii "PING"], [.wrote 14], true⟩]]) =
    [[ascii "*1"], [ascii "$4"], [ascii "PING"]] := by decide +kernel

end GoRedis
