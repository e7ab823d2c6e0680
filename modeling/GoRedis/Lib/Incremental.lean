import Mathlib.Tactic

/-! Incremental parsers.

A parser looks at everything buffered so far and answers that it needs more, that there is
an item (whose input it consumes), or that the input is malformed. A reader appends each
chunk it receives to the buffer and drains it. Where the parser's answers are stable under
more input (`Stable`), how the input is cut into chunks does not matter. -/
namespace Incremental

universe u v w

inductive Status (α : Type v) (ε : Type w) where
  | incomplete
  | complete (item : α)
  | error (e : ε)
  deriving DecidableEq

/-- A parser: the buffer it leaves and its answer. Completing an item consumes input. -/
structure Parser (β : Type u) (α : Type v) (ε : Type w) where
  parse : List β → List β × Status α ε
  shrinks : ∀ {b b' : List β} {a : α}, parse b = (b', .complete a) → b'.length < b.length

/-- What a reader has: the items so far, what is buffered, and the error it stopped at. -/
@[ext] structure Session (β : Type u) (α : Type v) (ε : Type w) where
  items : List α := []
  buffer : List β := []
  error : Option ε := none
  deriving DecidableEq

namespace Session
variable {β : Type u} {α : Type v} {ε : Type w}

/-- What two sessions of one input agree on: everything, but for the buffer once there
has been an error. -/
def Agree (s t : Session β α ε) : Prop :=
  s.items = t.items ∧ s.error = t.error ∧ (s.error = none → s.buffer = t.buffer)

/-- A session continued by what came after it; after an error nothing is read any more. -/
def andThen (s t : Session β α ε) : Session β α ε :=
  match s.error with
  | some _ => s
  | none => { t with items := s.items ++ t.items }

/-- The session that has completed one item. -/
def single (a : α) : Session β α ε := { items := [a] }

variable {s t u : Session β α ε}

theorem andThen_of_error {e : ε} (h : s.error = some e) : s.andThen t = s := by
  rw [andThen, h]

theorem andThen_of_none (h : s.error = none) : s.andThen t = { t with items := s.items ++ t.items } := by
  rw [andThen, h]

theorem andThen_assoc (s t u : Session β α ε) : (s.andThen t).andThen u = s.andThen (t.andThen u) := by
  cases hs : s.error with
  | some e => rw [andThen_of_error hs, andThen_of_error hs, andThen_of_error hs]
  | none =>
    cases ht : t.error with
    | some e => simp [andThen, hs, ht]
    | none => simp [andThen, hs, ht]

theorem Agree.refl (s : Session β α ε) : s.Agree s := ⟨rfl, rfl, fun _ => rfl⟩

theorem Agree.trans (h : s.Agree t) (h' : t.Agree u) : s.Agree u :=
  ⟨h.1.trans h'.1, h.2.1.trans h'.2.1, fun hs => (h.2.2 hs).trans (h'.2.2 (h.2.1 ▸ hs))⟩

theorem Agree.andThen (h : t.Agree u) : (s.andThen t).Agree (s.andThen u) := by
  cases hs : s.error with
  | some e => rw [andThen_of_error hs, andThen_of_error hs]; exact .refl s
  | none =>
    rw [andThen_of_none hs, andThen_of_none hs]
    exact ⟨congrArg (s.items ++ ·) h.1, h.2.1, h.2.2⟩

end Session

namespace Parser
variable {β : Type u} {α : Type v} {ε : Type w} (p : Parser β α ε)

/-- Items taken off the buffer until the parser stops completing them. -/
def drain (b : List β) : Session β α ε :=
  match _h : p.parse b with
  | (b', .complete a) => (Session.single a).andThen (drain b')
  | (b', .incomplete) => { buffer := b' }
  | (b', .error e) => { buffer := b', error := some e }
termination_by b.length
decreasing_by exact p.shrinks _h

/-- A chunk received. -/
def feed (s : Session β α ε) (chunk : List β) : Session β α ε :=
  s.andThen (p.drain (s.buffer ++ chunk))

def run (chunks : List (List β)) : Session β α ε := chunks.foldl p.feed {}

/-- The inputs in `ok` are ones on which an answer is not taken back when more input `c`
arrives, and on which waiting loses nothing. -/
structure Stable (ok : List β → Prop) : Prop where
  empty : p.parse [] = ([], .incomplete)
  complete : ∀ {b b' c : List β} {a : α}, ok (b ++ c) → p.parse b = (b', .complete a) →
    p.parse (b ++ c) = (b' ++ c, .complete a) ∧ ok (b' ++ c)
  error : ∀ {b b' c : List β} {e : ε}, ok (b ++ c) → p.parse b = (b', .error e) →
    (p.parse (b ++ c)).2 = .error e
  wait : ∀ {b b' c : List β}, ok (b ++ c) → p.parse b = (b', .incomplete) →
    p.parse (b ++ c) = p.parse (b' ++ c) ∧ ok (b' ++ c)

variable {p} {b b' c : List β}

theorem drain_complete {a : α} (h : p.parse b = (b', .complete a)) :
    p.drain b = (Session.single a).andThen (p.drain b') := by
  rw [drain]
  split <;> simp_all

theorem drain_incomplete (h : p.parse b = (b', .incomplete)) : p.drain b = { buffer := b' } := by
  rw [drain]
  split <;> simp_all

theorem drain_error {e : ε} (h : p.parse b = (b', .error e)) :
    p.drain b = { buffer := b', error := some e } := by
  rw [drain]
  split <;> simp_all

/-- Inputs the parser treats alike drain alike. -/
theorem drain_congr (h : p.parse b = p.parse c) : p.drain b = p.drain c := by
  rcases hp : p.parse b with ⟨b', _ | a | e⟩
  · rw [drain_incomplete hp, drain_incomplete (h.symm.trans hp)]
  · exact (drain_complete hp).trans (drain_complete (h.symm.trans hp)).symm
  · rw [drain_error hp, drain_error (h.symm.trans hp)]

/-- What holds of every item the parser completes and of every error it reports. -/
structure Yields (p : Parser β α ε) (P : α → Prop) (Q : ε → Prop) : Prop where
  item : ∀ {b b' : List β} {a : α}, p.parse b = (b', .complete a) → P a
  error : ∀ {b b' : List β} {e : ε}, p.parse b = (b', .error e) → Q e

section
variable {P : α → Prop} {Q : ε → Prop}

theorem Yields.drain (h : p.Yields P Q) (b : List β) :
    (∀ a ∈ (p.drain b).items, P a) ∧ ∀ e, (p.drain b).error = some e → Q e := by
  induction hn : b.length using Nat.strongRecOn generalizing b with
  | ind n ih =>
  subst hn
  rcases hp : p.parse b with ⟨b', _ | a | e⟩
  · rw [drain_incomplete hp]
    exact ⟨fun _ ha => absurd ha List.not_mem_nil, fun _ he => by cases he⟩
  · obtain ⟨hitems, herror⟩ := ih b'.length (p.shrinks hp) b' rfl
    rw [drain_complete hp, Session.andThen_of_none rfl]
    exact ⟨List.forall_mem_cons.mpr ⟨h.item hp, hitems⟩, herror⟩
  · rw [drain_error hp]
    refine ⟨fun _ ha => absurd ha List.not_mem_nil, fun e' he => ?_⟩
    rw [← Option.some.inj he]
    exact h.error hp

/-- It holds in every session. -/
theorem Yields.run (h : p.Yields P Q) (chunks : List (List β)) :
    (∀ a ∈ (p.run chunks).items, P a) ∧ ∀ e, (p.run chunks).error = some e → Q e := by
  suffices hfold : ∀ s : Session β α ε, (∀ a ∈ s.items, P a) → (∀ e, s.error = some e → Q e) →
      (∀ a ∈ (chunks.foldl p.feed s).items, P a) ∧ ∀ e, (chunks.foldl p.feed s).error = some e → Q e from
    hfold {} (fun _ ha => absurd ha List.not_mem_nil) fun _ he => by cases he
  induction chunks with
  | nil => exact fun s hitems herror => ⟨hitems, herror⟩
  | cons chunk chunks ih =>
    intro s hitems herror
    rw [List.foldl_cons]
    cases hs : s.error with
    | some e =>
      rw [feed, Session.andThen_of_error hs]
      exact ih s hitems herror
    | none =>
      obtain ⟨hmore, herror'⟩ := h.drain (s.buffer ++ chunk)
      rw [feed, Session.andThen_of_none hs]
      exact ih _ (List.forall_mem_append.mpr ⟨hitems, hmore⟩) herror'

end

/-! ### Waiting -/

theorem run_append (chunks chunks' : List (List β)) :
    p.run (chunks ++ chunks') = chunks'.foldl p.feed (p.run chunks) := List.foldl_append

variable {ok : List β → Prop}

/-- **Draining what has arrived and then the rest** is draining it all at once. -/
theorem Stable.drain_append (st : p.Stable ok) (b c : List β) (h : ok (b ++ c)) :
    ((p.drain b).andThen (p.drain ((p.drain b).buffer ++ c))).Agree (p.drain (b ++ c)) ∧
      ((p.drain b).error = none → ok ((p.drain b).buffer ++ c)) := by
  induction hn : b.length using Nat.strongRecOn generalizing b with
  | ind n ih =>
  subst hn
  rcases hp : p.parse b with ⟨b', _ | a | e⟩
  · obtain ⟨hsame, hok⟩ := st.wait h hp
    rw [drain_incomplete hp, drain_congr hsame]
    exact ⟨.refl _, fun _ => hok⟩
  · obtain ⟨hmore, hok⟩ := st.complete h hp
    obtain ⟨hagree, hrest⟩ := ih b'.length (p.shrinks hp) b' hok rfl
    rw [drain_complete hp, drain_complete hmore, Session.andThen_assoc]
    exact ⟨hagree.andThen, hrest⟩
  · have hmore := st.error h hp
    rcases hp' : p.parse (b ++ c) with ⟨b'', status⟩
    obtain rfl : status = .error e := by rw [hp'] at hmore; exact hmore
    rw [drain_error hp, drain_error hp', Session.andThen_of_error rfl]
    exact ⟨⟨rfl, rfl, fun hnone => by cases hnone⟩, fun hnone => by cases hnone⟩

theorem foldl_feed_error {s : Session β α ε} {e : ε} (h : s.error = some e) (chunks : List (List β)) :
    chunks.foldl p.feed s = s := by
  induction chunks with
  | nil => rfl
  | cons chunk chunks ih => rw [List.foldl_cons, feed, Session.andThen_of_error h, ih]

/-- A session continued chunk by chunk, against draining the rest at once. -/
theorem Stable.foldl_feed (st : p.Stable ok) (chunk : List β) (chunks : List (List β))
    (s : Session β α ε) (hs : s.error = none) (h : ok (s.buffer ++ (chunk :: chunks).flatten)) :
    ((chunk :: chunks).foldl p.feed s).Agree
      (s.andThen (p.drain (s.buffer ++ (chunk :: chunks).flatten))) := by
  induction chunks generalizing chunk s with
  | nil =>
    rw [List.flatten_singleton]
    exact .refl _
  | cons next chunks ih =>
    have hjoin : s.buffer ++ (chunk :: next :: chunks).flatten =
        (s.buffer ++ chunk) ++ (next :: chunks).flatten := by simp
    rw [hjoin] at h ⊢
    obtain ⟨hagree, hok⟩ := st.drain_append _ _ h
    rw [List.foldl_cons]
    cases he : (p.drain (s.buffer ++ chunk)).error with
    | some e =>
      rw [Session.andThen_of_error he] at hagree
      rw [foldl_feed_error (e := e) (by rw [feed, Session.andThen_of_none hs]; exact he)]
      exact hagree.andThen
    | none =>
      have hbuffer : (p.feed s chunk).buffer = (p.drain (s.buffer ++ chunk)).buffer := by
        rw [feed, Session.andThen_of_none hs]
      have hrest := ih next (p.feed s chunk) (by rw [feed, Session.andThen_of_none hs]; exact he)
        (hbuffer ▸ hok he)
      rw [hbuffer, feed, Session.andThen_assoc] at hrest
      exact hrest.trans hagree.andThen

/-- **Chunking does not matter.** -/
theorem Stable.run_agree (st : p.Stable ok) (chunks : List (List β)) (h : ok chunks.flatten) :
    (p.run chunks).Agree (p.drain chunks.flatten) := by
  cases chunks with
  | nil =>
    rw [List.flatten_nil, drain_incomplete st.empty]
    exact .refl _
  | cons chunk chunks => exact st.foldl_feed chunk chunks {} rfl h

end Parser
end Incremental
