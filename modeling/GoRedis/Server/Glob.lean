import GoRedis.Lib.Wildcard
import GoRedis.Server.Frame
import GoRedis.Store.Refinement

/-! Which keys `KEYS` lists.

`GlobMatch` goes back to the last `*` of the pattern only. That is enough: what a search
from an earlier one would find behind it, it finds from the last one as well. But it
compares a byte of the pattern with the byte of the text before it asks whether it is a `*`,
so at a `*` of the text a `*` of the pattern is used up as a literal: a key that matches is
listed exactly if it can be read in that way (`keys_listed`). -/
namespace GoRedis
open Interleaving Dispatcher Wildcard

/-- What a pattern stands for: `*` for any run of bytes, `?` for any one byte. -/
abbrev Globs (pattern text : Bytes) : Prop := Matches 42 63 pattern text

/-- The pattern as `GlobMatch` reads it. -/
abbrev GlobAccepts (pattern text : Bytes) : Prop := Accepts 42 63 pattern text

/-- The text can be cut into pieces, one for each byte of the pattern, as the pattern says, and in
such a way that a `*` of the pattern that comes to stand at a `*` of the text stands for that byte
alone. -/
def GlobsLiterally (pattern text : Bytes) : Prop :=
  ∃ pieces, List.Forall₂ (Stands 42 63) pattern pieces ∧ Literal 42 pattern pieces ∧ pieces.flatten = text

namespace Dispatcher

/-! ### What the loop looks for -/

/-- What can still be found: from here if no `*` was met, and else from where the last one was
met or from further on. -/
def Findable (pattern text : Bytes) : Option (Star text.length) → Prop
  | none => GlobAccepts pattern text
  | some s => ∃ rest, rest <:+ s.text ∧ GlobAccepts s.pattern rest

/-- What was read since the last `*` was met, was read byte by byte. -/
def Tracked (pattern text : Bytes) : Option (Star text.length) → Prop
  | none => True
  | some s => ∃ piece read, s.pattern = piece ++ pattern ∧ s.text = read ++ text ∧ Reads 63 piece read

section
variable {pattern text : Bytes}

/-- A match from here is one from where the last `*` was met. -/
theorem Findable.here {s : Star text.length} (h : Tracked pattern text (some s)) (ha : GlobAccepts pattern text) :
    Findable pattern text (some s) := by
  obtain ⟨piece, read, hp, ht, hr⟩ := h
  refine ⟨s.text, List.suffix_refl _, ?_⟩
  rw [hp, ht]
  exact hr.accepts.mpr ha

/-- A match from where the last `*` was met or from further on goes through here or later. -/
theorem Findable.later {s : Star text.length} (h : Tracked pattern text (some s))
    (hf : Findable pattern text (some s)) : ∃ rest, rest <:+ text ∧ GlobAccepts pattern rest := by
  obtain ⟨piece, read, hp, ht, hr⟩ := h
  obtain ⟨start, hstart, ha⟩ := hf
  rw [hp] at ha
  rw [ht] at hstart
  exact hr.commits hstart ha

/-- Where nothing matches from here, the last `*` has to take one more byte. -/
theorem Findable.retry {c : UInt8} {rest : Bytes} {s : Star (c :: rest).length}
    (h : Tracked pattern (c :: rest) (some s)) (hno : ¬GlobAccepts pattern (c :: rest)) :
    Findable pattern (c :: rest) (some s) ↔ ∃ start, start <:+ s.text.tail ∧ GlobAccepts s.pattern start := by
  obtain ⟨piece, read, hp, ht, hr⟩ := h
  obtain ⟨d, tail, htext⟩ : ∃ d tail, s.text = d :: tail := by
    rw [ht]
    cases read <;> simp
  have hfirst : ¬GlobAccepts s.pattern s.text := by
    rw [hp, ht]
    exact fun ha => hno (hr.accepts.mp ha)
  show (∃ start, start <:+ s.text ∧ _) ↔ _
  rw [htext, List.tail_cons] at *
  constructor
  · rintro ⟨start, hstart, ha⟩
    rcases List.suffix_cons_iff.mp hstart with rfl | hlater
    · exact absurd ha hfirst
    · exact ⟨start, hlater, ha⟩
  · rintro ⟨start, hstart, ha⟩
    exact ⟨start, hstart.trans (List.suffix_cons d tail), ha⟩

theorem head?_eq_some {d : UInt8} (h : pattern.head? = some d) : pattern = d :: pattern.tail :=
  (List.eq_cons_of_mem_head? h)

/-- No byte of the pattern, or one that neither matches nor is a `*`. -/
theorem not_globAccepts {c : UInt8} {rest : Bytes} (hread : ¬(pattern.head? = some 63 ∨ pattern.head? = some c))
    (hstar : ¬pattern.head? = some 42) : ¬GlobAccepts pattern (c :: rest) := by
  cases pattern with
  | nil => exact id
  | cons d pattern =>
    rw [List.head?_cons, Option.some.injEq] at *
    exact not_accepts (by simpa using hread) hstar

end

/-- **The loop finds what can be found.** -/
theorem globLoop_iff (pattern text : Bytes) (star : Option (Star text.length)) (h : Tracked pattern text star) :
    globLoop pattern text star = true ↔ Findable pattern text star := by
  fun_induction globLoop pattern text star with
  | case1 pattern star =>
    -- the text has ended: only stars can be left of the pattern
    have hend : (decide (pattern.dropWhile (· = 42) = []) = true) ↔ GlobAccepts pattern [] := by
      refine Iff.trans ?_ accepts_nil.symm
      rw [decide_eq_true_iff, List.dropWhile_eq_nil_iff]
      simp
    rw [hend]
    cases star with
    | none => exact Iff.rfl
    | some s =>
      refine ⟨Findable.here h, fun hf => ?_⟩
      obtain ⟨rest, hrest, ha⟩ := hf.later h
      rwa [List.suffix_nil.mp hrest] at ha
  | case2 pattern c rest hread star ih =>
    obtain ⟨d, hd⟩ : ∃ d, pattern.head? = some d := by
      rcases hread with h | h <;> exact ⟨_, h⟩
    rw [hd, Option.some.injEq, Option.some.injEq] at hread
    rw [head?_eq_some hd] at h ⊢
    cases star with
    | none => exact (ih trivial).trans (accepts_read hread).symm
    | some s =>
      obtain ⟨piece, read, hp, ht, hr⟩ := h
      refine ih ⟨piece ++ [d], read ++ [c], ?_, ?_, ?_⟩
      · simpa using hp
      · simpa using ht
      · exact List.rel_append hr (.cons hread .nil)
  | case3 pattern c rest hread hstar star ih =>
    have hnot : ¬((42 : UInt8) = 63 ∨ (42 : UInt8) = c) := by
      rw [hstar, Option.some.injEq, Option.some.injEq] at hread
      exact hread
    have hmet := ih ⟨[], [], rfl, rfl, .nil⟩
    have hhere : Findable pattern.tail (c :: rest) (some ⟨pattern.tail, c :: rest, Nat.le_refl _⟩) ↔
        GlobAccepts pattern (c :: rest) := by
      rw [head?_eq_some hstar]
      exact (accepts_star hnot).symm
    rw [hmet, hhere]
    cases star with
    | none => exact Iff.rfl
    | some s =>
      -- what an earlier star could find is found from this one
      refine ⟨Findable.here h, fun hf => ?_⟩
      obtain ⟨start, hstart, ha⟩ := hf.later h
      rw [head?_eq_some hstar] at ha ⊢
      obtain ⟨later, hlater, hl⟩ := ha.of_star
      exact (accepts_star hnot).mpr ⟨later, hlater.trans hstart, hl⟩
  | case4 pattern c rest hread hstar =>
    exact iff_of_false Bool.false_ne_true (not_globAccepts hread hstar)
  | case5 pattern c rest hread hstar s ih =>
    have hretry := Findable.retry h (not_globAccepts hread hstar)
    exact (ih ⟨[], [], rfl, rfl, .nil⟩).trans hretry.symm

/-- **What `GlobMatch` computes.** -/
theorem globMatch_iff (pattern text : Bytes) : globMatch pattern text = true ↔ GlobAccepts pattern text :=
  globLoop_iff pattern text none trivial

/-! ### The loop by positions -/

/-- The variables of `GlobMatch`; `starP` is nothing while `star_p` is `npos`. -/
structure GlobState where
  p : Nat := 0
  t : Nat := 0
  starP : Option Nat := none
  starT : Nat := 0

/-- A round of the loop: the variables after it, or what is returned. -/
def globRound (pattern text : Bytes) (s : GlobState) : GlobState ⊕ Bool :=
  if s.t < text.length then
    if s.p < pattern.length ∧ (pattern[s.p]? = some 63 ∨ pattern[s.p]? = text[s.t]?) then
      .inl { s with p := s.p + 1, t := s.t + 1 }
    else if s.p < pattern.length ∧ pattern[s.p]? = some 42 then
      .inl { p := s.p + 1, t := s.t, starP := some s.p, starT := s.t }
    else match s.starP with
      | some starP => .inl { p := starP + 1, t := s.starT + 1, starP := some starP, starT := s.starT + 1 }
      | none => .inr false
  else .inr ((pattern.drop s.p).dropWhile (· = 42) = [])

/-- What is returned within so many rounds. -/
def globRounds (pattern text : Bytes) : (rounds : Nat) → GlobState → Option Bool
  | 0, _ => none
  | rounds + 1, s =>
    match globRound pattern text s with
    | .inl s' => globRounds pattern text rounds s'
    | .inr result => some result

/-- The positions of the last `*`. -/
def Located (pattern text : Bytes) (s : GlobState) {n : Nat} : Option (Star n) → Prop
  | none => s.starP = none
  | some star => ∃ starP, s.starP = some starP ∧ star.pattern = pattern.drop (starP + 1) ∧
      star.text = text.drop s.starT

theorem globRounds_succ {pattern text : Bytes} {s s' : GlobState} (h : globRound pattern text s = .inl s')
    {result : Bool} (hmore : ∃ rounds, globRounds pattern text rounds s' = some result) :
    ∃ rounds, globRounds pattern text rounds s = some result := by
  obtain ⟨rounds, hrounds⟩ := hmore
  refine ⟨rounds + 1, ?_⟩
  rw [globRounds, h]
  exact hrounds

/-- A position that is not the end. -/
theorem drop_eq_cons {l rest : Bytes} {i : Nat} {c : UInt8} (h : c :: rest = l.drop i) :
    i < l.length ∧ l[i]? = some c ∧ rest = l.drop (i + 1) := by
  have hlt : i < l.length := by
    by_contra hge
    rw [List.drop_eq_nil_of_le (Nat.not_lt.mp hge)] at h
    cases h
  rw [List.drop_eq_getElem_cons hlt, List.cons.injEq] at h
  exact ⟨hlt, by rw [List.getElem?_eq_getElem hlt, h.1], h.2⟩

/-- **The loop ends**, from wherever it stands. -/
theorem globRounds_globLoop (pattern text p t : Bytes) (star : Option (Star t.length)) {s : GlobState}
    (hp : p = pattern.drop s.p) (ht : t = text.drop s.t) (hs : Located pattern text s star) :
    ∃ rounds, globRounds pattern text rounds s = some (globLoop p t star) := by
  have hhead : ∀ {s : GlobState} {p : Bytes}, p = pattern.drop s.p → p.head? = pattern[s.p]? ∧
      p.tail = pattern.drop (s.p + 1) ∧ ∀ d, pattern[s.p]? = some d → s.p < pattern.length := by
    rintro s p rfl
    exact ⟨List.head?_drop .., List.tail_drop .., fun d hd => (List.getElem?_eq_some_iff.mp hd).1⟩
  fun_induction globLoop p t star generalizing s with
  | case1 p star =>
    have hend : ¬s.t < text.length := Nat.not_lt.mpr (List.drop_eq_nil_iff.mp ht.symm)
    exact ⟨1, by rw [globRounds, globRound, if_neg hend, hp]⟩
  | case2 p c rest hread star ih =>
    obtain ⟨hlt, hc, hrest⟩ := drop_eq_cons ht
    obtain ⟨hph, hpt, hpl⟩ := hhead hp
    rw [hph, ← hc] at hread
    have hpos : s.p < pattern.length := by
      rcases hread with h | h
      · exact hpl _ h
      · exact hpl _ (h.trans hc)
    have hround : globRound pattern text s = .inl { s with p := s.p + 1, t := s.t + 1 } := by
      rw [globRound, if_pos hlt, if_pos ⟨hpos, hread⟩]
    refine globRounds_succ hround (ih hpt hrest ?_)
    cases star <;> exact hs
  | case3 p c rest hread hstar star ih =>
    obtain ⟨hlt, hc, hrest⟩ := drop_eq_cons ht
    obtain ⟨hph, hpt, hpl⟩ := hhead hp
    rw [hph, ← hc] at hread
    rw [hph] at hstar
    have hround : globRound pattern text s = .inl ⟨s.p + 1, s.t, some s.p, s.t⟩ := by
      rw [globRound, if_pos hlt, if_neg (fun h => hread h.2), if_pos ⟨hpl _ hstar, hstar⟩]
    exact globRounds_succ hround (ih hpt ht ⟨s.p, rfl, hpt, ht⟩)
  | case4 p c rest hread hstar =>
    obtain ⟨hlt, hc, hrest⟩ := drop_eq_cons ht
    obtain ⟨hph, -, -⟩ := hhead hp
    rw [hph, ← hc] at hread
    rw [hph] at hstar
    have hnone : s.starP = none := hs
    refine ⟨1, ?_⟩
    rw [globRounds, globRound, if_pos hlt, if_neg (fun h => hread h.2), if_neg (fun h => hstar h.2), hnone]
  | case5 p c rest hread hstar star ih =>
    obtain ⟨hlt, hc, hrest⟩ := drop_eq_cons ht
    obtain ⟨hph, -, -⟩ := hhead hp
    rw [hph, ← hc] at hread
    rw [hph] at hstar
    obtain ⟨starP, hsp, hpattern, htext⟩ := hs
    have htail : star.text.tail = text.drop (s.starT + 1) := by rw [htext, List.tail_drop]
    have hround : globRound pattern text s = .inl ⟨starP + 1, s.starT + 1, some starP, s.starT + 1⟩ := by
      rw [globRound, if_pos hlt, if_neg (fun h => hread h.2), if_neg (fun h => hstar h.2), hsp]
    exact globRounds_succ hround (ih hpattern htail ⟨starP, rfl, hpattern, htail⟩)

theorem globRounds_globMatch (pattern text : Bytes) :
    ∃ rounds, globRounds pattern text rounds {} = some (globMatch pattern text) :=
  globRounds_globLoop pattern text pattern text none rfl rfl rfl

/-- **Patterns on ordinary keys.** On a text without a `*`, `GlobMatch` returns after some
rounds of its loop, and it returns whether the text matches the pattern. -/
theorem globMatch_exact (pattern text : Bytes) (h : 42 ∉ text) :
    (∃ rounds, globRounds pattern text rounds {} = some (globMatch pattern text)) ∧
      (globMatch pattern text = true ↔ Globs pattern text) :=
  ⟨globRounds_globMatch pattern text,
    (globMatch_iff pattern text).trans (accepts_iff_matches (by decide) h)⟩

/-- `a*?b**` and `axyxb`. -/
theorem globMatch_exact_two_stars :
    (42 : UInt8) ∉ ascii "axyxb" ∧ globMatch (ascii "a*?b**") (ascii "axyxb") = true := by
  have h : (42 : UInt8) ∉ ascii "axyxb" := by decide
  exact ⟨h, (globMatch_exact _ _ h).2.mpr (by decide)⟩

end Dispatcher

/-! ### `KEYS` -/

theorem mem_keys_reply (s : Store) (now : Time) (key : Bytes) : key ∈ (s.keys now).reply ↔ key ∈ s.live now := by
  have hreply : ((s.keys now).reply : Multiset Bytes) = (s.live now).keys.val :=
    (Store.keys_simulates { now := now } s).reply
  rw [← Multiset.mem_coe, hreply, ← Finset.mem_def, Finmap.mem_keys]

/-- **Which keys are listed.** `KEYS` lists live keys that match the pattern, and of these exactly
those that can be cut so that a `*` of the pattern that comes to stand at a `*` of the key stands
for that byte alone. So `KEYS *` lists every live key but those that begin with a `*` and go on. -/
theorem keys_listed (aof : Bool) (envs : Nat → Env) (w : World) {name : Bytes} (h : toUpper name = ascii "KEYS")
    (pattern : Bytes) :
    ∃ listed, ((dispatch aof [name, pattern]).run (World.exec envs) w).2 = some (stringsToBulkArray listed) ∧
      ∀ key, (key ∈ listed → key ∈ w.store.live (envs w.ticks).now ∧ Globs pattern key) ∧
        ((key ∈ listed ↔ key ∈ w.store.live (envs w.ticks).now ∧ Globs pattern key) ↔
          (key ∈ w.store.live (envs w.ticks).now → Globs pattern key → GlobsLiterally pattern key)) ∧
        (pattern = ascii "*" → key ∈ w.store.live (envs w.ticks).now →
          (key ∈ listed ↔ (key.head? = some 42 → key = ascii "*"))) := by
  refine ⟨((w.store.keys (envs w.ticks).now).reply).filter (globMatch pattern), by rw [dispatch_keys h]; rfl, ?_⟩
  intro key
  have hmatches : GlobAccepts pattern key → Globs pattern key := fun ha => ha.matches (by decide)
  have hliterally : GlobAccepts pattern key ↔ GlobsLiterally pattern key := accepts_iff_pieces (by decide)
  rw [List.mem_filter, mem_keys_reply, globMatch_iff]
  refine ⟨fun hk => ⟨hk.1, hmatches hk.2⟩, ⟨fun hiff hlive hglobs => ?_, fun hlit => ?_⟩, ?_⟩
  · exact hliterally.mp (hiff.mpr ⟨hlive, hglobs⟩).2
  · exact ⟨fun hk => ⟨hk.1, hmatches hk.2⟩, fun hk => ⟨hk.1, hliterally.mpr (hlit hk.1 hk.2)⟩⟩
  · rintro rfl hlive
    exact (and_iff_right hlive).trans (accepts_singleton (by decide))

/-- `KEYS *` and a key with a `*` in it. -/
theorem keys_listed_inner_star :
    let w : World := { store := (({} : Store).exec { now := 0 } (.set (ascii "a*") [118])).1 }
    ∃ listed, ((dispatch false [ascii "keys", ascii "*"]).run (World.exec fun _ => { now := 0 }) w).2 =
      some (stringsToBulkArray listed) ∧ ascii "a*" ∈ listed := by
  intro w
  have hname : toUpper (ascii "keys") = ascii "KEYS" := by decide
  obtain ⟨listed, hreply, hlisted⟩ := keys_listed false (fun _ => { now := 0 }) w hname (ascii "*")
  have hlive : ascii "a*" ∈ w.store.live 0 := (mem_keys_reply ..).mp (by decide +kernel)
  exact ⟨listed, hreply, ((hlisted (ascii "a*")).2.2 rfl hlive).mpr (by decide)⟩

example : GlobsLiterally (ascii "*:*") (ascii "a:b:*") := (accepts_iff_pieces (by decide)).mp (by decide)

/-- The key `*a` is live and matches `*`, but `KEYS *` does not list it. -/
theorem keys_star_unlisted :
    let w : World := { store := (({} : Store).exec { now := 0 } (.set (ascii "*a") [118])).1 }
    ((dispatch false [ascii "KEYS", ascii "*"]).run (World.exec fun _ => { now := 0 }) w).2 =
        some (stringsToBulkArray []) ∧
      ascii "*a" ∈ w.store.live 0 ∧ Globs (ascii "*") (ascii "*a") := by
  intro w
  have hkeys : (w.store.keys 0).reply = [ascii "*a"] := by decide +kernel
  have hno : globMatch (ascii "*") (ascii "*a") = false := by
    rw [Bool.eq_false_iff, ne_eq, globMatch_iff]
    decide
  refine ⟨?_, (mem_keys_reply ..).mp (by rw [hkeys]; exact List.mem_singleton_self _), by decide⟩
  show some (stringsToBulkArray (((w.store.keys 0).reply).filter (globMatch (ascii "*")))) = _
  rw [hkeys, List.filter_cons, hno]
  rfl

end GoRedis
