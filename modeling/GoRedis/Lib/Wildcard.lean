import Mathlib.Tactic

/-! Wildcard patterns.

A pattern is a word in which `star` stands for any run, `any` for any one symbol, and every
other symbol for itself (`Matches`). A matcher that reads both words from the left and tries
the literal reading first sees something else where the text has a `star` itself: it takes
the one of the pattern for it and does not come back (`Accepts`).

A text that matches can be cut into pieces, one for each symbol of the pattern
(`matches_iff_pieces`). It is accepted exactly if it can be cut in such a way that a `star` of the
pattern that comes to stand at a `star` of the text stands for that one alone
(`accepts_iff_pieces`). -/
namespace Wildcard

variable {α : Type} [DecidableEq α] (star any : α)

/-- The text is of the form the pattern describes. -/
def Matches : List α → List α → Prop
  | [], text => text = []
  | d :: pattern, text =>
    if d = star then ∃ rest ∈ text.tails, Matches pattern rest
    else match text with
      | [] => False
      | c :: rest => (d = any ∨ d = c) ∧ Matches pattern rest

/-- The same, but for a `star` of the pattern that is read as one of the text. -/
def Accepts : List α → List α → Prop
  | pattern, [] => ∀ d ∈ pattern, d = star
  | [], _ :: _ => False
  | d :: pattern, c :: rest =>
    if d = any ∨ d = c then Accepts pattern rest
    else if d = star then ∃ rest' ∈ (c :: rest).tails, Accepts pattern rest'
    else False

/-- What a symbol of the pattern stands for. -/
def Stands (d : α) (piece : List α) : Prop := d = star ∨ ∃ c, piece = [c] ∧ (d = any ∨ d = c)

/-- Of the pieces the text is cut into, those of a `star` that stands at a `star` are no longer. -/
def Literal : List α → List (List α) → Prop
  | d :: pattern, piece :: pieces =>
    (d = star → (piece ++ pieces.flatten).head? = some star → piece = [star]) ∧ Literal pattern pieces
  | _, _ => True

instance decidableMatches : (pattern text : List α) → Decidable (Matches star any pattern text)
  | [], text => inferInstanceAs (Decidable (text = []))
  | d :: pattern, [] =>
    have := decidableMatches pattern
    inferInstanceAs (Decidable (if d = star then ∃ rest ∈ [].tails, Matches star any pattern rest else False))
  | d :: pattern, c :: rest =>
    have := decidableMatches pattern
    inferInstanceAs (Decidable (if d = star then ∃ rest' ∈ (c :: rest).tails, Matches star any pattern rest'
      else (d = any ∨ d = c) ∧ Matches star any pattern rest))

instance decidableAccepts : (pattern text : List α) → Decidable (Accepts star any pattern text)
  | [], [] => inferInstanceAs (Decidable (∀ d ∈ [], d = star))
  | d :: pattern, [] => inferInstanceAs (Decidable (∀ e ∈ d :: pattern, e = star))
  | [], _ :: _ => .isFalse id
  | d :: pattern, c :: rest =>
    have := decidableAccepts pattern
    inferInstanceAs (Decidable (if d = any ∨ d = c then Accepts star any pattern rest
      else if d = star then ∃ rest' ∈ (c :: rest).tails, Accepts star any pattern rest' else False))

section
variable {star any} {d c : α} {pattern text rest : List α}

/-! ### Symbol by symbol -/

theorem matches_star :
    Matches star any (star :: pattern) text ↔ ∃ rest, rest <:+ text ∧ Matches star any pattern rest := by
  simp only [Matches, if_true, List.mem_tails]

theorem matches_cons (hd : d ≠ star) :
    Matches star any (d :: pattern) (c :: rest) ↔ (d = any ∨ d = c) ∧ Matches star any pattern rest := by
  simp only [Matches, if_neg hd]

theorem matches_nil : Matches star any pattern [] ↔ ∀ d ∈ pattern, d = star := by
  induction pattern with
  | nil => simp [Matches]
  | cons d pattern ih => by_cases hd : d = star <;> simp [Matches, hd, ih]

theorem accepts_nil : Accepts star any pattern [] ↔ ∀ d ∈ pattern, d = star := by
  unfold Accepts
  exact Iff.rfl

theorem accepts_read (h : d = any ∨ d = c) :
    Accepts star any (d :: pattern) (c :: rest) ↔ Accepts star any pattern rest := by
  rw [Accepts, if_pos h]

theorem accepts_star (h : ¬(star = any ∨ star = c)) :
    Accepts star any (star :: pattern) (c :: rest) ↔
      ∃ rest', rest' <:+ c :: rest ∧ Accepts star any pattern rest' := by
  simp only [Accepts, if_neg h, if_true, List.mem_tails]

theorem not_accepts (h : ¬(d = any ∨ d = c)) (hd : d ≠ star) : ¬Accepts star any (d :: pattern) (c :: rest) := by
  rw [Accepts, if_neg h, if_neg hd]
  exact id

/-- A `star` can always be left behind. -/
theorem Accepts.of_star (h : Accepts star any (star :: pattern) text) :
    ∃ rest, rest <:+ text ∧ Accepts star any pattern rest := by
  cases text with
  | nil => exact ⟨[], List.suffix_refl _, accepts_nil.mpr fun d hd => accepts_nil.mp h d (List.mem_cons_of_mem _ hd)⟩
  | cons c rest =>
    by_cases hread : star = any ∨ star = c
    · exact ⟨rest, List.suffix_cons c rest, (accepts_read hread).mp h⟩
    · exact (accepts_star hread).mp h

/-! ### Read symbol by symbol -/

/-- A piece of the pattern was read off a piece of the text, one symbol for one. -/
abbrev Reads (any : α) (piece read : List α) : Prop := List.Forall₂ (fun d c => d = any ∨ d = c) piece read

theorem Reads.accepts {piece read : List α} (h : Reads any piece read) :
    Accepts star any (piece ++ pattern) (read ++ text) ↔ Accepts star any pattern text := by
  induction h with
  | nil => exact Iff.rfl
  | cons hd _ ih => exact (accepts_read hd).trans ih

/-- **Nothing is lost by going on.** If a piece can be read where the search stands, then
whatever is found from there or from further on, with the piece before it, is found behind
it. So a search never has to go back before the last `star` it met. -/
theorem Reads.commits {piece read : List α} (h : Reads any piece read) {start : List α}
    (hfrom : start <:+ read ++ text) (ha : Accepts star any (piece ++ pattern) start) :
    ∃ rest, rest <:+ text ∧ Accepts star any pattern rest := by
  induction h generalizing start with
  | nil => exact ⟨start, hfrom, ha⟩
  | @cons d c piece read hd hrest ih =>
    rw [List.cons_append] at hfrom ha
    rcases List.suffix_cons_iff.mp hfrom with rfl | hlater
    · exact ih (List.suffix_refl _) ((accepts_read hd).mp ha)
    · cases start with
      | nil =>
        refine ⟨[], List.nil_suffix, accepts_nil.mpr fun e he => accepts_nil.mp ha e ?_⟩
        exact List.mem_cons_of_mem d (List.mem_append_right piece he)
      | cons c' start =>
        by_cases hread : d = any ∨ d = c'
        · exact ih ((List.suffix_cons c' start).trans hlater) ((accepts_read hread).mp ha)
        · by_cases hstar : d = star
          · subst hstar
            obtain ⟨later, hsuffix, hl⟩ := (accepts_star hread).mp ha
            exact ih (hsuffix.trans hlater) hl
          · exact absurd ha (not_accepts hread hstar)

/-! ### The two readings -/

theorem matches_iff_pieces :
    Matches star any pattern text ↔
      ∃ pieces, List.Forall₂ (Stands star any) pattern pieces ∧ pieces.flatten = text := by
  constructor
  · intro h
    induction pattern generalizing text with
    | nil =>
      obtain rfl : text = [] := h
      exact ⟨[], .nil, rfl⟩
    | cons d pattern ih =>
      by_cases hd : d = star
      · subst hd
        obtain ⟨rest, ⟨skipped, rfl⟩, hrest⟩ := matches_star.mp h
        obtain ⟨pieces, hpieces, rfl⟩ := ih hrest
        exact ⟨skipped :: pieces, .cons (.inl rfl) hpieces, rfl⟩
      · cases text with
        | nil => exact absurd (matches_nil.mp h d List.mem_cons_self) hd
        | cons c rest =>
          obtain ⟨hread, hrest⟩ := (matches_cons hd).mp h
          obtain ⟨pieces, hpieces, rfl⟩ := ih hrest
          exact ⟨[c] :: pieces, .cons (.inr ⟨c, rfl, hread⟩) hpieces, rfl⟩
  · rintro ⟨pieces, hpieces, rfl⟩
    induction hpieces with
    | nil => rfl
    | @cons d piece pattern pieces hd _ ih =>
      by_cases hstar : d = star
      · subst hstar
        exact matches_star.mpr ⟨pieces.flatten, List.suffix_append .., ih⟩
      · obtain ⟨c, rfl, hread⟩ := hd.resolve_left hstar
        exact (matches_cons hstar).mpr ⟨hread, ih⟩

theorem Accepts.pieces (hne : any ≠ star) (h : Accepts star any pattern text) :
    ∃ pieces, List.Forall₂ (Stands star any) pattern pieces ∧ Literal star pattern pieces ∧
      pieces.flatten = text := by
  induction pattern generalizing text with
  | nil =>
    cases text with
    | nil => exact ⟨[], .nil, trivial, rfl⟩
    | cons c rest => exact absurd h id
  | cons d pattern ih =>
    cases text with
    | nil =>
      obtain ⟨hd, hpattern⟩ := List.forall_mem_cons.mp (accepts_nil.mp h)
      obtain ⟨pieces, hpieces, hliteral, hflat⟩ := ih (accepts_nil.mpr hpattern)
      exact ⟨[] :: pieces, .cons (.inl hd) hpieces, ⟨fun _ hhead => by simp [hflat] at hhead, hliteral⟩, hflat⟩
    | cons c rest =>
      by_cases hread : d = any ∨ d = c
      · obtain ⟨pieces, hpieces, hliteral, rfl⟩ := ih ((accepts_read hread).mp h)
        refine ⟨[c] :: pieces, .cons (.inr ⟨c, rfl, hread⟩) hpieces, ⟨fun hd _ => ?_, hliteral⟩, rfl⟩
        rw [← hread.resolve_left fun hany => hne (hany.symm.trans hd), hd]
      · by_cases hd : d = star
        · subst hd
          obtain ⟨later, ⟨skipped, hskipped⟩, ha⟩ := (accepts_star hread).mp h
          obtain ⟨pieces, hpieces, hliteral, rfl⟩ := ih ha
          refine ⟨skipped :: pieces, .cons (.inl rfl) hpieces, ⟨fun _ hhead => ?_, hliteral⟩, hskipped⟩
          rw [hskipped, List.head?_cons, Option.some.injEq] at hhead
          exact absurd (.inr hhead.symm) hread
        · exact absurd h (not_accepts hread hd)

/-- A `star` in front, which may stand for anything unless it comes to stand at a `star`. -/
theorem Accepts.star_append (hne : any ≠ star) {piece : List α} (h : Accepts star any pattern text)
    (hpiece : (piece ++ text).head? = some star → piece = [star]) :
    Accepts star any (star :: pattern) (piece ++ text) := by
  cases htext : piece ++ text with
  | nil =>
    rw [(List.append_eq_nil_iff.mp htext).2] at h
    exact accepts_nil.mpr (List.forall_mem_cons.mpr ⟨rfl, accepts_nil.mp h⟩)
  | cons c rest =>
    by_cases hc : star = c
    · -- the symbol is read, and what it stands for is no more than that
      obtain rfl := hpiece (by rw [htext, hc]; rfl)
      rw [← htext]
      exact (accepts_read (.inr rfl)).mpr h
    · rw [accepts_star (not_or.mpr ⟨hne.symm, hc⟩), ← htext]
      exact ⟨text, List.suffix_append .., h⟩

/-- **What is accepted**, in terms of what the symbols stand for. -/
theorem accepts_iff_pieces (hne : any ≠ star) :
    Accepts star any pattern text ↔
      ∃ pieces, List.Forall₂ (Stands star any) pattern pieces ∧ Literal star pattern pieces ∧
        pieces.flatten = text := by
  refine ⟨Accepts.pieces hne, ?_⟩
  rintro ⟨pieces, hpieces, hliteral, rfl⟩
  induction hpieces with
  | nil => exact accepts_nil.mpr fun _ hd => absurd hd List.not_mem_nil
  | @cons d piece pattern pieces hd _ ih =>
    obtain ⟨hpiece, hrest⟩ := hliteral
    by_cases hstar : d = star
    · subst hstar
      exact (ih hrest).star_append hne (hpiece rfl)
    · obtain ⟨c, rfl, hread⟩ := hd.resolve_left hstar
      exact (accepts_read hread).mpr (ih hrest)

/-- What is accepted matches. -/
theorem Accepts.matches (hne : any ≠ star) (h : Accepts star any pattern text) : Matches star any pattern text := by
  obtain ⟨pieces, hpieces, -, hflat⟩ := (accepts_iff_pieces hne).mp h
  exact matches_iff_pieces.mpr ⟨pieces, hpieces, hflat⟩

omit [DecidableEq α] in
/-- No `star` of the pattern comes to stand at one of the text if that has none. -/
theorem literal_of_notMem {pieces : List (List α)} (h : star ∉ pieces.flatten) : Literal star pattern pieces := by
  induction pattern generalizing pieces with
  | nil => trivial
  | cons d pattern ih =>
    cases pieces with
    | nil => trivial
    | cons piece pieces =>
      refine ⟨fun _ hhead => absurd (List.mem_of_mem_head? hhead) h, ih fun hmem => h ?_⟩
      exact List.mem_append_right piece hmem

theorem accepts_iff_matches (hne : any ≠ star) (h : star ∉ text) :
    Accepts star any pattern text ↔ Matches star any pattern text := by
  refine ⟨fun ha => ha.matches hne, fun hm => ?_⟩
  obtain ⟨pieces, hpieces, rfl⟩ := matches_iff_pieces.mp hm
  exact (accepts_iff_pieces hne).mpr ⟨pieces, hpieces, literal_of_notMem h, rfl⟩

/-- A single `star` accepts what does not begin with one, and itself. -/
theorem accepts_singleton (hne : any ≠ star) :
    Accepts star any [star] text ↔ (text.head? = some star → text = [star]) := by
  rw [accepts_iff_pieces hne]
  constructor
  · rintro ⟨pieces, hpieces, hliteral, rfl⟩
    cases hpieces with
    | @cons _ piece _ _ _ hnil =>
      cases hnil
      have hpiece := hliteral.1 rfl
      simpa using hpiece
  · intro h
    refine ⟨[text], .cons (.inl rfl) .nil, ⟨fun _ hhead => h ?_, trivial⟩, by simp⟩
    simpa using hhead

end

end Wildcard
