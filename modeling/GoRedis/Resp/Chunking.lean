import GoRedis.Resp.Grammar
import Mathlib.Data.List.TakeWhile

/-! How the bytes of a connection are cut into chunks.

`HandleClient` appends what `recv` returns to the buffer and drains it. A request that is
complete, or malformed, stays so when more bytes arrive; the one place where the parser
looks at what has not arrived yet is a blank inline line, after which it goes on reading
lines without looking at the next byte again. A request array that directly follows a
blank line is then read line by line if it is in the same chunk, and as an array if it is
in the next one. On streams without that (`Clean`) the cuts do not matter. -/
namespace GoRedis.CommandParser
open Incremental

variable {b b' c : Bytes}

/-! ### Lines -/

/-- A line of nothing but blanks. -/
def Blank (line : Bytes) : Prop := ∀ c ∈ line, isSpace c = true

instance (line : Bytes) : Decidable (Blank line) :=
  inferInstanceAs (Decidable (∀ c ∈ line, isSpace c = true))

theorem splitArgs_eq_nil (line : Bytes) : splitArgs line = [] ↔ Blank line := by
  unfold splitArgs
  split
  · next h => exact ⟨fun _ => List.dropWhile_eq_nil_iff.mp h, fun _ => rfl⟩
  · next c rest h =>
    refine ⟨fun hnil => absurd hnil (List.cons_ne_nil _ _), fun hblank => ?_⟩
    rw [List.dropWhile_eq_nil_iff.mpr hblank] at h
    cases h

theorem blank_chomp (line : Bytes) : Blank (chomp line) ↔ Blank line := by
  unfold chomp
  split
  · next hlast =>
    obtain ⟨front, rfl⟩ := List.getLast?_eq_some_iff.mp hlast
    rw [List.dropLast_concat]
    constructor
    · intro h c hc
      rcases List.mem_append.mp hc with hc | hc
      · exact h c hc
      · rw [List.mem_singleton.mp hc]
        decide
    · exact fun h c hc => h c (List.mem_append_left _ hc)
  · rfl

theorem tryParseInline_none (h : 10 ∉ b) : tryParseInline b =
    if (b.length : Int) > kMaxBulkLen then (b, .error (ascii "inline command too long"))
    else (b, .incomplete) := by
  rw [tryParseInline]
  split
  · rfl
  · next hsplit =>
    rw [splitLine_none.mpr h] at hsplit
    cases hsplit

theorem tryParseInline_blank {line rest : Bytes} (hline : 10 ∉ line) (h : Blank line) :
    tryParseInline (line ++ 10 :: rest) = tryParseInline rest := by
  have hargs := (splitArgs_eq_nil _).mpr ((blank_chomp line).mpr h)
  rw [tryParseInline]
  split
  · next hsplit =>
    rw [splitLine_newline hline] at hsplit
    cases hsplit
  · next hsplit =>
    rw [splitLine_newline hline] at hsplit
    cases hsplit
    rw [hargs]

theorem tryParseInline_words {line rest : Bytes} (hline : 10 ∉ line) (h : ¬Blank line) :
    tryParseInline (line ++ 10 :: rest) = (rest, .complete (splitArgs (chomp line))) := by
  have hargs : splitArgs (chomp line) ≠ [] :=
    fun hnil => h ((blank_chomp line).mp ((splitArgs_eq_nil _).mp hnil))
  rw [tryParseInline]
  split
  · next hsplit =>
    rw [splitLine_newline hline] at hsplit
    cases hsplit
  · next hsplit =>
    rw [splitLine_newline hline] at hsplit
    cases hsplit
    split
    · next hnil => exact absurd hnil hargs
    · rfl

/-- Induction along the lines of a buffer: one without a line break, or a first line and
the rest. -/
theorem lineInduction {motive : Bytes → Prop} (b : Bytes) (last : ∀ b, 10 ∉ b → motive b)
    (next : ∀ line rest, 10 ∉ line → motive rest → motive (line ++ 10 :: rest)) : motive b := by
  induction hn : b.length using Nat.strongRecOn generalizing b with
  | ind n ih =>
  subst hn
  by_cases h : 10 ∈ b
  · obtain ⟨line, rest, rfl, hline⟩ := List.eq_append_cons_of_mem h
    refine next line rest hline (ih rest.length ?_ rest rfl)
    rw [List.length_append, List.length_cons]
    omega
  · exact last b h

theorem tryParseInline_length (b : Bytes) : (tryParseInline b).1.length ≤ b.length := by
  induction b using lineInduction with
  | last b h =>
    rw [tryParseInline_none h]
    split <;> exact Nat.le_refl _
  | next line rest hline ih =>
    rw [List.length_append, List.length_cons]
    by_cases hblank : Blank line
    · rw [tryParseInline_blank hline hblank]
      omega
    · rw [tryParseInline_words hline hblank]
      dsimp only
      omega

theorem tryParseInline_shrinks {args : List Bytes} (h : tryParseInline b = (b', .complete args)) :
    b'.length < b.length := by
  by_cases hb : 10 ∈ b
  · obtain ⟨line, rest, rfl, hline⟩ := List.eq_append_cons_of_mem hb
    have hle := tryParseInline_length rest
    rw [List.length_append, List.length_cons]
    by_cases hblank : Blank line
    · rw [tryParseInline_blank hline hblank] at h
      rw [h] at hle
      dsimp only at hle
      omega
    · rw [tryParseInline_words hline hblank] at h
      cases h
      omega
  · rw [tryParseInline_none hb] at h
    split at h <;> cases h

/-- An inline command stays complete. -/
theorem tryParseInline_complete {args : List Bytes} (h : tryParseInline b = (b', .complete args))
    (c : Bytes) : tryParseInline (b ++ c) = (b' ++ c, .complete args) := by
  induction b using lineInduction with
  | last b hb =>
    rw [tryParseInline_none hb] at h
    split at h <;> cases h
  | next line rest hline ih =>
    rw [List.append_assoc, List.cons_append]
    by_cases hblank : Blank line
    · rw [tryParseInline_blank hline hblank] at h ⊢
      exact ih h
    · rw [tryParseInline_words hline hblank] at h ⊢
      cases h
      rfl

/-- Skipping the blank lines that have arrived, and then going on, skips the same lines. -/
theorem tryParseInline_wait (h : tryParseInline b = (b', .incomplete)) (c : Bytes) :
    tryParseInline (b ++ c) = tryParseInline (b' ++ c) := by
  induction b using lineInduction with
  | last b hb =>
    rw [tryParseInline_none hb] at h
    split at h
    · cases h
    · cases h
      rfl
  | next line rest hline ih =>
    by_cases hblank : Blank line
    · rw [List.append_assoc, List.cons_append, tryParseInline_blank hline hblank]
      rw [tryParseInline_blank hline hblank] at h
      exact ih h
    · rw [tryParseInline_words hline hblank] at h
      cases h

/-! ### Where requests begin -/

theorem Blank.head_ne {line rest : Bytes} (h : Blank line) : (line ++ 10 :: rest).head? ≠ some 42 := by
  cases line with
  | nil => exact fun heq => absurd (Option.some.inj heq) (by decide)
  | cons d line =>
    intro heq
    have hd : d = 42 := Option.some.inj heq
    have hspace := h d List.mem_cons_self
    rw [hd] at hspace
    exact absurd hspace (by decide)

/-- From one request of a stream to what follows it: a request array, or an inline line. -/
inductive Next : Bytes → Bytes → Prop where
  | multibulk {args : List Bytes} {raw : Bytes} (h : Multibulk args raw) (rest : Bytes) :
    Next (raw ++ rest) rest
  | line {line : Bytes} (hline : 10 ∉ line) (rest : Bytes)
    (hstar : (line ++ 10 :: rest).head? ≠ some 42) : Next (line ++ 10 :: rest) rest

/-- `r` is what is left of the stream at the start of some request. -/
abbrev Boundary : Bytes → Bytes → Prop := Relation.ReflTransGen Next

/-- A blank line, and directly after it a line that starts with `*`. -/
def Hazard (r : Bytes) : Prop :=
  ∃ line rest, r = line ++ 10 :: rest ∧ 10 ∉ line ∧ Blank line ∧ rest.head? = some 42 ∧ 10 ∈ rest

/-- No request of the stream is a blank line with a line that starts with `*` after it. -/
def Clean (stream : Bytes) : Prop := ∀ r, Boundary stream r → ¬Hazard r

/-- A clean stream whose inline lines are not too long. -/
def Steady (stream : Bytes) : Prop :=
  ∀ r, Boundary stream r → ¬Hazard r ∧ (r.head? ≠ some 42 → (r.length : Int) ≤ kMaxBulkLen)

theorem Multibulk.head {args : List Bytes} {raw : Bytes} (h : Multibulk args raw) (rest : Bytes) :
    (raw ++ rest).head? = some 42 := by
  obtain ⟨count, raws, -, -, rfl⟩ := h.shape
  rfl

theorem Next.inv {r r' : Bytes} (h : Next r r') :
    (∃ args raw, Multibulk args raw ∧ r = raw ++ r') ∨
      ∃ line, 10 ∉ line ∧ r = line ++ 10 :: r' ∧ r.head? ≠ some 42 := by
  cases h with
  | multibulk h => exact .inl ⟨_, _, h, rfl⟩
  | line hline _ hstar => exact .inr ⟨_, hline, rfl, hstar⟩

/-- Where the next request begins is determined by the stream. -/
theorem Next.unique {r s s' : Bytes} (h : Next r s) (h' : Next r s') : s = s' := by
  rcases h.inv with ⟨args, raw, hraw, rfl⟩ | ⟨line, hline, rfl, hstar⟩
  · rcases h'.inv with ⟨args', raw', hraw', heq⟩ | ⟨line', -, -, hstar'⟩
    · have hp := tryParseMultibulk_multibulk hraw s
      rw [heq, tryParseMultibulk_multibulk hraw' s'] at hp
      exact (congrArg Prod.fst hp).symm
    · exact absurd (hraw.head s) hstar'
  · rcases h'.inv with ⟨args', raw', hraw', heq⟩ | ⟨line', hline', heq, -⟩
    · exact absurd (heq ▸ hraw'.head s') hstar
    · have hp := splitLine_newline hline s
      rw [heq, splitLine_newline hline' s'] at hp
      exact (congrArg Prod.snd (Option.some.inj hp)).symm

/-- A property of all requests of a stream, from the first one on. -/
theorem forall_boundary {P : Bytes → Prop} {r r' : Bytes} (hr : P r) (hnext : Next r r')
    (h : ∀ s, Boundary r' s → P s) : ∀ s, Boundary r s → P s := by
  intro s hs
  rcases Relation.ReflTransGen.cases_head hs with rfl | ⟨r'', hr'', hs⟩
  · exact hr
  · exact h s (hnext.unique hr'' ▸ hs)

/-- A stream with no whole request in it has only one place where a request begins. -/
theorem forall_boundary_last {P : Bytes → Prop} {r : Bytes} (hr : P r) (hlast : ∀ r', ¬Next r r') :
    ∀ s, Boundary r s → P s := by
  intro s hs
  rcases Relation.ReflTransGen.cases_head hs with rfl | ⟨r', hr', -⟩
  · exact hr
  · exact absurd hr' (hlast r')

theorem not_next_nil (r' : Bytes) : ¬Next [] r' := by
  intro h
  rcases h.inv with ⟨args, raw, hraw, heq⟩ | ⟨line, -, heq, -⟩
  · have hhead := hraw.head r'
    rw [← heq] at hhead
    cases hhead
  · simp at heq

theorem not_hazard_star {r : Bytes} (h : r.head? = some 42) : ¬Hazard r := by
  rintro ⟨line, rest, rfl, -, hblank, -⟩
  exact hblank.head_ne h

theorem not_hazard_words {line rest : Bytes} (hline : 10 ∉ line) (h : ¬Blank line) :
    ¬Hazard (line ++ 10 :: rest) := by
  rintro ⟨line', rest', heq, hline', hblank, -⟩
  have hp := splitLine_newline hline rest
  rw [heq, splitLine_newline hline' rest'] at hp
  obtain ⟨rfl, -⟩ := Prod.mk.inj (Option.some.inj hp)
  exact h hblank

theorem not_hazard_nil : ¬Hazard [] := by
  rintro ⟨line, rest, heq, -⟩
  simp at heq

theorem Steady.reach (h : Steady b) (hb : Boundary b b') : Steady b' :=
  fun r hr => h r (hb.trans hr)

theorem Next.length {r r' : Bytes} (h : Next r r') : r'.length ≤ r.length := by
  cases h with
  | multibulk h rest => rw [List.length_append]; omega
  | line hline rest hstar => rw [List.length_append, List.length_cons]; omega

theorem boundary_length {stream r : Bytes} (h : Boundary stream r) : r.length ≤ stream.length := by
  induction h with
  | refl => exact Nat.le_refl _
  | tail _ hnext ih => exact Nat.le_trans hnext.length ih

theorem Clean.steady {stream : Bytes} (h : Clean stream)
    (hlen : (stream.length : Int) ≤ kMaxBulkLen) : Steady stream := by
  intro r hr
  have hle := boundary_length hr
  exact ⟨h r hr, fun _ => by omega⟩

/-- The lines an inline command consumes are requests of their own. -/
theorem inline_boundary {args : List Bytes} (h : Steady (b ++ c)) (hstar : b.head? ≠ some 42)
    (hp : tryParseInline b = (b', .complete args)) : Boundary (b ++ c) (b' ++ c) := by
  induction b using lineInduction with
  | last b hb =>
    rw [tryParseInline_none hb] at hp
    split at hp <;> cases hp
  | next line rest hline ih =>
    have hstar' : (line ++ 10 :: (rest ++ c)).head? ≠ some 42 := by
      cases line <;> exact hstar
    rw [List.append_assoc, List.cons_append] at h ⊢
    have hnext : Next (line ++ 10 :: (rest ++ c)) (rest ++ c) := .line hline _ hstar'
    by_cases hblank : Blank line
    · rw [tryParseInline_blank hline hblank] at hp
      have hmem : 10 ∈ rest := by
        by_contra hnot
        rw [tryParseInline_none hnot] at hp
        split at hp <;> cases hp
      have hrest : rest.head? ≠ some 42 := by
        intro hhead
        refine (h _ .refl).1 ⟨line, rest ++ c, rfl, hline, hblank, ?_, List.mem_append_left _ hmem⟩
        rw [List.head?_append, hhead]
        rfl
      exact .head hnext (ih (h.reach (.single hnext)) hrest hp)
    · rw [tryParseInline_words hline hblank] at hp
      cases hp
      exact .single hnext

/-- Where an inline attempt has to wait: where it began, or after blank lines at the start
of a request. -/
theorem inline_wait_boundary (h : Steady (b ++ c)) (hstar : b.head? ≠ some 42)
    (hp : tryParseInline b = (b', .incomplete)) :
    b' = b ∨ Boundary (b ++ c) (b' ++ c) ∧ ((b' ++ c).head? = some 42 → 10 ∉ b' ++ c) := by
  induction b using lineInduction with
  | last b hb =>
    rw [tryParseInline_none hb] at hp
    split at hp <;> cases hp
    exact .inl rfl
  | next line rest hline ih =>
    by_cases hblank : Blank line
    · right
      have hstar' : (line ++ 10 :: (rest ++ c)).head? ≠ some 42 := hblank.head_ne
      rw [List.append_assoc, List.cons_append] at h ⊢
      have hnext : Next (line ++ 10 :: (rest ++ c)) (rest ++ c) := .line hline _ hstar'
      rw [tryParseInline_blank hline hblank] at hp
      by_cases hrest : (rest ++ c).head? = some 42
      · -- the array after the blank line has no line break yet, so nothing is consumed
        have hnot : 10 ∉ rest ++ c := fun hmem =>
          (h _ .refl).1 ⟨line, rest ++ c, rfl, hline, hblank, hrest, hmem⟩
        rw [tryParseInline_none fun hmem => hnot (List.mem_append_left _ hmem)] at hp
        split at hp <;> cases hp
        exact ⟨.single hnext, fun _ => hnot⟩
      · have hhead : rest.head? ≠ some 42 := by
          intro heq
          rw [List.head?_append, heq] at hrest
          exact hrest rfl
        rcases ih (h.reach (.single hnext)) hhead hp with rfl | ⟨hreach, hline'⟩
        · exact ⟨.single hnext, fun heq => absurd heq hrest⟩
        · exact ⟨.head hnext hreach, hline'⟩
    · rw [tryParseInline_words hline hblank] at hp
      cases hp

/-! ### The read loop -/

theorem tryParseCommand_star (h : b.head? = some 42) : tryParseCommand b = tryParseMultibulk b := by
  cases b with
  | nil => cases h
  | cons d b => rw [tryParseCommand, if_pos (Option.some.inj h)]

theorem tryParseCommand_inline (hne : b ≠ []) (h : b.head? ≠ some 42) :
    tryParseCommand b = tryParseInline b := by
  cases b with
  | nil => exact absurd rfl hne
  | cons d b => rw [tryParseCommand, if_neg fun hd => h (by rw [hd]; rfl)]

/-- Both readings of a buffer agree when it is empty, or an array of which not even the
first line is there. -/
theorem tryParseCommand_waiting (h : b.head? = some 42 → 10 ∉ b) (hlen : (b.length : Int) ≤ kMaxBulkLen) :
    tryParseCommand b = tryParseInline b := by
  by_cases hne : b = []
  · subst hne
    rw [tryParseInline_none List.not_mem_nil, if_neg (by decide)]
    rfl
  · by_cases hstar : b.head? = some 42
    · rw [tryParseCommand_star hstar, tryParseInline_none (h hstar), if_neg (by omega), tryParseMultibulk,
        splitCrlf_none (h hstar)]
    · exact tryParseCommand_inline hne hstar

theorem tryParseInline_ne_error (hlen : (b.length : Int) ≤ kMaxBulkLen) (b' e : Bytes) :
    tryParseInline b ≠ (b', .error e) := by
  induction b using lineInduction with
  | last b hb =>
    rw [tryParseInline_none hb, if_neg (by omega)]
    exact fun h => by cases h
  | next line rest hline ih =>
    rw [List.length_append, List.length_cons] at hlen
    by_cases hblank : Blank line
    · rw [tryParseInline_blank hline hblank]
      exact ih (by omega)
    · rw [tryParseInline_words hline hblank]
      exact fun h => by cases h

theorem tryParseCommand_shrinks {args : List Bytes} (h : tryParseCommand b = (b', .complete args)) :
    b'.length < b.length := by
  by_cases hne : b = []
  · subst hne
    cases h
  · by_cases hstar : b.head? = some 42
    · rw [tryParseCommand_star hstar] at h
      obtain ⟨raw, rfl, hraw⟩ := multibulk_of_tryParseMultibulk hstar h
      obtain ⟨count, raws, -, -, rfl⟩ := hraw.shape
      simp
      omega
    · rw [tryParseCommand_inline hne hstar] at h
      exact tryParseInline_shrinks h

def parser : Parser UInt8 (List Bytes) Bytes := ⟨tryParseCommand, tryParseCommand_shrinks⟩

/-- `HandleClient`'s read loop on the chunks `recv` returns: the commands it dispatches,
what is left in the buffer, and the protocol error it closes the connection at. -/
def handleClient (chunks : List Bytes) : Session UInt8 (List Bytes) Bytes := parser.run chunks

/-- More bytes do not change which of the two forms a buffer is read as. -/
theorem tryParseCommand_form (b c : Bytes) : b = [] ∨
    (b.head? = some 42 ∧ tryParseCommand b = tryParseMultibulk b ∧
      tryParseCommand (b ++ c) = tryParseMultibulk (b ++ c)) ∨
    (b.head? ≠ some 42 ∧ (b ++ c).head? ≠ some 42 ∧ tryParseCommand b = tryParseInline b ∧
      tryParseCommand (b ++ c) = tryParseInline (b ++ c)) := by
  by_cases hne : b = []
  · exact .inl hne
  · have hhead : (b ++ c).head? = b.head? := List.head?_append_of_ne_nil _ hne
    by_cases hstar : b.head? = some 42
    · exact .inr (.inl ⟨hstar, tryParseCommand_star hstar, tryParseCommand_star (hhead.trans hstar)⟩)
    · have hstar' : (b ++ c).head? ≠ some 42 := hhead ▸ hstar
      exact .inr (.inr ⟨hstar, hstar', tryParseCommand_inline hne hstar,
        tryParseCommand_inline (by simp [hne]) hstar'⟩)

/-- On steady streams the parser never takes an answer back. -/
theorem parser_stable : parser.Stable Steady where
  empty := rfl
  complete := by
    intro b b' c args h hp
    change tryParseCommand b = _ at hp
    show tryParseCommand (b ++ c) = _ ∧ _
    rcases tryParseCommand_form b c with rfl | ⟨hstar, hb, hbc⟩ | ⟨hstar, -, hb, hbc⟩
    · cases hp
    · rw [hb] at hp
      rw [hbc]
      obtain ⟨raw, rfl, hraw⟩ := multibulk_of_tryParseMultibulk hstar hp
      rw [List.append_assoc] at h ⊢
      exact ⟨tryParseMultibulk_multibulk hraw _, h.reach (.single (.multibulk hraw _))⟩
    · rw [hb] at hp
      rw [hbc]
      exact ⟨tryParseInline_complete hp c, h.reach (inline_boundary h hstar hp)⟩
  error := by
    intro b b' c e h hp
    change tryParseCommand b = _ at hp
    show (tryParseCommand (b ++ c)).2 = _
    rcases tryParseCommand_form b c with rfl | ⟨-, hb, hbc⟩ | ⟨-, hstar', hb, -⟩
    · cases hp
    · rw [hb] at hp
      rw [hbc]
      exact tryParseMultibulk_error hp c
    · rw [hb] at hp
      -- the stream is too short for the one error there is
      have hlen := (h _ .refl).2 hstar'
      rw [List.length_append] at hlen
      exact absurd hp (tryParseInline_ne_error (by omega) b' e)
  wait := by
    intro b b' c h hp
    change tryParseCommand b = _ at hp
    show tryParseCommand (b ++ c) = tryParseCommand (b' ++ c) ∧ _
    rcases tryParseCommand_form b c with rfl | ⟨-, hb, -⟩ | ⟨hstar, hstar', hb, hbc⟩
    · cases hp
      exact ⟨rfl, h⟩
    · rw [hb] at hp
      rw [tryParseMultibulk_incomplete hp]
      exact ⟨rfl, h⟩
    · rw [hb] at hp
      rcases inline_wait_boundary h hstar hp with rfl | ⟨hreach, hnot⟩
      · exact ⟨rfl, h⟩
      · refine ⟨?_, h.reach hreach⟩
        have hlen := (h _ .refl).2 hstar'
        have hle := boundary_length hreach
        rw [hbc, tryParseInline_wait hp]
        exact (tryParseCommand_waiting hnot (by omega)).symm

/-- **How a stream is cut into chunks does not matter**, if it is clean: the same commands
are dispatched and the same protocol error is reported. -/
theorem handleClient_chunks (chunks chunks' : List Bytes) (h : chunks.flatten = chunks'.flatten)
    (hlen : (chunks.flatten.length : Int) < kMaxBulkLen) (hclean : Clean chunks.flatten) :
    (handleClient chunks).items = (handleClient chunks').items ∧
      (handleClient chunks).error = (handleClient chunks').error := by
  have hsteady := hclean.steady (Int.le_of_lt hlen)
  have hwhole := parser_stable.run_agree chunks hsteady
  have hwhole' := parser_stable.run_agree chunks' (h ▸ hsteady)
  rw [← h] at hwhole'
  exact ⟨hwhole.1.trans hwhole'.1.symm, hwhole.2.1.trans hwhole'.2.1.symm⟩

/-- An inline `PING` and one as an array, cut inside the array and not cut. -/
theorem handleClient_chunks_ping :
    let chunks := [ascii "PING\r\n*1\r\n$4", ascii "\r\nPING\r\n"]
    let whole := [ascii "PING\r\n*1\r\n$4\r\nPING\r\n"]
    (chunks.flatten = whole.flatten ∧ (chunks.flatten.length : Int) < kMaxBulkLen ∧ Clean chunks.flatten) ∧
      (handleClient chunks).items = (handleClient whole).items ∧
      (handleClient chunks).error = (handleClient whole).error := by
  intro chunks whole
  have hping : Multibulk [ascii "PING"] (ascii "*1\r\n$4\r\nPING\r\n" ++ []) :=
    ⟨by decide, by decide, ascii "1", ascii "$4\r\nPING\r\n" ++ [], by decide,
      .cons ⟨by decide, ascii "4", by decide, by decide⟩ .nil, by decide⟩
  have hclean : Clean (ascii "PING\r" ++ 10 :: (ascii "*1\r\n$4\r\nPING\r\n" ++ [])) := by
    refine forall_boundary (not_hazard_words (by decide) (by decide)) (.line (by decide) _ (by decide)) ?_
    refine forall_boundary (not_hazard_star (by decide)) (.multibulk hping []) ?_
    exact forall_boundary_last not_hazard_nil not_next_nil
  have hflat : chunks.flatten = whole.flatten := by decide
  have hlen : (chunks.flatten.length : Int) < kMaxBulkLen := by decide
  exact ⟨⟨hflat, hlen, hclean⟩, handleClient_chunks chunks whole hflat hlen hclean⟩

/-- A blank line and an array: in one chunk the array is read as three inline commands, in
two it is one `PING`. -/
theorem handleClient_blank_then_array :
    let whole := [ascii "\r\n*1\r\n$4\r\nPING\r\n"]
    let cut := [ascii "\r\n", ascii "*1\r\n$4\r\nPING\r\n"]
    whole.flatten = cut.flatten ∧ (whole.flatten.length : Int) < kMaxBulkLen ∧
      (handleClient whole).items = [[ascii "*1"], [ascii "$4"], [ascii "PING"]] ∧
      (handleClient cut).items = [[ascii "PING"]] := by
  decide +kernel

-- A stream that is not clean can still be read alike: here the array's payloads spell out
-- the lines the other reading takes for commands.
example : (handleClient [ascii "\n*01\r\n$3\r\n*01\r\n$3\r\nabc\r\n"]).items =
    (handleClient [ascii "\n", ascii "*01\r\n$3\r\n*01\r\n$3\r\nabc\r\n"]).items := by
  decide +kernel

end GoRedis.CommandParser
