import GoRedis.Resp.RoundTrip

/-! Inline lines.

A person at a terminal types a command as words on a line. However the words are spaced, the
line is parsed as the command that the array of the words is parsed as. A carriage return is
spacing as well, so it makes no difference that the parser takes one off before a line feed. -/
namespace GoRedis.CommandParser
open Incremental

/-! ### Words -/

/-- Something the parser takes as one word. -/
structure Token (s : Bytes) : Prop where
  nonempty : s ≠ []
  unspaced : ∀ c ∈ s, isSpace c = false

instance (s : Bytes) : Decidable (Token s) :=
  decidable_of_iff (0 < s.length ∧ s.all (fun c => !isSpace c) = true)
    ⟨fun h => ⟨List.ne_nil_of_length_pos h.1, by simpa using h.2⟩,
      fun h => ⟨List.length_pos_of_ne_nil h.nonempty, by simpa using h.unspaced⟩⟩

theorem splitArgs_of_dropWhile {line rest : Bytes} {c : UInt8} (h : line.dropWhile isSpace = c :: rest) :
    splitArgs line = (c :: rest.takeWhile (!isSpace ·)) :: splitArgs (rest.dropWhile (!isSpace ·)) := by
  rw [splitArgs]
  split
  · next hnil => rw [h] at hnil; cases hnil
  · next hcons =>
    rw [h] at hcons
    cases hcons
    rfl

/-- The first word is taken off: spacing before it, and spacing or nothing behind it. -/
theorem splitArgs_word {gap token rest : Bytes} (hgap : Blank gap) (htoken : Token token)
    (hrest : ∀ c ∈ rest.head?, isSpace c = true) : splitArgs (gap ++ (token ++ rest)) = token :: splitArgs rest := by
  obtain ⟨c, tail, rfl⟩ := List.exists_cons_of_ne_nil htoken.nonempty
  obtain ⟨hc, htail⟩ := List.forall_mem_cons.mp htoken.unspaced
  have hword : ∀ d ∈ tail, (!isSpace d) = true := fun d hd => by rw [htail d hd]; rfl
  have hstart : (gap ++ (c :: tail ++ rest)).dropWhile isSpace = c :: (tail ++ rest) := by
    rw [List.dropWhile_append_of_pos hgap, List.cons_append, List.dropWhile_cons_of_neg (by simp [hc])]
  have hstop : rest.takeWhile (!isSpace ·) = [] ∧ rest.dropWhile (!isSpace ·) = rest := by
    cases rest with
    | nil => exact ⟨rfl, rfl⟩
    | cons d rest => simp [hrest d rfl]
  rw [splitArgs_of_dropWhile hstart, List.takeWhile_append_of_pos hword, List.dropWhile_append_of_pos hword, hstop.1,
    hstop.2, List.append_nil]

/-- Spacing at the end makes no difference. -/
theorem splitArgs_concat {c : UInt8} (hc : isSpace c = true) (line : Bytes) :
    splitArgs (line ++ [c]) = splitArgs line := by
  fun_induction splitArgs line with
  | case1 line hblank =>
    rw [splitArgs_eq_nil]
    intro d hd
    rcases List.mem_append.mp hd with hd | hd
    · exact List.dropWhile_eq_nil_iff.mp hblank d hd
    · rwa [List.mem_singleton.mp hd]
  | case2 line d rest hword ih =>
    have hmore : (line ++ [c]).dropWhile isSpace = d :: (rest ++ [c]) := by
      rw [List.dropWhile_append, hword]
      rfl
    have htake : (rest ++ [c]).takeWhile (!isSpace ·) = rest.takeWhile (!isSpace ·) := by
      rw [List.takeWhile_append]
      split
      · next hall =>
        rw [List.takeWhile_cons_of_neg (by simp [hc]), List.append_nil]
        exact ((List.takeWhile_prefix _).eq_of_length hall).symm
      · rfl
    have hdrop : (rest ++ [c]).dropWhile (!isSpace ·) = rest.dropWhile (!isSpace ·) ++ [c] := by
      rw [List.dropWhile_append]
      split
      · next hnil =>
        rw [List.dropWhile_cons_of_neg (by simp [hc]), List.isEmpty_iff.mp hnil, List.nil_append]
      · rfl
    rw [splitArgs_of_dropWhile hmore, htake, hdrop, ih]

theorem splitArgs_chomp (line : Bytes) : splitArgs (chomp line) = splitArgs line := by
  unfold chomp
  split
  · next hlast =>
    obtain ⟨front, rfl⟩ := List.getLast?_eq_some_iff.mp hlast
    rw [List.dropLast_concat, splitArgs_concat (by decide)]
  · rfl

/-! ### Lines -/

/-- A line of 1 to 1024 words, each with the spacing before it, and the spacing after the last
one. Only the first word can have none before it. -/
structure InlineLine where
  words : List (Bytes × Bytes)
  trail : Bytes
  nonempty : 0 < words.length
  count : (words.length : Int) ≤ kMaxArgs
  gaps : ∀ word ∈ words, Blank word.1 ∧ 10 ∉ word.1
  tokens : ∀ word ∈ words, Token word.2
  apart : ∀ word ∈ words.tail, word.1 ≠ []
  ending : Blank trail ∧ 10 ∉ trail

/-- Words and the spacing around them. -/
def spaced (words : List (Bytes × Bytes)) (trail : Bytes) : Bytes :=
  words.flatMap (fun word => word.1 ++ word.2) ++ trail

def InlineLine.text (l : InlineLine) : Bytes := spaced l.words l.trail

def InlineLine.args (l : InlineLine) : List Bytes := l.words.map Prod.snd

theorem spaced_cons (word : Bytes × Bytes) (words : List (Bytes × Bytes)) (trail : Bytes) :
    spaced (word :: words) trail = word.1 ++ (word.2 ++ spaced words trail) := by
  simp [spaced]

/-- What follows a word starts with spacing, if there is anything. -/
theorem spaced_head {words : List (Bytes × Bytes)} {trail : Bytes} (hgaps : ∀ word ∈ words, Blank word.1)
    (hapart : ∀ word ∈ words, word.1 ≠ []) (htrail : Blank trail) :
    ∀ c ∈ (spaced words trail).head?, isSpace c = true := by
  intro c hc
  cases words with
  | nil => exact htrail c (List.mem_of_mem_head? hc)
  | cons word words =>
    rw [spaced_cons, List.head?_append_of_ne_nil _ (hapart word List.mem_cons_self)] at hc
    exact hgaps word List.mem_cons_self c (List.mem_of_mem_head? hc)

/-- The words of a line are found again. -/
theorem splitArgs_spaced {words : List (Bytes × Bytes)} {trail : Bytes} (hgaps : ∀ word ∈ words, Blank word.1)
    (htokens : ∀ word ∈ words, Token word.2) (hapart : ∀ word ∈ words.tail, word.1 ≠ []) (htrail : Blank trail) :
    splitArgs (spaced words trail) = words.map Prod.snd := by
  induction words with
  | nil => exact (splitArgs_eq_nil _).mpr htrail
  | cons word words ih =>
    obtain ⟨hgap, hgaps⟩ := List.forall_mem_cons.mp hgaps
    obtain ⟨htoken, htokens⟩ := List.forall_mem_cons.mp htokens
    rw [spaced_cons, splitArgs_word hgap htoken (spaced_head hgaps hapart htrail), List.map_cons,
      ih hgaps htokens fun w hw => hapart w (List.mem_of_mem_tail hw)]

namespace InlineLine
variable (l : InlineLine)

theorem splitArgs_text : splitArgs l.text = l.args :=
  splitArgs_spaced (fun word hword => (l.gaps word hword).1) l.tokens l.apart l.ending.1

theorem newline_notMem : 10 ∉ l.text := by
  intro hmem
  rcases List.mem_append.mp hmem with hmem | hmem
  · obtain ⟨word, hword, hc⟩ := List.mem_flatMap.mp hmem
    rcases List.mem_append.mp hc with hc | hc
    · exact (l.gaps word hword).2 hc
    · exact absurd ((l.tokens word hword).unspaced 10 hc) (by decide)
  · exact l.ending.2 hmem

theorem args_ne_nil : l.args ≠ [] := by
  rw [InlineLine.args, ne_eq, List.map_eq_nil_iff]
  exact List.ne_nil_of_length_pos l.nonempty

/-- A line, whatever carriage returns there are before its line feed. -/
theorem parse_line {line : Bytes} (hline : 10 ∉ line) (hargs : splitArgs line = l.args) (suffix : Bytes) :
    tryParseInline (line ++ 10 :: suffix) = (suffix, .complete l.args) := by
  have hwords : ¬Blank line := fun hblank => l.args_ne_nil (hargs.symm.trans ((splitArgs_eq_nil line).mpr hblank))
  rw [tryParseInline_words hline hwords, splitArgs_chomp, hargs]

theorem text_ne_nil : l.text ≠ [] := by
  intro hnil
  have hargs := l.splitArgs_text
  rw [hnil, (splitArgs_eq_nil []).mpr fun _ hc => absurd hc List.not_mem_nil] at hargs
  exact l.args_ne_nil hargs.symm

/-- A word is no longer than its line. -/
theorem arg_length {arg : Bytes} (h : arg ∈ l.args) : arg.length ≤ l.text.length := by
  obtain ⟨word, hword, rfl⟩ := List.mem_map.mp h
  have hpart : word.1 ++ word.2 <:+: l.words.flatMap fun word => word.1 ++ word.2 :=
    List.infix_of_mem_flatten (List.mem_map_of_mem hword)
  have hle := hpart.length_le
  simp only [text, spaced, List.length_append] at hle ⊢
  omega

theorem loggable (hlength : (l.text.length : Int) < kMaxBulkLen) : Loggable l.args := by
  have hcount : l.args.length = l.words.length := List.length_map _
  refine ⟨by rw [hcount]; exact l.nonempty, by rw [hcount]; exact l.count, fun arg harg => ?_⟩
  have hle := l.arg_length harg
  omega

end InlineLine

/-- **Inline lines and arrays agree.** A line that does not start with a `*` and is not too
long, ended by a line feed with or without a carriage return, is parsed as its words, as the
array of the words is, and what follows it is left in the buffer. -/
theorem inline_multibulk_agree (l : InlineLine) (hstar : l.text.head? ≠ some 42)
    (hlength : (l.text.length : Int) < kMaxBulkLen) {eol : Bytes} (heol : eol = [10] ∨ eol = crlf) (suffix : Bytes) :
    tryParseCommand (l.text ++ eol ++ suffix) = (suffix, .complete l.args) ∧
      tryParseCommand (encodeCommand l.args ++ suffix) = (suffix, .complete l.args) := by
  refine ⟨?_, (l.loggable hlength).parse suffix⟩
  have hhead : (l.text ++ eol ++ suffix).head? = l.text.head? := by
    rw [List.append_assoc, List.head?_append_of_ne_nil _ l.text_ne_nil]
  have hne : l.text ++ eol ++ suffix ≠ [] := fun hnil =>
    l.text_ne_nil (List.append_eq_nil_iff.mp (List.append_eq_nil_iff.mp hnil).1).1
  rw [tryParseCommand_inline hne (by rwa [hhead])]
  rcases heol with rfl | rfl
  · rw [List.append_assoc]
    exact l.parse_line l.newline_notMem l.splitArgs_text suffix
  · have hline : 10 ∉ l.text ++ [13] := by simp [l.newline_notMem]
    have hargs : splitArgs (l.text ++ [13]) = l.args := by
      rw [splitArgs_concat (by decide), l.splitArgs_text]
    have hparse := l.parse_line hline hargs suffix
    simpa [crlf] using hparse

/-- `SET k v`, with a tab and a carriage return for spacing, and another request behind it. -/
theorem inline_multibulk_agree_set :
    let l : InlineLine :=
      { words := [([32], ascii "SET"), ([9, 13], ascii "k"), ([32], ascii "v")]
        trail := [13, 32, 13]
        nonempty := by decide
        count := by decide
        gaps := by decide +kernel
        tokens := by decide +kernel
        apart := by decide
        ending := by decide +kernel }
    l.text.head? ≠ some 42 ∧
      tryParseCommand (l.text ++ crlf ++ ascii "PING\r\n") =
        (ascii "PING\r\n", .complete [ascii "SET", ascii "k", ascii "v"]) := by
  intro l
  have hstar : l.text.head? ≠ some 42 := by decide
  have hlength : (l.text.length : Int) < kMaxBulkLen := by decide
  exact ⟨hstar, (inline_multibulk_agree l hstar hlength (.inr rfl) (ascii "PING\r\n")).1⟩

end GoRedis.CommandParser
