import GoRedis.Resp.Decoder
import GoRedis.Resp.RoundTrip

/-! What the parser lets through.

A command is never empty, and a protocol error's text is one line. Only requests sent as
arrays are within the limits the parser has for arrays; these limits are what makes the
command's encoding in the log a request again. -/
namespace GoRedis.CommandParser
open Incremental

/-! ### Commands -/

theorem Bulks.sizes {args : List Bytes} {raws : Bytes} (h : Bulks args raws) :
    ∀ arg ∈ args, (arg.length : Int) ≤ kMaxBulkLen := by
  induction h with
  | nil => exact fun _ harg => absurd harg List.not_mem_nil
  | cons head _ ih => exact List.forall_mem_cons.mpr ⟨head.fits, ih⟩

theorem Multibulk.loggable {args : List Bytes} {raw : Bytes} (h : Multibulk args raw) : Loggable args := by
  obtain ⟨count, raws, -, hbulks, -⟩ := h.shape
  exact ⟨h.nonempty, h.fits, hbulks.sizes⟩

/-- A request sent as an array is within the limits. -/
theorem loggable_of_star {b b' : Bytes} {args : List Bytes} (hstar : b.head? = some 42)
    (h : tryParseCommand b = (b', .complete args)) : Loggable args := by
  rw [tryParseCommand_star hstar] at h
  obtain ⟨raw, -, hraw⟩ := multibulk_of_tryParseMultibulk hstar h
  exact hraw.loggable

theorem tryParseInline_ne_nil {b b' : Bytes} {args : List Bytes} (h : tryParseInline b = (b', .complete args)) :
    args ≠ [] := by
  fun_induction tryParseInline b with
  | case1 => cases h
  | case2 => cases h
  | case3 b line rest hsplit hblank ih => exact ih h
  | case4 b line rest hsplit hwords =>
    rw [← Status.complete.inj (Prod.mk.inj h).2]
    exact hwords

theorem tryParseCommand_ne_nil {b b' : Bytes} {args : List Bytes}
    (h : tryParseCommand b = (b', .complete args)) : args ≠ [] := by
  by_cases hstar : b.head? = some 42
  · exact List.ne_nil_of_length_pos (loggable_of_star hstar h).nonempty
  · cases b with
    | nil => cases h
    | cons c b =>
      rw [tryParseCommand, if_neg fun hc => hstar (congrArg some hc)] at h
      exact tryParseInline_ne_nil h

/-- **What can be logged.** The encoding of a command is parsed as the command exactly when
it is within the limits for arrays. -/
theorem parse_encodeCommand_iff {args : List Bytes} :
    tryParseCommand (encodeCommand args) = ([], .complete args) ↔ Loggable args := by
  constructor
  · intro h
    exact loggable_of_star rfl h
  · intro h
    have hparse := h.parse []
    rwa [List.append_nil] at hparse

/-! ### Errors -/

theorem parseBulk_message {b message : Bytes} (h : parseBulk b = .error (.protocolError message)) :
    Unbroken message := by
  unfold parseBulk at h
  repeat' split at h
  all_goals cases h
  all_goals decide

theorem parseBulks_message {argc : Nat} {b message : Bytes}
    (h : parseBulks argc b = .error (.protocolError message)) : Unbroken message := by
  induction argc generalizing b with
  | zero => cases h
  | succ argc ih =>
    unfold parseBulks at h
    split at h
    · next stop hbulk =>
      cases h
      exact parseBulk_message hbulk
    · split at h
      · next stop hbulks =>
        cases h
        exact ih hbulks
      · cases h

theorem tryParseMultibulk_message {b b' e : Bytes} (h : tryParseMultibulk b = (b', .error e)) : Unbroken e := by
  unfold tryParseMultibulk at h
  split at h
  · cases h
  · split at h
    · cases h
      decide
    · split at h
      · cases h
        decide
      · split at h
        · cases h
        · next stop hbulks =>
          cases stop with
          | incomplete => cases h
          | protocolError message =>
            cases h
            exact parseBulks_message hbulks

theorem tryParseInline_message {b b' e : Bytes} (h : tryParseInline b = (b', .error e)) : Unbroken e := by
  fun_induction tryParseInline b with
  | case1 => cases h; decide
  | case2 => cases h
  | case3 b line rest hsplit hblank ih => exact ih h
  | case4 => cases h

theorem tryParseCommand_message {b b' e : Bytes} (h : tryParseCommand b = (b', .error e)) : Unbroken e := by
  unfold tryParseCommand at h
  split at h
  · cases h
  · split at h
    · exact tryParseMultibulk_message h
    · exact tryParseInline_message h

/-- A client's commands are not empty, and the error its connection is closed at is one line. -/
theorem handleClient_yields (chunks : List Bytes) :
    (∀ args ∈ (handleClient chunks).items, args ≠ []) ∧
      ∀ e, (handleClient chunks).error = some e → Unbroken e :=
  Parser.Yields.run (p := parser) ⟨tryParseCommand_ne_nil, tryParseCommand_message⟩ chunks

end GoRedis.CommandParser
