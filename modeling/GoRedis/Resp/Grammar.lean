import GoRedis.Resp.CommandParser

/-! What the request parser accepts.

`Multibulk args raw` says that `raw` is a request for `args`. The parser completes a
request exactly when the buffer starts with one, and neither that nor a protocol error is
changed by bytes that arrive later. -/
namespace GoRedis.CommandParser

variable {b c : Bytes}

/-! ### Finding the end of a line -/

theorem splitCrlf_eq {line rest : Bytes} (h : splitCrlf b = some (line, rest)) :
    b = line ++ crlf ++ rest := by
  fun_induction splitCrlf b generalizing line with
  | case1 => cases h
  | case2 => cases h
  | case3 c d rest' hcd =>
    cases h
    rw [hcd.1, hcd.2]
    rfl
  | case4 c d rest' hcd ih =>
    obtain ⟨⟨line', rest''⟩, hsplit, heq⟩ := Option.map_eq_some_iff.mp h
    cases heq
    rw [ih hsplit]
    rfl

theorem splitCrlf_append {line rest : Bytes} (h : splitCrlf b = some (line, rest)) (c : Bytes) :
    splitCrlf (b ++ c) = some (line, rest ++ c) := by
  fun_induction splitCrlf b generalizing line with
  | case1 => cases h
  | case2 => cases h
  | case3 c d rest' hcd =>
    cases h
    simp [splitCrlf, hcd]
  | case4 d e rest' hcd ih =>
    obtain ⟨⟨line', rest''⟩, hsplit, heq⟩ := Option.map_eq_some_iff.mp h
    cases heq
    have hmore := ih hsplit
    rw [List.cons_append] at hmore
    simp only [List.cons_append, splitCrlf, hcd, if_false, hmore, Option.map_some]

theorem splitCrlf_crlf {line : Bytes} (h : 13 ∉ line) (rest : Bytes) :
    splitCrlf (line ++ crlf ++ rest) = some (line, rest) := by
  induction line with
  | nil => simp [splitCrlf, crlf]
  | cons d line ih =>
    rw [List.mem_cons, not_or] at h
    obtain ⟨e, tail, htail⟩ : ∃ e tail, line ++ crlf ++ rest = e :: tail := by
      cases line <;> simp [crlf]
    have hrest := ih h.2
    rw [List.cons_append, List.cons_append, htail] at *
    simp [splitCrlf, Ne.symm h.1, hrest]

theorem splitCrlf_none (h : 10 ∉ b) : splitCrlf b = none := by
  cases hs : splitCrlf b with
  | none => rfl
  | some p =>
    refine absurd ?_ h
    rw [splitCrlf_eq hs]
    simp [crlf]

theorem splitLine_eq {line rest : Bytes} (h : splitLine b = some (line, rest)) :
    b = line ++ 10 :: rest ∧ 10 ∉ line := by
  induction b generalizing line with
  | nil => cases h
  | cons d b ih =>
    unfold splitLine at h
    split at h
    · next hd =>
      cases h
      exact ⟨by rw [hd]; rfl, List.not_mem_nil⟩
    · next hd =>
      obtain ⟨⟨line', rest'⟩, hsplit, heq⟩ := Option.map_eq_some_iff.mp h
      cases heq
      obtain ⟨hb, hline⟩ := ih hsplit
      exact ⟨by rw [hb]; rfl, by simp [hline, Ne.symm hd]⟩

theorem splitLine_newline {line : Bytes} (h : 10 ∉ line) (rest : Bytes) :
    splitLine (line ++ 10 :: rest) = some (line, rest) := by
  induction line with
  | nil => simp [splitLine]
  | cons d line ih =>
    rw [List.mem_cons, not_or] at h
    rw [List.cons_append, splitLine, if_neg (Ne.symm h.1), ih h.2]
    rfl

theorem splitLine_none : splitLine b = none ↔ 10 ∉ b := by
  constructor
  · intro h hmem
    obtain ⟨line, rest, rfl, hline⟩ := List.eq_append_cons_of_mem hmem
    rw [splitLine_newline hline] at h
    cases h
  · intro h
    cases hs : splitLine b with
    | none => rfl
    | some p =>
      refine absurd ?_ h
      rw [(splitLine_eq hs).1]
      simp

/-! ### Requests -/

/-- A length that was read contains no line break. -/
theorem parseInt64_notMem {s : Bytes} {n : Int} (h : parseInt64 s = some n) : 13 ∉ s :=
  Decimal.parseInt_notMem h (by decide) (by decide)

/-- A bulk string argument on the wire. -/
structure Bulk (arg : Bytes) (raw : Bytes) : Prop where
  fits : (arg.length : Int) ≤ kMaxBulkLen
  shape : ∃ len, parseInt64 len = some (arg.length : Int) ∧ raw = 36 :: len ++ crlf ++ arg ++ crlf

inductive Bulks : List Bytes → Bytes → Prop where
  | nil : Bulks [] []
  | cons {arg raw : Bytes} {args : List Bytes} {raws : Bytes} (head : Bulk arg raw)
    (tail : Bulks args raws) : Bulks (arg :: args) (raw ++ raws)

/-- A request on the wire. -/
structure Multibulk (args : List Bytes) (raw : Bytes) : Prop where
  nonempty : 0 < args.length
  fits : (args.length : Int) ≤ kMaxArgs
  shape : ∃ count raws, parseInt64 count = some (args.length : Int) ∧ Bulks args raws ∧
    raw = 42 :: count ++ crlf ++ raws

theorem parseBulk_bulk {arg raw : Bytes} (h : Bulk arg raw) (rest : Bytes) :
    parseBulk (raw ++ rest) = .ok (arg, rest) := by
  obtain ⟨len, hlen, rfl⟩ := h.shape
  have hsplit : splitCrlf (36 :: (len ++ crlf ++ arg ++ crlf ++ rest)) =
      some (36 :: len, arg ++ crlf ++ rest) := by
    have hmem : (13 : UInt8) ∉ 36 :: len := by simp [parseInt64_notMem hlen]
    simpa using splitCrlf_crlf hmem (arg ++ crlf ++ rest)
  have hfits := h.fits
  have hroom : ¬((arg.length : Int) + 2 > ((arg ++ crlf ++ rest).length : Int)) := by
    simp [crlf]
  simp only [List.cons_append, parseBulk, ne_eq, not_true, if_false, hsplit, List.drop_succ_cons,
    List.drop_zero, hlen, hroom]
  rw [if_neg (by omega), if_neg (by simp [crlf])]
  simp [crlf]

/-- A line that starts with its type byte. -/
theorem splitCrlf_cons {d : UInt8} {line rest : Bytes} (hd : d ≠ 13)
    (h : splitCrlf (d :: b) = some (line, rest)) : line = d :: line.drop 1 := by
  have hb := splitCrlf_eq h
  cases line with
  | nil => simp [crlf, hd] at hb
  | cons e line =>
    rw [List.cons_append, List.cons_append, List.cons.injEq] at hb
    rw [hb.1, List.drop_succ_cons, List.drop_zero]

/-- What the loop body accepts is a bulk string. -/
theorem bulk_of_parseBulk {arg rest : Bytes} (h : parseBulk b = .ok (arg, rest)) :
    ∃ raw, b = raw ++ rest ∧ Bulk arg raw := by
  unfold parseBulk at h
  split at h
  · cases h
  · next d buffer =>
    simp only [ite_not, ne_eq] at h
    split at h
    · next hd =>
      subst hd
      split at h
      · cases h
      · next line tail hsplit =>
        split at h
        · cases h
        · next len hlen =>
          split_ifs at h with hrange hroom hcrlf
          cases h
          have hline := splitCrlf_cons (by decide) hsplit
          have htake : ((tail.take len.toNat).length : Int) = len := by
            rw [List.length_take]
            omega
          refine ⟨36 :: line.drop 1 ++ crlf ++ tail.take len.toNat ++ crlf, ?_,
            ⟨by omega, line.drop 1, by rw [htake]; exact hlen, rfl⟩⟩
          rw [splitCrlf_eq hsplit, ← hline, ← hcrlf]
          simp only [List.append_assoc, List.take_append_drop]
    · cases h

/-- A malformed bulk string stays malformed. -/
theorem parseBulk_error {e : Bytes} (h : parseBulk b = .error (.protocolError e)) (c : Bytes) :
    parseBulk (b ++ c) = .error (.protocolError e) := by
  unfold parseBulk at h
  split at h
  · cases h
  · next d buffer =>
    rw [List.cons_append, parseBulk]
    split at h
    · next hd => rw [if_pos hd, ← h]
    · next hd =>
      rw [if_neg hd]
      split at h
      · cases h
      · next line tail hsplit =>
        rw [← List.cons_append, splitCrlf_append hsplit]
        dsimp only
        split at h
        · exact h
        · next len hlen =>
          split_ifs at h with hrange hroom hcrlf
          · rw [if_pos hrange]
            exact h
          · cases h
          · have hroom' : ¬(len + 2 > ((tail ++ c).length : Int)) := by
              rw [List.length_append]
              omega
            have hdrop : (tail ++ c).drop len.toNat = tail.drop len.toNat ++ c :=
              List.drop_append_of_le_length (by omega)
            have htake : ((tail ++ c).drop len.toNat).take 2 = (tail.drop len.toNat).take 2 := by
              rw [hdrop, List.take_append_of_le_length (by rw [List.length_drop]; omega)]
            rw [if_neg hrange, if_neg hroom', htake, if_pos hcrlf]
            exact h

theorem parseBulks_bulks {args : List Bytes} {raws : Bytes} (h : Bulks args raws) (rest : Bytes) :
    parseBulks args.length (raws ++ rest) = .ok (args, rest) := by
  induction h with
  | nil => rfl
  | cons head tail ih =>
    rw [List.length_cons, parseBulks, List.append_assoc, parseBulk_bulk head]
    simp only [ih]

theorem bulks_of_parseBulks {argc : Nat} {args : List Bytes} {rest : Bytes}
    (h : parseBulks argc b = .ok (args, rest)) :
    args.length = argc ∧ ∃ raws, b = raws ++ rest ∧ Bulks args raws := by
  induction argc generalizing b args with
  | zero =>
    cases h
    exact ⟨rfl, [], rfl, .nil⟩
  | succ argc ih =>
    unfold parseBulks at h
    split at h
    · cases h
    · next arg tail hbulk =>
      split at h
      · cases h
      · next args' rest' hbulks =>
        cases h
        obtain ⟨raw, hraw, hb⟩ := bulk_of_parseBulk hbulk
        obtain ⟨hlen, raws, hraws, hbs⟩ := ih hbulks
        exact ⟨congrArg Nat.succ hlen, raw ++ raws, by rw [hraw, hraws, List.append_assoc], .cons hb hbs⟩

theorem parseBulks_error {argc : Nat} {e : Bytes} (h : parseBulks argc b = .error (.protocolError e)) (c : Bytes) :
    parseBulks argc (b ++ c) = .error (.protocolError e) := by
  induction argc generalizing b with
  | zero => cases h
  | succ argc ih =>
    unfold parseBulks at h ⊢
    split at h
    · next hbulk =>
      cases h
      rw [parseBulk_error hbulk]
    · next arg tail hbulk =>
      obtain ⟨raw, hraw, hb⟩ := bulk_of_parseBulk hbulk
      rw [hraw, List.append_assoc, parseBulk_bulk hb]
      split at h
      · next hbulks =>
        cases h
        simp only [ih hbulks]
      · cases h

/-! ### The array parser -/

theorem tryParseMultibulk_multibulk {args : List Bytes} {raw : Bytes} (h : Multibulk args raw)
    (rest : Bytes) : tryParseMultibulk (raw ++ rest) = (rest, .complete args) := by
  obtain ⟨count, raws, hcount, hbulks, rfl⟩ := h.shape
  have hmem : (13 : UInt8) ∉ 42 :: count := by simp [parseInt64_notMem hcount]
  have hsplit : splitCrlf (42 :: count ++ crlf ++ raws ++ rest) = some (42 :: count, raws ++ rest) := by
    rw [List.append_assoc (42 :: count ++ crlf)]
    exact splitCrlf_crlf hmem _
  have hpos := h.nonempty
  have hfits := h.fits
  rw [tryParseMultibulk, hsplit]
  simp only [List.drop_succ_cons, List.drop_zero, hcount]
  rw [if_neg (by omega), Int.toNat_natCast, parseBulks_bulks hbulks]

/-- What the array parser accepts is a request. -/
theorem multibulk_of_tryParseMultibulk {args : List Bytes} {rest : Bytes} (hstar : b.head? = some 42)
    (h : tryParseMultibulk b = (rest, .complete args)) : ∃ raw, b = raw ++ rest ∧ Multibulk args raw := by
  unfold tryParseMultibulk at h
  split at h
  · cases h
  · next line tail hsplit =>
    split at h
    · cases h
    · next argc hargc =>
      split at h
      · cases h
      · next hrange =>
        split at h
        · next hbulks =>
          cases h
          obtain ⟨hlen, raws, htail, hbs⟩ := bulks_of_parseBulks hbulks
          obtain ⟨buffer, rfl⟩ : ∃ buffer, b = 42 :: buffer := by
            cases b with
            | nil => cases hstar
            | cons d buffer => exact ⟨buffer, by rw [Option.some.inj hstar]⟩
          have hline := splitCrlf_cons (by decide) hsplit
          refine ⟨line ++ crlf ++ raws, ?_, ⟨by omega, by omega, line.drop 1, raws, ?_, hbs, ?_⟩⟩
          · rw [splitCrlf_eq hsplit, htail, List.append_assoc _ raws]
          · rw [hargc, hlen]
            congr 1
            omega
          · rw [← hline]
        · next stop _ => cases stop <;> cases h

theorem tryParseMultibulk_error {b' e : Bytes} (h : tryParseMultibulk b = (b', .error e)) (c : Bytes) :
    (tryParseMultibulk (b ++ c)).2 = .error e := by
  unfold tryParseMultibulk at h ⊢
  split at h
  · cases h
  · next line tail hsplit =>
    rw [splitCrlf_append hsplit]
    dsimp only
    split at h
    · cases h
      rfl
    · next argc hargc =>
      split at h
      · next hrange =>
        cases h
        rw [if_pos hrange]
      · next hrange =>
        rw [if_neg hrange]
        split at h
        · cases h
        · next stop hbulks =>
          cases stop with
          | incomplete => cases h
          | protocolError message =>
            cases h
            rw [parseBulks_error hbulks]
            rfl

/-- An attempt that fails, or has to wait, leaves the buffer as it was. -/
theorem tryParseMultibulk_kept {b' : Bytes} {status : Status} (h : tryParseMultibulk b = (b', status))
    (hstatus : ∀ args, status ≠ .complete args) : b' = b := by
  unfold tryParseMultibulk at h
  split at h
  · cases h; rfl
  · split at h
    · cases h; rfl
    · split at h
      · cases h; rfl
      · split at h
        · cases h
          exact absurd rfl (hstatus _)
        · exact (congrArg Prod.fst h).symm

theorem tryParseMultibulk_incomplete {b' : Bytes} (h : tryParseMultibulk b = (b', .incomplete)) : b' = b :=
  tryParseMultibulk_kept h fun _ heq => by cases heq

/-- A buffer begins with one request at most. -/
theorem Multibulk.unique {args args' : List Bytes} {raw raw' : Bytes} (h : Multibulk args raw)
    (h' : Multibulk args' raw') (hraw : raw <+: b) (hraw' : raw' <+: b) : args = args' ∧ raw = raw' := by
  obtain ⟨rest, rfl⟩ := hraw
  obtain ⟨rest', heq⟩ := hraw'
  have hparse := tryParseMultibulk_multibulk h rest
  rw [← heq, tryParseMultibulk_multibulk h' rest'] at hparse
  cases hparse
  exact ⟨rfl, (List.append_cancel_right heq).symm⟩

/-- **The array parser accepts exactly its grammar.** On a buffer that starts with `*` it
completes a request exactly when the buffer starts with one, of which there is at most one;
it returns the arguments of that request and removes its bytes. When it has to wait or finds
an error it leaves the buffer as it was, and after an error no more bytes will complete a
request. -/
theorem tryParseCommand_exact (tail : Bytes) :
    let b : Bytes := 42 :: tail
    (∀ args rest, tryParseCommand b = (rest, .complete args) ↔ ∃ raw, Multibulk args raw ∧ b = raw ++ rest) ∧
      (∀ args args' raw raw', Multibulk args raw → Multibulk args' raw' → raw <+: b → raw' <+: b →
        args = args' ∧ raw = raw') ∧
      (∀ b', tryParseCommand b = (b', .incomplete) → b' = b) ∧
      ∀ b' e, tryParseCommand b = (b', .error e) →
        b' = b ∧ ∀ more rest args, tryParseCommand (b ++ more) ≠ (rest, .complete args) := by
  intro b
  have hform : ∀ more, tryParseCommand (b ++ more) = tryParseMultibulk (b ++ more) := fun more => rfl
  have hb : tryParseCommand b = tryParseMultibulk b := rfl
  rw [hb]
  refine ⟨fun args rest => ⟨fun h => ?_, ?_⟩, fun args args' raw raw' h h' => h.unique h',
    fun b' h => tryParseMultibulk_incomplete h, fun b' e h => ⟨?_, fun more rest args hmore => ?_⟩⟩
  · obtain ⟨raw, hraw, hm⟩ := multibulk_of_tryParseMultibulk rfl h
    exact ⟨raw, hm, hraw⟩
  · rintro ⟨raw, hm, hraw⟩
    rw [hraw]
    exact tryParseMultibulk_multibulk hm rest
  · exact tryParseMultibulk_kept h fun _ heq => by cases heq
  · have herror := tryParseMultibulk_error h more
    rw [hform] at hmore
    rw [hmore] at herror
    cases herror

end GoRedis.CommandParser
