import GoRedis.Resp.Chunking

/-! The log and the wire.

`AofWriter::Append` writes a command as the array of bulk strings a client would send. What
it writes is parsed back as the command, and a log cut anywhere is parsed back as the
commands that are whole in it, with the torn tail left in the buffer: a torn command is
not complete, because it would stay so, and not malformed, because it would stay so. -/
namespace GoRedis.CommandParser
open Incremental

/-- What `AofWriter::Append` writes for a command. -/
def encodeCommand (args : List Bytes) : Bytes := (RespValue.array (args.map .bulkString)).encode

def encodeAll (commands : List (List Bytes)) : Bytes := (commands.map encodeCommand).flatten

/-- A command within the limits of the parser. -/
structure Loggable (args : List Bytes) : Prop where
  nonempty : 0 < args.length
  count : (args.length : Int) ≤ kMaxArgs
  sizes : ∀ arg ∈ args, (arg.length : Int) ≤ kMaxBulkLen

instance (args : List Bytes) : Decidable (Loggable args) :=
  decidable_of_iff (0 < args.length ∧ (args.length : Int) ≤ kMaxArgs ∧
      ∀ arg ∈ args, (arg.length : Int) ≤ kMaxBulkLen)
    ⟨fun h => ⟨h.1, h.2.1, h.2.2⟩, fun h => ⟨h.nonempty, h.count, h.sizes⟩⟩

/-! ### Whole commands -/

/-- The length of something within the limits is read back. -/
theorem parseInt64_text {n : Nat} (h : (n : Int) ≤ kMaxBulkLen) : parseInt64 (Decimal.text n) = some (n : Int) := by
  have hmax : kMaxBulkLen < 2 ^ (64 - 1) := by decide
  exact Decimal.parseInt_text (by omega)

theorem encodeItems_bulks (args : List Bytes) (h : ∀ arg ∈ args, (arg.length : Int) ≤ kMaxBulkLen) :
    Bulks args (RespValue.encodeItems (args.map .bulkString)) := by
  induction args with
  | nil => exact .nil
  | cons arg args ih =>
    obtain ⟨harg, hargs⟩ := List.forall_mem_cons.mp h
    rw [List.map_cons, RespValue.encodeItems, RespValue.encode]
    exact .cons ⟨harg, _, parseInt64_text harg, rfl⟩ (ih hargs)

theorem Loggable.multibulk {args : List Bytes} (h : Loggable args) : Multibulk args (encodeCommand args) := by
  have hcount : (args.length : Int) ≤ kMaxBulkLen :=
    Int.le_trans h.count (by decide)
  refine ⟨h.nonempty, h.count, _, _, parseInt64_text hcount, encodeItems_bulks args h.sizes, ?_⟩
  rw [encodeCommand, RespValue.encode, List.length_map]

theorem Loggable.parse {args : List Bytes} (h : Loggable args) (rest : Bytes) :
    tryParseCommand (encodeCommand args ++ rest) = (rest, .complete args) := by
  rw [tryParseCommand_star (h.multibulk.head rest), tryParseMultibulk_multibulk h.multibulk]

/-! ### Torn commands -/

/-- What is left of a command of which the end was not written: nothing, or a part. -/
def Torn (torn : Bytes) : Prop :=
  torn = [] ∨ ∃ args missing, Loggable args ∧ missing ≠ [] ∧ torn ++ missing = encodeCommand args

theorem Torn.head {torn : Bytes} (h : Torn torn) (hne : torn ≠ []) : torn.head? = some 42 := by
  rcases h with rfl | ⟨args, missing, hargs, -, heq⟩
  · exact absurd rfl hne
  · have hhead := hargs.multibulk.head []
    rwa [List.append_nil, ← heq, List.head?_append_of_ne_nil _ hne] at hhead

/-- A torn command is waited for, and stays in the buffer. -/
theorem Torn.parse {torn : Bytes} (h : Torn torn) : tryParseCommand torn = (torn, .incomplete) := by
  by_cases hne : torn = []
  · rw [hne]
    rfl
  · have hstar := h.head hne
    rw [tryParseCommand_star hstar]
    rcases h with rfl | ⟨args, missing, hargs, hmissing, heq⟩
    · exact absurd rfl hne
    · have hwhole := tryParseMultibulk_multibulk hargs.multibulk []
      rw [List.append_nil, ← heq] at hwhole
      rcases hp : tryParseMultibulk torn with ⟨b, _ | args' | e⟩
      · rw [tryParseMultibulk_incomplete hp]
      · obtain ⟨raw, rfl, hraw⟩ := multibulk_of_tryParseMultibulk hstar hp
        rw [List.append_assoc, tryParseMultibulk_multibulk hraw] at hwhole
        exact absurd (List.append_eq_nil_iff.mp (Prod.mk.inj hwhole).1).2 hmissing
      · have herror := tryParseMultibulk_error hp missing
        rw [hwhole] at herror
        cases herror

theorem Torn.not_next {torn : Bytes} (h : Torn torn) (r : Bytes) : ¬Next torn r := by
  intro hnext
  rcases hnext.inv with ⟨args, raw, hraw, heq⟩ | ⟨line, -, heq, hstar⟩
  · have hp := h.parse
    rw [heq, tryParseCommand_star (hraw.head r), tryParseMultibulk_multibulk hraw] at hp
    exact absurd (Prod.mk.inj hp).2 (by simp)
  · exact hstar (h.head (by simp [heq]))

/-! ### Logs -/

theorem encodeAll_cons (args : List Bytes) (commands : List (List Bytes)) (tail : Bytes) :
    encodeAll (args :: commands) ++ tail = encodeCommand args ++ (encodeAll commands ++ tail) := by
  simp [encodeAll]

theorem log_steady {commands : List (List Bytes)} (h : ∀ args ∈ commands, Loggable args) {torn : Bytes}
    (ht : Torn torn) : Steady (encodeAll commands ++ torn) := by
  have hstar : ∀ {r : Bytes}, r.head? = some 42 →
      ¬Hazard r ∧ (r.head? ≠ some 42 → (r.length : Int) ≤ kMaxBulkLen) :=
    fun hr => ⟨not_hazard_star hr, fun hne => absurd hr hne⟩
  induction commands with
  | nil =>
    refine forall_boundary_last ?_ ht.not_next
    by_cases hne : torn = []
    · rw [hne]
      exact ⟨not_hazard_nil, fun _ => by decide⟩
    · exact hstar (ht.head hne)
  | cons args commands ih =>
    obtain ⟨hargs, hcommands⟩ := List.forall_mem_cons.mp h
    rw [encodeAll_cons]
    exact forall_boundary (hstar (hargs.multibulk.head _)) (.multibulk hargs.multibulk _) (ih hcommands)

theorem log_drain {commands : List (List Bytes)} (h : ∀ args ∈ commands, Loggable args) {torn : Bytes}
    (ht : Torn torn) : parser.drain (encodeAll commands ++ torn) = { items := commands, buffer := torn } := by
  induction commands with
  | nil => exact Parser.drain_incomplete (p := parser) ht.parse
  | cons args commands ih =>
    obtain ⟨hargs, hcommands⟩ := List.forall_mem_cons.mp h
    have hparse : parser.parse (encodeCommand args ++ (encodeAll commands ++ torn)) = _ := hargs.parse _
    rw [encodeAll_cons, Parser.drain_complete hparse, ih hcommands]
    rfl

/-- A log and a torn tail, in any chunks. -/
theorem log_handleClient {commands : List (List Bytes)} (h : ∀ args ∈ commands, Loggable args)
    {torn : Bytes} (ht : Torn torn) {chunks : List Bytes} (hc : chunks.flatten = encodeAll commands ++ torn) :
    handleClient chunks = { items := commands, buffer := torn } := by
  obtain ⟨hitems, herror, hbuffer⟩ := parser_stable.run_agree chunks (hc ▸ log_steady h ht)
  rw [hc, log_drain h ht] at hitems herror hbuffer
  exact Session.ext hitems (hbuffer herror) herror

/-- The commands whose encodings lie within the first `k` bytes of a log. -/
def kept : Nat → List (List Bytes) → List (List Bytes)
  | _, [] => []
  | k, args :: commands =>
    if (encodeCommand args).length ≤ k then args :: kept (k - (encodeCommand args).length) commands
    else []

/-- A log cut anywhere is the commands kept and a torn tail. -/
theorem take_encodeAll {commands : List (List Bytes)} (h : ∀ args ∈ commands, Loggable args) (k : Nat) :
    (∀ args ∈ kept k commands, Loggable args) ∧
      ∃ torn, Torn torn ∧ (encodeAll commands).take k = encodeAll (kept k commands) ++ torn := by
  induction commands generalizing k with
  | nil => exact ⟨fun _ hargs => absurd hargs List.not_mem_nil, [], .inl rfl, by simp [encodeAll, kept]⟩
  | cons args commands ih =>
    obtain ⟨hargs, hcommands⟩ := List.forall_mem_cons.mp h
    have hall : encodeAll (args :: commands) = encodeCommand args ++ encodeAll commands := by
      simp [encodeAll]
    unfold kept
    split
    · next hle =>
      obtain ⟨hkept, torn, ht, heq⟩ := ih hcommands (k - (encodeCommand args).length)
      refine ⟨List.forall_mem_cons.mpr ⟨hargs, hkept⟩, torn, ht, ?_⟩
      rw [hall, List.take_append, List.take_of_length_le hle, heq, encodeAll_cons]
    · next hlt =>
      refine ⟨fun _ hargs => absurd hargs List.not_mem_nil, (encodeCommand args).take k, ?_, ?_⟩
      · refine .inr ⟨args, (encodeCommand args).drop k, hargs, ?_, List.take_append_drop ..⟩
        simpa using hlt
      · rw [hall, List.take_append_of_le_length (by omega)]
        rfl

/-- **The log is read back.** Whatever the chunks, a log of commands gives exactly these
commands and leaves nothing; cut after any number of bytes it gives the commands whose
encodings lie within them, leaves the rest in the buffer, and waits. -/
theorem log_roundtrip (commands : List (List Bytes)) (h : ∀ args ∈ commands, Loggable args)
    (chunks : List Bytes) :
    (chunks.flatten = encodeAll commands → handleClient chunks = { items := commands }) ∧
      ∀ k, chunks.flatten = (encodeAll commands).take k →
        let torn := ((encodeAll commands).take k).drop (encodeAll (kept k commands)).length
        handleClient chunks = { items := kept k commands, buffer := torn } ∧
          tryParseCommand torn = (torn, .incomplete) := by
  constructor
  · intro hc
    exact log_handleClient h (.inl rfl) (by rw [hc, List.append_nil])
  · intro k hc
    obtain ⟨hkept, torn, ht, heq⟩ := take_encodeAll h k
    rw [heq, List.drop_left]
    exact ⟨log_handleClient hkept ht (hc.trans heq), ht.parse⟩

/-- A value made of the protocol's own delimiters, whole and cut inside. -/
theorem log_roundtrip_set :
    let commands := [[ascii "SET", ascii "k", [13, 10, 42, 36, 0]]]
    (∀ args ∈ commands, Loggable args) ∧
      handleClient [encodeAll commands] = { items := commands } ∧
      handleClient [(encodeAll commands).take 20] = { buffer := (encodeAll commands).take 20 } := by
  intro commands
  have h : ∀ args ∈ commands, Loggable args := by decide
  have hkept : kept 20 commands = [] := by decide
  refine ⟨h, (log_roundtrip commands h [encodeAll commands]).1 (List.flatten_singleton ..), ?_⟩
  have hcut := ((log_roundtrip commands h [(encodeAll commands).take 20]).2 20 (List.flatten_singleton ..)).1
  rw [hkept] at hcut
  exact hcut

end GoRedis.CommandParser
