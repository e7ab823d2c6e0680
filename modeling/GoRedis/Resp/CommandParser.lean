import GoRedis.Lib.Incremental
import GoRedis.Resp.RespValue

/-! The request parser (`resp/command_parser.cpp`) and the loop that drives it.

The parser keeps one buffer. Every attempt parses it from the start, as a RESP array if it
starts with `*` and as inline lines otherwise, and removes what it consumed. A position in
the buffer is modelled by the bytes from there on. -/
namespace GoRedis

/-- `ParseInt64`. -/
def parseInt64 (s : Bytes) : Option Int := Decimal.parseInt 64 s

namespace CommandParser
open Incremental

def kMaxArgs : Int := 1024
def kMaxBulkLen : Int := 64 * 1024 * 1024

abbrev Status := Incremental.Status (List Bytes) Bytes

/-- Why an attempt ends before the request is complete. -/
inductive Stop where
  | incomplete
  | protocolError (message : Bytes)

def Stop.status : Stop → Status
  | .incomplete => .incomplete
  | .protocolError message => .error message

/-- The text before the first `\r\n`, and what follows it. -/
def splitCrlf : Bytes → Option (Bytes × Bytes)
  | [] | [_] => none
  | c :: d :: rest =>
    if c = 13 ∧ d = 10 then some ([], rest)
    else (splitCrlf (d :: rest)).map fun p => (c :: p.1, p.2)

/-- The text before the first `\n`, and what follows it. -/
def splitLine : Bytes → Option (Bytes × Bytes)
  | [] => none
  | c :: rest => if c = 10 then some ([], rest) else (splitLine rest).map fun p => (c :: p.1, p.2)

/-! ### Arrays -/

/-- One bulk string at a position: the argument and what follows it, unless the attempt
ends here. -/
def parseBulk : Bytes → Except Stop (Bytes × Bytes)
  | [] => .error .incomplete
  | c :: buffer =>
    if c ≠ 36 then .error (.protocolError (ascii "expected '$' to start a bulk string argument"))
    else match splitCrlf (c :: buffer) with
      | none => .error .incomplete
      | some (line, rest) =>
        match parseInt64 (line.drop 1) with
        | none => .error (.protocolError (ascii "invalid bulk length"))
        | some len =>
          if len < 0 ∨ len > kMaxBulkLen then .error (.protocolError (ascii "invalid bulk length"))
          -- the payload and its trailing \r\n
          else if len + 2 > rest.length then .error .incomplete
          else if (rest.drop len.toNat).take 2 ≠ crlf then
            .error (.protocolError (ascii "expected CRLF after bulk string data"))
          else .ok (rest.take len.toNat, (rest.drop len.toNat).drop 2)

/-- The loop over the arguments. -/
def parseBulks : (argc : Nat) → Bytes → Except Stop (List Bytes × Bytes)
  | 0, buffer => .ok ([], buffer)
  | argc + 1, buffer =>
    match parseBulk buffer with
    | .error stop => .error stop
    | .ok (arg, rest) =>
      match parseBulks argc rest with
      | .error stop => .error stop
      | .ok (args, rest) => .ok (arg :: args, rest)

def tryParseMultibulk (buffer : Bytes) : Bytes × Status :=
  match splitCrlf buffer with
  | none => (buffer, .incomplete)
  | some (line, rest) =>
    match parseInt64 (line.drop 1) with
    | none => (buffer, .error (ascii "invalid multibulk length"))
    | some argc =>
      if argc ≤ 0 ∨ argc > kMaxArgs then (buffer, .error (ascii "invalid multibulk length"))
      else match parseBulks argc.toNat rest with
        | .ok (args, rest) => (rest, .complete args)
        | .error stop => (buffer, stop.status)

/-! ### Inline lines -/

/-- `std::isspace` in the C locale. -/
def isSpace (c : UInt8) : Bool := c = 32 || (9 ≤ c && c ≤ 13)

/-- The line without one trailing `\r`. -/
def chomp (line : Bytes) : Bytes := if line.getLast? = some 13 then line.dropLast else line

/-- The words of a line. -/
def splitArgs (line : Bytes) : List Bytes :=
  match _h : line.dropWhile isSpace with
  | [] => []
  | c :: rest => (c :: rest.takeWhile (!isSpace ·)) :: splitArgs (rest.dropWhile (!isSpace ·))
termination_by line.length
decreasing_by
  have hline := (List.dropWhile_suffix isSpace (l := line)).length_le
  have hrest := (List.dropWhile_suffix (!isSpace ·) (l := rest)).length_le
  rw [_h, List.length_cons] at hline
  omega

theorem splitLine_length {b line rest : Bytes} (h : splitLine b = some (line, rest)) :
    rest.length < b.length := by
  induction b generalizing line with
  | nil => cases h
  | cons c b ih =>
    unfold splitLine at h
    split at h
    · cases h
      exact Nat.lt_succ_self _
    · obtain ⟨⟨line', rest'⟩, hsplit, heq⟩ := Option.map_eq_some_iff.mp h
      cases heq
      exact Nat.lt_succ_of_lt (ih hsplit)

/-- Lines are taken off the buffer until one is not blank. -/
def tryParseInline (buffer : Bytes) : Bytes × Status :=
  match _h : splitLine buffer with
  | none =>
    if (buffer.length : Int) > kMaxBulkLen then (buffer, .error (ascii "inline command too long"))
    else (buffer, .incomplete)
  | some (line, rest) =>
    match splitArgs (chomp line) with
    | [] => tryParseInline rest
    | args => (rest, .complete args)
termination_by buffer.length
decreasing_by exact splitLine_length _h

def tryParseCommand (buffer : Bytes) : Bytes × Status :=
  match buffer with
  | [] => (buffer, .incomplete)
  | c :: _ => if c = 42 then tryParseMultibulk buffer else tryParseInline buffer

end CommandParser
end GoRedis
