import GoRedis.Lib.Interleaving
import GoRedis.Resp.CommandParser
import GoRedis.Store.Store

/-! The dispatcher (`server/dispatcher.cpp`).

`Dispatch` is a program over the store's public calls and `AofWriter::Append`, each of
which takes its own lock: between two of them other clients can come in. Its result is
the reply, or nothing where the source would read an element or an optional that is not
there. -/
namespace GoRedis
open Interleaving

/-- The atomic steps of a dispatch. -/
inductive Op where
  | call (c : Call)
  | append (args : List Bytes)

/-- What a step returns; what `Append` returns is not looked at. -/
abbrev Op.Ans : Op → Type
  | .call c => c.Reply
  | .append _ => Unit

abbrev Program := Prog Op Op.Ans (Option RespValue)

namespace Dispatcher

/-! ### Texts -/

def toUpper (s : Bytes) : Bytes := s.map fun c => if 97 ≤ c ∧ c ≤ 122 then c - 32 else c

def toLower (s : Bytes) : Bytes := s.map fun c => if 65 ≤ c ∧ c ≤ 90 then c + 32 else c

def wrongArgsError (name : Bytes) : RespValue :=
  .error (ascii "ERR wrong number of arguments for '" ++ toLower name ++ ascii "' command")

def wrongTypeError : RespValue :=
  .error (ascii "WRONGTYPE Operation against a key holding the wrong kind of value")

def notIntegerError : RespValue := .error (ascii "ERR value is not an integer or out of range")

def syntaxError : RespValue := .error (ascii "ERR syntax error")

def unknownCommandError (name : Bytes) : RespValue :=
  .error (ascii "ERR unknown command '" ++ name ++ ascii "'")

def ok : RespValue := .simpleString (ascii "OK")

/-- `ParseInt64Arg`. -/
def parseInt64Arg (s : Bytes) : Option Int := Decimal.parseInt 64 s

def clampToInt (v : Int) : Int :=
  if v > 2147483647 then 2147483647 else if v < -2147483648 then -2147483648 else v

def stringsToBulkArray (items : List Bytes) : RespValue := .array (items.map .bulkString)

/-! ### Patterns -/

/-- Where the last `*` of a pattern was met: the pattern after it, and the text from there
on, of which at least `n` bytes are left. -/
structure Star (n : Nat) where
  pattern : Bytes
  text : Bytes
  room : n ≤ text.length

/-- The loop of `GlobMatch`, at a position of the pattern and of the text. -/
def globLoop (pattern text : Bytes) (star : Option (Star text.length)) : Bool :=
  match text with
  | [] => pattern.dropWhile (· = 42) = []
  | c :: rest =>
    if pattern.head? = some 63 ∨ pattern.head? = some c then
      globLoop pattern.tail rest (star.map fun s => { s with room := Nat.le_of_succ_le s.room })
    else if pattern.head? = some 42 then
      globLoop pattern.tail (c :: rest) (some ⟨pattern.tail, c :: rest, Nat.le_refl _⟩)
    else match star with
      | none => false
      | some s => globLoop s.pattern s.text.tail (some ⟨s.pattern, s.text.tail, Nat.le_refl _⟩)
termination_by (star.elim (text.length + 1) fun s => s.text.length, pattern.length + text.length)
decreasing_by
  -- a byte matched: less of the text, and the same star
  · have htail : pattern.tail.length ≤ pattern.length := by simp
    cases star with
    | none => exact Prod.Lex.left _ _ (by simp)
    | some s => exact Prod.Lex.right _ (by simp only [List.length_cons]; omega)
  -- a star met: less of the pattern, and a star no further back
  · have htail : pattern.tail.length < pattern.length := by
      cases pattern with
      | nil => simp_all
      | cons d pattern => simp
    cases star with
    | none => exact Prod.Lex.left _ _ (by simp)
    | some s =>
      rcases Nat.lt_or_eq_of_le s.room with hlt | heq
      · exact Prod.Lex.left _ _ hlt
      · simp only [Option.elim_some, heq]
        exact Prod.Lex.right _ (by omega)
  -- back to the star: it takes one more byte
  · have hroom := s.room
    refine Prod.Lex.left _ _ ?_
    simp only [Option.elim_some, List.length_tail, List.length_cons] at hroom ⊢
    omega

def globMatch (pattern text : Bytes) : Bool := globLoop pattern text none

/-! ### Steps -/

def reply (r : RespValue) : Program := .ret (some r)

def call (c : Call) (next : c.Reply → Program) : Program := .step (.call c) next

/-- The command appended, if there is a writer; what `Append` returns is ignored. -/
def logged (aof : Bool) (args : List Bytes) (next : Program) : Program :=
  if aof then .step (.append args) fun _ => next else next

/-- The error reply of a call that met another type, or what to do with its result. -/
def checked {α : Type} (result : Result α) (next : Program) : Program :=
  if result.ok then next else reply wrongTypeError

/-- The reply made from an optional that is dereferenced. -/
def deref {α : Type} (value : Option α) (f : α → RespValue) : Program := .ret (value.map f)

/-- A value, or the nil reply. -/
def bulkOrNil (value : Option Bytes) : RespValue :=
  match value with
  | none => .nilBulkString
  | some str => .bulkString str

def pairs : List Bytes → List (Bytes × Bytes)
  | field :: value :: rest => (field, value) :: pairs rest
  | _ => []

def flattenPairs (fields : List (Bytes × Bytes)) : List Bytes :=
  fields.flatMap fun field => [field.1, field.2]

/-! ### Commands -/

section Commands
variable (aof : Bool) (name : Bytes)

def ping : List Bytes → Program
  | [] => reply (.simpleString (ascii "PONG"))
  | [message] => reply (.bulkString message)
  | _ => reply (wrongArgsError name)

def echo : List Bytes → Program
  | [message] => reply (.bulkString message)
  | _ => reply (wrongArgsError name)

def set : List Bytes → Program
  | [key, value] => call (.set key value) fun _ => logged aof [name, key, value] (reply ok)
  | [key, value, option, arg] =>
    if toUpper option ≠ ascii "EX" then reply syntaxError
    else match parseInt64Arg arg with
      | none => reply notIntegerError
      | some seconds =>
        call (.set key value) fun _ => call (.expire key seconds) fun _ =>
          logged aof [name, key, value, option, arg] (reply ok)
  | _ => reply (wrongArgsError name)

def get : List Bytes → Program
  | [key] => call (.get key) fun result => checked result (reply (bulkOrNil result.value))
  | _ => reply (wrongArgsError name)

def del : List Bytes → Program
  | [] => reply (wrongArgsError name)
  | keys => call (.del keys) fun removed => logged aof (name :: keys) (reply (.integer removed))

def exists' : List Bytes → Program
  | [] => reply (wrongArgsError name)
  | keys => call (.exists' keys) fun count => reply (.integer count)

def keys : List Bytes → Program
  | [pattern] => call .keys fun keys => reply (stringsToBulkArray (keys.filter (globMatch pattern)))
  | _ => reply (wrongArgsError name)

def flushAll : List Bytes → Program
  | [] => call .flushAll fun _ => logged aof [name] (reply ok)
  | _ => reply (wrongArgsError name)

def expire : List Bytes → Program
  | [key, arg] =>
    match parseInt64Arg arg with
    | none => reply notIntegerError
    | some seconds => call (.expire key seconds) fun (existed : Bool) =>
        logged aof [name, key, arg] (reply (.integer (if existed then 1 else 0)))
  | _ => reply (wrongArgsError name)

def ttl : List Bytes → Program
  | [key] => call (.ttl key) fun seconds => reply (.integer seconds)
  | _ => reply (wrongArgsError name)

/-- `LPUSH` and `RPUSH`. -/
def lPush : List Bytes → Program
  | key :: value :: values =>
    call (.lPush key (value :: values)) fun result =>
      checked result (logged aof (name :: key :: value :: values) (deref result.value .integer))
  | _ => reply (wrongArgsError name)

def rPush : List Bytes → Program
  | key :: value :: values =>
    call (.rPush key (value :: values)) fun result =>
      checked result (logged aof (name :: key :: value :: values) (deref result.value .integer))
  | _ => reply (wrongArgsError name)

def lLen : List Bytes → Program
  | [key] => call (.lLen key) fun result => checked result (deref result.value .integer)
  | _ => reply (wrongArgsError name)

def lRange : List Bytes → Program
  | [key, startArg, stopArg] =>
    match parseInt64Arg startArg, parseInt64Arg stopArg with
    | some start, some stop => call (.lRange key (clampToInt start) (clampToInt stop)) fun result =>
        checked result (deref result.value stringsToBulkArray)
    | _, _ => reply notIntegerError
  | _ => reply (wrongArgsError name)

def hSet : List Bytes → Program
  | key :: field :: value :: rest =>
    if rest.length % 2 ≠ 0 then reply (wrongArgsError name)
    else call (.hSet key (pairs (field :: value :: rest))) fun result =>
      checked result (logged aof (name :: key :: field :: value :: rest) (deref result.value .integer))
  | _ => reply (wrongArgsError name)

def hGet : List Bytes → Program
  | [key, field] => call (.hGet key field) fun result => checked result (reply (bulkOrNil result.value))
  | _ => reply (wrongArgsError name)

def hDel : List Bytes → Program
  | key :: field :: fields =>
    call (.hDel key (field :: fields)) fun result =>
      checked result (logged aof (name :: key :: field :: fields) (deref result.value .integer))
  | _ => reply (wrongArgsError name)

def hGetAll : List Bytes → Program
  | [key] => call (.hGetAll key) fun result =>
      checked result (deref result.value fun fields => stringsToBulkArray (flattenPairs fields))
  | _ => reply (wrongArgsError name)

def hLen : List Bytes → Program
  | [key] => call (.hLen key) fun result => checked result (deref result.value .integer)
  | _ => reply (wrongArgsError name)

def hExists : List Bytes → Program
  | [key, field] => call (.hExists key field) fun result => checked result (deref result.value .integer)
  | _ => reply (wrongArgsError name)

def hKeys : List Bytes → Program
  | [key] => call (.hKeys key) fun result => checked result (deref result.value stringsToBulkArray)
  | _ => reply (wrongArgsError name)

def hVals : List Bytes → Program
  | [key] => call (.hVals key) fun result => checked result (deref result.value stringsToBulkArray)
  | _ => reply (wrongArgsError name)

end Commands
end Dispatcher

open Dispatcher in
/-- `Dispatch`, with a writer if `aof` is set. -/
def dispatch (aof : Bool) : List Bytes → Program
  | [] => .ret none
  | name :: args =>
    let cmd := toUpper name
    if cmd = ascii "PING" then ping name args
    else if cmd = ascii "ECHO" then echo name args
    else if cmd = ascii "SET" then Dispatcher.set aof name args
    else if cmd = ascii "GET" then Dispatcher.get name args
    else if cmd = ascii "DEL" then del aof name args
    else if cmd = ascii "EXISTS" then exists' name args
    else if cmd = ascii "KEYS" then keys name args
    else if cmd = ascii "FLUSHALL" then flushAll aof name args
    else if cmd = ascii "EXPIRE" then expire aof name args
    else if cmd = ascii "TTL" then ttl name args
    else if cmd = ascii "LPUSH" then lPush aof name args
    else if cmd = ascii "RPUSH" then rPush aof name args
    else if cmd = ascii "LLEN" then lLen name args
    else if cmd = ascii "LRANGE" then lRange name args
    else if cmd = ascii "HSET" then hSet aof name args
    else if cmd = ascii "HGET" then hGet name args
    else if cmd = ascii "HDEL" then hDel aof name args
    else if cmd = ascii "HGETALL" then hGetAll name args
    else if cmd = ascii "HLEN" then hLen name args
    else if cmd = ascii "HEXISTS" then hExists name args
    else if cmd = ascii "HKEYS" then hKeys name args
    else if cmd = ascii "HVALS" then hVals name args
    else reply (unknownCommandError name)

end GoRedis
