import GoRedis.Server.Wire

/-! How `Dispatch` reads its arguments.

The source takes the arguments out of a vector by their index, after a test of the vector's
size, and what the store returned out of an optional. `Indexed.dispatch` does it that way:
where the element or the value is not there, there is no reply. It is `dispatch` for every
vector, so each command's test covers the indices behind it. -/
namespace GoRedis
open Interleaving Dispatcher CommandParser

namespace Indexed

/-! ### Reading the vector -/

/-- `args[i]`. -/
def elem (args : List Bytes) (i : Nat) (next : Bytes → Program) : Program :=
  match args[i]? with
  | some arg => next arg
  | none => .ret none

/-- The vector made from `args.begin() + k` to `args.end()`. -/
def elems (args : List Bytes) (k : Nat) (next : List Bytes → Program) : Program :=
  if k ≤ args.length then next (args.drop k) else .ret none

/-- A command behind its test of the size. -/
def sized (args : List Bytes) (test : Prop) [Decidable test] (body : Program) : Program :=
  if test then body else elem args 0 fun name => reply (wrongArgsError name)

/-! ### Results -/

/-- A string that may be absent. -/
def found (result : Result Bytes) : Program :=
  checked result (if result.value.isSome then deref result.value .bulkString else reply .nilBulkString)

/-- What a read counted. -/
def counted (result : Result Int) : Program := checked result (deref result.value .integer)

def listed (result : Result (List Bytes)) : Program := checked result (deref result.value stringsToBulkArray)

/-- What a write counted. -/
def written (aof : Bool) (args : List Bytes) (result : Result Int) : Program :=
  checked result (logged aof args (deref result.value .integer))

/-! ### Commands -/

section Commands
variable (aof : Bool) (args : List Bytes)

def ping : Program :=
  if args.length = 1 then reply (.simpleString (ascii "PONG"))
  else sized args (args.length = 2) <| elem args 1 fun message => reply (.bulkString message)

def echo : Program := sized args (args.length = 2) <| elem args 1 fun message => reply (.bulkString message)

def set : Program :=
  sized args (args.length = 3 ∨ args.length = 5) <|
    if args.length = 5 then
      elem args 3 fun option =>
        if toUpper option ≠ ascii "EX" then reply syntaxError
        else elem args 4 fun arg =>
          match parseInt64Arg arg with
          | none => reply notIntegerError
          | some seconds => elem args 1 fun key => elem args 2 fun value =>
              call (.set key value) fun _ => elem args 1 fun key =>
                call (.expire key seconds) fun _ => logged aof args (reply ok)
    else elem args 1 fun key => elem args 2 fun value =>
      call (.set key value) fun _ => logged aof args (reply ok)

def get : Program := sized args (args.length = 2) <| elem args 1 fun key => call (.get key) found

def del : Program :=
  sized args (2 ≤ args.length) <| elems args 1 fun keys =>
    call (.del keys) fun removed => logged aof args (reply (.integer removed))

def exists' : Program :=
  sized args (2 ≤ args.length) <| elems args 1 fun keys =>
    call (.exists' keys) fun count => reply (.integer count)

/-- The pattern is read once for each key. -/
def matched : List Bytes → (List Bytes → Program) → Program
  | [], next => next []
  | key :: keys, next => elem args 1 fun pattern =>
      matched keys fun rest => next (if globMatch pattern key then key :: rest else rest)

def keys : Program :=
  sized args (args.length = 2) <| call .keys fun keys =>
    matched args keys fun keys => reply (stringsToBulkArray keys)

def flushAll : Program :=
  sized args (args.length = 1) <| call .flushAll fun _ => logged aof args (reply ok)

def expire : Program :=
  sized args (args.length = 3) <| elem args 2 fun arg =>
    match parseInt64Arg arg with
    | none => reply notIntegerError
    | some seconds => elem args 1 fun key => call (.expire key seconds) fun (existed : Bool) =>
        logged aof args (reply (.integer (if existed then 1 else 0)))

def ttl : Program :=
  sized args (args.length = 2) <| elem args 1 fun key =>
    call (.ttl key) fun seconds => reply (.integer seconds)

/-- `LPUSH` and `RPUSH`. -/
def push (cmd : Bytes) : Program :=
  sized args (3 ≤ args.length) <| elems args 2 fun values => elem args 1 fun key =>
    if cmd = ascii "LPUSH" then call (.lPush key values) (written aof args)
    else call (.rPush key values) (written aof args)

def lLen : Program := sized args (args.length = 2) <| elem args 1 fun key => call (.lLen key) counted

def lRange : Program :=
  sized args (args.length = 4) <| elem args 2 fun startArg =>
    match parseInt64Arg startArg with
    | none => reply notIntegerError
    | some start => elem args 3 fun stopArg =>
      match parseInt64Arg stopArg with
      | none => reply notIntegerError
      | some stop => elem args 1 fun key =>
          call (.lRange key (clampToInt start) (clampToInt stop)) listed

/-- The loop that collects fields and values, at the index `i`. -/
def fieldsFrom (i : Nat) (fields : List (Bytes × Bytes)) (next : List (Bytes × Bytes) → Program) : Program :=
  if i + 1 < args.length then
    elem args i fun field => elem args (i + 1) fun value => fieldsFrom (i + 2) (fields ++ [(field, value)]) next
  else next fields
termination_by args.length - i

def hSet : Program :=
  sized args (4 ≤ args.length ∧ args.length % 2 = 0) <|
    fieldsFrom args 2 [] fun fields => elem args 1 fun key => call (.hSet key fields) (written aof args)

def hGet : Program :=
  sized args (args.length = 3) <| elem args 1 fun key => elem args 2 fun field => call (.hGet key field) found

def hDel : Program :=
  sized args (3 ≤ args.length) <| elems args 2 fun fields => elem args 1 fun key =>
    call (.hDel key fields) (written aof args)

def hGetAll : Program :=
  sized args (args.length = 2) <| elem args 1 fun key => call (.hGetAll key) fun result =>
    checked result (deref result.value fun fields => stringsToBulkArray (flattenPairs fields))

def hLen : Program := sized args (args.length = 2) <| elem args 1 fun key => call (.hLen key) counted

def hExists : Program :=
  sized args (args.length = 3) <| elem args 1 fun key => elem args 2 fun field => call (.hExists key field) counted

/-- `HKEYS` and `HVALS`. -/
def hNames (cmd : Bytes) : Program :=
  sized args (args.length = 2) <| elem args 1 fun key =>
    if cmd = ascii "HKEYS" then call (.hKeys key) listed else call (.hVals key) listed

/-- `Dispatch`, with a writer if `aof` is set. -/
def dispatch : Program :=
  elem args 0 fun name =>
    let cmd := toUpper name
    if cmd = ascii "PING" then ping args
    else if cmd = ascii "ECHO" then echo args
    else if cmd = ascii "SET" then set aof args
    else if cmd = ascii "GET" then get args
    else if cmd = ascii "DEL" then del aof args
    else if cmd = ascii "EXISTS" then exists' args
    else if cmd = ascii "KEYS" then keys args
    else if cmd = ascii "FLUSHALL" then flushAll aof args
    else if cmd = ascii "EXPIRE" then expire aof args
    else if cmd = ascii "TTL" then ttl args
    else if cmd = ascii "LPUSH" ∨ cmd = ascii "RPUSH" then push aof args cmd
    else if cmd = ascii "LLEN" then lLen args
    else if cmd = ascii "LRANGE" then lRange args
    else if cmd = ascii "HSET" then hSet aof args
    else if cmd = ascii "HGET" then hGet args
    else if cmd = ascii "HDEL" then hDel aof args
    else if cmd = ascii "HGETALL" then hGetAll args
    else if cmd = ascii "HLEN" then hLen args
    else if cmd = ascii "HEXISTS" then hExists args
    else if cmd = ascii "HKEYS" ∨ cmd = ascii "HVALS" then hNames args cmd
    else elem args 0 fun name => reply (unknownCommandError name)

end Commands

/-! ### Every index is covered -/

@[simp] theorem elem_zero (arg : Bytes) (args : List Bytes) (next : Bytes → Program) :
    elem (arg :: args) 0 next = next arg := rfl

@[simp] theorem elem_succ (arg : Bytes) (args : List Bytes) (i : Nat) (next : Bytes → Program) :
    elem (arg :: args) (i + 1) next = elem args i next := rfl

theorem elem_of_lt {args : List Bytes} {i : Nat} (h : i < args.length) (next : Bytes → Program) :
    elem args i next = next args[i] := by
  rw [elem, List.getElem?_eq_getElem h]

@[simp] theorem elems_zero (args : List Bytes) (next : List Bytes → Program) : elems args 0 next = next args := rfl

@[simp] theorem elems_succ (arg : Bytes) (args : List Bytes) (k : Nat) (next : List Bytes → Program) :
    elems (arg :: args) (k + 1) next = elems args k next := by
  simp [elems]

theorem found_eq (result : Result Bytes) : found result = checked result (reply (bulkOrNil result.value)) := by
  unfold found
  cases result.value <;> rfl

section
variable (aof : Bool) (name : Bytes) (args : List Bytes)

theorem ping_eq : ping (name :: args) = Dispatcher.ping name args := by
  rcases args with _ | ⟨message, _ | ⟨extra, args⟩⟩ <;> simp [ping, sized, Dispatcher.ping]

theorem echo_eq : echo (name :: args) = Dispatcher.echo name args := by
  rcases args with _ | ⟨message, _ | ⟨extra, args⟩⟩ <;> simp [echo, sized, Dispatcher.echo]

theorem set_eq : set aof (name :: args) = Dispatcher.set aof name args := by
  rcases args with _ | ⟨key, _ | ⟨value, _ | ⟨option, _ | ⟨arg, _ | ⟨extra, args⟩⟩⟩⟩⟩
  case cons.cons.cons.cons.nil => rfl
  all_goals simp [set, sized, Dispatcher.set]

theorem get_eq : get (name :: args) = Dispatcher.get name args := by
  rcases args with _ | ⟨key, _ | ⟨extra, args⟩⟩
  case cons.nil => exact congrArg (call (.get key)) (funext found_eq)
  all_goals simp [get, sized, Dispatcher.get]

theorem del_eq : del aof (name :: args) = Dispatcher.del aof name args := by
  cases args <;> simp [del, sized, Dispatcher.del]

theorem exists_eq : exists' (name :: args) = Dispatcher.exists' name args := by
  cases args <;> simp [exists', sized, Dispatcher.exists']

/-- The loop over the keys filters them. -/
theorem matched_eq (pattern : Bytes) (keys : List Bytes) (next : List Bytes → Program) :
    matched [name, pattern] keys next = next (keys.filter (globMatch pattern)) := by
  induction keys generalizing next with
  | nil => rfl
  | cons key keys ih =>
    rw [matched, elem_succ, elem_zero, ih, List.filter_cons]

theorem keys_eq : keys (name :: args) = Dispatcher.keys name args := by
  rcases args with _ | ⟨pattern, _ | ⟨extra, args⟩⟩
  case cons.nil => exact congrArg (call .keys) (funext fun keys => matched_eq name pattern keys _)
  all_goals simp [keys, sized, Dispatcher.keys]

theorem flushAll_eq : flushAll aof (name :: args) = Dispatcher.flushAll aof name args := by
  cases args <;> simp [flushAll, sized, Dispatcher.flushAll]

theorem expire_eq : expire aof (name :: args) = Dispatcher.expire aof name args := by
  rcases args with _ | ⟨key, _ | ⟨arg, _ | ⟨extra, args⟩⟩⟩
  case cons.cons.nil => rfl
  all_goals simp [expire, sized, Dispatcher.expire]

theorem ttl_eq : ttl (name :: args) = Dispatcher.ttl name args := by
  rcases args with _ | ⟨key, _ | ⟨extra, args⟩⟩ <;> simp [ttl, sized, Dispatcher.ttl]

theorem push_eq (cmd : Bytes) : push aof (name :: args) cmd =
    if cmd = ascii "LPUSH" then lPush aof name args else rPush aof name args := by
  rcases args with _ | ⟨key, _ | ⟨value, values⟩⟩ <;> simp [push, sized, lPush, rPush]
  rfl

theorem lLen_eq : lLen (name :: args) = Dispatcher.lLen name args := by
  rcases args with _ | ⟨key, _ | ⟨extra, args⟩⟩
  case cons.nil => rfl
  all_goals simp [lLen, sized, Dispatcher.lLen]

theorem lRange_eq : lRange (name :: args) = Dispatcher.lRange name args := by
  rcases args with _ | ⟨key, _ | ⟨startArg, _ | ⟨stopArg, _ | ⟨extra, args⟩⟩⟩⟩
  case cons.cons.cons.nil =>
    simp only [lRange, sized, Dispatcher.lRange, elem_succ, elem_zero]
    cases parseInt64Arg startArg <;> cases parseInt64Arg stopArg <;> rfl
  all_goals simp [lRange, sized, Dispatcher.lRange]

/-- The loop over the indices goes over the pairs. -/
theorem fieldsFrom_eq (vector : List Bytes) (i : Nat) (fields : List (Bytes × Bytes))
    (next : List (Bytes × Bytes) → Program) :
    fieldsFrom vector i fields next = next (fields ++ pairs (vector.drop i)) := by
  fun_induction fieldsFrom vector i fields next with
  | case1 i fields hlt ih =>
    have hdrop : vector.drop i = vector[i] :: vector[i + 1] :: vector.drop (i + 2) := by
      rw [List.drop_eq_getElem_cons (Nat.lt_of_succ_lt hlt), List.drop_eq_getElem_cons hlt]
    simp only [elem_of_lt (Nat.lt_of_succ_lt hlt), elem_of_lt hlt, ih, hdrop, pairs, List.append_assoc,
      List.singleton_append]
  | case2 i fields hge =>
    have hshort : (vector.drop i).length ≤ 1 := by
      rw [List.length_drop]
      omega
    have hnone : pairs (vector.drop i) = [] := by
      rcases hrest : vector.drop i with _ | ⟨last, _ | ⟨extra, rest⟩⟩
      · rfl
      · rfl
      · simp [hrest] at hshort
    rw [hnone, List.append_nil]

theorem hSet_eq : hSet aof (name :: args) = Dispatcher.hSet aof name args := by
  rcases args with _ | ⟨key, _ | ⟨field, _ | ⟨value, rest⟩⟩⟩
  case cons.cons.cons =>
    have hparity : (rest.length + 4) % 2 = 0 ↔ rest.length % 2 = 0 := by omega
    simp only [hSet, sized, fieldsFrom_eq, Dispatcher.hSet, List.length_cons, Nat.le_add_left, true_and, hparity,
      ite_not]
    rfl
  all_goals simp [hSet, sized, Dispatcher.hSet]

theorem hGet_eq : hGet (name :: args) = Dispatcher.hGet name args := by
  rcases args with _ | ⟨key, _ | ⟨field, _ | ⟨extra, args⟩⟩⟩
  case cons.cons.nil => exact congrArg (call (.hGet key field)) (funext found_eq)
  all_goals simp [hGet, sized, Dispatcher.hGet]

theorem hDel_eq : hDel aof (name :: args) = Dispatcher.hDel aof name args := by
  rcases args with _ | ⟨key, _ | ⟨field, fields⟩⟩ <;> simp [hDel, sized, Dispatcher.hDel]
  rfl

theorem hGetAll_eq : hGetAll (name :: args) = Dispatcher.hGetAll name args := by
  rcases args with _ | ⟨key, _ | ⟨extra, args⟩⟩ <;> simp [hGetAll, sized, Dispatcher.hGetAll]

theorem hLen_eq : hLen (name :: args) = Dispatcher.hLen name args := by
  rcases args with _ | ⟨key, _ | ⟨extra, args⟩⟩
  case cons.nil => rfl
  all_goals simp [hLen, sized, Dispatcher.hLen]

theorem hExists_eq : hExists (name :: args) = Dispatcher.hExists name args := by
  rcases args with _ | ⟨key, _ | ⟨field, _ | ⟨extra, args⟩⟩⟩
  case cons.cons.nil => rfl
  all_goals simp [hExists, sized, Dispatcher.hExists]

theorem hNames_eq (cmd : Bytes) : hNames (name :: args) cmd =
    if cmd = ascii "HKEYS" then hKeys name args else hVals name args := by
  rcases args with _ | ⟨key, _ | ⟨extra, args⟩⟩ <;> simp [hNames, sized, hKeys, hVals]
  rfl

end

/-- Two commands with one branch. -/
theorem ite_or {C D : Prop} [Decidable C] [Decidable D] (p q r : Program) :
    (if C ∨ D then (if C then p else q) else r) = if C then p else if D then q else r := by
  by_cases hc : C <;> simp [hc]

/-- **The indices are within the vector**: read by its indices, a command is what it is read by
its parts. -/
theorem dispatch_eq (aof : Bool) (args : List Bytes) : dispatch aof args = GoRedis.dispatch aof args := by
  cases args with
  | nil => rfl
  | cons name args =>
    simp only [dispatch, GoRedis.dispatch, elem_zero, ping_eq, echo_eq, set_eq, get_eq, del_eq, exists_eq, keys_eq,
      flushAll_eq, expire_eq, ttl_eq, push_eq, lLen_eq, lRange_eq, hSet_eq, hGet_eq, hDel_eq, hGetAll_eq, hLen_eq,
      hExists_eq, hNames_eq, ite_or]

end Indexed

/-- **A parsed command is always answered.** Whatever the parser is given, a command it completes
is not empty, and its dispatch ends with a reply: in every world alone, and also if others
change the store between its calls. So it reads no argument and no value that is not there. -/
theorem parsed_answered {b b' : Bytes} {args : List Bytes} (h : tryParseCommand b = (b', .complete args)) (aof : Bool)
    (envs : Nat → Env) :
    args ≠ [] ∧ (∀ w, ((Indexed.dispatch aof args).run (World.exec envs) w).2.isSome = true) ∧
      ∀ r, (Indexed.dispatch aof args).Ends (World.exec envs) r → r.isSome = true := by
  have hne := tryParseCommand_ne_nil h
  obtain ⟨name, rest, rfl⟩ := List.exists_cons_of_ne_nil hne
  have hends : ∀ r, (Indexed.dispatch aof (name :: rest)).Ends (World.exec envs) r → r.isSome = true := by
    intro r hr
    rw [Indexed.dispatch_eq] at hr
    obtain ⟨x, rfl, -⟩ := dispatch_ends hr
    rfl
  exact ⟨hne, fun w => hends _ (Prog.ends_run _ _ w), hends⟩

/-- A field set by an inline command, in a fresh world. -/
theorem parsed_answered_hSet :
    let args := [ascii "HSET", ascii "h", ascii "f", ascii "v"]
    let r := (Indexed.dispatch true args).run (World.exec fun _ => { now := 0 }) {}
    tryParseCommand (ascii "HSET h f v\r\n") = ([], .complete args) ∧ args ≠ [] ∧ r.2.isSome = true := by
  intro args r
  have hparse : tryParseCommand (ascii "HSET h f v\r\n") = ([], .complete args) := by decide +kernel
  obtain ⟨hne, hrun, -⟩ := parsed_answered hparse true fun _ => { now := 0 }
  exact ⟨hparse, hne, hrun {}⟩

end GoRedis
