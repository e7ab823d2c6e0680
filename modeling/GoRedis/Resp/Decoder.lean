import GoRedis.Lib.Codec
import GoRedis.Resp.Grammar

/-! How a client reads replies.

A reply starts with a byte for its type. Simple strings, errors and numbers end at the
first CRLF; a bulk string and an array start with how long they are. What `Encode` writes
is read back as the value, with whatever follows left over, unless there is a CRLF inside
a simple string or an error. -/
namespace GoRedis
open Codec CommandParser

/-- There is no CRLF in the text. -/
def Unbroken (s : Bytes) : Prop := splitCrlf s = none

instance (s : Bytes) : Decidable (Unbroken s) :=
  decidable_of_iff ((splitCrlf s).isNone = true) Option.isNone_iff_eq_none

theorem unbroken_cons_cons {c d : UInt8} {s : Bytes} :
    Unbroken (c :: d :: s) ↔ ¬(c = 13 ∧ d = 10) ∧ Unbroken (d :: s) := by
  unfold Unbroken
  rw [splitCrlf]
  split
  · next h => simp [h]
  · next h => simp [h]

/-- Two texts joined where no CRLF can arise. -/
theorem Unbroken.append {s s' : Bytes} (h : Unbroken s) (h' : Unbroken s')
    (hjoin : s.getLast? ≠ some 13 ∨ s'.head? ≠ some 10) : Unbroken (s ++ s') := by
  induction s with
  | nil => exact h'
  | cons c s ih =>
    cases s with
    | nil =>
      cases s' with
      | nil => exact h
      | cons d s' =>
        refine unbroken_cons_cons.mpr ⟨fun hcd => ?_, h'⟩
        rcases hjoin with hlast | hhead
        · exact hlast (congrArg some hcd.1)
        · exact hhead (congrArg some hcd.2)
    | cons d s =>
      obtain ⟨hcd, hs⟩ := unbroken_cons_cons.mp h
      exact unbroken_cons_cons.mpr ⟨hcd, ih hs (by simpa using hjoin)⟩

namespace RespValue

mutual

/-- No simple string and no error in the value has a CRLF in it. -/
def Lined : RespValue → Prop
  | .simpleString str => Unbroken str
  | .error message => Unbroken message
  | .array items => LinedItems items
  | .integer _ | .bulkString _ | .nilBulkString | .nilArray => True

def LinedItems : List RespValue → Prop
  | [] => True
  | item :: items => Lined item ∧ LinedItems items

end

mutual

/-- How deep arrays are nested, counting the value itself. -/
def depth : RespValue → Nat
  | .array items => depthItems items + 1
  | .simpleString _ | .error _ | .integer _ | .bulkString _ | .nilBulkString | .nilArray => 1

def depthItems : List RespValue → Nat
  | [] => 0
  | item :: items => max (depth item) (depthItems items)

end

theorem depth_pos (r : RespValue) : 0 < r.depth := by
  cases r <;> simp [depth]

mutual

theorem depth_le_length (r : RespValue) : r.depth ≤ r.encode.length := by
  cases r with
  | array items =>
    have hitems := depthItems_le_length items
    simp only [depth, encode, List.length_append, List.length_cons]
    omega
  | _ => simp [depth, encode, ascii]

theorem depthItems_le_length (items : List RespValue) : depthItems items ≤ (encodeItems items).length := by
  cases items with
  | nil => exact Nat.zero_le _
  | cons item items =>
    have hitem := depth_le_length item
    have hitems := depthItems_le_length items
    simp only [depthItems, encodeItems, List.length_append]
    omega

end

end RespValue

/-! ### The decoder -/

namespace Decoder

/-- The text up to the first CRLF. -/
def line : Reader Bytes := splitCrlf

def number : Reader Int := do
  let text ← line
  fun rest => (Decimal.readInt text).map fun n => (n, rest)

/-- A bulk string of a length, with the CRLF behind it. -/
def bulk (len : Nat) : Reader RespValue := do
  let str ← bytes len
  let tail ← bytes 2
  if tail = crlf then pure (.bulkString str) else failure

def array (item : Reader RespValue) (len : Nat) : Reader RespValue := do
  let items ← times item len
  pure (.array items)

/-- What starts with its length, where -1 stands for the nil value. -/
def sized (nil : RespValue) (body : Nat → Reader RespValue) : Reader RespValue := do
  let len ← number
  if len = -1 then pure nil else if len < 0 then failure else body len.toNat

/-- What follows a type byte, with a reader for the items of an array. -/
def body (item : Reader RespValue) (type : UInt8) : Reader RespValue :=
  if type = 43 then do let str ← line; pure (.simpleString str)
  else if type = 45 then do let message ← line; pure (.error message)
  else if type = 58 then do let n ← number; pure (.integer n)
  else if type = 36 then sized .nilBulkString bulk
  else if type = 42 then sized .nilArray (array item)
  else failure

/-- A value with arrays nested at most so deep. -/
def value : (depth : Nat) → Reader RespValue
  | 0 => failure
  | depth + 1 => byte >>= body (value depth)

end Decoder

/-- One value off the front of what was received; no value is nested deeper than it is long. -/
def decode : Reader RespValue := fun buf => Decoder.value buf.length buf

/-! ### Reading back -/

theorem splitCrlf_unbroken {s : Bytes} (h : Unbroken s) (rest : Bytes) :
    splitCrlf (s ++ crlf ++ rest) = some (s, rest) := by
  unfold Unbroken at h
  fun_induction splitCrlf s with
  | case1 => rfl
  | case2 c => simp [splitCrlf, crlf]
  | case3 => cases h
  | case4 c d s hcd ih =>
    have hmore := ih (Option.map_eq_none_iff.mp h)
    simp only [List.cons_append] at hmore ⊢
    rw [splitCrlf, if_neg hcd, hmore, Option.map_some]

namespace Decoder

theorem reads_line {s : Bytes} (h : Unbroken s) : Reads line (s ++ crlf) s := splitCrlf_unbroken h

theorem reads_number {s : Bytes} {n : Int} (h : Decimal.readInt s = some n) (hs : 13 ∉ s) :
    Reads number (s ++ crlf) n := by
  intro rest
  show (splitCrlf (s ++ crlf ++ rest)).bind (fun p => (Decimal.readInt p.1).map fun n => (n, p.2)) = _
  rw [splitCrlf_crlf hs, Option.bind_some, h, Option.map_some]

theorem reads_length (n : Nat) : Reads number (Decimal.text n ++ crlf) (n : Int) :=
  reads_number (Decimal.readInt_text n) (Decimal.notMem_text n (by decide))

theorem reads_bulk (str : Bytes) : Reads (bulk str.length) (str ++ crlf) (.bulkString str) := by
  unfold bulk
  exact (reads_bytes str).bind ((reads_bytes crlf).last (if_pos rfl))

theorem reads_sized (nil : RespValue) (body : Nat → Reader RespValue) {n : Nat} {bs : Bytes} {r : RespValue}
    (h : Reads (body n) bs r) : Reads (sized nil body) (Decimal.text n ++ crlf ++ bs) r := by
  unfold sized
  refine (reads_length n).bind ?_
  rw [if_neg (by omega), if_neg (by omega)]
  exact h

theorem reads_sized_nil (nil : RespValue) (body : Nat → Reader RespValue) :
    Reads (sized nil body) (ascii "-1" ++ crlf) nil := by
  unfold sized
  exact (reads_number (by decide) (by decide)).last (if_pos rfl)

/-- The type byte, and the rest. -/
theorem reads_typed {d : Nat} {type : UInt8} {r : Reader RespValue} {bs : Bytes} {x : RespValue}
    (h : Reads r bs x) (hbody : body (value d) type = r) : Reads (value (d + 1)) (type :: bs) x :=
  (reads_byte type).bind (hbody ▸ h)

mutual

theorem reads_value (r : RespValue) (h : r.Lined) {d : Nat} (hd : r.depth ≤ d) :
    Reads (value d) r.encode r := by
  obtain ⟨d, rfl⟩ : ∃ n, d = n + 1 := Nat.exists_eq_succ_of_ne_zero (by have := r.depth_pos; omega)
  cases r with
  | simpleString str => exact reads_typed ((reads_line h).map RespValue.simpleString) rfl
  | error message => exact reads_typed ((reads_line h).map RespValue.error) rfl
  | integer n =>
    have hn := reads_number (Decimal.readInt_intText n) (Decimal.notMem_intText n (by decide) (by decide))
    exact reads_typed (hn.map RespValue.integer) rfl
  | bulkString str =>
    have hstr := reads_sized .nilBulkString bulk (reads_bulk str)
    rw [← List.append_assoc] at hstr
    exact reads_typed hstr rfl
  | nilBulkString => exact reads_typed (reads_sized_nil _ _) rfl
  | array items =>
    have hitems := (reads_items items h (by simpa [RespValue.depth] using hd)).map RespValue.array
    exact reads_typed (reads_sized .nilArray (array (value d)) hitems) rfl
  | nilArray => exact reads_typed (reads_sized_nil _ _) rfl

theorem reads_items (items : List RespValue) (h : RespValue.LinedItems items) {d : Nat}
    (hd : RespValue.depthItems items ≤ d) :
    Reads (times (value d) items.length) (RespValue.encodeItems items) items := by
  cases items with
  | nil => exact .pure []
  | cons item items =>
    rw [RespValue.LinedItems] at h
    rw [RespValue.depthItems, max_le_iff] at hd
    exact (reads_value item h.1 hd.1).bind ((reads_items items h.2 hd.2).map (item :: ·))

end

end Decoder

/-- **Replies are read back.** A value without a CRLF in a simple string or an error is what
a client decodes, and the bytes behind it are left. -/
theorem reads_decode {r : RespValue} (h : r.Lined) : Reads decode r.encode r := by
  intro rest
  have hdepth : r.depth ≤ (r.encode ++ rest).length := by
    rw [List.length_append]
    exact r.depth_le_length.trans (Nat.le_add_right ..)
  exact Decoder.reads_value r h hdepth rest

/-! ### Replies one after another -/

theorem encode_ne_nil (r : RespValue) : r.encode ≠ [] :=
  List.ne_nil_of_length_pos (r.depth_pos.trans_le r.depth_le_length)

/-- **Replies are split in one way.** A value without a CRLF in a simple string or an error,
so in particular one without a CR or an LF there, is not the beginning of another one, and two
streams of such values with the same bytes have the same values. -/
theorem encode_prefix_free :
    (∀ a b : RespValue, a.Lined → b.Lined → ∀ s t : Bytes, a.encode ++ s = b.encode ++ t → a = b ∧ s = t) ∧
      ∀ as bs : List RespValue, RespValue.LinedItems as → RespValue.LinedItems bs →
        RespValue.encodeItems as = RespValue.encodeItems bs → as = bs := by
  have hfree : ∀ a b : RespValue, a.Lined → b.Lined → ∀ s t : Bytes,
      a.encode ++ s = b.encode ++ t → a = b ∧ s = t :=
    fun a b ha hb s t heq => (reads_decode ha).cancel (reads_decode hb) heq
  refine ⟨hfree, fun as => ?_⟩
  induction as with
  | nil =>
    intro bs _ _ heq
    cases bs with
    | nil => rfl
    | cons b bs => exact absurd (List.append_eq_nil_iff.mp heq.symm).1 (encode_ne_nil b)
  | cons a as ih =>
    intro bs has hbs heq
    cases bs with
    | nil => exact absurd (List.append_eq_nil_iff.mp heq).1 (encode_ne_nil a)
    | cons b bs =>
      obtain ⟨rfl, hrest⟩ := hfree a b has.1 hbs.1 _ _ heq
      rw [ih bs has.2 hbs.2 hrest]

/-- A bulk string with the text of a nil array, and a nil array. -/
theorem encode_prefix_free_nested :
    let a := RespValue.array [.bulkString (ascii "*-1\r\n"), .nilBulkString]
    let b := RespValue.array [.nilArray, .nilBulkString]
    a.Lined ∧ b.Lined ∧ ∀ s t : Bytes, a.encode ++ s ≠ b.encode ++ t := by
  intro a b
  have ha : a.Lined := ⟨trivial, trivial, trivial⟩
  have hb : b.Lined := ⟨trivial, trivial, trivial⟩
  refine ⟨ha, hb, fun s t heq => ?_⟩
  have hsame := (encode_prefix_free.1 a b ha hb s t heq).1
  simp [a, b] at hsame

end GoRedis
