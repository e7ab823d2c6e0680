import GoRedis.Resp.Decoder

/-! Replies that are still arriving.

A client decodes while the server is still sending. Of a value of which only a part has
arrived the decoder reads nothing: not the value, and not another one either. -/
namespace GoRedis
open Codec CommandParser

namespace Decoder

/-! ### Bytes behind a value do not change it -/

theorem steady_line : Steady line := fun _ _ _ tail h => splitCrlf_append h tail

theorem steady_ite {α : Type} {P : Prop} [Decidable P] {r r' : Reader α} (h : Steady r) (h' : Steady r') :
    Steady (if P then r else r') := by
  split
  · exact h
  · exact h'

theorem steady_fail : Steady (failure : Reader RespValue) := fun _ _ _ _ h => nomatch h

theorem steady_number : Steady number := by
  apply steady_line.bind
  intro text buf n rest tail h
  obtain ⟨m, hm, heq⟩ := Option.map_eq_some_iff.mp h
  cases heq
  simp [hm]

theorem steady_bulk (len : Nat) : Steady (bulk len) := by
  apply (steady_bytes len).bind
  intro str
  apply (steady_bytes 2).bind
  intro tail
  exact steady_ite (steady_pure _) steady_fail

theorem steady_sized (nil : RespValue) {body : Nat → Reader RespValue} (h : ∀ len, Steady (body len)) :
    Steady (sized nil body) := by
  apply steady_number.bind
  intro len
  exact steady_ite (steady_pure _) (steady_ite steady_fail (h _))

theorem steady_array {item : Reader RespValue} (h : Steady item) (len : Nat) : Steady (array item len) :=
  (steady_times h len).bind fun _ => steady_pure _

theorem steady_body {item : Reader RespValue} (h : Steady item) (type : UInt8) : Steady (body item type) := by
  unfold body
  apply steady_ite (steady_line.bind fun _ => steady_pure _)
  apply steady_ite (steady_line.bind fun _ => steady_pure _)
  apply steady_ite (steady_number.bind fun _ => steady_pure _)
  apply steady_ite (steady_sized _ steady_bulk)
  exact steady_ite (steady_sized _ (steady_array h)) steady_fail

theorem steady_value (depth : Nat) : Steady (value depth) := by
  induction depth with
  | zero => exact steady_fail
  | succ depth ih => exact steady_byte.bind (steady_body ih)

/-! ### Depth to spare -/

/-- What a reader reads, another one reads too. -/
def Extends {α : Type} (r r' : Reader α) : Prop := ∀ buf x, r buf = some x → r' buf = some x

theorem Extends.bind {α β : Type} {r r' : Reader α} {f f' : α → Reader β} (h : Extends r r')
    (hf : ∀ a, Extends (f a) (f' a)) : Extends (r >>= f) (r' >>= f') := by
  intro buf x hx
  change (r buf).bind (fun p => f p.1 p.2) = _ at hx
  obtain ⟨⟨a, rest⟩, ha, hb⟩ := Option.bind_eq_some_iff.mp hx
  show (r' buf).bind (fun p => f' p.1 p.2) = _
  rw [h buf _ ha, Option.bind_some]
  exact hf a rest x hb

theorem Extends.refl {α : Type} (r : Reader α) : Extends r r := fun _ _ h => h

theorem Extends.times {α : Type} {r r' : Reader α} (h : Extends r r') (n : Nat) :
    Extends (times r n) (times r' n) := by
  induction n with
  | zero => exact .refl _
  | succ n ih => exact h.bind fun a => ih.bind fun as => .refl _

theorem Extends.body {item item' : Reader RespValue} (h : Extends item item') (type : UInt8) :
    Extends (body item type) (body item' type) := by
  have harray : ∀ len, Extends (array item len) (array item' len) :=
    fun len => (h.times len).bind fun _ => .refl _
  have hsized : Extends (sized .nilArray (array item)) (sized .nilArray (array item')) := by
    refine Extends.bind (.refl _) fun len => ?_
    split
    · exact .refl _
    · split
      · exact .refl _
      · exact harray _
  unfold Decoder.body
  split_ifs
  all_goals first | exact .refl _ | exact hsized

/-- More depth reads no less. -/
theorem value_extends {depth depth' : Nat} (h : depth ≤ depth') : Extends (value depth) (value depth') := by
  induction depth generalizing depth' with
  | zero => exact fun _ _ hx => nomatch hx
  | succ depth ih =>
    obtain ⟨depth', rfl⟩ := Nat.exists_eq_add_of_le' h
    exact Extends.bind (.refl _) fun type => (ih (Nat.le_add_left depth depth')).body type

end Decoder

/-- **A part of a value is no value.** -/
theorem decode_truncated {x : RespValue} (h : x.Lined) {buf : Bytes} (hbuf : buf <+: x.encode) (hne : buf ≠ x.encode) :
    decode buf = none := by
  have hnone : Decoder.value x.encode.length buf = none :=
    (Decoder.steady_value _).truncated (Decoder.reads_value x h x.depth_le_length) hbuf hne
  rw [Option.eq_none_iff_forall_ne_some]
  intro r hr
  have hmore := Decoder.value_extends hbuf.length_le buf r hr
  rw [hnone] at hmore
  cases hmore

end GoRedis
