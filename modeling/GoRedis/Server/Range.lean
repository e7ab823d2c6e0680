import GoRedis.Lib.Signed
import GoRedis.Server.Frame
import GoRedis.Store.Refinement

/-! `LRANGE`, with the integers the code computes it in.

The indices of a request are 64 bits wide and `LRange` takes `int`s. Saturated and then
counted from the end and clamped in `int` arithmetic, they pick the same elements as the
indices themselves, as long as the length of the list is an `int`. -/
namespace GoRedis
open Interleaving Dispatcher Signed

namespace Store

/-- `NormalizeIndex`, in `int`s. -/
def normalizeIndexInt (index n : Int) : Option Int := if index < 0 then bounded 32 (n + index) else some index

/-- An iterator so far behind `begin()`, if it is one of the list. -/
def iterator (list : List Bytes) (offset : Int) : Option Nat :=
  if 0 ≤ offset ∧ offset ≤ list.length then some offset.toNat else none

/-- The slice of `LRange`, in `int`s: nothing if an addition overflows or an iterator leaves
the list. -/
def sliceInt (list : List Bytes) (start stop : Int) : Option (List Bytes) := do
  let n ← bounded 32 list.length
  let normStart := max (← normalizeIndexInt start n) 0
  let normStop := min (← normalizeIndexInt stop n) (← bounded 32 (n - 1))
  if normStart > normStop ∨ n = 0 then pure []
  else do
    let first ← iterator list normStart
    let last ← iterator list normStop
    let last ← iterator list (last + 1)
    pure ((list.take last).drop first)

theorem normalizeIndexInt_eq {index n : Int} (hindex : Fits 32 index) (hn : 0 ≤ n) (hlen : n < 2 ^ 31) :
    normalizeIndexInt index n = some (normalizeIndex index n) := by
  rw [fits_32] at hindex
  unfold normalizeIndexInt normalizeIndex
  split
  · exact bounded_of_fits (fits_32.mpr (by omega))
  · rfl

theorem iterator_eq {list : List Bytes} {offset : Int} (h : 0 ≤ offset ∧ offset ≤ list.length) :
    iterator list offset = some offset.toNat := if_pos h

/-- **No overflow**, and no iterator outside the list. -/
theorem sliceInt_eq {list : List Bytes} (hlen : list.length < 2 ^ 31) {start stop : Int} (hstart : Fits 32 start)
    (hstop : Fits 32 stop) : sliceInt list start stop = some (slice list start stop) := by
  have hint : asInt list.length = list.length := asInt_of_fits (fits_32.mpr (by omega))
  have hn : bounded 32 list.length = some (list.length : Int) := bounded_of_fits (fits_32.mpr (by omega))
  have hlast : bounded 32 ((list.length : Int) - 1) = some ((list.length : Int) - 1) :=
    bounded_of_fits (fits_32.mpr (by omega))
  have hnorm : ∀ {index : Int}, Fits 32 index →
      normalizeIndexInt index list.length = some (normalizeIndex index list.length) :=
    fun hindex => normalizeIndexInt_eq hindex (by omega) (by omega)
  simp only [sliceInt, slice, hint, hn, hlast, hnorm hstart, hnorm hstop, Option.bind_eq_bind, Option.bind_some]
  split
  · rfl
  · next hne =>
    have hfirst : iterator list (max (normalizeIndex start list.length) 0) = some _ :=
      iterator_eq (by omega)
    have hstop : iterator list (min (normalizeIndex stop list.length) (list.length - 1)) = some _ :=
      iterator_eq (by omega)
    have hend : ((min (normalizeIndex stop list.length) (list.length - 1)).toNat : Int) + 1 =
        min (normalizeIndex stop list.length) (list.length - 1) + 1 := by omega
    rw [hfirst, Option.bind_some, hstop, Option.bind_some, hend, iterator_eq (by omega), Option.bind_some]
    rfl

end Store

theorem fits_clampToInt (v : Int) : Fits 32 (clampToInt v) := by
  rw [fits_32]
  unfold clampToInt
  split_ifs <;> omega

/-- The elements are picked by the indices as they were sent. -/
theorem slice_clampToInt {xs : List Bytes} (hlen : xs.length < 2 ^ 31) (start stop : Int) :
    Store.slice xs (clampToInt start) (clampToInt stop) = Keyspace.range xs start stop := by
  rw [Store.slice_eq hlen]
  unfold Keyspace.range
  dsimp only
  congr 1
  apply List.filter_congr
  rintro ⟨x, i⟩ hmem
  have hi : i < xs.length := by simpa using (List.mem_zipIdx hmem).2.1
  rw [decide_eq_decide]
  unfold clampToInt
  split_ifs <;> omega

/-- A read of a live list. -/
theorem lRange_reply {s : Store} {now : Time} {key : Bytes} {e : Entry} (hlive : (s.live now).lookup key = some e)
    {xs : List Bytes} (hlist : e.datum = .list xs) (start stop : Int) :
    ((s.lRange now key start stop).finish now).2 = .just (Store.slice xs start stop) := by
  have hread := (Store.read_simulates Value.asList_entry (.just []) (fun v => .just (Store.slice v.listValue start stop))
    id (fun xs => .just (Store.slice xs start stop)) rfl (fun _ => rfl) s now key).1
  refine hread.trans ?_
  rw [Keyspace.readAs, hlive]
  simp only [hlist, Datum.asList]

/-- **`LRANGE` is the slice.** For all indices that are read and every live list with a length
that is an `int`, the reply has the elements with these indices, in order, and in `int`s
nothing overflows and no iterator leaves the list. -/
theorem lrange_exact (aof : Bool) (envs : Nat → Env) (w : World) {name key startArg stopArg : Bytes}
    (hname : toUpper name = ascii "LRANGE") {start stop : Int} (hstart : parseInt64Arg startArg = some start)
    (hstop : parseInt64Arg stopArg = some stop) {e : Entry}
    (hlive : (w.store.live (envs w.ticks).now).lookup key = some e) {xs : List Bytes} (hlist : e.datum = .list xs)
    (hlen : xs.length < 2 ^ 31) :
    ((dispatch aof [name, key, startArg, stopArg]).run (World.exec envs) w).2 =
        some (stringsToBulkArray (Keyspace.range xs start stop)) ∧
      Store.sliceInt xs (clampToInt start) (clampToInt stop) = some (Keyspace.range xs start stop) := by
  have hslice := slice_clampToInt hlen start stop
  refine ⟨?_, by rw [Store.sliceInt_eq hlen (fits_clampToInt start) (fits_clampToInt stop), hslice]⟩
  have hreply : (w.exec envs (.call (.lRange key (clampToInt start) (clampToInt stop)))).2 =
      Result.just (Keyspace.range xs start stop) := by
    rw [← hslice]
    exact lRange_reply hlive hlist _ _
  rw [dispatch_lRange hname]
  simp only [lRange, hstart, hstop, call, Prog.run, hreply]
  rfl

/-- The last two elements, with a start and a stop that are no `int`s. -/
theorem lrange_exact_saturated :
    let w : World := { store := (({} : Store).exec { now := 0 } (.rPush [108] [[97], [98], [99]])).1 }
    ((dispatch false [ascii "lrange", [108], ascii "-2", ascii "9223372036854775807"]).run
      (World.exec fun _ => { now := 0 }) w).2 = some (stringsToBulkArray [[98], [99]]) := by
  intro w
  have hpushed : (w.store.data.get [108]).map (fun v => (v.type, v.listValue, v.expiresAt)) =
      some (.list, [[97], [98], [99]], none) := by decide +kernel
  obtain ⟨v, hget, hv⟩ := Option.map_eq_some_iff.mp hpushed
  obtain ⟨htype, hlist, hdeadline⟩ : v.type = .list ∧ v.listValue = [[97], [98], [99]] ∧ v.expiresAt = none := by
    simpa using hv
  have hlive : (w.store.live 0).lookup [108] = some v.entry := by
    rw [HashTable.get_eq] at hget
    exact Store.live_found hget (by simp [isExpired, hdeadline])
  have hdatum : v.entry.datum = .list [[97], [98], [99]] := by simp [Value.entry, Value.datum, htype, hlist]
  have hname : toUpper (ascii "lrange") = ascii "LRANGE" := by decide
  have hstart : parseInt64Arg (ascii "-2") = some (-2) := by decide
  have hstop : parseInt64Arg (ascii "9223372036854775807") = some 9223372036854775807 := by decide
  exact (lrange_exact false (fun _ => { now := 0 }) w hname hstart hstop hlive hdatum (by decide)).1

end GoRedis
