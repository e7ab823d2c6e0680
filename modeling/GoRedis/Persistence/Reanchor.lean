import GoRedis.Persistence.Reload
import GoRedis.Store.Refinement

/-! A deadline that is saved and loaded, in 64 bits.

On its way through the file a deadline is put on the wall clock, whose readings are large
already, and back on another steady clock. Each sum is formed in 64 bits. What fits on the
steady clock need not fit on the wall clock: a deadline that is far enough ahead wraps around
to the past and the key is taken for expired. -/
namespace GoRedis
open Codec Keyspace Signed

/-- The steady deadline that `LoadSnapshot` ends up with, each sum in 64 bits: what remains at
the save, on the wall clock; in milliseconds, as it is written; back in nanoseconds, as it is
read; and what remains of that at the load, on the steady clock. Nothing if one overflows. -/
def reanchored (steadyNow wallNow deadline : Int) (now : LoadClocks) : Option Int := do
  let remaining ← bounded 64 (deadline - steadyNow)
  let nanos ← bounded 64 (toMillis remaining * 1000000)
  let wallDeadline ← bounded 64 (wallNow + nanos)
  let written ← bounded 64 (toMillis wallDeadline)
  let read ← bounded 64 (written * 1000000)
  let left ← bounded 64 (read - now.wall)
  bounded 64 (now.steady + left)

/-- The deadline on the wall clock, in exact arithmetic: what remains of it is truncated to
milliseconds, and so is the sum. -/
def wallDeadline (steadyNow wallNow deadline : Int) : Int :=
  (wallNow + (deadline - steadyNow) / 1000000 * 1000000) / 1000000 * 1000000

/-- What a deadline needs of the clocks. At the save, what remains of it fits in 64 bits, and so
does its sum with the reading of the wall clock; at the load, it is ahead of both readings of the
wall clock, and it fits on the steady clock. -/
structure Survives (steadyNow wallNow deadline : Int) (now : LoadClocks) : Prop where
  remaining : deadline - steadyNow < 2 ^ 63
  saved : wallNow + (deadline - steadyNow) / 1000000 * 1000000 < 2 ^ 63
  rdb : now.rdbWall < wallDeadline steadyNow wallNow deadline
  wall : now.wall < wallDeadline steadyNow wallNow deadline
  loaded : now.steady + (wallDeadline steadyNow wallNow deadline - now.wall) < 2 ^ 63

theorem toMillis_nonneg {n : Int} (h : 0 ≤ n) : toMillis n = n / 1000000 := Int.tdiv_eq_ediv_of_nonneg h

section
variable {steadyNow wallNow deadline : Int} {now : LoadClocks}

/-- The deadline in the file, as long as it fits. -/
theorem rdbDeadline_fits (hlive : steadyNow < deadline) (hwall : 0 ≤ wallNow)
    (hremaining : deadline - steadyNow < 2 ^ 63)
    (hsaved : wallNow + (deadline - steadyNow) / 1000000 * 1000000 < 2 ^ 63) (rep : ClockRep) :
    rdbDeadline rep steadyNow wallNow deadline = wallDeadline steadyNow wallNow deadline := by
  have hcount : ∀ {n : Int}, 0 ≤ n → n < 2 ^ 63 → rep.count n = n :=
    fun hlow hhigh => ClockRep.count_of_fits (fits_64.mpr (by omega)) rep
  unfold rdbDeadline ofMillis wallDeadline
  rw [hcount (n := deadline - steadyNow) (by omega) hremaining, toMillis_nonneg (n := deadline - steadyNow) (by omega),
    hcount (n := (deadline - steadyNow) / 1000000 * 1000000) (by omega) (by omega),
    hcount (n := wallNow + (deadline - steadyNow) / 1000000 * 1000000) (by omega) hsaved, toMillis_nonneg (by omega)]
  exact hcount (by omega) (by omega)

/-- **When no sum overflows**: then the deadline is as far ahead as the file says. -/
theorem reanchored_eq_some (hlive : steadyNow < deadline) (hwall : 0 ≤ wallNow) {deadline' : Int} :
    reanchored steadyNow wallNow deadline now = some deadline' ↔
      (deadline - steadyNow < 2 ^ 63 ∧ wallNow + (deadline - steadyNow) / 1000000 * 1000000 < 2 ^ 63) ∧
        Fits 64 (wallDeadline steadyNow wallNow deadline - now.wall) ∧
        Fits 64 (now.steady + (wallDeadline steadyNow wallNow deadline - now.wall)) ∧
        now.steady + (wallDeadline steadyNow wallNow deadline - now.wall) = deadline' := by
  have hmillis : toMillis (deadline - steadyNow) = (deadline - steadyNow) / 1000000 := toMillis_nonneg (by omega)
  have hwritten : toMillis (wallNow + (deadline - steadyNow) / 1000000 * 1000000) =
      (wallNow + (deadline - steadyNow) / 1000000 * 1000000) / 1000000 := toMillis_nonneg (by omega)
  -- the sums up to the one that is read are between zero and the first two
  have hfirst : deadline - steadyNow < 2 ^ 63 ∧ wallNow + (deadline - steadyNow) / 1000000 * 1000000 < 2 ^ 63 ↔
      Fits 64 (deadline - steadyNow) ∧ Fits 64 ((deadline - steadyNow) / 1000000 * 1000000) ∧
        Fits 64 (wallNow + (deadline - steadyNow) / 1000000 * 1000000) ∧
        Fits 64 ((wallNow + (deadline - steadyNow) / 1000000 * 1000000) / 1000000) ∧
        Fits 64 (wallDeadline steadyNow wallNow deadline) := by
    simp only [fits_64, wallDeadline]
    omega
  rw [hfirst]
  simp only [reanchored, Option.bind_eq_bind, Option.bind_eq_some_iff, bounded_eq_some, and_assoc,
    exists_eq_left', exists_and_left, hmillis, hwritten, wallDeadline]

theorem Survives.fits (h : Survives steadyNow wallNow deadline now) (hread : 0 ≤ now.wall)
    (hsteady : -2 ^ 63 ≤ now.steady) :
    Fits 64 (wallDeadline steadyNow wallNow deadline - now.wall) ∧
      Fits 64 (now.steady + (wallDeadline steadyNow wallNow deadline - now.wall)) ∧
      now.steady < now.steady + (wallDeadline steadyNow wallNow deadline - now.wall) := by
  obtain ⟨-, hsaved, -, hwall, hloaded⟩ := h
  have hfile : wallDeadline steadyNow wallNow deadline < 2 ^ 63 := by
    unfold wallDeadline
    omega
  -- the clock readings as integers, for the arithmetic
  obtain ⟨rdbWall, (steady : Int), (wall : Int)⟩ := now
  generalize wallDeadline steadyNow wallNow deadline = file at *
  change 0 ≤ wall at hread
  change -2 ^ 63 ≤ steady at hsteady
  change wall < file at hwall
  change steady + (file - wall) < 2 ^ 63 at hloaded
  show Fits 64 (file - wall) ∧ Fits 64 (steady + (file - wall)) ∧ steady < steady + (file - wall)
  simp only [fits_64]
  omega

/-- What a live entry is loaded as, if its deadline fits at the save. -/
theorem reloaded_fits {e : Entry} (hdeadline : e.deadline = some deadline) (hlive : steadyNow < deadline)
    (hwall : 0 ≤ wallNow) (hremaining : deadline - steadyNow < 2 ^ 63)
    (hsaved : wallNow + (deadline - steadyNow) / 1000000 * 1000000 < 2 ^ 63) (rep : ClockRep) :
    e.reloaded rep steadyNow wallNow now =
      if wallDeadline steadyNow wallNow deadline ≤ now.rdbWall ∨ wallDeadline steadyNow wallNow deadline ≤ now.wall
      then none
      else some { e with deadline := some (rep.count (now.steady +
        rep.count (wallDeadline steadyNow wallNow deadline - now.wall))) } := by
  rw [Entry.reloaded, hdeadline]
  dsimp only
  rw [rdbDeadline_fits hlive hwall hremaining hsaved rep]

end

/-! ### Save and load -/

theorem toMillis_fits {n : Int} (h : Fits 64 n) : -256 ^ 8 ≤ 2 * toMillis n ∧ 2 * toMillis n < 256 ^ 8 := by
  have hmillis : (toMillis n).natAbs = n.natAbs / 1000000 := Int.natAbs_tdiv ..
  rw [fits_64] at h
  omega

/-- In 64 bits every deadline of a snapshot fits in the file. -/
theorem SnapshotEntry.Sized.fits {s : Store} {steadyNow wallNow : Time} {e : SnapshotEntry}
    (he : e ∈ s.snapshot .int64 steadyNow wallNow) (h : e.Sized) : e.Fits := by
  obtain ⟨key, v, -, -, rfl⟩ := (Store.mem_snapshot ..).mp he
  refine ⟨h.key, h.str, h.list, h.elems, h.hash, h.fields, fun t ht => ?_⟩
  obtain ⟨deadline, -, rfl⟩ := Option.mem_map.mp ht
  exact toMillis_fits (fits_bmod (by decide) _)

/-- **Which deadlines survive a restart.** A key that was live at the save is live after the load,
with what it held and the deadline that was computed without overflow, exactly if its deadline
fits on both clocks and is ahead of the wall clock, both as the file has it. -/
theorem reload_keeps {s target : Store} {steadyNow wallNow deadline : Int} {now : LoadClocks} {key : Bytes} {e : Entry}
    (hlive : (s.live steadyNow).lookup key = some e) (hdeadline : e.deadline = some deadline)
    (hsized : ∀ entry ∈ s.snapshot .int64 steadyNow wallNow, entry.Sized)
    (hcount : (s.snapshot .int64 steadyNow wallNow).length < 256 ^ 8) (hmax : target.maxMemoryBytes = 0)
    (hwall : 0 ≤ wallNow) (hread : 0 ≤ now.wall) (hsteady : -2 ^ 63 ≤ now.steady) (draw : Nat → Nat → Nat) :
    (∃ deadline', reanchored steadyNow wallNow deadline now = some deadline' ∧
      ((loadRdb .int64 now draw (saveRdb .int64 steadyNow wallNow s) target).1.live now.steady).lookup key =
        some { e with deadline := some deadline' }) ↔
      Survives steadyNow wallNow deadline now := by
  have hahead : steadyNow < deadline := by
    rw [Store.lookup_live, Option.bind_eq_some_iff] at hlive
    obtain ⟨v, -, hkeep⟩ := hlive
    exact keep_deadline hkeep hdeadline
  have hlookup := loadRdb_lookup .int64 steadyNow wallNow (fun entry he => (hsized entry he).fits he) hcount now draw
    hmax key
  rw [hlive, Option.bind_some] at hlookup
  have hloaded : ((loadRdb .int64 now draw (saveRdb .int64 steadyNow wallNow s) target).1.live now.steady).lookup key =
      (e.reloaded .int64 steadyNow wallNow now).bind (Entry.keep now.steady) := by
    rw [Store.lookup_live, ← hlookup, Option.bind_map]
    rfl
  rw [hloaded]
  constructor
  · rintro ⟨deadline', hsums, hkept⟩
    obtain ⟨⟨hremaining, hsaved⟩, hleft, hsum, rfl⟩ := (reanchored_eq_some hahead hwall).mp hsums
    rw [reloaded_fits hdeadline hahead hwall hremaining hsaved] at hkept
    split at hkept
    · cases hkept
    · next hlater =>
      rw [not_or, not_le, not_le] at hlater
      exact ⟨hremaining, hsaved, hlater.1, hlater.2, (fits_64.mp hsum).2⟩
  · intro h
    obtain ⟨hleft, hsum, hlater⟩ := h.fits hread hsteady
    have hkept : ¬(wallDeadline steadyNow wallNow deadline ≤ now.rdbWall ∨
        wallDeadline steadyNow wallNow deadline ≤ now.wall) := by
      rw [not_or, not_le, not_le]
      exact ⟨h.rdb, h.wall⟩
    refine ⟨_, (reanchored_eq_some hahead hwall).mpr ⟨⟨h.remaining, h.saved⟩, hleft, hsum, rfl⟩, ?_⟩
    rw [reloaded_fits hdeadline hahead hwall h.remaining h.saved, if_neg hkept, ClockRep.count_of_fits hleft,
      ClockRep.count_of_fits hsum, Option.bind_some]
    refine if_neg ?_
    simpa using hlater

/-- A key with ten seconds to live, loaded after one. -/
theorem reload_keeps_ten_seconds :
    let calls : List Call := [.set [107] [118], .expire [107] 10]
    let s := calls.foldl (fun s c => (s.exec { now := 0, rep := .int64 } c).1) ({} : Store)
    let now : LoadClocks := { rdbWall := 1800000001000000000, steady := 7, wall := 1800000001000000000 }
    let s' := (loadRdb .int64 now (fun _ _ => 0) (saveRdb .int64 0 1800000000000000000 s) {}).1
    ∃ e, (s.live 0).lookup [107] = some e ∧ e.deadline = some 10000000000 ∧
      ∃ deadline', reanchored 0 1800000000000000000 10000000000 now = some deadline' ∧
        (s'.live now.steady).lookup [107] = some { e with deadline := some deadline' } := by
  intro calls s now s'
  have hget : (s.data.get [107]).bind Value.expiresAt = some 10000000000 := by decide +kernel
  obtain ⟨v, hv, hdeadline⟩ := Option.bind_eq_some_iff.mp hget
  rw [HashTable.get_eq] at hv
  have hlive : (s.live 0).lookup [107] = some v.entry :=
    Store.live_found hv (by simp [isExpired, hdeadline])
  have hfits : ∀ e ∈ s.snapshot .int64 0 1800000000000000000, e.Fits := by decide +kernel
  have hcount : (s.snapshot .int64 0 1800000000000000000).length < 256 ^ 8 := by decide +kernel
  have hsurvives : Survives 0 1800000000000000000 10000000000 now :=
    ⟨by decide, by decide, by decide, by decide, by decide⟩
  exact ⟨v.entry, hlive, hdeadline, (reload_keeps hlive hdeadline (fun e he => (hfits e he).sized) hcount (by rfl)
    (by decide) (by decide) (by decide) fun _ _ => 0).mpr hsurvives⟩

/-- A deadline that fits on the steady clock but not on the wall clock: saved and loaded within
a second, the key is gone. -/
theorem reload_overflows :
    let calls : List Call := [.set [107] [118], .expire [107] 9000000000]
    let s := calls.foldl (fun s c => (s.exec { now := 0, rep := .int64 } c).1) ({} : Store)
    let now : LoadClocks := { rdbWall := 1800000001000000000, steady := 7, wall := 1800000001000000000 }
    let r := loadRdb .int64 now (fun _ _ => 0) (saveRdb .int64 0 1800000000000000000 s) {}
    ((s.data.get [107]).bind Value.expiresAt = some 9000000000000000000 ∧ Fits 64 9000000000000000000 ∧
        [107] ∈ s.live 0) ∧
      reanchored 0 1800000000000000000 9000000000000000000 now = none ∧ r.2 = true ∧ [107] ∉ r.1.live 7 := by
  intro calls s now r
  refine ⟨⟨?_, by decide, (Store.mem_live ..).mpr ?_⟩, ?_, ?_, mt (Store.mem_live ..).mp ?_⟩
  all_goals decide +kernel

end GoRedis
