import GoRedis.Lib.Tickets
import GoRedis.Store.Recency
import GoRedis.Store.Threads

/-! What the stamps are worth when reads run at once.

`Touch` draws a tick and stores it in two steps, under a mutex that readers share. So a value can
be left with the stamp of a read that began before the last one. What an eviction goes by is still
sound up to that (`run_stamps`): no two values have one stamp, so there is always one that is the
oldest; and a stamp from before some moment is the one the value had then, or was drawn for it by
a read that was under way. -/
namespace GoRedis.Locking
open Recency SharedMutex

variable {ι : Type}

/-- The tick a thread has drawn, and for what. -/
def Stage.ticket : Stage → Option (Bytes × Nat)
  | .stamping _ _ key ticket => some (key, ticket)
  | _ => none

def Machine.tickets (m : Machine ι) : Tickets ι Bytes := fun i => (m.threads i).ticket

theorem Stage.ticket_of_reads {stage : Stage} (h : stage.reads = none) : stage.ticket = none := by
  cases stage with
  | stamping => cases h
  | _ => rfl

/-- What is done with the mutex held alone stamps as a call does. -/
theorem change_moves [DecidableEq ι] (reading : Reading) (m : Machine ι) (i : ι) (job : Job) :
    ∃ accesses, Moves m.store.stamps accesses (m.change reading i job).store.stamps := by
  cases job with
  | request r =>
    cases r with
    | call c => exact ⟨_, m.store.operate_moves (.call reading.toEnv c)⟩
    | snapshot => exact ⟨[], .refl _⟩
    | loadSnapshot entries =>
      exact ⟨_, m.store.operate_moves (.loadSnapshot reading.rep reading.now reading.wall reading.draw entries)⟩
  | remove key rest => exact ⟨_, m.store.operate_moves (.deleteIfExpired reading.now key)⟩
  | purge keys => exact ⟨[], (m.store.deleteAllExpired_discards reading.now keys).moves⟩

variable [DecidableEq ι]

theorem update_tickets (threads : ι → Stage) (i : ι) (stage : Stage) :
    (fun j => (Function.update threads i stage j).ticket) =
      Function.update (fun j => (threads j).ticket) i stage.ticket := by
  funext j
  by_cases hj : j = i
  · simp [hj]
  · simp [hj]

/-- A step that neither draws nor stores. -/
theorem tickets_same {m m' : Machine ι} {i : ι} {stage : Stage} (h : m'.threads = Function.update m.threads i stage)
    (hsame : stage.ticket = (m.threads i).ticket) : m'.tickets = m.tickets := by
  unfold Machine.tickets
  rw [h, update_tickets, hsame]
  exact Function.update_eq_self i fun j => (m.threads j).ticket

/-- **One step.** -/
theorem Machine.Did.advances {m m' : Machine ι} (hsound : Sound m) {reading : Reading} {i : ι}
    (h : m.Did reading i m') : Advances m.store.stamps m.tickets m'.store.stamps m'.tickets := by
  cases h with
  | quiet stage hthreads hstore hreplies hbegins hbefore hafter =>
    rw [hstore, tickets_same hthreads (by rw [Stage.ticket_of_reads hbefore, Stage.ticket_of_reads hafter])]
    exact .same
  | scan hi next =>
    have hsame : (m.goto i (.leaving next)).tickets = m.tickets := tickets_same rfl (by rw [hi]; rfl)
    rw [hsame]
    exact .same
  | @look r _ hi next =>
    have hsame : ((m.answer i r (first reading m.store r).reply).goto i (.leaving next)).tickets = m.tickets :=
      tickets_same rfl (by rw [hi]; rfl)
    rw [hsame]
    exact .same
  | @find r _ hi key =>
    have hsame : (m.goto i (.touching r reading key)).tickets = m.tickets := tickets_same rfl (by rw [hi]; rfl)
    rw [hsame]
    exact .same
  | @draw r seen key hi =>
    have hdrawn : Machine.tickets ({ m with store := { m.store with accessClock := m.store.accessClock + 1 } }.goto i
        (.stamping r seen key m.store.accessClock)) =
          Function.update m.tickets i (some (key, m.store.stamps.clock)) := update_tickets ..
    rw [hdrawn]
    refine .draw i key ?_ rfl rfl
    rw [Machine.tickets, hi]
    rfl
  | @stamp r seen key ticket store hi hstamp =>
    have hstored : Machine.tickets ({ m with store }.goto i (.copying r seen)) = Function.update m.tickets i none :=
      update_tickets ..
    obtain ⟨v, hv, hdata, hclock, -⟩ := stampAs_data hstamp
    rw [hstored]
    refine .store i key ticket ?_ ?_ (fun k hk => ?_) hclock
    · rw [Machine.tickets, hi]
      rfl
    · show (store.data.toFinmap.lookup key).map Value.lastAccessedSeq = some ticket
      rw [hdata, Finmap.lookup_insert]
      rfl
    · show (store.data.toFinmap.lookup k).map Value.lastAccessedSeq = _
      rw [hdata, Finmap.lookup_insert_of_ne _ hk]
      rfl
  | @copy r seen hi =>
    have hsame : ((m.answer i r (first seen m.store r).reply).goto i (.leaving none)).tickets = m.tickets :=
      tickets_same rfl (by rw [hi]; rfl)
    rw [hsame]
    exact .same
  | @change job hi =>
    -- nobody else holds the mutex, and so nobody has a ticket
    have hnone : ∀ j, m.tickets j = none := by
      intro j
      apply Stage.ticket_of_reads
      by_cases hj : j = i
      · rw [hj, hi]
        rfl
      · exact Stage.reads_outside (hsound.guards.alone (by rw [hi]; rfl) hj)
    have hsame : (m.change reading i job).tickets = m.tickets := by
      cases job <;> exact tickets_same rfl (by rw [hi]; rfl)
    obtain ⟨accesses, hmoves⟩ := change_moves reading m i job
    rw [hsame]
    exact .alone hnone hmoves

/-! ### Runs -/

theorem run_issued {m m' : Machine ι} (hsound : Sound m) (h : Issued m.store.stamps m.tickets)
    {readings : Nat → Reading} {n : Nat} {turns : List (ι × Task)} (hrun : m.run readings n turns = some m') :
    Issued m'.store.stamps m'.tickets ∧ Since m.store.stamps m.tickets m'.store.stamps m'.tickets := by
  induction turns generalizing n m with
  | nil =>
    cases hrun
    exact ⟨h, .refl _ _⟩
  | cons turn turns ih =>
    obtain ⟨m₁, hstep, hsound₁⟩ := hsound.step (readings n) turn.1 turn.2
    rw [Machine.run, hstep] at hrun
    have hadvances := (Machine.did hstep).advances hsound
    obtain ⟨hissued, hsince⟩ := ih hsound₁ (h.advances hadvances) hrun
    exact ⟨hissued, hadvances.since.trans hsince⟩

/-- **Stamps of reads at once.** Any number of threads call a store with any budget and sweep it,
from any moment of a run to any later one. No two entries have the same stamp, and all stamps are
below the access clock. An entry whose stamp is older than the earlier moment had it then, or it
was drawn for the entry by a read that had not stored it yet. -/
theorem run_stamps (readings : Nat → Reading) (limit : Nat) (turns later : List (ι × Task)) :
    ∃ m m' : Machine ι,
      ({ store := { maxMemoryBytes := limit } } : Machine ι).run readings 0 turns = some m ∧
      m.run readings turns.length later = some m' ∧
      ∀ key v, m'.store.data.get key = some v →
        v.lastAccessedSeq < m'.store.accessClock ∧
        (∀ key' v', m'.store.data.get key' = some v' → v'.lastAccessedSeq = v.lastAccessedSeq → key' = key) ∧
        (v.lastAccessedSeq < m.store.accessClock →
          (∃ v', m.store.data.get key = some v' ∧ v'.lastAccessedSeq = v.lastAccessedSeq) ∨
            ∃ i r seen, m.threads i = .stamping r seen key v.lastAccessedSeq) := by
  have hstart : Sound ({ store := { maxMemoryBytes := limit } } : Machine ι) := .start _
  obtain ⟨m, hrun, hsound⟩ := hstart.run readings 0 turns
  obtain ⟨m', hrun', -⟩ := hsound.run readings turns.length later
  obtain ⟨hissued, -⟩ := run_issued hstart (issued_of_none (fun _ => rfl) fun _ => rfl) hrun
  obtain ⟨hissued', hsince⟩ := run_issued hsound hissued hrun'
  refine ⟨m, m', hrun, hrun', fun key v hv => ?_⟩
  have hstamp : m'.store.stamps.stamp key = some v.lastAccessedSeq := Store.stamp_of_lookup (HashTable.get_eq .. ▸ hv)
  refine ⟨hissued'.below key _ hstamp, fun key' v' hv' hsame => ?_, fun hold => ?_⟩
  · have hstamp' : m'.store.stamps.stamp key' = some v'.lastAccessedSeq :=
      Store.stamp_of_lookup (HashTable.get_eq .. ▸ hv')
    rw [hsame] at hstamp'
    exact hissued'.distinct key' key _ hstamp' hstamp
  · rcases hsince.stamp key _ hstamp with hthen | ⟨i, hi⟩ | hnew
    · left
      obtain ⟨v', hv', heq⟩ := Option.map_eq_some_iff.mp hthen
      exact ⟨v', (HashTable.get_eq ..).trans hv', heq⟩
    · right
      have hticket : (m.threads i).ticket = some (key, v.lastAccessedSeq) := hi
      cases hstage : m.threads i with
      | stamping r seen k ticket =>
        rw [hstage] at hticket
        cases hticket
        exact ⟨i, r, seen, hstage⟩
      | _ =>
        rw [hstage] at hticket
        cases hticket
    · exact absurd hold (Nat.not_lt.mpr hnew)

end GoRedis.Locking
