import GoRedis.Store.Recency

/-! Whether a write survives the eviction it causes.

The entry that was just written has the largest stamp of the table, so a sample with any
other entry in it has another victim. A sample is drawn with replacement, from the heads of
the buckets only, and can have the new entry alone in it although the table has others; then
the new entry goes, however small it is. -/
namespace GoRedis
open Keyed Recency

/-- The key that a call writes an entry to. -/
def Call.written? : Call → Option Bytes
  | .set key _ | .lPush key _ | .rPush key _ | .hSet key _ => some key
  | _ => none

namespace Store

/-- The sample, if it has an entry in it, has one of another key. -/
def Spares (key : Bytes) (draw : Nat → Nat) (s : Store) : Prop :=
  s.data.sampleKeys kSampleSize draw ≠ [] → ∃ e ∈ s.data.sampleKeys kSampleSize draw, e.1 ≠ key

instance (key : Bytes) (draw : Nat → Nat) (s : Store) : Decidable (s.Spares key draw) :=
  decidable_of_iff (s.data.sampleKeys kSampleSize draw = [] ∨ ∃ e ∈ s.data.sampleKeys kSampleSize draw, e.1 ≠ key)
    Decidable.or_iff_not_imp_left

/-- It does if the table has another key. -/
def Representative (key : Bytes) (draw : Nat → Nat) (s : Store) : Prop :=
  (∃ k, k ≠ key ∧ k ∈ s.data.toFinmap) → s.Spares key draw

/-! ### The latest entry -/

/-- The key holds `v`, which was stamped after all other entries. -/
structure Latest (key : Bytes) (v : Value) (s : Store) : Prop where
  present : s.data.toFinmap.lookup key = some v
  later : ∀ k v', k ≠ key → s.data.toFinmap.lookup k = some v' → v'.lastAccessedSeq < v.lastAccessedSeq

section
variable {s : Store} {key : Bytes} {v : Value}

theorem latest_of_ordered {log : List Bytes} (h : Ordered s.stamps (key :: log))
    (hv : s.data.toFinmap.lookup key = some v) : Latest key v s := by
  refine ⟨hv, fun k v' hk hv' => ?_⟩
  refine (h.order k key _ _ (stamp_of_lookup hv') (stamp_of_lookup hv)).mpr ?_
  rw [List.idxOf_cons_self, List.idxOf_cons_ne _ (Ne.symm hk)]
  exact Nat.succ_pos _

/-- One iteration whose sample has another key. -/
theorem Latest.spared (h : Latest key v s) {draw : Nat → Nat} (hspares : s.Spares key draw) :
    Latest key v (s.evictOnce draw) := by
  refine ⟨?_, fun k v' hk hv' => h.later k v' hk ((s.evictOnce_discards draw).lookup hv')⟩
  unfold evictOnce
  cases hs : s.data.sampleKeys kSampleSize draw with
  | nil => exact h.present
  | cons e rest =>
    rw [Spares, hs] at hspares
    obtain ⟨e', he', hne⟩ := hspares (List.cons_ne_nil e rest)
    have hother := h.later e'.1 e'.2 hne (s.data.sampleKeys_mem _ _ (hs ▸ he'))
    have hvictim : key ≠ (victim e rest).1 := by
      intro heq
      have hlookup := victim_lookup hs
      rw [← heq, h.present] at hlookup
      have hle := victim_le e rest e' he'
      rw [← Option.some.inj hlookup] at hle
      omega
    rw [discard_data, Finmap.lookup_erase_ne hvictim]
    exact h.present

/-- One whose sample has the key alone. -/
theorem evictOnce_takes {draw : Nat → Nat} (h : ¬s.Spares key draw) :
    (s.evictOnce draw).data.toFinmap.lookup key = none := by
  unfold evictOnce
  cases hs : s.data.sampleKeys kSampleSize draw with
  | nil => exact absurd (fun hne => absurd hs hne) h
  | cons e rest =>
    have hvictim : (victim e rest).1 = key := by
      by_contra hne
      exact h fun _ => ⟨victim e rest, hs ▸ victim_mem e rest, hne⟩
    rw [← hvictim]
    exact discard_lookup ..

end

/-! ### The eviction -/

section
variable {s : Store} {key : Bytes} {v : Value} {draw : Nat → Nat → Nat}

theorem lookup_evictions (its : List ((Nat → Nat) × Store)) (h : s.data.toFinmap.lookup key = none) :
    (its.foldl (fun s i => s.evictOnce i.1) s).data.toFinmap.lookup key = none := by
  induction its generalizing s with
  | nil => exact h
  | cons i its ih =>
    refine ih (Option.eq_none_iff_forall_ne_some.mpr fun v hv => ?_)
    rw [(s.evictOnce_discards i.1).lookup hv] at h
    cases h

theorem Latest.evictLoop (h : Latest key v s) (rounds round : Nat)
    (hspares : ∀ i ∈ iterationsFor draw rounds round s, i.2.Spares key i.1) :
    Latest key v (evictLoop draw rounds round s) := by
  rw [evictLoop_iterations]
  induction rounds generalizing round s with
  | zero => exact h
  | succ rounds ih =>
    unfold iterationsFor at hspares ⊢
    split at hspares
    · next hover =>
      rw [if_pos hover, List.foldl_cons]
      obtain ⟨hfirst, hrest⟩ := List.forall_mem_cons.mp hspares
      have hnext := h.spared hfirst
      split at hrest
      · next hempty =>
        rw [if_pos hempty]
        exact hnext
      · next hmore =>
        rw [if_neg hmore]
        exact ih hnext _ hrest
    · next hwithin =>
      rw [if_neg hwithin]
      exact h

theorem evictLoop_takes (rounds round : Nat)
    (htakes : ∃ i ∈ iterationsFor draw rounds round s, ¬i.2.Spares key i.1) :
    (evictLoop draw rounds round s).data.toFinmap.lookup key = none := by
  rw [evictLoop_iterations]
  induction rounds generalizing round s with
  | zero =>
    obtain ⟨i, hi, -⟩ := htakes
    cases hi
  | succ rounds ih =>
    obtain ⟨i, hi, htakes⟩ := htakes
    unfold iterationsFor at hi ⊢
    split at hi
    · next hover =>
      rw [if_pos hover, List.foldl_cons]
      rcases List.mem_cons.mp hi with rfl | hi
      · exact lookup_evictions _ (evictOnce_takes htakes)
      · split at hi
        · cases hi
        · next hmore =>
          rw [if_neg hmore]
          exact ih _ ⟨i, hi, htakes⟩
    · cases hi

/-- The latest entry stays while every sample has another key. -/
theorem Latest.evict (h : Latest key v s) (hspares : ∀ i ∈ s.iterations draw, i.2.Spares key i.1) :
    (evictIfOverBudget draw s).data.toFinmap.lookup key = some v := by
  unfold evictIfOverBudget
  unfold iterations at hspares
  split
  · exact h.present
  · next hmax =>
    rw [if_neg hmax] at hspares
    exact (h.evictLoop _ _ hspares).present

/-- A key goes with the first sample that has it alone. -/
theorem evict_takes (htakes : ∃ i ∈ s.iterations draw, ¬i.2.Spares key i.1) :
    (evictIfOverBudget draw s).data.toFinmap.lookup key = none := by
  unfold evictIfOverBudget
  unfold iterations at htakes
  split
  · next hmax =>
    rw [if_pos hmax] at htakes
    obtain ⟨i, hi, -⟩ := htakes
    cases hi
  · next hmax =>
    rw [if_neg hmax] at htakes
    exact evictLoop_takes _ _ htakes

/-- A store that is over its budget with an entry that is not has another entry. -/
theorem Accounted.other (h : s.Accounted) {max : Nat} (hover : s.usedMemoryBytes > max)
    (hfits : ∀ v, s.data.toFinmap.lookup key = some v → estimateEntryBytes key v ≤ max) :
    ∃ k, k ≠ key ∧ k ∈ s.data.toFinmap := by
  by_contra hnone
  have hrest : s.data.toFinmap.erase key = ∅ := by
    refine Finmap.ext_lookup fun k => ?_
    rw [Finmap.lookup_empty, Finmap.lookup_eq_none, Finmap.mem_erase]
    exact fun hk => hnone ⟨k, hk⟩
  have hused := ((accounted_iff s).mp h).1
  have hzero : total estimateEntryBytes (∅ : Finmap fun _ : Bytes => Value) = 0 := rfl
  cases hv : s.data.toFinmap.lookup key with
  | none =>
    rw [erase_of_lookup hv] at hrest
    rw [hrest] at hused
    omega
  | some v =>
    have hbytes := total_erase estimateEntryBytes hv
    rw [hrest, ← hused] at hbytes
    have hle := hfits v hv
    omega

/-- While an entry fits in the budget, every iteration finds another one in the table. -/
theorem iterations_other (h : s.Accounted) (hv : s.data.toFinmap.lookup key = some v)
    (hfits : estimateEntryBytes key v ≤ s.maxMemoryBytes) :
    ∀ i ∈ s.iterations draw, ∃ k, k ≠ key ∧ k ∈ i.2.data.toFinmap := by
  let P : Store → Prop := fun t => t.Accounted ∧ t.maxMemoryBytes = s.maxMemoryBytes ∧
    ∀ v', t.data.toFinmap.lookup key = some v' → v' = v
  have hkeep : ∀ draw t, P t → P (t.evictOnce draw) := fun draw t ht =>
    have hd := t.evictOnce_discards draw
    ⟨hd.accounted ht.1, hd.max.trans ht.2.1, fun v' hv' => ht.2.2 v' (hd.lookup hv')⟩
  have hstart : P s := ⟨h, rfl, fun v' hv' => Option.some.inj (hv'.symm.trans hv)⟩
  intro i hi
  obtain ⟨⟨haccounted, hmax, hsame⟩, hover, -⟩ := iterations_keep hkeep hstart i hi
  refine haccounted.other hover fun v' hv' => ?_
  rw [hsame v' hv', hmax]
  exact hfits

end

/-! ### Runs -/

/-- A call that writes evicts last, unless it met another type and did nothing. -/
theorem write_evicts (s : Store) (env : Env) {c : Call} {key : Bytes} (hc : c.written? = some key) :
    s.callAccesses env.now c = [key] ∧
      (s.exec env c).1 = evictIfOverBudget env.draw (s.unevicted (.call env c)) ∨
    s.callAccesses env.now c = [] ∧ (s.exec env c).1 = s ∧ s.unevicted (.call env c) = s := by
  have hupdate : ∀ (type : ValueType) (f : Value → Value), s.accessedUnless type env.now key = [key] ∧
      s.update type f env.draw env.now key = evictIfOverBudget env.draw
        (((s.withBudget 0).update type f env.draw env.now key).withBudget s.maxMemoryBytes) ∨
      s.accessedUnless type env.now key = [] ∧ s.update type f env.draw env.now key = s ∧
        ((s.withBudget 0).update type f env.draw env.now key).withBudget s.maxMemoryBytes = s := by
    intro type f
    rw [accessedUnless_getOrCreate]
    rcases s.update_evicts type f env.draw env.now key with ⟨hsome, hevicts⟩ | ⟨hnone, hsame⟩
    · exact .inl ⟨if_pos hsome, hevicts⟩
    · exact .inr ⟨by rw [hnone]; rfl, hsame⟩
  cases c with
  | set key' value =>
    cases hc
    exact .inl ⟨rfl, s.set_evicts env.draw key value⟩
  | lPush key' values | rPush key' values =>
    cases hc
    dsimp only [callAccesses, unevicted, operate, exec, lPush, rPush]
    rw [push_store, push_store]
    exact hupdate ..
  | hSet key' fields =>
    cases hc
    dsimp only [callAccesses, unevicted, operate, exec]
    rw [hSet_store, hSet_store]
    exact hupdate ..
  | _ => cases hc

/-- **A write survives its eviction** exactly when the samples are representative. After any
run whose loads have every key once, let a call write an entry that fits in the budget. If
each sample of its eviction that has an entry in it has one of another key, whenever the table
has one, the entry is there when the call returns. If one does not, it is not. -/
theorem write_survives (ops : List Operation) (hops : ∀ op ∈ ops, op.Distinct) (env : Env) (c : Call) (key : Bytes)
    (hc : c.written? = some key) (v : Value)
    (hv : ((ops.foldl operate {}).unevicted (.call env c)).data.toFinmap.lookup key = some v)
    (hfits : estimateEntryBytes key v ≤ (ops.foldl operate {}).maxMemoryBytes) :
    let s := ops.foldl operate {}
    let its := (s.unevicted (.call env c)).iterations env.draw
    ((∀ i ∈ its, i.2.Representative key i.1) → (s.exec env c).1.data.toFinmap.lookup key = some v) ∧
      (s.callAccesses env.now c = [key] → (∃ i ∈ its, ¬i.2.Representative key i.1) →
        (s.exec env c).1.data.toFinmap.lookup key = none) := by
  intro s its
  have haccounted : s.Accounted :=
    List.foldlRecOn ops operate fresh_accounted fun _ hs op hop => operate_accounted hs (hops op hop)
  have hlifted : (s.unevicted (.call env c)).Accounted := unevicted_accounted haccounted trivial
  have hother : ∀ i ∈ its, ∃ k, k ≠ key ∧ k ∈ i.2.data.toFinmap := iterations_other hlifted hv hfits
  have hlatest : s.callAccesses env.now c = [key] → Latest key v (s.unevicted (.call env c)) := by
    intro hwrites
    have hordered := (run_ordered ops).moves (s.unevicted_moves (.call env c))
    rw [show s.accesses (.call env c) = [key] from hwrites] at hordered
    exact latest_of_ordered hordered hv
  constructor
  · intro hsamples
    rcases s.write_evicts env hc with ⟨hwrites, hevicts⟩ | ⟨-, hsame, hunevicted⟩
    · rw [hevicts]
      exact (hlatest hwrites).evict fun i hi => hsamples i hi (hother i hi)
    · rw [hsame]
      exact hunevicted ▸ hv
  · rintro hwrites ⟨i, hi, hsample⟩
    rcases s.write_evicts env hc with ⟨-, hevicts⟩ | ⟨hnone, -⟩
    · rw [hevicts]
      exact evict_takes ⟨i, hi, fun hspares => hsample fun _ => hspares⟩
    · rw [hnone] at hwrites
      cases hwrites

/-- Two keys and room for one, with draws that go through the buckets. -/
theorem write_survives_two :
    let draw : Nat → Nat → Nat := fun _ attempt => attempt
    let ops : List Operation := [.setMaxMemory draw 60, .call { now := 0, draw := draw } (.set [107] [118])]
    let env : Env := { now := 0, draw := draw }
    let s := ops.foldl operate {}
    ∃ v, ((s.unevicted (.call env (.set [108] [118]))).data.toFinmap.lookup [108] = some v ∧
        estimateEntryBytes [108] v ≤ s.maxMemoryBytes) ∧
      (s.exec env (.set [108] [118])).1.data.toFinmap.lookup [108] = some v := by
  intro draw ops env s
  have hops : ∀ op ∈ ops, op.Distinct := by
    intro op hop
    simp only [ops, List.mem_cons, List.not_mem_nil, or_false] at hop
    rcases hop with rfl | rfl <;> trivial
  have hsome : ((s.unevicted (.call env (.set [108] [118]))).data.get [108]).isSome := by decide +kernel
  have hbytes : (s.unevicted (.call env (.set [108] [118]))).bytesAt [108] ≤ s.maxMemoryBytes := by decide +kernel
  have hspares : ∀ i ∈ (s.unevicted (.call env (.set [108] [118]))).iterations draw, i.2.Spares [108] i.1 := by
    decide +kernel
  obtain ⟨v, hv⟩ := Option.isSome_iff_exists.mp hsome
  rw [bytesAt, hv] at hbytes
  rw [HashTable.get_eq] at hv
  exact ⟨v, ⟨hv, hbytes⟩, (write_survives ops hops env _ [108] rfl v hv hbytes).1 fun i hi _ => hspares i hi⟩

/-- The same with draws of one bucket only: the key that was just written goes, the older one
stays. -/
theorem write_evicted :
    let draw : Nat → Nat → Nat := fun _ _ => 11
    let ops : List Operation := [.setMaxMemory draw 60, .call { now := 0, draw := draw } (.set [107] [118])]
    let s := ops.foldl operate {}
    let s' := (s.exec { now := 0, draw := draw } (.set [108] [118])).1
    (s.unevicted (.call { now := 0, draw := draw } (.set [108] [118]))).bytesAt [108] ≤ s.maxMemoryBytes ∧
      s.maxMemoryBytes = 60 ∧ s'.data.get [108] = none ∧ (s'.data.get [107]).isSome := by
  decide +kernel

end Store
end GoRedis
