import GoRedis.Store.Snapshot

/-! Entries discarded.

Expiry, `Del` and eviction only ever discard entries that are in the table, one after another.
What discarding an entry keeps, they all keep. -/
namespace GoRedis.Store

/-- The second store is the first with entries of it discarded. -/
inductive Discards : Store → Store → Prop where
  | refl (s : Store) : Discards s s
  | discard {s s' : Store} {key : Bytes} {v : Value} (hv : s.data.toFinmap.lookup key = some v)
    (h : Discards (s.discard key v) s') : Discards s s'

theorem Discards.single {s : Store} {key : Bytes} {v : Value} (hv : s.data.toFinmap.lookup key = some v) :
    Discards s (s.discard key v) := .discard hv (.refl _)

theorem Discards.trans {s s' s'' : Store} (h : Discards s s') (h' : Discards s' s'') : Discards s s'' := by
  induction h with
  | refl => exact h'
  | discard hv _ ih => exact .discard hv (ih h')

/-- What discarding an entry keeps. -/
theorem Discards.keeps {s s' : Store} (h : Discards s s') {P : Store → Prop}
    (hdiscard : ∀ {s : Store} {key v}, s.data.toFinmap.lookup key = some v → P s → P (s.discard key v))
    (hs : P s) : P s' := by
  induction h with
  | refl => exact hs
  | discard hv _ ih => exact ih (hdiscard hv hs)

section
variable (s : Store)

theorem deleteIfExpired_discards (now : Time) (key : Bytes) : Discards s (s.deleteIfExpired now key).1 := by
  unfold deleteIfExpired
  split
  · next v hv =>
    rw [HashTable.get_eq] at hv
    split
    · exact .single hv
    · exact .refl s
  · exact .refl s

theorem deleteAllExpired_discards (now : Time) (keys : List Bytes) : Discards s (s.deleteAllExpired now keys) := by
  unfold deleteAllExpired
  induction keys generalizing s with
  | nil => exact .refl s
  | cons key keys ih => exact (s.deleteIfExpired_discards now key).trans (ih _)

theorem del_discards (now : Time) (keys : List Bytes) : Discards s (s.del now keys).1 := by
  unfold del
  generalize (0 : Int) = removed
  induction keys generalizing s removed with
  | nil => exact .refl s
  | cons key keys ih =>
    rw [List.foldl_cons, delOne]
    split
    · exact ih s _
    · next v hv =>
      rw [HashTable.get_eq] at hv
      exact .discard hv (ih _ _)

/-! ### Eviction -/

theorem victim_mem (e : Node Value) (rest : List (Node Value)) : victim e rest ∈ e :: rest := by
  induction rest generalizing e with
  | nil => exact List.mem_singleton.mpr rfl
  | cons e' rest ih =>
    unfold victim
    split
    · exact List.mem_cons_of_mem e (ih e')
    · rcases List.mem_cons.mp (ih e) with h | h
      · rw [h]
        exact List.mem_cons_self
      · exact List.mem_cons_of_mem e (List.mem_cons_of_mem e' h)

/-- The victim of a round is an entry of the table. -/
theorem victim_lookup {s : Store} {count : Nat} {draw : Nat → Nat} {e : Node Value}
    {rest : List (Node Value)} (hs : s.data.sampleKeys count draw = e :: rest) :
    s.data.toFinmap.lookup (victim e rest).1 = some (victim e rest).2 :=
  s.data.sampleKeys_mem count draw (by rw [hs]; exact victim_mem e rest)

theorem evictLoop_discards (draw : Nat → Nat → Nat) (rounds round : Nat) :
    Discards s (evictLoop draw rounds round s) := by
  induction rounds generalizing round s with
  | zero => exact .refl s
  | succ rounds ih =>
    unfold evictLoop
    split
    · split
      · exact .refl s
      · next hs => exact .discard (victim_lookup hs) (ih ..)
    · exact .refl s

theorem evict_discards (draw : Nat → Nat → Nat) : Discards s (evictIfOverBudget draw s) := by
  unfold evictIfOverBudget
  split
  · exact .refl s
  · exact evictLoop_discards ..

end
end GoRedis.Store
