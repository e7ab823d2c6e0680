import GoRedis.Lib.Keyed

/-! Rows of buckets.

Entries are spread over a row of buckets by a `slot` function on keys. While every
entry sits in its own slot (`Placed`), looking a key up in one bucket is looking it up
in the whole row, exchanging a bucket for another touches no other key, and pouring
entries into a new row (`pour`) only reorders them. -/
namespace Buckets
open List Keyed

universe u v

variable {α : Type u} {β : α → Type v} (slot : α → Nat)

/-- Every entry is in the bucket its key's slot names. -/
def Placed (L : List (List (Sigma β))) : Prop :=
  ∀ i c, L[i]? = some c → ∀ e ∈ c, slot e.1 = i

def bucket (L : List (List (Sigma β))) (a : α) : List (Sigma β) := L.getD (slot a) []

/-- An entry put at the head of its bucket. -/
def push (L : List (List (Sigma β))) (e : Sigma β) : List (List (Sigma β)) :=
  L.set (slot e.1) (e :: bucket slot L e.1)

/-- Entries put in one after the other. -/
def pour (L : List (List (Sigma β))) (es : List (Sigma β)) : List (List (Sigma β)) :=
  es.foldl (push slot) L

variable {slot}

theorem bucket_get {L : List (List (Sigma β))} {a : α} (h : slot a < L.length) :
    L[slot a]? = some (bucket slot L a) := by
  simp [bucket, h]

/-- One bucket taken out of the row. -/
theorem bucket_perm {L : List (List (Sigma β))} {a : α} (h : slot a < L.length) :
    L.flatten ~ bucket slot L a ++ (L.eraseIdx (slot a)).flatten :=
  flatten_perm (bucket_get h)

theorem Placed.mem_bucket {L : List (List (Sigma β))} (hp : Placed slot L) {a : α}
    (h : slot a < L.length) {e : Sigma β} (he : e ∈ bucket slot L a) : slot e.1 = slot a :=
  hp _ _ (bucket_get h) e he

/-- The other buckets do not hold the key. -/
theorem Placed.notMem_rest {L : List (List (Sigma β))} (hp : Placed slot L) (a : α) :
    a ∉ (L.eraseIdx (slot a)).flatten.keys := by
  intro ha
  obtain ⟨b, hb⟩ := mem_keys.mp ha
  obtain ⟨c, hc, hbc⟩ := mem_flatten.mp hb
  obtain ⟨i, hi, hic⟩ := mem_eraseIdx_iff_getElem?.mp hc
  exact hi (hp i c hic _ hbc).symm

theorem Placed.set {L : List (List (Sigma β))} (hp : Placed slot L) (i : Nat) (c : List (Sigma β))
    (hc : ∀ e ∈ c, slot e.1 = i) : Placed slot (L.set i c) := by
  intro j d hd e he
  rw [getElem?_set] at hd
  split at hd
  · next hij =>
    split at hd
    · obtain rfl : c = d := by simpa using hd
      rw [hc e he, hij]
    · simp at hd
  · exact hp j d hd e he

theorem placed_replicate (n : Nat) : Placed slot (replicate n ([] : List (Sigma β))) := by
  intro i c hc e he
  have hnil : c = [] := eq_of_mem_replicate (mem_of_getElem? hc)
  simp [hnil] at he

/-! ### Pouring -/

@[simp] theorem length_push (L : List (List (Sigma β))) (e : Sigma β) :
    (push slot L e).length = L.length := by
  simp [push]

theorem push_placed {L : List (List (Sigma β))} (hp : Placed slot L) (e : Sigma β)
    (h : slot e.1 < L.length) : Placed slot (push slot L e) := by
  refine hp.set _ _ fun e' he' => ?_
  rcases mem_cons.mp he' with rfl | he'
  · rfl
  · exact hp.mem_bucket h he'

theorem push_perm {L : List (List (Sigma β))} (e : Sigma β) (h : slot e.1 < L.length) :
    (push slot L e).flatten ~ e :: L.flatten :=
  (flatten_set_perm h _).trans ((bucket_perm h).symm.cons e)

@[simp] theorem length_pour (L : List (List (Sigma β))) (es : List (Sigma β)) :
    (pour slot L es).length = L.length := by
  induction es generalizing L with
  | nil => rfl
  | cons e es ih => exact (ih _).trans (length_push L e)

theorem pour_placed {L : List (List (Sigma β))} (hp : Placed slot L) (h : ∀ a, slot a < L.length)
    (es : List (Sigma β)) : Placed slot (pour slot L es) := by
  induction es generalizing L with
  | nil => exact hp
  | cons e es ih => exact ih (push_placed hp e (h _)) (by simpa using h)

/-- Pouring loses nothing and adds nothing. -/
theorem pour_perm {L : List (List (Sigma β))} (h : ∀ a, slot a < L.length) (es : List (Sigma β)) :
    (pour slot L es).flatten ~ es ++ L.flatten := by
  induction es generalizing L with
  | nil => exact Perm.refl _
  | cons e es ih =>
    have hpush := push_perm (L := L) e (h _)
    calc (pour slot (push slot L e) es).flatten ~ es ++ (push slot L e).flatten :=
          ih (by simpa using h)
      _ ~ es ++ e :: L.flatten := hpush.append_left es
      _ ~ e :: es ++ L.flatten := perm_middle

/-! ### Keys -/

theorem Placed.mem_keys_bucket {L : List (List (Sigma β))} (hp : Placed slot L) {a : α}
    (h : slot a < L.length) : a ∈ (bucket slot L a).keys ↔ a ∈ L.flatten.keys := by
  rw [show a ∈ L.flatten.keys ↔ a ∈ (bucket slot L a ++ (L.eraseIdx (slot a)).flatten).keys from
    ((bucket_perm h).map _).mem_iff, keys_append, mem_append]
  simp [hp.notMem_rest a]

variable [DecidableEq α]

/-- Looking a key up in its bucket is looking it up in the row. -/
theorem Placed.dlookup_bucket {L : List (List (Sigma β))} (hp : Placed slot L)
    (hd : L.flatten.NodupKeys) {a : α} (h : slot a < L.length) :
    dlookup a (bucket slot L a) = dlookup a L.flatten := by
  rw [perm_dlookup a hd (bucket_perm h), dlookup_append,
    dlookup_eq_none.mpr (hp.notMem_rest a), Option.or_none]

/-- A value replaced inside its bucket, seen in the whole row. -/
theorem kreplace_perm {L : List (List (Sigma β))} (hd : L.flatten.NodupKeys) {a : α} (b : β a)
    (h : slot a < L.length) (ha : a ∈ (bucket slot L a).keys) :
    (L.set (slot a) (kreplace a b (bucket slot L a))).flatten ~ kinsert a b L.flatten := by
  calc (L.set (slot a) (kreplace a b (bucket slot L a))).flatten
      ~ kreplace a b (bucket slot L a) ++ (L.eraseIdx (slot a)).flatten := flatten_set_perm h _
    _ ~ kinsert a b (bucket slot L a) ++ (L.eraseIdx (slot a)).flatten :=
        (kreplace_perm_kinsert ha).append_right _
    _ = kinsert a b (bucket slot L a ++ (L.eraseIdx (slot a)).flatten) := by
        rw [kinsert_def, kinsert_def, kerase_append_left ha, cons_append]
    _ ~ kinsert a b L.flatten :=
        ((bucket_perm h).symm.kinsert ((perm_nodupKeys (bucket_perm h)).mp hd))

/-- A key taken out of its bucket, seen in the whole row. -/
theorem Placed.kerase_perm {L : List (List (Sigma β))} (hp : Placed slot L)
    (hd : L.flatten.NodupKeys) {a : α} (h : slot a < L.length) :
    (L.set (slot a) (kerase a (bucket slot L a))).flatten ~ kerase a L.flatten := by
  have hrest : kerase a (bucket slot L a ++ (L.eraseIdx (slot a)).flatten) =
      kerase a (bucket slot L a) ++ (L.eraseIdx (slot a)).flatten := by
    by_cases ha : a ∈ (bucket slot L a).keys
    · exact kerase_append_left ha
    · rw [kerase_append_right ha, kerase_of_notMem_keys (hp.notMem_rest a), kerase_of_notMem_keys ha]
  calc (L.set (slot a) (kerase a (bucket slot L a))).flatten
      ~ kerase a (bucket slot L a) ++ (L.eraseIdx (slot a)).flatten := flatten_set_perm h _
    _ = kerase a (bucket slot L a ++ (L.eraseIdx (slot a)).flatten) := hrest.symm
    _ ~ kerase a L.flatten :=
        (bucket_perm h).symm.kerase ((perm_nodupKeys (bucket_perm h)).mp hd)

end Buckets
