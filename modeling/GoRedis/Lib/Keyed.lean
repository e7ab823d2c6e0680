import Mathlib.Algebra.BigOperators.Group.Finset.Basic
import Mathlib.Data.Finmap
import Mathlib.Tactic

/-! Keyed lists and finite maps.

A keyed list (`List (Sigma β)`) with distinct keys is a finite map in some order;
`Finmap` forgets the order. What is here is what a chained table and the state built
on it need beyond Mathlib: one bucket among several, replacing a value in place,
keeping the entries a predicate keeps (`select`), and the weight of a map. -/
namespace Keyed
open List

universe u v

section Lists
variable {α : Type u} {β : α → Type v}

/-- A bucket taken out of a row of buckets. -/
theorem flatten_perm {L : List (List (Sigma β))} {i : Nat} {c : List (Sigma β)}
    (h : L[i]? = some c) : L.flatten ~ c ++ (L.eraseIdx i).flatten := by
  induction L generalizing i with
  | nil => simp at h
  | cons d L ih =>
    cases i with
    | zero =>
      obtain rfl : d = c := by simpa using h
      simp
    | succ i =>
      have ih := ih (i := i) (by simpa using h)
      simp only [flatten_cons, eraseIdx_cons_succ]
      calc d ++ L.flatten ~ d ++ (c ++ (L.eraseIdx i).flatten) := ih.append_left d
        _ ~ c ++ (d ++ (L.eraseIdx i).flatten) := by
          rw [← append_assoc, ← append_assoc]
          exact perm_append_comm.append_right _

/-- A bucket exchanged for another. -/
theorem flatten_set_perm {L : List (List (Sigma β))} {i : Nat} (hi : i < L.length)
    (c : List (Sigma β)) : (L.set i c).flatten ~ c ++ (L.eraseIdx i).flatten := by
  have h := flatten_perm (L := L.set i c) (i := i) (c := c) (by simp [hi])
  rwa [eraseIdx_set_eq] at h

variable [DecidableEq α]

theorem kreplace_cons_eq {a : α} (b : β a) {e : Sigma β} (h : a = e.1) (l : List (Sigma β)) :
    (e :: l).kreplace a b = ⟨a, b⟩ :: l :=
  lookmap_cons_some _ _ (by simp [h])

theorem kreplace_cons_ne {a : α} (b : β a) {e : Sigma β} (h : a ≠ e.1) (l : List (Sigma β)) :
    (e :: l).kreplace a b = e :: l.kreplace a b :=
  lookmap_cons_none _ _ (by simp [h])

/-- Replacing the value of a present key is, up to order, inserting it. -/
theorem kreplace_perm_kinsert {a : α} {b : β a} {l : List (Sigma β)} (h : a ∈ l.keys) :
    kreplace a b l ~ kinsert a b l := by
  induction l with
  | nil => simp at h
  | cons s l ih =>
    by_cases hs : a = s.1
    · rw [kreplace_cons_eq b hs, kinsert_def, kerase_cons_eq hs]
    · have hl : a ∈ l.keys := by simpa [hs] using h
      rw [kreplace_cons_ne b hs, kinsert_def, kerase_cons_ne hs]
      exact ((ih hl).cons s).trans (Perm.swap _ _ _)

end Lists

/-! ### Keeping part of a map -/

section Maps
variable {α : Type u} {β γ δ : Type v} [DecidableEq α]

omit [DecidableEq α] in
theorem select_nodupKeys (f : β → Option γ) (l : List (Sigma fun _ : α => β)) (h : l.NodupKeys) :
    (l.filterMap fun e => (f e.2).map (Sigma.mk (β := fun _ : α => γ) e.1)).NodupKeys := by
  refine Nodup.sublist ?_ h
  induction l with
  | nil => exact Sublist.slnil
  | cons e l ih =>
    have ih := ih (nodupKeys_of_nodupKeys_cons h)
    cases hf : f e.2 with
    | none => simpa [hf] using ih.cons e.1
    | some c => simpa [hf] using ih.cons_cons e.1

/-- The entries `f` keeps, with the values it gives them. -/
def select (f : β → Option γ) (m : Finmap fun _ : α => β) : Finmap fun _ : α => γ where
  entries := m.entries.filterMap fun e => (f e.2).map (Sigma.mk e.1)
  nodupKeys := by
    obtain ⟨⟨l⟩, h⟩ := m
    exact select_nodupKeys f l h

@[simp] theorem lookup_select (f : β → Option γ) (m : Finmap fun _ : α => β) (a : α) :
    (select f m).lookup a = (m.lookup a).bind f := by
  ext c
  rw [Finmap.lookup_eq_some_iff, Option.bind_eq_some_iff]
  simp only [select, Multiset.mem_filterMap, Option.map_eq_some_iff, Finmap.lookup_eq_some_iff]
  constructor
  · rintro ⟨⟨a', b⟩, hb, c', hc, he⟩
    cases he
    exact ⟨b, hb, hc⟩
  · rintro ⟨b, hb, hc⟩
    exact ⟨⟨a, b⟩, hb, c, hc, rfl⟩

theorem select_select (f : β → Option γ) (g : γ → Option δ) (m : Finmap fun _ : α => β) :
    select g (select f m) = select (fun b => (f b).bind g) m :=
  Finmap.ext_lookup fun a => by simp [Option.bind_assoc]

theorem select_erase (f : β → Option γ) (m : Finmap fun _ : α => β) (a : α) :
    select f (m.erase a) = (select f m).erase a := by
  apply Finmap.ext_lookup
  intro x
  by_cases hx : x = a
  · subst hx
    simp
  · simp [Finmap.lookup_erase_ne hx]

@[simp] theorem select_empty (f : β → Option γ) : select f (∅ : Finmap fun _ : α => β) = ∅ :=
  Finmap.ext_lookup fun a => by simp

/-! ### The number of keys -/

theorem card_insert (m : Finmap fun _ : α => β) (a : α) (b : β) :
    (m.insert a b).keys.card = m.keys.card + if a ∈ m then 0 else 1 := by
  have hkeys : (m.insert a b).keys = insert a m.keys := by
    ext x
    simp [Finmap.mem_keys, Finmap.mem_insert]
  rw [hkeys, Finset.card_insert_eq_ite]
  simp only [Finmap.mem_keys]
  split <;> rfl

theorem card_erase (m : Finmap fun _ : α => β) (a : α) :
    (m.erase a).keys.card + (if a ∈ m then 1 else 0) = m.keys.card := by
  rw [Finmap.keys_erase]
  by_cases ha : a ∈ m
  · rw [if_pos ha, Finset.card_erase_add_one (Finmap.mem_keys.mpr ha)]
  · rw [if_neg ha, Finset.erase_eq_of_notMem (mt Finmap.mem_keys.mp ha), Nat.add_zero]

/-! ### Where an entry comes from -/

theorem lookup_of_erase {m : Finmap fun _ : α => β} {a x : α} {c : β} (h : (m.erase a).lookup x = some c) :
    m.lookup x = some c := by
  by_cases hx : x = a
  · rw [hx, Finmap.lookup_erase] at h
    cases h
  · rwa [Finmap.lookup_erase_ne hx] at h

theorem lookup_of_insert {m : Finmap fun _ : α => β} {a x : α} {b c : β} (h : (m.insert a b).lookup x = some c) :
    x = a ∧ c = b ∨ m.lookup x = some c := by
  by_cases hx : x = a
  · rw [hx, Finmap.lookup_insert] at h
    exact .inl ⟨hx, (Option.some.inj h).symm⟩
  · rw [Finmap.lookup_insert_of_ne _ hx] at h
    exact .inr h

/-! ### The weight of a map -/

/-- The sum of a weight over the entries. -/
def total (w : α → β → Nat) (m : Finmap fun _ : α => β) : Nat :=
  (m.entries.map fun e => w e.1 e.2).sum

theorem erase_of_lookup {m : Finmap fun _ : α => β} {a : α} (h : m.lookup a = none) :
    m.erase a = m := by
  apply Finmap.ext_lookup
  intro x
  by_cases hx : x = a
  · rw [hx, Finmap.lookup_erase, h]
  · exact Finmap.lookup_erase_ne hx

theorem erase_insert_same (m : Finmap fun _ : α => β) (a : α) (b : β) :
    (m.insert a b).erase a = m.erase a := by
  apply Finmap.ext_lookup
  intro x
  by_cases hx : x = a
  · subst hx
    simp
  · simp [Finmap.lookup_insert_of_ne _ hx, Finmap.lookup_erase_ne hx]

theorem insert_erase_same (m : Finmap fun _ : α => β) (a : α) (b : β) :
    (m.erase a).insert a b = m.insert a b := by
  apply Finmap.ext_lookup
  intro x
  by_cases hx : x = a
  · subst hx
    simp
  · simp [Finmap.lookup_insert_of_ne _ hx, Finmap.lookup_erase_ne hx]

theorem insert_lookup {m : Finmap fun _ : α => β} {a : α} {b : β} (h : m.lookup a = some b) :
    m.insert a b = m := by
  apply Finmap.ext_lookup
  intro x
  by_cases hx : x = a
  · subst hx
    simp [h]
  · simp [Finmap.lookup_insert_of_ne _ hx]

theorem total_insert (w : α → β → Nat) (m : Finmap fun _ : α => β) (a : α) (b : β) :
    total w (m.insert a b) = total w (m.erase a) + w a b := by
  have hnot : a ∉ m.erase a := Finmap.notMem_erase_self
  rw [← insert_erase_same m a b, total, Finmap.entries_insert_of_notMem hnot, Multiset.map_cons,
    Multiset.sum_cons, Nat.add_comm]
  rfl

theorem total_erase (w : α → β → Nat) {m : Finmap fun _ : α => β} {a : α} {b : β}
    (h : m.lookup a = some b) : total w (m.erase a) + w a b = total w m := by
  rw [← total_insert, insert_lookup h]

theorem total_erase_le (w : α → β → Nat) (m : Finmap fun _ : α => β) (a : α) : total w (m.erase a) ≤ total w m := by
  cases h : m.lookup a with
  | none => rw [erase_of_lookup h]
  | some b =>
    rw [← total_erase w h]
    exact Nat.le_add_right ..

end Maps
end Keyed
