import GoRedis.Lib.Buckets

/-! Values changed in place.

Changing the values of keyed lists and of rows of buckets, key by key, moves nothing:
looking up, erasing, replacing and pouring do the same before and after it, at keys whose
values it leaves alone. -/
namespace Keyed
open List

universe u v

variable {α : Type u} {β : α → Type v}

/-- Every value changed by the function of its key. -/
def relabel (g : ∀ a, β a → β a) (l : List (Sigma β)) : List (Sigma β) := l.map fun e => ⟨e.1, g e.1 e.2⟩

variable {g : ∀ a, β a → β a}

theorem relabel_cons (e : Sigma β) (l : List (Sigma β)) :
    relabel g (e :: l) = ⟨e.1, g e.1 e.2⟩ :: relabel g l := rfl

theorem keys_relabel (l : List (Sigma β)) : (relabel g l).keys = l.keys := by
  induction l with
  | nil => rfl
  | cons e l ih => rw [relabel_cons, keys_cons, keys_cons, ih]

theorem relabel_of_forall {l : List (Sigma β)} (h : ∀ e ∈ l, g e.1 e.2 = e.2) : relabel g l = l := by
  induction l with
  | nil => rfl
  | cons e l ih =>
    obtain ⟨he, hl⟩ := forall_mem_cons.mp h
    rw [relabel_cons, he, ih hl]

variable [DecidableEq α]

theorem dlookup_relabel (a : α) (l : List (Sigma β)) : (relabel g l).dlookup a = (l.dlookup a).map (g a) := by
  induction l with
  | nil => rfl
  | cons e l ih =>
    obtain ⟨c, b⟩ := e
    by_cases hc : a = c
    · subst hc
      rw [relabel_cons, dlookup_cons_eq, dlookup_cons_eq, Option.map_some]
    · rw [relabel_cons, dlookup_cons_ne _ _ hc, dlookup_cons_ne _ _ hc, ih]

theorem kerase_relabel (a : α) (l : List (Sigma β)) : (relabel g l).kerase a = relabel g (l.kerase a) := by
  induction l with
  | nil => rfl
  | cons e l ih =>
    rw [relabel_cons]
    generalize he' : (⟨e.1, g e.1 e.2⟩ : Sigma β) = e'
    have hkey : e'.1 = e.1 := by rw [← he']
    by_cases he : a = e.1
    · rw [kerase_cons_eq he, kerase_cons_eq (he.trans hkey.symm)]
    · rw [kerase_cons_ne he, kerase_cons_ne (hkey ▸ he), ih, relabel_cons, he']

theorem kreplace_relabel {a : α} {b : β a} (h : g a b = b) (l : List (Sigma β)) :
    (relabel g l).kreplace a b = relabel g (l.kreplace a b) := by
  induction l with
  | nil => rfl
  | cons e l ih =>
    rw [relabel_cons]
    generalize he' : (⟨e.1, g e.1 e.2⟩ : Sigma β) = e'
    have hkey : e'.1 = e.1 := by rw [← he']
    by_cases he : a = e.1
    · rw [kreplace_cons_eq b he, kreplace_cons_eq b (he.trans hkey.symm), relabel_cons, h]
    · rw [kreplace_cons_ne b he, kreplace_cons_ne b (hkey ▸ he), relabel_cons, ih, he']

/-- Changing the value of one key is replacing it. -/
theorem relabel_eq_kreplace {a : α} {b : β a} (hg : ∀ c ≠ a, ∀ x, g c x = x) {l : List (Sigma β)}
    (hd : l.NodupKeys) (hb : l.dlookup a = some b) : relabel g l = l.kreplace a (g a b) := by
  induction l with
  | nil => cases hb
  | cons e l ih =>
    obtain ⟨c, x⟩ := e
    obtain ⟨(hnot : c ∉ l.keys), hdl⟩ := nodupKeys_cons.mp hd
    rw [relabel_cons]
    by_cases hc : a = c
    · subst hc
      rw [dlookup_cons_eq] at hb
      cases hb
      rw [kreplace_cons_eq (e := ⟨a, b⟩) (g a b) rfl, relabel_of_forall]
      intro e he
      have hne : e.1 ≠ a := by
        rintro rfl
        exact hnot (mem_keys_of_mem he)
      exact hg e.1 hne e.2
    · rw [dlookup_cons_ne _ _ hc] at hb
      rw [kreplace_cons_ne _ hc, ih hdl hb, hg c (Ne.symm hc)]

end Keyed

namespace Buckets
open List Keyed

universe u v

variable {α : Type u} {β : α → Type v} {slot : α → Nat} {g : ∀ a, β a → β a}

theorem getD_relabel (L : List (List (Sigma β))) (i : Nat) :
    (L.map (relabel g)).getD i [] = relabel g (L.getD i []) := by
  rw [getD_eq_getElem?_getD, getD_eq_getElem?_getD, getElem?_map]
  cases L[i]? <;> rfl

theorem push_relabel (L : List (List (Sigma β))) (e : Sigma β) :
    push slot (L.map (relabel g)) ⟨e.1, g e.1 e.2⟩ = (push slot L e).map (relabel g) := by
  rw [push, push, bucket, bucket, getD_relabel, map_set]
  rfl

theorem pour_relabel (L : List (List (Sigma β))) (es : List (Sigma β)) :
    pour slot (L.map (relabel g)) (relabel g es) = (pour slot L es).map (relabel g) := by
  induction es generalizing L with
  | nil => rfl
  | cons e es ih =>
    have hpush : push slot (L.map (relabel g)) ⟨e.1, g e.1 e.2⟩ = (push slot L e).map (relabel g) := push_relabel L e
    calc pour slot (L.map (relabel g)) (relabel g (e :: es))
        = pour slot (push slot (L.map (relabel g)) ⟨e.1, g e.1 e.2⟩) (relabel g es) := rfl
      _ = (pour slot (push slot L e) es).map (relabel g) := by rw [hpush, ih]

/-- The same in the bucket of the key. -/
theorem Placed.relabel [DecidableEq α] {L : List (List (Sigma β))} (hp : Placed slot L) (hd : L.flatten.NodupKeys)
    {a : α} {b : β a} (hb : dlookup a (bucket slot L a) = some b) (hg : ∀ c ≠ a, ∀ x, g c x = x) :
    L.map (Keyed.relabel g) = L.set (slot a) ((bucket slot L a).kreplace a (g a b)) := by
  apply ext_getElem?
  intro i
  rw [getElem?_map, getElem?_set]
  cases hi : L[i]? with
  | none =>
    have hlen : L.length ≤ i := getElem?_eq_none_iff.mp hi
    split
    · next heq =>
      rw [if_neg (by omega)]
      rfl
    · rfl
  | some c =>
    split
    · next heq =>
      have hlt : slot a < L.length := heq ▸ (List.getElem?_eq_some_iff.mp hi).1
      have hc : bucket slot L a = c := Option.some.inj ((bucket_get hlt).symm.trans (heq ▸ hi))
      have hnodup : c.NodupKeys := hd.sublist (sublist_flatten_of_mem (mem_of_getElem? hi))
      rw [if_pos hlt, hc, Option.map_some, relabel_eq_kreplace hg hnodup (hc ▸ hb)]
    · next hne =>
      rw [Option.map_some, relabel_of_forall]
      intro e he
      exact hg e.1 (fun heq => hne (heq ▸ hp i c hi e he)) e.2

end Buckets
