import Mathlib.Data.Finmap
import Mathlib.Tactic

/-! Footprints of functions on finite maps.

A function is local to a set of keys when it changes no other key and what it does to these
depends on them only. -/
namespace Footprint

universe u v

variable {α : Type u} {β : Type v} [DecidableEq α]

/-- Two maps agree on the keys of a footprint. -/
def Agree (K : α → Prop) (m m' : Finmap fun _ : α => β) : Prop :=
  ∀ a, K a → m.lookup a = m'.lookup a

structure Local (K : α → Prop) (f : (Finmap fun _ : α => β) → Finmap fun _ : α => β) : Prop where
  frame : ∀ m a, ¬K a → (f m).lookup a = m.lookup a
  congr : ∀ m m', Agree K m m' → Agree K (f m) (f m')

variable {K : α → Prop} {f g : (Finmap fun _ : α => β) → Finmap fun _ : α => β}

theorem Agree.refl (m : Finmap fun _ : α => β) : Agree K m m := fun _ _ => rfl

theorem Agree.symm {m m' : Finmap fun _ : α => β} (h : Agree K m m') : Agree K m' m :=
  fun a ha => (h a ha).symm

/-- A function does not touch what is outside its footprint. -/
theorem Local.agree {L : α → Prop} (hf : Local K f) (hd : ∀ a, L a → ¬K a) (m : Finmap fun _ : α => β) :
    Agree L (f m) m :=
  fun a ha => hf.frame m a (hd a ha)

theorem Local.id : Local K (fun m : Finmap fun _ : α => β => m) := ⟨fun _ _ _ => rfl, fun _ _ h => h⟩

theorem Local.comp (hf : Local K f) (hg : Local K g) : Local K (fun m => f (g m)) :=
  ⟨fun m a ha => (hf.frame _ a ha).trans (hg.frame m a ha),
    fun m m' h => hf.congr _ _ (hg.congr m m' h)⟩

/-- Functions with disjoint footprints commute. -/
theorem Local.comm {L : α → Prop} (hf : Local K f) (hg : Local L g) (hd : ∀ a, K a → ¬L a)
    (m : Finmap fun _ : α => β) : f (g m) = g (f m) := by
  apply Finmap.ext_lookup
  intro a
  by_cases hk : K a
  · rw [hg.frame _ a (hd a hk)]
    exact hf.congr _ _ (hg.agree hd m) a hk
  · rw [hf.frame _ a hk]
    by_cases hl : L a
    · exact (hg.congr _ _ (hf.agree (fun b hb hk => hd b hk hb) m) a hl).symm
    · rw [hg.frame _ a hl, hg.frame _ a hl, hf.frame _ a hk]

theorem Local.mono {L : α → Prop} (hf : Local K f) (h : ∀ a, K a → L a) : Local L f := by
  refine ⟨fun m a ha => hf.frame m a fun hk => ha (h a hk), fun m m' hm a ha => ?_⟩
  by_cases hk : K a
  · exact hf.congr m m' (fun b hb => hm b (h b hb)) a hk
  · rw [hf.frame m a hk, hf.frame m' a hk]
    exact hm a ha

/-- A function that puts at one key, or removes from it, what depends on that key only. -/
theorem Local.at {key : α} (h : ∀ m : Finmap fun _ : α => β,
      (f m = m ∨ f m = m.erase key ∨ ∃ b, f m = m.insert key b))
    (hcongr : ∀ m m' : Finmap fun _ : α => β, m.lookup key = m'.lookup key →
      (f m).lookup key = (f m').lookup key) : Local (· = key) f := by
  refine ⟨fun m a ha => ?_, fun m m' hm a ha => ?_⟩
  · rcases h m with heq | heq | ⟨b, heq⟩
    · rw [heq]
    · rw [heq, Finmap.lookup_erase_ne ha]
    · rw [heq, Finmap.lookup_insert_of_ne _ ha]
  · rw [ha]
    exact hcongr m m' (hm key rfl)

/-- A constant map is local to everything. -/
theorem Local.const (m₀ : Finmap fun _ : α => β) : Local (fun _ => True) fun _ => m₀ :=
  ⟨fun _ _ h => absurd trivial h, fun _ _ _ => .refl _⟩

/-- Functions with one footprint, one after another. -/
theorem Local.foldl {γ : Type*} {F : γ → (Finmap fun _ : α => β) → Finmap fun _ : α => β} {cs : List γ}
    (h : ∀ c ∈ cs, Local K (F c)) : Local K fun m => cs.foldl (fun m c => F c m) m := by
  induction cs with
  | nil => exact .id
  | cons c cs ih =>
    obtain ⟨hc, hcs⟩ := List.forall_mem_cons.mp h
    exact (ih hcs).comp hc

end Footprint
