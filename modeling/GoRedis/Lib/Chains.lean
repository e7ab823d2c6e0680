import GoRedis.Lib.Keyed

/-! Chains of cells in memory.

A cell holds a datum and owns the next cell of its chain; a row of slots owns the chains'
first cells. The programs here are the pointer manipulations of such a row: walking a
chain, linking a cell in at its head, moving a chain's cells to other chains, unlinking a
cell, destroying a chain. They are partial: a program that reads or frees a cell that is
not allocated has no result, and neither has a walk longer than there are cells.

`Owns` says that the memory is exactly the cells of the row's chains, each once, and of
whatever else is named: no cell is lost, shared or left dangling. Each program has one
rule, which says that it has a result and what the row owns then. -/
namespace Chains
open List

/-- What is in memory at an address: a datum and the address of the cell it owns, if any. -/
structure Cell (α : Type) where
  data : α
  next : Option Nat

/-- The allocated cells, by address. -/
abbrev Memory (α : Type) := Finmap fun _ : Nat => Cell α

abbrev Located (α : Type) := Sigma fun _ : Nat => Cell α

/-- A datum of a chain, with the address of the cell it is in. -/
abbrev Stored (α : Type) := Sigma fun _ : Nat => α

variable {α : Type}

/-! ### Memory -/

/-- The memory holds these cells and no others. -/
def Memory.Holds (m : Memory α) (l : List (Located α)) : Prop := m.entries = l

/-- An address that is not in use: the one picked, unless it is taken. -/
def Memory.place (m : Memory α) (pick : Nat) : Nat := if pick ∈ m then m.keys.sup id + 1 else pick

/-- More steps than a walk along a chain can take. -/
def Memory.bound (m : Memory α) : Nat := m.entries.card + 1

theorem place_free (m : Memory α) (pick : Nat) : m.place pick ∉ m := by
  unfold Memory.place
  split
  · intro h
    have hle : m.keys.sup id + 1 ≤ m.keys.sup id := Finset.le_sup (f := id) (Finmap.mem_keys.mpr h)
    omega
  · assumption

namespace Memory.Holds
variable {m : Memory α} {l l' : List (Located α)} {a : Nat} {c : Cell α}

theorem perm (h : m.Holds l) (hl : l ~ l') : m.Holds l' := h.trans (Multiset.coe_eq_coe.mpr hl)

theorem read (h : m.Holds l) (hc : ⟨a, c⟩ ∈ l) : m.lookup a = some c := by
  rw [Finmap.lookup_eq_some_iff, h]
  exact hc

theorem alloc (h : m.Holds l) (ha : a ∉ m) (c : Cell α) : Holds (m.insert a c) (⟨a, c⟩ :: l) := by
  rw [Holds, Finmap.entries_insert_of_notMem ha, h]
  rfl

theorem free (h : m.Holds (⟨a, c⟩ :: l)) : Holds (m.erase a) l := by
  induction m using Finmap.induction_on with
  | H s =>
    have hs : s.entries ~ ⟨a, c⟩ :: l := Multiset.coe_eq_coe.mp h
    have hk : kerase a s.entries ~ l := by simpa using hs.kerase (a := a) s.nodupKeys
    rw [Finmap.erase_toFinmap]
    exact Multiset.coe_eq_coe.mpr hk

theorem write (h : m.Holds (⟨a, c⟩ :: l)) (c' : Cell α) : Holds (m.insert a c') (⟨a, c'⟩ :: l) := by
  have hins : m.insert a c' = (m.erase a).insert a c' := by
    apply Finmap.ext_lookup
    intro x
    by_cases hx : x = a
    · subst hx
      simp
    · rw [Finmap.lookup_insert_of_ne _ hx, Finmap.lookup_insert_of_ne _ hx, Finmap.lookup_erase_ne hx]
  rw [hins]
  exact h.free.alloc Finmap.notMem_erase_self c'

theorem length_lt (h : m.Holds (l ++ l')) : l.length < m.bound := by
  rw [Memory.bound, h, Multiset.coe_card, length_append]
  omega

end Memory.Holds

/-! ### Chains -/

/-- The address a chain is entered at; an empty one is entered where it stops. -/
def entry (stop : Option Nat) : List (Stored α) → Option Nat
  | [] => stop
  | ⟨a, _⟩ :: _ => some a

/-- The cells of a chain, the last one linked to where the chain stops. -/
def cells (stop : Option Nat) : List (Stored α) → List (Located α)
  | [] => []
  | ⟨a, d⟩ :: c => ⟨a, d, entry stop c⟩ :: cells stop c

@[simp] theorem entry_nil (stop : Option Nat) : entry stop ([] : List (Stored α)) = stop := rfl

@[simp] theorem entry_cons (stop : Option Nat) (x : Stored α) (c : List (Stored α)) :
    entry stop (x :: c) = some x.1 := rfl

theorem entry_append (stop : Option Nat) (c c' : List (Stored α)) :
    entry stop (c ++ c') = entry (entry stop c') c := by
  cases c <;> rfl

@[simp] theorem cells_nil (stop : Option Nat) : cells stop ([] : List (Stored α)) = [] := rfl

@[simp] theorem cells_cons (stop : Option Nat) (x : Stored α) (c : List (Stored α)) :
    cells stop (x :: c) = ⟨x.1, x.2, entry stop c⟩ :: cells stop c := rfl

theorem cells_append (stop : Option Nat) (c c' : List (Stored α)) :
    cells stop (c ++ c') = cells (entry stop c') c ++ cells stop c' := by
  induction c with
  | nil => rfl
  | cons x c ih => rw [cons_append, cells, cells, ih, entry_append, cons_append]

@[simp] theorem length_cells (stop : Option Nat) (c : List (Stored α)) : (cells stop c).length = c.length := by
  induction c with
  | nil => rfl
  | cons x c ih => rw [cells, length_cons, length_cons, ih]

/-- A walk along a chain to the first cell whose datum is `wanted`. -/
def find (wanted : α → Bool) (m : Memory α) : (steps : Nat) → Option Nat → Option (Option Nat)
  | 0, _ => none
  | _ + 1, none => some none
  | steps + 1, some a => do
    let c ← m.lookup a
    if wanted c.data then return some a else find wanted m steps c.next

/-- A walk along a whole chain, with what its cells hold. -/
def walk (m : Memory α) : (steps : Nat) → Option Nat → Option (List (Stored α))
  | 0, _ => none
  | _ + 1, none => some []
  | steps + 1, some a => do
    let c ← m.lookup a
    let rest ← walk m steps c.next
    return ⟨a, c.data⟩ :: rest

/-- A cell is destroyed with the one it owns, which is destroyed first. -/
def destroy : (steps : Nat) → Option Nat → Memory α → Option (Memory α)
  | 0, _, _ => none
  | _ + 1, none, m => some m
  | steps + 1, some a, m => do
    let c ← m.lookup a
    let m ← destroy steps c.next m
    return m.erase a

/-- The chains of a row destroyed, one after the other. -/
def destroyAll : List (Option Nat) → Memory α → Option (Memory α)
  | [], m => some m
  | p :: ps, m => do
    let m ← destroy m.bound p m
    destroyAll ps m

/-- A cell's datum overwritten. -/
def assign (a : Nat) (d : α) (m : Memory α) : Option (Memory α) := do
  let c ← m.lookup a
  return m.insert a { c with data := d }

section Walks
variable {m : Memory α} {rest : List (Located α)} {steps : Nat}

theorem find_eq (wanted : α → Bool) {c : List (Stored α)} (h : ∀ e ∈ cells none c, m.lookup e.1 = some e.2)
    (hsteps : c.length < steps) :
    find wanted m steps (entry none c) = some ((c.find? fun x => wanted x.2).map Sigma.fst) := by
  induction c generalizing steps with
  | nil =>
    obtain ⟨steps, rfl⟩ := Nat.exists_eq_succ_of_ne_zero (Nat.ne_of_gt hsteps)
    rfl
  | cons x c ih =>
    obtain ⟨steps, rfl⟩ := Nat.exists_eq_succ_of_ne_zero (Nat.ne_zero_of_lt hsteps)
    have hread : m.lookup x.1 = some ⟨x.2, entry none c⟩ := h _ mem_cons_self
    have hmore := ih (fun e he => h e (mem_cons_of_mem _ he)) (Nat.lt_of_succ_lt_succ hsteps)
    simp only [entry_cons, find, hread, Option.bind_eq_bind, Option.bind_some]
    split
    · next hx => simp [hx]
    · next hx => simp [hx, hmore]

theorem walk_eq {c : List (Stored α)} (h : ∀ e ∈ cells none c, m.lookup e.1 = some e.2) (hsteps : c.length < steps) :
    walk m steps (entry none c) = some c := by
  induction c generalizing steps with
  | nil =>
    obtain ⟨steps, rfl⟩ := Nat.exists_eq_succ_of_ne_zero (Nat.ne_of_gt hsteps)
    rfl
  | cons x c ih =>
    obtain ⟨steps, rfl⟩ := Nat.exists_eq_succ_of_ne_zero (Nat.ne_zero_of_lt hsteps)
    have hread : m.lookup x.1 = some ⟨x.2, entry none c⟩ := h _ mem_cons_self
    have hmore := ih (fun e he => h e (mem_cons_of_mem _ he)) (Nat.lt_of_succ_lt_succ hsteps)
    simp only [entry_cons, walk, hread, Option.bind_eq_bind, Option.bind_some, hmore]
    rfl

/-- **Destroying a chain** frees its cells and no others. -/
theorem destroy_holds {c : List (Stored α)} (h : m.Holds (cells none c ++ rest)) (hsteps : c.length < steps) :
    ∃ m', destroy steps (entry none c) m = some m' ∧ m'.Holds rest := by
  induction c generalizing steps rest with
  | nil =>
    obtain ⟨steps, rfl⟩ := Nat.exists_eq_succ_of_ne_zero (Nat.ne_of_gt hsteps)
    exact ⟨m, rfl, h⟩
  | cons x c ih =>
    obtain ⟨steps, rfl⟩ := Nat.exists_eq_succ_of_ne_zero (Nat.ne_zero_of_lt hsteps)
    have hread : m.lookup x.1 = some ⟨x.2, entry none c⟩ := h.read mem_cons_self
    have hrest : m.Holds (cells none c ++ ⟨x.1, x.2, entry none c⟩ :: rest) := h.perm perm_middle.symm
    obtain ⟨m', hm', hholds⟩ := ih hrest (Nat.lt_of_succ_lt_succ hsteps)
    refine ⟨m'.erase x.1, ?_, hholds.free⟩
    simp only [entry_cons, destroy, hread, Option.bind_eq_bind, Option.bind_some, hm']
    rfl

theorem destroyAll_holds {cs : List (List (Stored α))} (h : m.Holds ((cs.map (cells none)).flatten ++ rest)) :
    ∃ m', destroyAll (cs.map (entry none)) m = some m' ∧ m'.Holds rest := by
  induction cs generalizing m with
  | nil => exact ⟨m, rfl, h⟩
  | cons c cs ih =>
    rw [map_cons, flatten_cons, append_assoc] at h
    obtain ⟨m₁, hone, hm₁⟩ := destroy_holds h (by simpa using h.length_lt)
    obtain ⟨m₂, hmore, hm₂⟩ := ih hm₁
    refine ⟨m₂, ?_, hm₂⟩
    simp only [map_cons, destroyAll, hone, Option.bind_eq_bind, Option.bind_some, hmore]

theorem destroy_single {a : Nat} {d : α} (h : m.Holds (⟨a, d, none⟩ :: rest)) :
    ∃ m', destroy m.bound (some a) m = some m' ∧ m'.Holds rest :=
  destroy_holds (c := [⟨a, d⟩]) h (Memory.Holds.length_lt (l := cells none [⟨a, d⟩]) h)

end Walks

/-! ### Rows of slots -/

/-- Memory, and a row of slots that own chains in it. -/
structure Heap (α : Type) where
  memory : Memory α
  slots : List (Option Nat)

/-- A place that owns a cell: a slot of the row, or the link of a cell. -/
inductive Link where
  | slot (i : Nat)
  | next (a : Nat)

namespace Heap

def read (h : Heap α) : Link → Option (Option Nat)
  | .slot i => h.slots[i]?
  | .next a => (h.memory.lookup a).map Cell.next

def write (h : Heap α) (p : Option Nat) : Link → Option (Heap α)
  | .slot i => if i < h.slots.length then some { h with slots := h.slots.set i p } else none
  | .next a => (h.memory.lookup a).map fun c => { h with memory := h.memory.insert a { c with next := p } }

/-- What a place owns is moved out of it. -/
def take (h : Heap α) (link : Link) : Option (Option Nat × Heap α) := do
  let p ← h.read link
  let h ← h.write none link
  return (p, h)

/-- A place is given a chain to own; what it owned before is destroyed. -/
def put (h : Heap α) (p : Option Nat) (link : Link) : Option (Heap α) := do
  let old ← h.read link
  let h ← h.write p link
  let m ← destroy h.memory.bound old h.memory
  return { h with memory := m }

/-- A cell linked in at the head of a slot's chain. -/
def push (h : Heap α) (i a : Nat) : Option (Heap α) := do
  let (p, h) ← h.take (.slot i)
  let h ← h.put p (.next a)
  h.put (some a) (.slot i)

/-- The cells of a chain moved, one after the other, to the heads of the slots their data
belong to. -/
def scatter (index : α → Nat) : (steps : Nat) → Option Nat → Heap α → Option (Heap α)
  | 0, _, _ => none
  | _ + 1, none, h => some h
  | steps + 1, some a, h => do
    let (next, h) ← h.take (.next a)
    let c ← h.memory.lookup a
    let h ← h.push (index c.data) a
    scatter index steps next h

/-- One chain after the other. -/
def scatterAll (index : α → Nat) : List (Option Nat) → Heap α → Option (Heap α)
  | [], h => some h
  | p :: ps, h => do
    let h ← scatter index h.memory.bound p h
    scatterAll index ps h

/-- The first cell whose datum is `wanted`, from a link on, unlinked and destroyed. -/
def unlink (wanted : α → Bool) : (steps : Nat) → Link → Heap α → Option (Heap α × Bool)
  | 0, _, _ => none
  | steps + 1, link, h => do
    match ← h.read link with
    | none => return (h, false)
    | some a =>
      let c ← h.memory.lookup a
      if wanted c.data then
        let (p, h) ← h.take (.next a)
        let h ← h.put p link
        return (h, true)
      else unlink wanted steps (.next a) h

/-- The memory is the cells of the row's chains and the `rest`, each cell once. -/
structure Owns (h : Heap α) (cs : List (List (Stored α))) (rest : List (Located α)) : Prop where
  slots : h.slots = cs.map (entry none)
  memory : h.memory.Holds ((cs.map (cells none)).flatten ++ rest)

variable {h : Heap α} {cs : List (List (Stored α))} {rest rest' : List (Located α)} {c : List (Stored α)}
  {i a : Nat} {d : α} {p : Option Nat}

/-- Data put at the heads of the chains they belong to, one after the other. -/
def spread (index : α → Nat) (cs : List (List (Stored α))) (c : List (Stored α)) : List (List (Stored α)) :=
  c.foldl (fun cs x => cs.set (index x.2) (x :: cs.getD (index x.2) [])) cs

theorem spread_append (index : α → Nat) (cs : List (List (Stored α))) (c c' : List (Stored α)) :
    spread index cs (c ++ c') = spread index (spread index cs c) c' := foldl_append ..

@[simp] theorem length_spread (index : α → Nat) (cs : List (List (Stored α))) (c : List (Stored α)) :
    (spread index cs c).length = cs.length := by
  induction c generalizing cs with
  | nil => rfl
  | cons x c ih => exact (ih _).trans length_set

/-- Spreading loses nothing and adds nothing. -/
theorem spread_perm {index : α → Nat} {cs : List (List (Stored α))} (h : ∀ d, index d < cs.length)
    (c : List (Stored α)) : (spread index cs c).flatten ~ c ++ cs.flatten := by
  induction c generalizing cs with
  | nil => exact Perm.refl _
  | cons x c ih =>
    have hin := Keyed.flatten_set_perm (h x.2) (x :: cs.getD (index x.2) [])
    have hout := Keyed.flatten_perm (L := cs) (i := index x.2) (c := cs.getD (index x.2) []) (by simp [h])
    calc (spread index (cs.set (index x.2) (x :: cs.getD (index x.2) [])) c).flatten
        ~ c ++ (cs.set (index x.2) (x :: cs.getD (index x.2) [])).flatten := ih (by simpa using h)
      _ ~ c ++ x :: cs.flatten := (hin.trans (hout.symm.cons x)).append_left c
      _ ~ x :: c ++ cs.flatten := perm_middle

theorem Owns.perm (ho : h.Owns cs rest) (hp : rest ~ rest') : h.Owns cs rest' :=
  ⟨ho.slots, ho.memory.perm (hp.append_left _)⟩

/-- A chain moved between the row and the rest. -/
theorem row_swap (hc : cs[i]? = some c) (c' : List (Stored α)) (rest : List (Located α)) :
    (cs.map (cells none)).flatten ++ (cells none c' ++ rest) ~
      ((cs.set i c').map (cells none)).flatten ++ (cells none c ++ rest) := by
  have hi : i < cs.length := (List.getElem?_eq_some_iff.mp hc).1
  have hout := Keyed.flatten_perm (L := cs.map (cells none)) (i := i) (c := cells none c) (by simp [hc])
  have hin := Keyed.flatten_set_perm (L := cs.map (cells none)) (i := i) (by simpa using hi) (cells none c')
  rw [map_set]
  generalize ((cs.map (cells none)).eraseIdx i).flatten = others at hout hin
  calc (cs.map (cells none)).flatten ++ (cells none c' ++ rest)
      ~ (cells none c ++ others) ++ (cells none c' ++ rest) := hout.append_right _
    _ ~ (cells none c' ++ others) ++ (cells none c ++ rest) := by
        rw [← Multiset.coe_eq_coe]
        simp only [← Multiset.coe_add]
        ac_rfl
    _ ~ ((cs.map (cells none)).set i (cells none c')).flatten ++ (cells none c ++ rest) := hin.symm.append_right _

theorem Owns.lookup (ho : h.Owns cs (⟨a, d, p⟩ :: rest)) : h.memory.lookup a = some ⟨d, p⟩ :=
  ho.memory.read (mem_append_right _ mem_cons_self)

theorem Owns.slot (ho : h.Owns cs rest) (hc : cs[i]? = some c) : h.slots[i]? = some (entry none c) := by
  rw [ho.slots, getElem?_map, hc]
  rfl

theorem Owns.length (ho : h.Owns cs rest) : h.slots.length = cs.length := by
  rw [ho.slots, length_map]

theorem Owns.bound (ho : h.Owns cs rest) (hc : cs[i]? = some c) : c.length < h.memory.bound := by
  have hmem := ho.memory.perm (row_swap hc [] rest)
  simpa using (hmem.perm (perm_append_comm_assoc ..)).length_lt

theorem Owns.spelled (ho : h.Owns cs rest) (hc : cs[i]? = some c) :
    ∀ e ∈ cells none c, h.memory.lookup e.1 = some e.2 := by
  intro e he
  refine ho.memory.read (mem_append_left _ (mem_flatten.mpr ⟨cells none c, ?_, he⟩))
  exact mem_map_of_mem (mem_of_getElem? hc)

/-! #### Moves -/

theorem Owns.take_slot (ho : h.Owns cs rest) (hc : cs[i]? = some c) :
    ∃ h', h.take (.slot i) = some (entry none c, h') ∧ h'.Owns (cs.set i []) (cells none c ++ rest) := by
  have hi : i < h.slots.length := by
    rw [ho.length]
    exact (List.getElem?_eq_some_iff.mp hc).1
  refine ⟨{ h with slots := h.slots.set i none }, ?_, ?_, ho.memory.perm (row_swap hc [] rest)⟩
  · have hslot : h.slots[i] = entry none c := by simpa [hi] using ho.slot hc
    simp [take, read, write, hslot, hi]
  · rw [ho.slots, map_set]
    rfl

theorem Owns.take_next (ho : h.Owns cs (⟨a, d, p⟩ :: rest)) :
    ∃ h', h.take (.next a) = some (p, h') ∧ h'.Owns cs (⟨a, d, none⟩ :: rest) := by
  have hread : h.memory.lookup a = some ⟨d, p⟩ := ho.lookup
  refine ⟨{ h with memory := h.memory.insert a ⟨d, none⟩ }, by simp [take, read, write, hread], ho.slots, ?_⟩
  exact ((ho.memory.perm perm_middle).write _).perm perm_middle.symm

theorem Owns.put_next (ho : h.Owns cs (⟨a, d, none⟩ :: rest)) (p : Option Nat) :
    ∃ h', h.put p (.next a) = some h' ∧ h'.Owns cs (⟨a, d, p⟩ :: rest) := by
  have hread : h.memory.lookup a = some ⟨d, none⟩ := ho.lookup
  refine ⟨{ h with memory := h.memory.insert a ⟨d, p⟩ }, ?_, ho.slots, ?_⟩
  · simp [put, read, write, hread, Memory.bound, destroy]
  · exact ((ho.memory.perm perm_middle).write _).perm perm_middle.symm

theorem Owns.put_slot (ho : h.Owns cs (cells none c ++ rest)) (hi : cs[i]? = some []) :
    ∃ h', h.put (entry none c) (.slot i) = some h' ∧ h'.Owns (cs.set i c) rest := by
  have hlt : i < h.slots.length := by
    rw [ho.length]
    exact (List.getElem?_eq_some_iff.mp hi).1
  refine ⟨{ h with slots := h.slots.set i (entry none c) }, ?_, ?_, ho.memory.perm (row_swap hi c rest)⟩
  · have hslot : h.slots[i] = none := by simpa [hlt] using ho.slot hi
    simp [put, read, write, hslot, hlt, Memory.bound, destroy]
  · rw [ho.slots, map_set]

theorem Owns.alloc (ho : h.Owns cs rest) (ha : a ∉ h.memory) (d : α) :
    Owns { h with memory := h.memory.insert a ⟨d, none⟩ } cs (⟨a, d, none⟩ :: rest) :=
  ⟨ho.slots, (ho.memory.alloc ha _).perm perm_middle.symm⟩

/-- **A cell linked in** at the head of a slot's chain. -/
theorem Owns.push (ho : h.Owns cs (⟨a, d, none⟩ :: rest)) (hc : cs[i]? = some c) :
    ∃ h', h.push i a = some h' ∧ h'.Owns (cs.set i (⟨a, d⟩ :: c)) rest := by
  have hi : i < cs.length := (List.getElem?_eq_some_iff.mp hc).1
  obtain ⟨h₁, htake, ho₁⟩ := ho.take_slot hc
  obtain ⟨h₂, hnext, ho₂⟩ := (ho₁.perm perm_middle).put_next (entry none c)
  obtain ⟨h₃, hput, ho₃⟩ := Owns.put_slot (c := ⟨a, d⟩ :: c) (i := i) ho₂ (by simp [hi])
  rw [set_set] at ho₃
  refine ⟨h₃, ?_, ho₃⟩
  rw [entry_cons] at hput
  simp [Heap.push, htake, hnext, hput]

/-- **A chain moved.** Each of its cells goes to the head of the slot its datum belongs to. -/
theorem Owns.scatter {index : α → Nat} {steps : Nat} (ho : h.Owns cs (cells none c ++ rest))
    (hindex : ∀ d, index d < cs.length) (hsteps : c.length < steps) :
    ∃ h', scatter index steps (entry none c) h = some h' ∧
      h'.Owns (spread index cs c) rest := by
  induction c generalizing h cs steps with
  | nil =>
    obtain ⟨steps, rfl⟩ := Nat.exists_eq_succ_of_ne_zero (Nat.ne_of_gt hsteps)
    exact ⟨h, rfl, ho⟩
  | cons x c ih =>
    obtain ⟨steps, rfl⟩ := Nat.exists_eq_succ_of_ne_zero (Nat.ne_zero_of_lt hsteps)
    obtain ⟨h₁, htake, ho₁⟩ := ho.take_next
    have hread : h₁.memory.lookup x.1 = some ⟨x.2, none⟩ := ho₁.lookup
    have hslot : cs[index x.2]? = some (cs.getD (index x.2) []) := by simp [hindex]
    obtain ⟨h₂, hpush, ho₂⟩ := ho₁.push hslot
    obtain ⟨h₃, hmore, ho₃⟩ := ih ho₂ (by simpa using hindex) (Nat.lt_of_succ_lt_succ hsteps)
    refine ⟨h₃, ?_, ho₃⟩
    simp only [entry_cons, Heap.scatter, htake, Option.bind_eq_bind, Option.bind_some, hread, hpush, hmore]

theorem Owns.scatterAll {index : α → Nat} {rows : List (List (Stored α))}
    (ho : h.Owns cs ((rows.map (cells none)).flatten ++ rest)) (hindex : ∀ d, index d < cs.length) :
    ∃ h', scatterAll index (rows.map (entry none)) h = some h' ∧ h'.Owns (spread index cs rows.flatten) rest := by
  induction rows generalizing h cs with
  | nil => exact ⟨h, rfl, ho⟩
  | cons c rows ih =>
    rw [map_cons, flatten_cons, append_assoc] at ho
    have hsteps : c.length < h.memory.bound := by
      have hmem := ho.memory.perm (perm_append_comm_assoc ..)
      simpa using hmem.length_lt
    obtain ⟨h₁, hone, ho₁⟩ := ho.scatter hindex hsteps
    obtain ⟨h₂, hmore, ho₂⟩ := ih ho₁ (by simpa using hindex)
    refine ⟨h₂, ?_, ?_⟩
    · simp only [map_cons, Heap.scatterAll, hone, Option.bind_eq_bind, Option.bind_some, hmore]
    · rwa [flatten_cons, spread_append]

/-! #### Inside a chain -/

/-- The place that owns what comes after the first part of a slot's chain. -/
def after (i : Nat) (front : List (Stored α)) : Link :=
  match front.getLast? with
  | none => .slot i
  | some x => .next x.1

theorem after_nil (i : Nat) : after i ([] : List (Stored α)) = .slot i := rfl

theorem after_concat (i : Nat) (front : List (Stored α)) (x : Stored α) : after i (front ++ [x]) = .next x.1 := by
  simp [after]

/-- A row seen from one of its cells. -/
theorem Owns.open {front back : List (Stored α)} (ho : h.Owns cs rest) (hc : cs[i]? = some (front ++ ⟨a, d⟩ :: back)) :
    h.memory.Holds (⟨a, d, entry none back⟩ :: (cells (some a) front ++ (cells none back ++
      (((cs.set i []).map (cells none)).flatten ++ rest)))) := by
  refine ho.memory.perm ?_
  have hout := row_swap hc [] rest
  rw [cells_append, cells_cons] at hout
  refine hout.trans ?_
  rw [← Multiset.coe_eq_coe]
  simp only [← Multiset.coe_add, ← Multiset.cons_coe, entry_cons, ← Multiset.singleton_add]
  ac_rfl

/-- What the open row is closed to. -/
theorem close_perm (hi : i < cs.length) (c : List (Stored α)) :
    cells none c ++ (((cs.set i []).map (cells none)).flatten ++ rest) ~
      ((cs.set i c).map (cells none)).flatten ++ rest := by
  have hempty : (cs.set i [])[i]? = some [] := by simp [hi]
  have hin := row_swap hempty c rest
  rw [set_set] at hin
  refine Perm.trans ?_ hin
  rw [← append_assoc, ← append_assoc]
  exact perm_append_comm.append_right _

theorem Owns.read_after {front back : List (Stored α)} (ho : h.Owns cs rest) (hc : cs[i]? = some (front ++ back)) :
    h.read (after i front) = some (entry none back) := by
  induction front using reverseRecOn with
  | nil => exact ho.slot hc
  | append_singleton front x _ =>
    rw [append_assoc] at hc
    have hread := (ho.open (d := x.2) hc).read mem_cons_self
    rw [after_concat, read, hread]
    rfl

theorem set_same {β : Type} {l : List β} {x : β} (h : l[i]? = some x) : l.set i x = l := by
  obtain ⟨hi, rfl⟩ := List.getElem?_eq_some_iff.mp h
  exact set_getElem_self hi

/-- **A datum overwritten**, in place. -/
theorem Owns.assign {front back : List (Stored α)} (ho : h.Owns cs rest) (hc : cs[i]? = some (front ++ ⟨a, d⟩ :: back))
    (d' : α) : ∃ m, assign a d' h.memory = some m ∧
      Owns { h with memory := m } (cs.set i (front ++ ⟨a, d'⟩ :: back)) rest := by
  have hi : i < cs.length := (List.getElem?_eq_some_iff.mp hc).1
  have hopen := ho.open hc
  refine ⟨h.memory.insert a ⟨d', entry none back⟩, ?_, ?_, ?_⟩
  · simp [Chains.assign, hopen.read mem_cons_self]
  · have hslot := ho.slot hc
    rw [entry_append, entry_cons] at hslot
    rw [map_set, ← ho.slots, entry_append, entry_cons, set_same hslot]
  · refine ((hopen.write _).perm ?_).perm (close_perm hi _)
    rw [cells_append, cells_cons, ← Multiset.coe_eq_coe]
    simp only [← Multiset.coe_add, ← Multiset.cons_coe, entry_cons, ← Multiset.singleton_add]
    ac_rfl

/-- What owned a cell is given what the cell owned, and the cell is destroyed alone. -/
theorem Owns.bypass {front back : List (Stored α)} (ho : h.Owns cs rest)
    (hc : cs[i]? = some (front ++ ⟨a, d⟩ :: back)) :
    ∃ h₁ h₂, h.take (.next a) = some (entry none back, h₁) ∧ h₁.put (entry none back) (after i front) = some h₂ ∧
      h₂.Owns (cs.set i (front ++ back)) rest := by
  have hi : i < cs.length := (List.getElem?_eq_some_iff.mp hc).1
  have hopen := ho.open hc
  have hread := hopen.read mem_cons_self
  have hslot := ho.slot hc
  -- `std::move` leaves nothing for the cell to destroy
  have htaken := hopen.write ⟨d, none⟩
  refine ⟨{ h with memory := h.memory.insert a ⟨d, none⟩ }, ?_⟩
  rcases eq_nil_or_concat' front with rfl | ⟨front, x, rfl⟩
  · obtain ⟨m, hdestroy, hm⟩ := destroy_single htaken
    have hlt : i < h.slots.length := ho.length ▸ hi
    have hold : h.slots[i] = some a := by simpa [hlt] using hslot
    refine ⟨⟨m, h.slots.set i (entry none back)⟩, by simp [take, read, write, hread], ?_, ?_, ?_⟩
    · simp [put, read, write, after_nil, hlt, hold, hdestroy]
    · rw [ho.slots, map_set]
      rfl
    · exact hm.perm (close_perm hi back)
  · -- the cell before is in the same chain, and is another one
    have hbefore : Memory.Holds (h.memory.insert a ⟨d, none⟩) (⟨x.1, x.2, some a⟩ :: ⟨a, d, none⟩ ::
        (cells (some x.1) front ++ (cells none back ++ (((cs.set i []).map (cells none)).flatten ++ rest)))) := by
      refine htaken.perm ?_
      rw [cells_append, cells_cons, ← Multiset.coe_eq_coe]
      simp only [← Multiset.coe_add, ← Multiset.cons_coe, entry_cons, ← Multiset.singleton_add]
      ac_rfl
    have hlinked := hbefore.write ⟨x.2, entry none back⟩
    obtain ⟨m, hdestroy, hm⟩ := destroy_single (hlinked.perm (Perm.swap _ _ _))
    refine ⟨{ h with memory := m }, by simp [take, read, write, hread], ?_, ?_, hm.perm ?_⟩
    · simp [put, read, write, after_concat, hbefore.read mem_cons_self, hdestroy]
    · rw [map_set, ← ho.slots, append_assoc, singleton_append, entry_append]
      rw [append_assoc, singleton_append, entry_append] at hslot
      exact (set_same hslot).symm
    · refine Perm.trans ?_ (close_perm hi _)
      rw [append_assoc, singleton_append, cells_append, cells_cons, ← Multiset.coe_eq_coe]
      simp only [← Multiset.coe_add, ← Multiset.cons_coe, entry_cons, ← Multiset.singleton_add]
      ac_rfl

/-- **A cell unlinked.** The first cell after `front` whose datum is `wanted` is out of its
chain and freed; no other cell is. -/
theorem Owns.unlink (wanted : α → Bool) {front back : List (Stored α)} {steps : Nat} (ho : h.Owns cs rest)
    (hc : cs[i]? = some (front ++ back)) (hsteps : back.length < steps) :
    ∃ h', unlink wanted steps (after i front) h = some (h', back.any fun x => wanted x.2) ∧
      h'.Owns (cs.set i (front ++ back.eraseP fun x => wanted x.2)) rest := by
  induction back generalizing front steps with
  | nil =>
    obtain ⟨steps, rfl⟩ := Nat.exists_eq_succ_of_ne_zero (Nat.ne_of_gt hsteps)
    refine ⟨h, by simp [Heap.unlink, ho.read_after hc], ?_⟩
    rw [eraseP_nil, set_same hc]
    exact ho
  | cons x back ih =>
    obtain ⟨steps, rfl⟩ := Nat.exists_eq_succ_of_ne_zero (Nat.ne_zero_of_lt hsteps)
    have hread := (ho.open (d := x.2) hc).read mem_cons_self
    by_cases hx : wanted x.2
    · obtain ⟨h₁, h₂, htake, hput, ho₂⟩ := ho.bypass (d := x.2) hc
      refine ⟨h₂, ?_, by simpa [eraseP_cons, hx] using ho₂⟩
      simp [Heap.unlink, ho.read_after hc, hread, hx, htake, hput]
    · have hc' : cs[i]? = some ((front ++ [x]) ++ back) := by simpa using hc
      obtain ⟨h', hmore, ho'⟩ := ih hc' (Nat.lt_of_succ_lt_succ hsteps)
      refine ⟨h', ?_, ?_⟩
      · rw [after_concat] at hmore
        simp [Heap.unlink, ho.read_after hc, hread, hx, hmore]
      · simpa [eraseP_cons, hx] using ho'

end Heap
end Chains
