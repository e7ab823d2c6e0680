import GoRedis.Lib.Codec

/-! Reading through a cursor.

A reader of `Codec` is handed what is left of the input. A program keeps a position in a
buffer instead: it has to check before every read that the buffer goes that far, it asks for
memory by counts it has read, and it loops as often as they say. `Follows` says that a program
reads what a reader reads, never outside of the buffer, that it throws exactly if it asks for
more than a vector can hold, and that its loops do not run on without reading: every iteration
that is completed takes some bytes. `Asks` says what it asks for, in terms of the input alone. -/
namespace Cursor
open Codec

/-- Why a program ends early. -/
inductive Stop where
  | refused
  | thrown
  | outside
  deriving DecidableEq

/-- Where a program is, how many iterations its loops have begun, and how much it has asked for
in each of its vectors. -/
structure Progress (κ : Type) where
  pos : Nat := 0
  steps : Nat := 0
  reserved : List (κ × Nat) := []

abbrev Load (κ α : Type) := ExceptT Stop (StateM (Progress κ)) α

variable {κ α β : Type}

/-! ### Steps -/

def position : Load κ Nat := fun s => (.ok s.pos, s)

def advance (n : Nat) : Load κ Unit := fun s => (.ok (), { s with pos := s.pos + n })

def refuse : Load κ α := fun s => (.error .refused, s)

/-- A byte of the buffer. -/
def byteAt (buf : List UInt8) (i : Nat) : Load κ UInt8 := fun s =>
  match buf[i]? with
  | some b => (.ok b, s)
  | none => (.error .outside, s)

/-- So many bytes of the buffer. -/
def slice (buf : List UInt8) (i len : Nat) : Load κ (List UInt8) := fun s =>
  if i + len ≤ buf.length then (.ok ((buf.drop i).take len), s) else (.error .outside, s)

/-- Something read at the position, if the buffer goes `k` bytes further, which it takes. -/
def checked (buf : List UInt8) (k : Nat) (body : Nat → Load κ α) : Load κ α := do
  let pos ← position
  if pos + k > buf.length then refuse
  else do
    let out ← body pos
    advance k
    pure out

/-- Memory asked for; a vector has a largest size. -/
def reserve (maxSize : κ → Nat) (v : κ) (n : Nat) : Load κ Unit := fun s =>
  (if n > maxSize v then .error .thrown else .ok (), { s with reserved := s.reserved ++ [(v, n)] })

def tick : Load κ Unit := fun s => (.ok (), { s with steps := s.steps + 1 })

def loop (item : Load κ α) : Nat → Load κ (List α)
  | 0 => pure []
  | n + 1 => do
    tick
    let a ← item
    let as ← loop item n
    pure (a :: as)

/-- A vector that is reserved and then filled. -/
def filled (maxSize : κ → Nat) (v : κ) (item : Load κ α) (n : Nat) : Load κ (List α) := do
  reserve maxSize v n
  loop item n

/-! ### Following a reader -/

section
variable (buf : List UInt8) (maxSize : κ → Nat)

/-- How a program that is at `s` ends, where a reader reads on from the same position. If it
ends well it has taken `c` bytes more than it has begun iterations; otherwise it has begun at
most `d` more than there were bytes. -/
inductive Ends (c d : Nat) (r : Reader α) (s : Progress κ) : Except Stop α × Progress κ → Prop where
  | ok {a : α} {s' : Progress κ} (hread : r (buf.drop s.pos) = some (a, buf.drop s'.pos))
    (hpos : s'.pos ≤ buf.length) (hmono : s.steps ≤ s'.steps) (htaken : s'.steps + s.pos + c ≤ s.steps + s'.pos)
    (hreserved : ∃ more, s'.reserved = s.reserved ++ more ∧ ∀ q ∈ more, q.2 ≤ maxSize q.1 ∧ q.2 ≤ buf.length) :
    Ends c d r s (.ok a, s')
  | refused {s' : Progress κ} (hread : r (buf.drop s.pos) = none)
    (hsteps : s'.steps + s.pos ≤ s.steps + buf.length + d)
    (hreserved : ∃ more, s'.reserved = s.reserved ++ more ∧ ∀ q ∈ more, q.2 ≤ maxSize q.1) :
    Ends c d r s (.error .refused, s')
  | thrown {s' : Progress κ} (hsteps : s'.steps + s.pos ≤ s.steps + buf.length + d)
    (hreserved : ∃ more, s'.reserved = s.reserved ++ more ∧ ∃ q ∈ more, maxSize q.1 < q.2) :
    Ends c d r s (.error .thrown, s')

/-- The program does what the reader does, from every position inside of the buffer. -/
def Follows (c d : Nat) (p : Load κ α) (r : Reader α) : Prop :=
  ∀ s : Progress κ, s.pos ≤ buf.length → Ends buf maxSize c d r s (p s)

end

section
variable {buf : List UInt8} {maxSize : κ → Nat} {c c' d d' : Nat}

theorem Follows.weaken {p : Load κ α} {r : Reader α} (h : Follows buf maxSize c d p r) (hc : c' ≤ c) (hd : d ≤ d') :
    Follows buf maxSize c' d' p r := by
  intro s hs
  have hends := h s hs
  generalize p s = result at hends
  cases hends with
  | ok hread hpos hmono htaken hreserved => exact .ok hread hpos hmono (by omega) hreserved
  | refused hread hsteps hreserved => exact .refused hread (by omega) hreserved
  | thrown hsteps hreserved => exact .thrown (by omega) hreserved

theorem follows_pure (a : α) : Follows buf maxSize 0 0 (pure a : Load κ α) (pure a) :=
  fun _ hs => .ok rfl hs (Nat.le_refl _) (Nat.le_refl _) ⟨[], (List.append_nil _).symm, nofun⟩

theorem bind_ok {p : Load κ α} {f : α → Load κ β} {s s' : Progress κ} {a : α} (h : p s = (.ok a, s')) :
    (p >>= f) s = f a s' := by
  change (ExceptT.bindCont f (p s).1 : StateM (Progress κ) _) (p s).2 = _
  rw [h]
  rfl

theorem bind_error {p : Load κ α} {f : α → Load κ β} {s s' : Progress κ} {e : Stop} (h : p s = (.error e, s')) :
    (p >>= f) s = (.error e, s') := by
  change (ExceptT.bindCont f (p s).1 : StateM (Progress κ) _) (p s).2 = _
  rw [h]
  rfl

theorem Follows.bind {p : Load κ α} {r : Reader α} {f : α → Load κ β} {g : α → Reader β}
    (h : Follows buf maxSize c d p r) (h' : ∀ a, Follows buf maxSize c' d (f a) (g a)) :
    Follows buf maxSize (c + c') d (p >>= f) (r >>= g) := by
  intro s hs
  have hends := h s hs
  have hbind : (r >>= g) (buf.drop s.pos) = (r (buf.drop s.pos)).bind fun q => g q.1 q.2 := rfl
  obtain ⟨result, s', hp⟩ : ∃ result s', p s = (result, s') := ⟨_, _, rfl⟩
  rw [hp] at hends
  cases hends with
  | @ok a _ hread hpos hmono htaken hreserved =>
    rw [bind_ok hp]
    obtain ⟨more, hmore, hfits⟩ := hreserved
    have hnext := h' a s' hpos
    rw [hread, Option.bind_some] at hbind
    generalize f a s' = result' at hnext
    cases hnext with
    | ok hread' hpos' hmono' htaken' hreserved' =>
      obtain ⟨more', hmore', hfits'⟩ := hreserved'
      refine .ok (hbind.trans hread') hpos' (hmono.trans hmono') (by omega) ⟨more ++ more', ?_, ?_⟩
      · rw [hmore', hmore, List.append_assoc]
      · exact fun q hq => (List.mem_append.mp hq).elim (hfits q) (hfits' q)
    | refused hread' hsteps' hreserved' =>
      obtain ⟨more', hmore', hfits'⟩ := hreserved'
      refine .refused (hbind.trans hread') (by omega) ⟨more ++ more', ?_, ?_⟩
      · rw [hmore', hmore, List.append_assoc]
      · exact fun q hq => (List.mem_append.mp hq).elim (fun hq => (hfits q hq).1) (hfits' q)
    | thrown hsteps' hreserved' =>
      obtain ⟨more', hmore', q, hq, hlarge⟩ := hreserved'
      refine .thrown (by omega) ⟨more ++ more', ?_, q, List.mem_append_right _ hq, hlarge⟩
      rw [hmore', hmore, List.append_assoc]
  | refused hread hsteps hreserved =>
    rw [bind_error hp]
    rw [hread, Option.bind_none] at hbind
    exact .refused hbind hsteps hreserved
  | thrown hsteps hreserved =>
    rw [bind_error hp]
    exact .thrown hsteps hreserved

theorem Follows.map {p : Load κ α} {r : Reader α} (h : Follows buf maxSize c d p r) (f : α → β) :
    Follows buf maxSize c d (do let a ← p; pure (f a)) (do let a ← r; pure (f a)) :=
  h.bind fun a => (follows_pure (f a)).weaken (Nat.le_refl 0) (Nat.zero_le d)

/-- A checked read: its body stays inside of the buffer where the check says it does. -/
theorem follows_checked {body : Nat → Load κ α} {r : Reader α} {k : Nat}
    (hbody : ∀ pos s, pos + k ≤ buf.length → ∃ a, body pos s = (.ok a, s) ∧
      r (buf.drop pos) = some (a, buf.drop (pos + k)))
    (hshort : ∀ bs : List UInt8, bs.length < k → r bs = none) :
    Follows buf maxSize k 0 (checked buf k body) r := by
  intro s hs
  have hposition : position s = (.ok s.pos, s) := rfl
  rw [checked, bind_ok hposition]
  by_cases hk : s.pos + k ≤ buf.length
  · obtain ⟨a, ha, hread⟩ := hbody s.pos s hk
    rw [if_neg (Nat.not_lt.mpr hk), bind_ok ha]
    show Ends buf maxSize k 0 r s (.ok a, { s with pos := s.pos + k })
    exact .ok hread hk (Nat.le_refl _) (Nat.le_of_eq (Nat.add_assoc ..)) ⟨[], (List.append_nil _).symm, nofun⟩
  · rw [if_pos (Nat.not_le.mp hk)]
    have hnone := hshort (buf.drop s.pos) (by rw [List.length_drop]; omega)
    exact .refused hnone (by omega) ⟨[], (List.append_nil _).symm, nofun⟩

theorem follows_refuse (f : α → Reader β) : Follows buf maxSize c 0 (refuse : Load κ β) (failure >>= f) :=
  fun _ hs => .refused rfl (by omega) ⟨[], (List.append_nil _).symm, nofun⟩

/-! ### Loops -/

/-- An iteration. -/
theorem Follows.tick {p : Load κ α} {r : Reader α} (h : Follows buf maxSize (c + 1) d p r) :
    Follows buf maxSize c (d + 1) (do Cursor.tick; p) r := by
  intro s hs
  rw [bind_ok (f := fun _ => p) (show Cursor.tick s = (.ok (), { s with steps := s.steps + 1 }) from rfl)]
  have hends := h { s with steps := s.steps + 1 } hs
  generalize p { s with steps := s.steps + 1 } = result at hends
  cases hends with
  | ok hread hpos hmono htaken hreserved =>
    dsimp only at hmono htaken
    exact .ok hread hpos (by omega) (by omega) hreserved
  | refused hread hsteps hreserved =>
    dsimp only at hsteps
    exact .refused hread (by omega) hreserved
  | thrown hsteps hreserved =>
    dsimp only at hsteps
    exact .thrown (by omega) hreserved

/-- A loop whose iterations take two bytes or more, which pay for the iteration and one more. -/
theorem follows_loop {item : Load κ α} {r : Reader α} (h : Follows buf maxSize 2 d item r) (n : Nat) :
    Follows buf maxSize n (d + 1) (loop item n) (times r n) := by
  induction n with
  | zero => exact (follows_pure []).weaken (Nat.le_refl 0) (Nat.zero_le _)
  | succ n ih =>
    have hstep : loop item (n + 1) =
        (do let a ← (do Cursor.tick; item); let as ← loop item n; pure (a :: as)) := by
      rw [bind_assoc]
      rfl
    rw [hstep]
    exact ((h.tick (c := 1)).bind fun a => ih.map (a :: ·)).weaken (by omega) (Nat.le_refl _)

/-- If a vector is filled, there were as many bytes. -/
theorem follows_filled {item : Load κ α} {r : Reader α} (h : Follows buf maxSize 2 d item r) (v : κ) (n : Nat) :
    Follows buf maxSize 0 (d + 1) (filled maxSize v item n) (times r n) := by
  intro s hs
  unfold filled
  by_cases hn : n > maxSize v
  · have hreserve : reserve maxSize v n s = (.error .thrown, { s with reserved := s.reserved ++ [(v, n)] }) := by
      rw [reserve, if_pos hn]
    rw [bind_error (f := fun _ => loop item n) hreserve]
    refine .thrown ?_ ⟨[(v, n)], rfl, (v, n), List.mem_singleton_self _, hn⟩
    dsimp only
    omega
  · have hreserve : reserve maxSize v n s = (.ok (), { s with reserved := s.reserved ++ [(v, n)] }) := by
      rw [reserve, if_neg hn]
    rw [bind_ok (f := fun _ => loop item n) hreserve]
    have hends := follows_loop h n { s with reserved := s.reserved ++ [(v, n)] } hs
    generalize loop item n { s with reserved := s.reserved ++ [(v, n)] } = result at hends
    have hfirst : ∀ {more : List (κ × Nat)} {P : κ × Nat → Prop}, P (v, n) → (∀ q ∈ more, P q) →
        ∀ q ∈ (v, n) :: more, P q := fun hv hmore => List.forall_mem_cons.mpr ⟨hv, hmore⟩
    cases hends with
    | ok hread hpos hmono htaken hreserved =>
      obtain ⟨more, hmore, hfits⟩ := hreserved
      dsimp only at hmono htaken
      refine .ok hread hpos hmono (by omega) ⟨(v, n) :: more, ?_, hfirst ⟨Nat.not_lt.mp hn, ?_⟩ hfits⟩
      · rw [hmore, List.append_assoc, List.singleton_append]
      · dsimp only
        omega
    | refused hread hsteps hreserved =>
      obtain ⟨more, hmore, hfits⟩ := hreserved
      refine .refused hread hsteps ⟨(v, n) :: more, ?_, hfirst (Nat.not_lt.mp hn) hfits⟩
      rw [hmore, List.append_assoc, List.singleton_append]
    | thrown hsteps hreserved =>
      obtain ⟨more, hmore, q, hq, hlarge⟩ := hreserved
      refine .thrown hsteps ⟨(v, n) :: more, ?_, q, List.mem_cons_of_mem _ hq, hlarge⟩
      rw [hmore, List.append_assoc, List.singleton_append]

end

/-! ### What is asked for -/

section
variable {γ : Type}

/-- What is found in the input behind what a reader takes off it, as far as it goes. -/
def after (r : Reader α) (found : α → List UInt8 → List γ) (bs : List UInt8) : List γ :=
  match r bs with
  | some (a, rest) => found a rest
  | none => []

theorem after_some {r : Reader α} {found : α → List UInt8 → List γ} {bs rest : List UInt8} {a : α}
    (h : r bs = some (a, rest)) : after r found bs = found a rest := by
  rw [after, h]

theorem after_none {r : Reader α} {found : α → List UInt8 → List γ} {bs : List UInt8} (h : r bs = none) :
    after r found bs = [] := by
  rw [after, h]

/-- What is found in `n` items one after another, each of which is taken off by the reader. -/
def inItems (found : List UInt8 → List γ) (r : Reader α) : Nat → List UInt8 → List γ
  | 0, _ => []
  | n + 1, bs => found bs ++ after r (fun _ => inItems found r n) bs

/-- Two readers that take the same off every input. -/
def SameRest (r : Reader α) (r' : Reader β) : Prop := ∀ bs, (r bs).map Prod.snd = (r' bs).map Prod.snd

/-- They refuse the same inputs, and of the others they leave the same. -/
theorem SameRest.both {r : Reader α} {r' : Reader β} (h : SameRest r r') (bs : List UInt8) :
    (r bs = none ∧ r' bs = none) ∨ ∃ a b rest, r bs = some (a, rest) ∧ r' bs = some (b, rest) := by
  have hbs := h bs
  cases hr : r bs with
  | none =>
    rw [hr, Option.map_none] at hbs
    exact .inl ⟨rfl, Option.map_eq_none_iff.mp hbs.symm⟩
  | some p =>
    rw [hr, Option.map_some] at hbs
    obtain ⟨⟨b, rest⟩, hr', rfl⟩ := Option.map_eq_some_iff.mp hbs.symm
    exact .inr ⟨p.1, b, p.2, rfl, hr'⟩

theorem SameRest.bind {δ : Type} {r : Reader α} {f : α → Reader β} {f' : α → Reader δ}
    (h : ∀ a, SameRest (f a) (f' a)) : SameRest (r >>= f) (r >>= f') := by
  intro bs
  show ((r bs).bind fun p => f p.1 p.2).map _ = ((r bs).bind fun p => f' p.1 p.2).map _
  cases r bs with
  | none => rfl
  | some p => exact h p.1 p.2

theorem SameRest.seq {δ ε : Type} {r : Reader α} {r' : Reader β} {f : α → Reader δ} {f' : β → Reader ε}
    (h : SameRest r r') (h' : ∀ a b, SameRest (f a) (f' b)) : SameRest (r >>= f) (r' >>= f') := by
  intro bs
  show ((r bs).bind fun p => f p.1 p.2).map _ = ((r' bs).bind fun p => f' p.1 p.2).map _
  rcases h.both bs with ⟨hr, hr'⟩ | ⟨a, b, rest, hr, hr'⟩
  · rw [hr, hr']
    rfl
  · rw [hr, hr']
    exact h' a b rest

theorem SameRest.pure (a : α) (b : β) : SameRest (pure a) (pure b) := fun _ => rfl

theorem SameRest.map {δ : Type} {r : Reader α} {r' : Reader β} (h : SameRest r r') (f : α → δ) :
    SameRest (do let a ← r; Pure.pure (f a)) r' := by
  have hseq : SameRest (r >>= fun a => Pure.pure (f a)) (r' >>= Pure.pure) := h.seq fun _ _ => .pure _ _
  rwa [bind_pure] at hseq

theorem SameRest.after {r : Reader α} {r' : Reader β} (h : SameRest r r') (found : List UInt8 → List γ) :
    Cursor.after r (fun _ => found) = Cursor.after r' fun _ => found := by
  funext bs
  rcases h.both bs with ⟨hr, hr'⟩ | ⟨a, b, rest, hr, hr'⟩
  · rw [after_none hr, after_none hr']
  · rw [after_some hr, after_some hr']

theorem SameRest.inItems {r : Reader α} {r' : Reader β} (h : SameRest r r') (found : List UInt8 → List γ) (n : Nat) :
    Cursor.inItems found r n = Cursor.inItems found r' n := by
  induction n with
  | zero => rfl
  | succ n ih =>
    funext bs
    rw [Cursor.inItems, Cursor.inItems, h.after, ih]

theorem inItems_nil (r : Reader α) (n : Nat) : inItems (fun _ => ([] : List γ)) r n = fun _ => [] := by
  funext bs
  induction n generalizing bs with
  | zero => rfl
  | succ n ih =>
    rw [inItems, List.nil_append, after]
    split
    · exact ih _
    · rfl

end

section
variable (buf : List UInt8)

/-- Unless it throws, the program asks for just what is found in the input from where it stands;
if it throws, for no more than that. -/
def Asks (p : Load κ α) (found : List UInt8 → List (κ × Nat)) : Prop :=
  ∀ s : Progress κ, s.pos ≤ buf.length → ∃ more, (p s).2.reserved = s.reserved ++ more ∧
    more <+: found (buf.drop s.pos) ∧ ((p s).1 ≠ .error .thrown → more = found (buf.drop s.pos))

end

section
variable {buf : List UInt8} {maxSize : κ → Nat} {c d : Nat}

/-- The program asks for nothing. -/
def Quiet (p : Load κ α) : Prop := ∀ s, (p s).2.reserved = s.reserved

theorem quiet_pure (a : α) : Quiet (pure a : Load κ α) := fun _ => rfl

theorem quiet_refuse : Quiet (refuse : Load κ α) := fun _ => rfl

theorem Quiet.bind {p : Load κ α} {f : α → Load κ β} (h : Quiet p) (h' : ∀ a, Quiet (f a)) : Quiet (p >>= f) := by
  intro s
  have hs := h s
  obtain ⟨result, s', hresult⟩ : ∃ result s', p s = (result, s') := ⟨_, _, rfl⟩
  rw [hresult] at hs
  cases result with
  | error e =>
    rw [bind_error hresult]
    exact hs
  | ok a =>
    rw [bind_ok hresult]
    exact (h' a s').trans hs

theorem quiet_checked {body : Nat → Load κ α} {k : Nat} (h : ∀ pos, Quiet (body pos)) :
    Quiet (checked buf k body) := by
  refine Quiet.bind (fun _ => rfl) fun pos => ?_
  split
  · exact quiet_refuse
  · exact (h pos).bind fun a => Quiet.bind (fun _ => rfl) fun _ => quiet_pure a

theorem Quiet.asks {p : Load κ α} (h : Quiet p) : Asks buf p fun _ => [] :=
  fun s _ => ⟨[], by rw [h, List.append_nil], List.prefix_rfl, fun _ => rfl⟩

/-- What is asked for in sequence: by the first, and behind what it reads by the second. -/
theorem Asks.bind {p : Load κ α} {r : Reader α} {f : α → Load κ β} {found : List UInt8 → List (κ × Nat)}
    {found' : α → List UInt8 → List (κ × Nat)} (hp : Follows buf maxSize c d p r) (h : Asks buf p found)
    (h' : ∀ a, Asks buf (f a) (found' a)) : Asks buf (p >>= f) fun bs => found bs ++ after r found' bs := by
  intro s hs
  obtain ⟨more, hmore, hfront, hall⟩ := h s hs
  have hends := hp s hs
  obtain ⟨result, s', hresult⟩ : ∃ result s', p s = (result, s') := ⟨_, _, rfl⟩
  rw [hresult] at hmore hall hends
  dsimp only at hmore hall ⊢
  cases hends with
  | @ok a _ hread hpos _ _ _ =>
    obtain ⟨more', hmore', hfront', hall'⟩ := h' a s' hpos
    obtain rfl := hall nofun
    rw [bind_ok hresult, after_some hread]
    refine ⟨found (buf.drop s.pos) ++ more', ?_, (List.prefix_append_right_inj _).mpr hfront', fun hthrown => ?_⟩
    · rw [hmore', hmore, List.append_assoc]
    · rw [hall' hthrown]
  | refused hread _ _ =>
    obtain rfl := hall nofun
    rw [bind_error hresult, after_none hread]
    exact ⟨_, hmore, List.prefix_append .., fun _ => (List.append_nil _).symm⟩
  | thrown _ _ =>
    rw [bind_error hresult]
    exact ⟨more, hmore, hfront.trans (List.prefix_append ..), fun hthrown => absurd rfl hthrown⟩

/-- The same where the first asks for nothing. -/
theorem Asks.behind (maxSize : κ → Nat) {p : Load κ α} {r : Reader α} {f : α → Load κ β}
    {found' : α → List UInt8 → List (κ × Nat)} (hp : Follows buf maxSize c d p r) (h : Quiet p)
    (h' : ∀ a, Asks buf (f a) (found' a)) : Asks buf (p >>= f) (after r found') :=
  Asks.bind hp h.asks h'

theorem Asks.map {p : Load κ α} {found : List UInt8 → List (κ × Nat)} (h : Asks buf p found) (f : α → β) :
    Asks buf (do let a ← p; pure (f a)) found := by
  intro s hs
  obtain ⟨more, hmore, hfront, hall⟩ := h s hs
  obtain ⟨result, s', hresult⟩ : ∃ result s', p s = (result, s') := ⟨_, _, rfl⟩
  rw [hresult] at hmore hall
  cases result with
  | ok a =>
    rw [bind_ok hresult]
    exact ⟨more, hmore, hfront, fun _ => hall nofun⟩
  | error e =>
    rw [bind_error hresult]
    exact ⟨more, hmore, hfront, fun hthrown => hall fun heq => hthrown (by cases heq; rfl)⟩

theorem asks_loop {item : Load κ α} {r : Reader α} {found : List UInt8 → List (κ × Nat)}
    (hitem : Follows buf maxSize c d item r) (h : Asks buf item found) (n : Nat) :
    Asks buf (loop item n) (inItems found r n) := by
  induction n with
  | zero => exact (quiet_pure []).asks
  | succ n ih =>
    -- the tick that begins an iteration is not seen
    intro s hs
    exact (Asks.bind hitem h fun a => ih.map (a :: ·)) { s with steps := s.steps + 1 } hs

theorem asks_filled {item : Load κ α} {r : Reader α} {found : List UInt8 → List (κ × Nat)}
    (hitem : Follows buf maxSize c d item r) (h : Asks buf item found) (v : κ) (n : Nat) :
    Asks buf (filled maxSize v item n) fun bs => (v, n) :: inItems found r n bs := by
  intro s hs
  unfold filled
  by_cases hn : n > maxSize v
  · have hreserve : reserve maxSize v n s = (.error .thrown, { s with reserved := s.reserved ++ [(v, n)] }) := by
      rw [reserve, if_pos hn]
    rw [bind_error (f := fun _ => loop item n) hreserve]
    exact ⟨[(v, n)], rfl, List.prefix_append [(v, n)] _, fun hthrown => absurd rfl hthrown⟩
  · have hreserve : reserve maxSize v n s = (.ok (), { s with reserved := s.reserved ++ [(v, n)] }) := by
      rw [reserve, if_neg hn]
    rw [bind_ok (f := fun _ => loop item n) hreserve]
    obtain ⟨more, hmore, hfront, hall⟩ := asks_loop hitem h n { s with reserved := s.reserved ++ [(v, n)] } hs
    refine ⟨(v, n) :: more, ?_, List.cons_prefix_cons.mpr ⟨rfl, hfront⟩, fun hthrown => congrArg _ (hall hthrown)⟩
    rw [hmore, List.append_assoc, List.singleton_append]

end
end Cursor
