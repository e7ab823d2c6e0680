import GoRedis.Server.Shape
import GoRedis.Store.Relabel

/-! Whether commands are atomic.

Every command but one makes at most one store call, and takes effect there. A `SET … EX`
makes two, and between them other clients see, and can change, a key without its deadline.
Clients that stay clear of it meanwhile cannot tell the two calls from one: the machine is
compared with one that executes each command as a whole when it first calls the store, and
is therefore ahead by the `Expire`s still to be made. -/
namespace GoRedis
open Interleaving Dispatcher

/-! ### Expiries ahead of time -/

namespace Store

/-- The `Expire`s made one after another. -/
def expireAll (env : Env) (ps : List (Bytes × Int)) (s : Store) : Store :=
  ps.foldl (fun s p => (s.exec env (.expire p.1 p.2)).1) s

/-- The call goes well with these `Expire`s: it does not touch their keys, which have no
deadline yet. -/
structure Clear (s : Store) (ps : List (Bytes × Int)) (c : Call) : Prop where
  nodup : (ps.map Prod.fst).Nodup
  undated : ∀ p ∈ ps, s.Undated p.1
  untouched : ∀ p ∈ ps, ¬c.touches p.1
  positive : ∀ p ∈ ps, 0 < p.2

theorem exec_max (s : Store) (hmax : s.maxMemoryBytes = 0) (env : Env) (c : Call) :
    (s.exec env c).1.maxMemoryBytes = 0 :=
  (exec_simulates env s hmax c).unbounded.trans hmax

/-- A call before or after the `Expire`s. -/
theorem Clear.exec {s : Store} {ps : List (Bytes × Int)} {c : Call} (h : Clear s ps c)
    (hmax : s.maxMemoryBytes = 0) (env : Env) :
    (s.expireAll env ps).exec env c = ((s.exec env c).1.expireAll env ps, (s.exec env c).2) := by
  induction ps generalizing s with
  | nil => rfl
  | cons p ps ih =>
    obtain ⟨hp, hnodup⟩ := List.nodup_cons.mp h.nodup
    obtain ⟨hundated, hundated'⟩ := List.forall_mem_cons.mp h.undated
    obtain ⟨huntouched, huntouched'⟩ := List.forall_mem_cons.mp h.untouched
    obtain ⟨hpos, hpos'⟩ := List.forall_mem_cons.mp h.positive
    have hcomm := hundated.expire_exec hmax env hpos huntouched
    have hclear : Clear (s.exec env (.expire p.1 p.2)).1 ps c := by
      refine ⟨hnodup, fun p' hp' => ?_, huntouched', hpos'⟩
      refine (hundated' p' hp').exec hmax env fun heq : p'.1 = p.1 => hp ?_
      exact heq ▸ List.mem_map_of_mem hp'
    have hrest := ih hclear (s.exec_max hmax env _)
    rw [hcomm] at hrest
    exact hrest

theorem expireAll_append (env : Env) (ps ps' : List (Bytes × Int)) (s : Store) :
    s.expireAll env (ps ++ ps') = (s.expireAll env ps).expireAll env ps' :=
  List.foldl_append

/-- A key that was just set has no deadline. -/
theorem set_undated (s : Store) (hmax : s.maxMemoryBytes = 0) (env : Env) (key value : Bytes) :
    (s.exec env (.set key value)).1.Undated key := by
  obtain ⟨s', hs', -, hdata⟩ := set_eq hmax env.draw key value
  have hlookup : s'.data.toFinmap.lookup key = some { type := .string, strValue := value } := by
    rw [hdata, Finmap.lookup_insert]
  show (s.set env.draw key value).Undated key
  rw [hs']
  exact ⟨_, by rw [HashTable.get_eq, touch_lookup hlookup], rfl⟩

end Store

/-! ### The machine -/

section Machine
variable {ι : Type*}

/-- The clients' commands and what is left of them, and the store. -/
abbrev StoreMachine (ι : Type*) := Config Op Op.Ans (Option RespValue) (List Bytes) Store ι

/-- A step on the store, at one clock reading; an `Append` does not change it. -/
def Store.perform (env : Env) (s : Store) : (op : Op) → Store × op.Ans
  | .call c => s.exec env c
  | .append _ => (s, ())

variable (aof : Bool)

theorem logged_run (env : Env) (args : List Bytes) (r : Option RespValue) (s : Store) :
    (logged aof args (.ret r)).run (Store.perform env) s = (s, r) := by
  cases aof <;> rfl

/-- The client is between the two calls of a `SET key … EX seconds`. -/
def Between (c : Session) (key : Bytes) (seconds : Int) : Prop :=
  Session.nextCall c = some (.expire key seconds) ∧
    ∃ x ∈ c.running, ∃ value, firstCall (dispatch aof x.1) = some (.set key value)

/-- **The two calls are left undisturbed**: a client that calls the store does not touch the
key of another that is between the two, and if that one will delete its key, calls nothing. -/
def Undisturbed (m : StoreMachine ι) (i : ι) : Prop :=
  ∀ call ∈ Session.nextCall (m.clients i), ∀ j ≠ i, ∀ key seconds,
    Between aof (m.clients j) key seconds → ¬call.touches key ∧ 0 < seconds

/-! ### One machine ahead of the other -/

/-- A client, and the same client where commands are executed as a whole: it has ended
those that have called the store, and not begun the others. -/
inductive InStep : Session → Session → Prop where
  | between (c : Session) (h : c.running = none) : InStep c c
  | begun (args : List Bytes) (todo : List (List Bytes)) (results : List (Option RespValue)) :
    InStep ⟨todo, some (args, dispatch aof args), results⟩ ⟨args :: todo, none, results⟩
  | logging (args : List Bytes) (todo : List (List Bytes)) (results : List (Option RespValue))
    (r : Option RespValue) :
    InStep ⟨todo, some (args, .step (.append args) fun _ => .ret r), results⟩ ⟨todo, none, results ++ [r]⟩
  | ending (args : List Bytes) (todo : List (List Bytes)) (results : List (Option RespValue))
    (r : Option RespValue) : InStep ⟨todo, some (args, .ret r), results⟩ ⟨todo, none, results ++ [r]⟩

/-- The same for a client between two calls. -/
inductive Halfway (key : Bytes) (seconds : Int) : Session → Session → Prop where
  | intro (args : List Bytes) (value : Bytes) (todo : List (List Bytes)) (results : List (Option RespValue))
    (hfirst : firstCall (dispatch aof args) = some (.set key value)) :
    Halfway key seconds
      ⟨todo, some (args, .step (.call (.expire key seconds)) fun _ => logged aof args (.ret (some ok))), results⟩
      ⟨todo, none, results ++ [some ok]⟩

/-- The second machine has executed, as a whole, the commands that have called the store,
and is ahead by the `Expire`s of the clients between two calls. -/
structure Ahead (env : Env) (pending : List (ι × Bytes × Int)) (m n : StoreMachine ι) : Prop where
  unbounded : m.shared.maxMemoryBytes = 0
  clients : (pending.map Prod.fst).Nodup
  keys : ((pending.map Prod.snd).map Prod.fst).Nodup
  undated : ∀ p ∈ pending, m.shared.Undated p.2.1
  halfway : ∀ p ∈ pending, Halfway aof p.2.1 p.2.2 (m.clients p.1) (n.clients p.1)
  inStep : ∀ i ∉ pending.map Prod.fst, InStep aof (m.clients i) (n.clients i)
  shared : n.shared = m.shared.expireAll env (pending.map Prod.snd)

theorem Halfway.between {key : Bytes} {seconds : Int} {c d : Session} (h : Halfway aof key seconds c d) :
    Between aof c key seconds := by
  obtain ⟨args, value, todo, results, hfirst⟩ := h
  exact ⟨rfl, _, rfl, value, hfirst⟩

namespace Ahead
variable {aof} {env : Env} {pending : List (ι × Bytes × Int)} {m n : StoreMachine ι} {i : ι} {c d : Session}
  {s t : Store}

/-- A call that leaves the others undisturbed goes well with their `Expire`s. -/
theorem clear (h : Ahead aof env pending m n) (hund : Undisturbed aof m i) {others : List (ι × Bytes × Int)}
    (hsub : others.Sublist pending) (hi : i ∉ others.map Prod.fst) {args : List Bytes} {call : Call}
    {next : call.Reply → Program} (hrun : (m.clients i).running = some (args, .step (.call call) next)) :
    m.shared.Clear (others.map Prod.snd) call := by
  have hothers : ∀ p ∈ others, ¬call.touches p.2.1 ∧ 0 < p.2.2 := by
    intro p hp
    have hne : p.1 ≠ i := fun heq => hi (heq ▸ List.mem_map_of_mem hp)
    have hcall : call ∈ Session.nextCall (m.clients i) := by
      rw [Session.nextCall, hrun]
      rfl
    exact hund call hcall p.1 hne _ _ (h.halfway p (hsub.subset hp)).between
  refine ⟨h.keys.sublist ((hsub.map _).map _), ?_, ?_, ?_⟩
  · exact List.forall_mem_map.mpr fun p hp => h.undated p (hsub.subset hp)
  · exact List.forall_mem_map.mpr fun p hp => (hothers p hp).1
  · exact List.forall_mem_map.mpr fun p hp => (hothers p hp).2

theorem undated_exec (h : Ahead aof env pending m n) {others : List (ι × Bytes × Int)} {call : Call}
    (hclear : m.shared.Clear (others.map Prod.snd) call) :
    ∀ p ∈ others, (m.shared.exec env call).1.Undated p.2.1 :=
  fun _ hp => (hclear.undated _ (List.mem_map_of_mem hp)).exec h.unbounded env
    (hclear.untouched _ (List.mem_map_of_mem hp))

/-- When every command has ended, the two machines are the same. -/
theorem eq_of_finished (h : Ahead aof env pending m n) (hend : m.Finished) : n = m := by
  have hnil : pending = [] := by
    refine List.eq_nil_iff_forall_not_mem.mpr fun p hp => ?_
    obtain ⟨-, x, hrun, -⟩ := (h.halfway p hp).between
    rw [(hend p.1).1] at hrun
    cases hrun
  subst hnil
  have hclient : n.clients = m.clients := by
    funext i
    have hin := h.inStep i List.not_mem_nil
    have hidle := (hend i).1
    generalize m.clients i = c at hin hidle
    generalize n.clients i = d at hin
    cases hin with
    | between => rfl
    | begun | logging | ending => cases hidle
  have hshared : n.shared = m.shared := h.shared
  calc n = ⟨n.shared, n.clients⟩ := rfl
    _ = m := by rw [hshared, hclient]

variable [DecidableEq ι]

theorem halfway_after (h : Ahead aof env pending m n) {others : List (ι × Bytes × Int)} (hsub : others ⊆ pending)
    (hi : i ∉ others.map Prod.fst) : ∀ p ∈ others,
      Halfway aof p.2.1 p.2.2 ((m.after i c s).clients p.1) ((n.after i d t).clients p.1) := by
  intro p hp
  have hne : p.1 ≠ i := fun heq => hi (heq ▸ List.mem_map_of_mem hp)
  rw [Config.after_ne hne, Config.after_ne hne]
  exact h.halfway p (hsub hp)

theorem inStep_after (h : Ahead aof env pending m n) (hc : InStep aof c d) {j : ι}
    (hj : j ≠ i → j ∉ pending.map Prod.fst) : InStep aof ((m.after i c s).clients j) ((n.after i d t).clients j) := by
  by_cases hne : j = i
  · rw [hne, Config.after_self, Config.after_self]
    exact hc
  · rw [Config.after_ne hne, Config.after_ne hne]
    exact h.inStep j (hj hne)

/-- A turn of a client that is not between two calls. -/
theorem step (h : Ahead aof env pending m n) (hi : i ∉ pending.map Prod.fst) (hc : InStep aof c d)
    (hmax : s.maxMemoryBytes = 0) (hundated : ∀ p ∈ pending, s.Undated p.2.1)
    (ht : t = s.expireAll env (pending.map Prod.snd)) :
    Ahead aof env pending (m.after i c s) (n.after i d t) where
  unbounded := hmax
  clients := h.clients
  keys := h.keys
  undated := hundated
  halfway := h.halfway_after (List.Subset.refl _) hi
  inStep _ hj := h.inStep_after hc fun _ => hj
  shared := ht

/-- The first call of a `SET … EX`. -/
theorem push (h : Ahead aof env pending m n) (hi : i ∉ pending.map Prod.fst) {key : Bytes} {seconds : Int}
    (hkey : key ∉ (pending.map Prod.snd).map Prod.fst) (hc : Halfway aof key seconds c d)
    (hmax : s.maxMemoryBytes = 0) (hundated : ∀ p ∈ pending, s.Undated p.2.1) (hundated' : s.Undated key)
    (ht : t = s.expireAll env ((pending ++ [(i, key, seconds)]).map Prod.snd)) :
    Ahead aof env (pending ++ [(i, key, seconds)]) (m.after i c s) (n.after i d t) where
  unbounded := hmax
  clients := by
    rw [List.map_append, List.nodup_append']
    exact ⟨h.clients, List.nodup_singleton i, List.disjoint_singleton.mpr hi⟩
  keys := by
    rw [List.map_append, List.map_append, List.nodup_append']
    exact ⟨h.keys, List.nodup_singleton key, List.disjoint_singleton.mpr hkey⟩
  undated := by
    rw [List.forall_mem_append, List.forall_mem_singleton]
    exact ⟨hundated, hundated'⟩
  halfway := by
    rw [List.forall_mem_append, List.forall_mem_singleton, Config.after_self, Config.after_self]
    exact ⟨h.halfway_after (List.Subset.refl _) hi, hc⟩
  inStep j hj := by
    rw [List.map_append, List.mem_append, not_or] at hj
    have hne : j ≠ i := fun heq => hj.2 (heq ▸ List.mem_singleton_self i)
    rw [Config.after_ne hne, Config.after_ne hne]
    exact h.inStep j hj.1
  shared := ht

/-- The second call of a `SET … EX`. -/
theorem pop {earlier later : List (ι × Bytes × Int)} {key : Bytes} {seconds : Int}
    (h : Ahead aof env (earlier ++ (i, key, seconds) :: later) m n) (hc : InStep aof c d)
    (hmax : s.maxMemoryBytes = 0) (hundated : ∀ p ∈ earlier ++ later, s.Undated p.2.1)
    (ht : t = s.expireAll env ((earlier ++ later).map Prod.snd)) :
    Ahead aof env (earlier ++ later) (m.after i c s) (n.after i d t) := by
  have hclients := nodup_fst_middle h.clients
  have hsub : (earlier ++ later).Sublist (earlier ++ (i, key, seconds) :: later) :=
    (List.sublist_cons_self _ _).append_left earlier
  refine ⟨hmax, hclients.2, h.keys.sublist ((hsub.map _).map _), hundated, ?_, ?_, ht⟩
  · exact h.halfway_after hsub.subset hclients.1
  · refine fun j hj => h.inStep_after hc fun hne => ?_
    rw [List.map_append, List.mem_append, not_or] at hj
    simp [hj, hne]

theorem inStep_logged (args : List Bytes) (todo : List (List Bytes)) (results : List (Option RespValue))
    (r : Option RespValue) :
    InStep aof ⟨todo, some (args, logged aof args (.ret r)), results⟩ ⟨todo, none, results ++ [r]⟩ := by
  cases aof
  · exact .ending args todo results r
  · exact .logging args todo results r

/-- The only call of a command, after which it ends, or appends and ends. -/
theorem turn_call (h : Ahead aof env pending m n) (hund : Undisturbed aof m i) (hi : i ∉ pending.map Prod.fst)
    {args : List Bytes} {todo : List (List Bytes)} {results : List (Option RespValue)} {c : Call}
    {next : c.Reply → Program} (hm : m.clients i = ⟨todo, some (args, call c next), results⟩)
    {r : c.Reply → Option RespValue} (hnext : ∀ a, next a = .ret (r a) ∨ next a = logged aof args (.ret (r a))) :
    Ahead aof env pending (m.turn (dispatch aof) (Store.perform env) i)
      (n.after i ⟨todo, none, results ++ [((call c next).run (Store.perform env) n.shared).2]⟩
        ((call c next).run (Store.perform env) n.shared).1) := by
  have hrun : (m.clients i).running = some (args, .step (.call c) next) := by
    rw [hm]
    rfl
  have hclear := h.clear hund (List.Sublist.refl _) hi hrun
  have hexec := hclear.exec h.unbounded env
  rw [← h.shared] at hexec
  have hrest : ∀ a s, (next a).run (Store.perform env) s = (s, r a) := by
    intro a s
    rcases hnext a with ha | ha
    · rw [ha]
      rfl
    · rw [ha]
      exact logged_run ..
  have hwhole : (call c next).run (Store.perform env) n.shared =
      ((n.shared.exec env c).1, r (n.shared.exec env c).2) := hrest _ _
  have hstep : ∀ a, InStep aof ⟨todo, some (args, next a), results⟩ ⟨todo, none, results ++ [r a]⟩ := by
    intro a
    rcases hnext a with ha | ha
    · rw [ha]
      exact .ending args todo results _
    · rw [ha]
      exact inStep_logged args todo results _
  rw [hwhole, hexec, Config.turn_step hrun, hm]
  exact h.step hi (hstep _) (m.shared.exec_max h.unbounded env c) (h.undated_exec hclear) rfl

/-- The first call of a `SET … EX`; the other machine makes both. -/
theorem turn_setEx (h : Ahead aof env pending m n) (hund : Undisturbed aof m i) (hi : i ∉ pending.map Prod.fst)
    {args : List Bytes} {todo : List (List Bytes)} {results : List (Option RespValue)} {key value : Bytes}
    {seconds : Int} (hfirst : firstCall (dispatch aof args) = some (.set key value)) :
    let p := call (.set key value) fun _ => call (.expire key seconds) fun _ => logged aof args (.ret (some ok))
    m.clients i = ⟨todo, some (args, p), results⟩ →
    Ahead aof env (pending ++ [(i, key, seconds)]) (m.turn (dispatch aof) (Store.perform env) i)
      (n.after i ⟨todo, none, results ++ [(p.run (Store.perform env) n.shared).2]⟩
        (p.run (Store.perform env) n.shared).1) := by
  intro p hm
  have hrun : (m.clients i).running = some (args, .step (.call (.set key value)) fun _ =>
      call (.expire key seconds) fun _ => logged aof args (.ret (some ok))) := by
    rw [hm]
    rfl
  have hclear := h.clear hund (List.Sublist.refl _) hi hrun
  have hexec := hclear.exec h.unbounded env
  rw [← h.shared] at hexec
  have hwhole : p.run (Store.perform env) n.shared =
      (((n.shared.exec env (.set key value)).1.exec env (.expire key seconds)).1, some ok) := logged_run ..
  have hkey : key ∉ (pending.map Prod.snd).map Prod.fst := by
    intro hmem
    obtain ⟨p, hp, heq⟩ := List.mem_map.mp hmem
    exact hclear.untouched p hp heq
  rw [hwhole, hexec, Config.turn_step hrun, hm]
  refine h.push hi hkey (.intro args value todo results hfirst) (m.shared.exec_max h.unbounded env _)
    (h.undated_exec hclear) (m.shared.set_undated h.unbounded env key value) ?_
  rw [List.map_append, Store.expireAll_append]
  rfl

/-- The first step of a command; the other machine executes it as a whole. -/
theorem turn_first (h : Ahead aof env pending m n) (hund : Undisturbed aof m i)
    (hi : i ∉ pending.map Prod.fst) {args : List Bytes} {todo : List (List Bytes)}
    {results : List (Option RespValue)} (hm : m.clients i = ⟨todo, some (args, dispatch aof args), results⟩)
    (hn : n.clients i = ⟨args :: todo, none, results⟩) :
    ∃ pending', Ahead aof env pending' (m.turn (dispatch aof) (Store.perform env) i)
      (n.whole (dispatch aof) (Store.perform env) i) := by
  obtain ⟨p, hconduct, hp⟩ := dispatch_program args
  have hrun : (m.clients i).running = some (args, p aof) := by rw [hm, hp]
  have hwhole : n.whole (dispatch aof) (Store.perform env) i =
      n.after i ⟨todo, none, results ++ [((p aof).run (Store.perform env) n.shared).2]⟩
        ((p aof).run (Store.perform env) n.shared).1 := by
    have htodo : (n.clients i).todo = args :: todo := by rw [hn]
    rw [Config.whole_cons htodo, hn, ← hp]
  rw [hwhole]
  have hret : ∀ r, p aof = .ret r → ∃ pending', Ahead aof env pending' (m.turn (dispatch aof) (Store.perform env) i)
      (n.after i ⟨todo, none, results ++ [r]⟩ n.shared) := by
    intro r hr
    have hturn : m.turn (dispatch aof) (Store.perform env) i = m.after i ⟨todo, none, results ++ [r]⟩ m.shared := by
      rw [Config.turn, Client.turn, hrun, hr, hm]
    rw [hturn]
    exact ⟨pending, h.step hi (.between _ rfl) h.unbounded h.undated h.shared⟩
  cases hconduct with
  | nothing _ => exact hret none rfl
  | readOnly p hread =>
    rcases hread.cases with ⟨r, rfl⟩ | ⟨c, r, next, -, rfl, hnext⟩
    · exact hret r rfl
    · exact ⟨pending, h.turn_call hund hi (by rw [hm, hp]) fun a => .inl (hnext a)⟩
  | write c hc r _ next hnext =>
    refine ⟨pending, h.turn_call hund hi (by rw [hm, hp])
      (r := fun a => if c.ok a then r a else some wrongTypeError) fun a => ?_⟩
    rw [hnext]
    split
    · exact .inr rfl
    · exact .inl rfl
  | setEx key value seconds => exact ⟨_, h.turn_setEx hund hi (by rw [hp]; rfl) (by rw [hm, hp])⟩

/-- The second call of a `SET … EX`, which the other machine has made already. -/
theorem turn_second {earlier later : List (ι × Bytes × Int)} {key : Bytes} {seconds : Int}
    (h : Ahead aof env (earlier ++ (i, key, seconds) :: later) m n) (hund : Undisturbed aof m i) :
    Ahead aof env (earlier ++ later) (m.turn (dispatch aof) (Store.perform env) i) n := by
  have hhalf := h.halfway (i, key, seconds) (by simp)
  have hn' : n = n.after i (n.clients i) n.shared := Config.after_same.symm
  generalize hm : m.clients i = c at hhalf
  generalize hn : n.clients i = d at hhalf hn'
  obtain ⟨args, value, todo, results, hfirst⟩ := hhalf
  have hrun : (m.clients i).running = some (args, .step (.call (.expire key seconds)) fun _ =>
      logged aof args (.ret (some ok))) := by rw [hm]
  have hclients := nodup_fst_middle h.clients
  have hclear := h.clear hund ((List.sublist_cons_self _ _).append_left earlier) hclients.1 hrun
  have hearlier : i ∉ earlier.map Prod.fst := fun hmem => hclients.1 (by simp [hmem])
  have hexec := (h.clear hund (List.sublist_append_left _ _) hearlier hrun).exec h.unbounded env
  rw [hn', Config.turn_step hrun, hm]
  refine h.pop (inStep_logged args todo results _) (m.shared.exec_max h.unbounded env _) (h.undated_exec hclear) ?_
  -- the `Expire` moves in front of the earlier ones
  rw [h.shared, List.map_append, List.map_cons, Store.expireAll_append, List.map_append, Store.expireAll_append]
  exact congrArg (fun r => Store.expireAll env (later.map Prod.snd) r.1) hexec

/-- **One turn**: the other machine executes a command, or nothing. -/
theorem turn (h : Ahead aof env pending m n) (hund : Undisturbed aof m i) :
    ∃ pending', Ahead aof env pending' (m.turn (dispatch aof) (Store.perform env) i) n ∨
      Ahead aof env pending' (m.turn (dispatch aof) (Store.perform env) i)
        (n.whole (dispatch aof) (Store.perform env) i) := by
  by_cases hi : i ∈ pending.map Prod.fst
  · obtain ⟨⟨j, key, seconds⟩, hmem, heq⟩ := List.mem_map.mp hi
    obtain rfl : j = i := heq
    obtain ⟨earlier, later, rfl⟩ := List.append_of_mem hmem
    exact ⟨_, .inl (h.turn_second hund)⟩
  · have hstep := h.inStep i hi
    have hn' : n.after i (n.clients i) n.shared = n := Config.after_same
    generalize hm : m.clients i = c at hstep
    generalize hn : n.clients i = d at hstep hn'
    cases hstep with
    | between _ hnone =>
      obtain ⟨todo, running, results⟩ := c
      obtain rfl : running = none := hnone
      refine ⟨pending, .inl ?_⟩
      rw [← hn', Config.turn, Client.turn, hm]
      cases todo with
      | nil => exact h.step hi (.between _ rfl) h.unbounded h.undated h.shared
      | cons args todo => exact h.step hi (.begun args todo results) h.unbounded h.undated h.shared
    | begun args todo results =>
      obtain ⟨pending', h'⟩ := h.turn_first hund hi hm hn
      exact ⟨pending', .inr h'⟩
    | logging args todo results r =>
      have hrun : (m.clients i).running = some (args, .step (.append args) fun _ => .ret r) := by rw [hm]
      rw [← hn', Config.turn_step hrun, hm]
      exact ⟨pending, .inl (h.step hi (.ending args todo results r) h.unbounded h.undated h.shared)⟩
    | ending args todo results r =>
      rw [← hn', Config.turn, Client.turn, hm]
      exact ⟨pending, .inl (h.step hi (.between _ rfl) h.unbounded h.undated h.shared)⟩

end Ahead

variable {aof} [DecidableEq ι]

/-- **Commands are atomic while `SET … EX` is left undisturbed.** Whatever the interleaving,
there is an order of the commands, each client's in its own order, in which executing them
one at a time gives every client the same replies and leaves the same contents. -/
theorem dispatch_serializable (env : Env) (s : Store) (hmax : s.maxMemoryBytes = 0)
    (commands : ι → List (List Bytes)) (schedule : List ι)
    (h : Config.Along (dispatch aof) (Store.perform env) (fun _ _ _ => ()) (fun _ m i => Undisturbed aof m i) ()
      (Config.start s commands) schedule)
    (hend : ((Config.start s commands).run (dispatch aof) (Store.perform env) schedule).Finished) :
    ∃ order : List ι,
      let m := (Config.start s commands).run (dispatch aof) (Store.perform env) schedule
      let n := (Config.start s commands).serial (dispatch aof) (Store.perform env) order
      n.Finished ∧ (∀ i, (n.clients i).results = (m.clients i).results) ∧
        ∀ now, n.shared.live now = m.shared.live now := by
  have hstart : Ahead aof env [] (Config.start s commands) (Config.start s commands) :=
    ⟨hmax, List.nodup_nil, List.nodup_nil, nofun, nofun, fun i _ => .between _ rfl, rfl⟩
  have hstep : ∀ (_ : Unit) (m : StoreMachine ι) (i : ι), (∃ order pending, Ahead aof env pending m
      ((Config.start s commands).serial (dispatch aof) (Store.perform env) order)) → Undisturbed aof m i →
      ∃ order pending, Ahead aof env pending (m.turn (dispatch aof) (Store.perform env) i)
        ((Config.start s commands).serial (dispatch aof) (Store.perform env) order) := by
    rintro _ m i ⟨order, pending, hm⟩ hund
    obtain ⟨pending', hm' | hm'⟩ := hm.turn hund
    · exact ⟨order, pending', hm'⟩
    · refine ⟨order ++ [i], pending', ?_⟩
      rw [Config.serial, List.foldl_append]
      exact hm'
  obtain ⟨_, order, pending, hm⟩ := h.invariant hstep ⟨[], [], hstart⟩
  have heq := hm.eq_of_finished hend
  exact ⟨order, heq ▸ hend, fun i => by rw [heq], fun now => by rw [heq]⟩

end Machine

/-- A `GET` of another key between the two calls of a `SET … EX`. -/
theorem dispatch_serializable_other_key :
    let commands : Bool → List (List Bytes) := fun i =>
      if i then [[ascii "GET", ascii "j"]] else [[ascii "SET", ascii "k", ascii "v", ascii "EX", ascii "100"]]
    let env : Env := { now := 0 }
    let schedule := [false, false, true, true, true, false, false]
    let m := (Config.start {} commands).run (dispatch false) (Store.perform env) schedule
    (m.Finished ∧ Config.Along (dispatch false) (Store.perform env) (fun _ _ _ => ())
      (fun _ m i => Undisturbed false m i) () (Config.start {} commands) schedule) ∧
    ∃ order : List Bool,
      let n := (Config.start {} commands).serial (dispatch false) (Store.perform env) order
      n.Finished ∧ (∀ i, (n.clients i).results = (m.clients i).results) ∧
        ∀ now, n.shared.live now = m.shared.live now := by
  intro commands env schedule m
  have hend : m.Finished := by
    rintro (_ | _)
    · exact ⟨Option.isNone_iff_eq_none.mp (by decide +kernel), List.isEmpty_iff.mp (by decide +kernel)⟩
    · exact ⟨Option.isNone_iff_eq_none.mp (by decide +kernel), List.isEmpty_iff.mp (by decide +kernel)⟩
  -- a turn while the other client is not between two calls, and a turn that is not a call
  have hfree : ∀ (m : StoreMachine Bool) (i : Bool), (Session.nextCall (m.clients !i)).isNone →
      Undisturbed false m i := by
    intro m i hnone call _ j hj key seconds hbetween
    rw [Bool.eq_not.mpr hj] at hbetween
    rw [hbetween.1] at hnone
    cases hnone
  have hquiet : ∀ (m : StoreMachine Bool) (i : Bool), (Session.nextCall (m.clients i)).isNone →
      Undisturbed false m i := by
    intro m i hnone call hcall
    rw [Option.mem_def.mp hcall] at hnone
    cases hnone
  -- the `GET` while the other client is between the calls
  have hother : ∀ (m : StoreMachine Bool) (i : Bool), Session.nextCall (m.clients i) = some (.get (ascii "j")) →
      Session.nextCall (m.clients !i) = some (.expire (ascii "k") 100) → Undisturbed false m i := by
    intro m i hcall hexpire call hcall' j hj key seconds hbetween
    rw [Bool.eq_not.mpr hj] at hbetween
    obtain ⟨rfl, rfl⟩ := Call.expire.inj (Option.some.inj (hexpire.symm.trans hbetween.1))
    obtain rfl := Option.some.inj (hcall.symm.trans (Option.mem_def.mp hcall'))
    exact ⟨fun heq : ascii "k" = ascii "j" => absurd heq (by decide), by decide⟩
  have halong : Config.Along (dispatch false) (Store.perform env) (fun _ _ _ => ())
      (fun _ m i => Undisturbed false m i) () (Config.start {} commands) schedule :=
    ⟨hfree _ _ rfl, hfree _ _ rfl, hquiet _ _ rfl, hother _ _ (by decide +kernel) (by decide +kernel),
      hquiet _ _ (by decide +kernel), hfree _ _ (by decide +kernel), hfree _ _ (by decide +kernel), trivial⟩
  exact ⟨⟨hend, halong⟩, dispatch_serializable env {} rfl commands schedule halong hend⟩

/-- A `TTL` between the two calls of a `SET … EX` replies that the key has no deadline,
which in no order of the two commands it does. -/
theorem dispatch_ttl_between :
    let commands : Bool → List (List Bytes) := fun i =>
      if i then [[ascii "TTL", ascii "k"]] else [[ascii "SET", ascii "k", ascii "v", ascii "EX", ascii "100"]]
    let env : Env := { now := 0 }
    let m := (Config.start {} commands).run (dispatch false) (Store.perform env)
      [false, false, true, true, true, false, false]
    m.Finished ∧ ¬∃ order : List Bool,
      let n := (Config.start {} commands).serial (dispatch false) (Store.perform env) order
      n.Finished ∧ (∀ i, (n.clients i).results = (m.clients i).results) ∧
        ∀ now, n.shared.live now = m.shared.live now := by
  intro commands env m
  let wire : List (Option RespValue) → List (Option Bytes) := List.map (Option.map RespValue.encode)
  have hbetween : wire (m.clients true).results = [some (ascii ":-1\r\n")] := by decide +kernel
  have hend : m.Finished := by
    rintro (_ | _)
    · exact ⟨Option.isNone_iff_eq_none.mp (by decide +kernel), List.isEmpty_iff.mp (by decide +kernel)⟩
    · exact ⟨Option.isNone_iff_eq_none.mp (by decide +kernel), List.isEmpty_iff.mp (by decide +kernel)⟩
  refine ⟨hend, ?_⟩
  rintro ⟨order, hend', hresults, -⟩
  have htodo : ∀ i, ((Config.start {} commands : StoreMachine Bool).clients i).todo = [(commands i).headD []] := by
    rintro (_ | _) <;> rfl
  obtain ⟨i, hserial⟩ := Config.serial_two htodo fun j => (hend' j).2
  have hreply := congrArg wire (hresults true)
  rw [hserial, hbetween] at hreply
  -- the `TTL` before or after the whole `SET`: the key is absent, or has its deadline
  cases i with
  | false =>
    have hafter : wire (((Config.start {} commands).serial (dispatch false) (Store.perform env)
        [false, true]).clients true).results = [some (ascii ":100\r\n")] := by decide +kernel
    exact absurd (hafter.symm.trans hreply) (by decide)
  | true =>
    have hbefore : wire (((Config.start {} commands).serial (dispatch false) (Store.perform env)
        [true, false]).clients true).results = [some (ascii ":-2\r\n")] := by decide +kernel
    exact absurd (hbefore.symm.trans hreply) (by decide)

end GoRedis
