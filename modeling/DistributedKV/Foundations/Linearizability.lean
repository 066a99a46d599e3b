import Mathlib.Data.List.Nodup
import Mathlib.Data.Nat.Basic
import Mathlib.Order.Monotone.Defs

/-!
# Linearizable histories

An object that is used by one client at a time is a step function. Clients that use a service at the
same time see a history: when their operations were called, and when which of them returned what.
The history is linearizable if some of the operations, with all that have returned, can be put in an
order in which the object gives the same answers, and in which an operation that returned before
another one was called stands before it.

A service that decides the order of its operations by a log has such an order
(`LogOrder.linearizes`): each operation that returns is an entry of the log, or it changes nothing
and sees what the entries before some place leave. All it takes is that no operation has its place
in what was known of the log before it was called, or beyond what is known when it returns.
-/

variable {ι State Operation Answer : Type*}

/-- An object, used by one client at a time. -/
structure SequentialObject (State Operation Answer : Type*) where
  init : State
  step : State → Operation → State × Answer

/-- An operation, under a name, with an answer. -/
structure Performed (ι Operation Answer : Type*) where
  name : ι
  operation : Operation
  answer : Answer

namespace SequentialObject

/-- The object goes through the operations and gives just these answers. -/
inductive Legal (o : SequentialObject State Operation Answer) :
    State → List (Performed ι Operation Answer) → State → Prop
  | nil (s : State) : Legal o s [] s
  | cons {s s' s'' : State} {x : Performed ι Operation Answer}
      {order : List (Performed ι Operation Answer)} (hx : o.step s x.operation = (s', x.answer))
      (h : Legal o s' order s'') : Legal o s (x :: order) s''

variable {o : SequentialObject State Operation Answer} {s s' s'' : State}
  {order order' : List (Performed ι Operation Answer)}

theorem Legal.append (h : o.Legal s order s') (h' : o.Legal s' order' s'') :
    o.Legal s (order ++ order') s'' := by
  induction h with
  | nil => exact h'
  | cons hx _ ih => exact .cons hx (ih h')

/-- Operations that leave the object as it is. -/
theorem Legal.of_forall
    (h : ∀ x ∈ order, o.step s x.operation = (s, x.answer)) : o.Legal s order s := by
  induction order with
  | nil => exact .nil s
  | cons x order ih =>
    exact .cons (h x List.mem_cons_self) (ih fun y hy => h y (List.mem_cons_of_mem x hy))

end SequentialObject

/-- What the clients of a service see: which operation is called under a name, and when, which are
refused, and what an operation has returned at what time. -/
structure History (ι Operation Answer : Type*) where
  Calls : ι → Operation → Prop
  start : ι → ℕ
  Returns : ι → Answer → ℕ → Prop
  Refuses : ι → Prop

namespace History

variable (H : History ι Operation Answer)

/-- The first operation had returned before the second was called. -/
def Precedes (i j : ι) : Prop := ∃ answer t, H.Returns i answer t ∧ t < H.start j

/-- A linearization of the history: an order of operations that have been called, among them all
that have returned and none that is refused. -/
structure Linearizes (o : SequentialObject State Operation Answer)
    (order : List (Performed ι Operation Answer)) : Prop where
  legal : ∃ s, o.Legal o.init order s
  nodup : (order.map Performed.name).Nodup
  called : ∀ x ∈ order, H.Calls x.name x.operation
  refused : ∀ x ∈ order, ¬ H.Refuses x.name
  complete : ∀ i answer t, H.Returns i answer t → ∃ x ∈ order, x.name = i ∧ x.answer = answer
  realTime : order.Pairwise fun x y => ¬ H.Precedes y.name x.name

end History

/-! ## Operations in a log -/

/-- The place of an operation: it is entry `m`, or it sees what the first `m` entries leave. Entries
are counted from 0. -/
inductive Place
  | entry (m : ℕ)
  | after (m : ℕ)

/-- How many entries the operation sees when it is over. -/
def Place.level : Place → ℕ
  | entry m => m + 1
  | after m => m

/-- How many entries the operation sees when it begins. -/
def Place.base : Place → ℕ
  | entry m => m
  | after m => m

theorem Place.base_le_level (place : Place) : place.base ≤ place.level := by
  cases place with
  | entry m => exact Nat.le_succ m
  | after m => exact le_rfl

/-- The operations of a history in a log. `state m` is what the first `m` entries leave, and
`owner m` is the operation whose entry is `m`, unless the entry is no operation's. At time `t`,
`known t` entries are known. An operation that returns and has no entry sees some of the entries
that come to be known until it returns, all those among them that were known when it was called. -/
structure LogOrder (o : SequentialObject State Operation Answer)
    (H : History ι Operation Answer) where
  size : ℕ
  state : ℕ → State
  owner : ℕ → Option (Performed ι Operation Answer)
  known : ℕ → ℕ
  names : List ι
  state_zero : state 0 = o.init
  state_succ : ∀ m < size, owner m = none → state (m + 1) = state m
  step_owner : ∀ m < size, ∀ x, owner m = some x →
    o.step (state m) x.operation = (state (m + 1), x.answer)
  calls_owner : ∀ m < size, ∀ x, owner m = some x → H.Calls x.name x.operation
  refuses_owner : ∀ m < size, ∀ x, owner m = some x → ¬ H.Refuses x.name
  owner_injective : ∀ m < size, ∀ k < size, ∀ x y, owner m = some x → owner k = some y →
    x.name = y.name → m = k
  known_mono : Monotone known
  known_le : ∀ t, known t ≤ size
  known_owner : ∀ m < size, ∀ x, owner m = some x → known (H.start x.name) ≤ m
  returns_owner : ∀ m < size, ∀ x, owner m = some x → ∀ answer t, H.Returns x.name answer t →
    x.answer = answer ∧ m < known (t + 1)
  returns_unique : ∀ i answer t, H.Returns i answer t → H.start i ≤ t ∧ ¬ H.Refuses i ∧
    ∀ answer' t', H.Returns i answer' t' → answer' = answer ∧ t' = t
  returns_sees : ∀ i answer t, H.Returns i answer t →
    (∃ m < size, ∃ x, owner m = some x ∧ x.name = i) ∨
    ∃ m, known (H.start i) ≤ m ∧ m ≤ known (t + 1) ∧ ∃ operation, H.Calls i operation ∧
      o.step (state m) operation = (state m, answer)
  mem_names : ∀ i operation, H.Calls i operation → i ∈ names
  nodup_names : names.Nodup
  sorted_names : names.Pairwise fun i j => H.start i ≤ H.start j

namespace LogOrder

variable {o : SequentialObject State Operation Answer} {H : History ι Operation Answer}
  {x y : Performed ι Operation Answer} {i : ι} {m k : ℕ}

/-- The operation has entry `m`. -/
def Owns (p : LogOrder o H) (i : ι) (m : ℕ) : Prop :=
  m < p.size ∧ ∃ x, p.owner m = some x ∧ x.name = i

/-- The operation, as it returns, sees the first `m` entries and changes nothing. -/
structure Sees (p : LogOrder o H) (i : ι) (m : ℕ) (x : Performed ι Operation Answer) : Prop where
  name : x.name = i
  free : ∀ m, ¬ p.Owns i m
  calls : H.Calls i x.operation
  base : p.known (H.start i) ≤ m
  returns : ∃ t, H.Returns i x.answer t ∧ m ≤ p.known (t + 1)
  step : o.step (p.state m) x.operation = (p.state m, x.answer)

variable (p : LogOrder o H)

open Classical in
/-- Where an operation without an entry has its place, if it returns. -/
noncomputable def seat (i : ι) : Option (ℕ × Performed ι Operation Answer) :=
  if h : ∃ s : ℕ × Performed ι Operation Answer, p.Sees i s.1 s.2 then some h.choose else none

open Classical in
/-- The operations that see just the first `m` entries. -/
noncomputable def quiet (m : ℕ) : List (Performed ι Operation Answer) :=
  p.names.filterMap fun i =>
    (p.seat i).bind fun s => if s.1 = m then some s.2 else none

open Classical in
noncomputable def place (i : ι) : Place :=
  if h : ∃ m, p.Owns i m then .entry h.choose
  else match p.seat i with
    | some s => .after s.1
    | none => .after (p.known (H.start i))

/-! ### Places -/

theorem sees_of_seat {s : ℕ × Performed ι Operation Answer} (h : p.seat i = some s) :
    p.Sees i s.1 s.2 := by
  unfold seat at h
  split_ifs at h with hex
  obtain rfl := Option.some.inj h
  exact hex.choose_spec

theorem mem_quiet : x ∈ p.quiet m ↔ p.seat x.name = some (m, x) := by
  constructor
  · intro hx
    obtain ⟨i, -, hs⟩ := List.mem_filterMap.1 hx
    obtain ⟨⟨k, y⟩, hseat, heq⟩ := Option.bind_eq_some_iff.1 hs
    split_ifs at heq with hk
    obtain rfl := Option.some.inj heq
    obtain rfl : k = m := hk
    rwa [(p.sees_of_seat hseat).name]
  · intro hseat
    refine List.mem_filterMap.2 ⟨x.name, p.mem_names _ _ (p.sees_of_seat hseat).calls, ?_⟩
    rw [hseat, Option.bind_some, if_pos rfl]

theorem sees_of_mem (hx : x ∈ p.quiet m) : p.Sees x.name m x := p.sees_of_seat (p.mem_quiet.1 hx)

theorem place_of_owns (h : p.Owns i m) : p.place i = .entry m := by
  have hex : ∃ m, p.Owns i m := ⟨m, h⟩
  obtain ⟨hlt, x, hx, hname⟩ := h
  obtain ⟨hlt', x', hx', hname'⟩ := hex.choose_spec
  rw [place, dif_pos hex,
    p.owner_injective _ hlt' _ hlt _ _ hx' hx (hname'.trans hname.symm)]

theorem place_owner (hm : m < p.size) (hx : p.owner m = some x) : p.place x.name = .entry m :=
  p.place_of_owns ⟨hm, x, hx, rfl⟩

theorem place_quiet (hx : x ∈ p.quiet m) : p.place x.name = .after m := by
  have hfree : ¬ ∃ m, p.Owns x.name m := fun ⟨k, hk⟩ => (p.sees_of_mem hx).free k hk
  rw [place, dif_neg hfree, p.mem_quiet.1 hx]

theorem sees_le_size (h : p.Sees i m x) : m ≤ p.size := by
  obtain ⟨t, -, hle⟩ := h.returns
  exact hle.trans (p.known_le _)

/-- No operation begins with less than what was known when it was called. -/
theorem known_start (i : ι) : p.known (H.start i) ≤ (p.place i).base := by
  by_cases hex : ∃ m, p.Owns i m
  · obtain ⟨m, hm⟩ := hex
    obtain ⟨hlt, x, hx, rfl⟩ := hm
    rw [p.place_owner hlt hx]
    exact p.known_owner m hlt x hx
  · rw [place, dif_neg hex]
    cases hs : p.seat i with
    | none => exact le_rfl
    | some s => exact (p.sees_of_seat hs).base

/-- What returns has an entry or a seat. -/
theorem owns_or_seat {answer : Answer} {t : ℕ} (h : H.Returns i answer t) :
    (∃ m, p.Owns i m) ∨ ∃ m x, p.seat i = some (m, x) ∧ x.answer = answer := by
  by_cases hex : ∃ m, p.Owns i m
  · exact Or.inl hex
  have hsees : ∃ s : ℕ × Performed ι Operation Answer, p.Sees i s.1 s.2 := by
    obtain ⟨m, hbase, hle, operation, hcalls, hstep⟩ :=
      (p.returns_sees i answer t h).resolve_left fun ⟨m, hm, x, hx⟩ => hex ⟨m, hm, x, hx⟩
    exact ⟨(m, ⟨i, operation, answer⟩), rfl, fun m hm => hex ⟨m, hm⟩, hcalls, hbase,
      ⟨t, h, hle⟩, hstep⟩
  have hseat : p.seat i = some hsees.choose := dif_pos hsees
  obtain ⟨t', hreturns, -⟩ := (p.sees_of_seat hseat).returns
  exact Or.inr ⟨_, _, hseat, ((p.returns_unique i answer t h).2.2 _ _ hreturns).1⟩

/-- No operation sees more than what is known when it returns. -/
theorem level_le {answer : Answer} {t : ℕ} (h : H.Returns i answer t) :
    (p.place i).level ≤ p.known (t + 1) := by
  rcases p.owns_or_seat h with ⟨m, hlt, x, hx, rfl⟩ | ⟨m, x, hseat, -⟩
  · rw [p.place_owner hlt hx]
    exact (p.returns_owner m hlt x hx answer t h).2
  · have hsees := p.sees_of_seat hseat
    obtain ⟨t', hreturns, hle⟩ := hsees.returns
    have hname : x.name = i := hsees.name
    subst hname
    rw [p.place_quiet (p.mem_quiet.2 hseat)]
    rwa [← ((p.returns_unique _ answer t h).2.2 _ _ hreturns).2]

/-- The operations that see the same entries, by the time of their call. -/
theorem pairwise_quiet (m : ℕ) :
    (p.quiet m).Pairwise fun x y => x.name ≠ y.name ∧ ¬ H.Precedes y.name x.name := by
  refine List.pairwise_filterMap.2 ((p.nodup_names.imp₂ ?_ p.sorted_names))
  intro i j hne hle x hx y hy
  obtain ⟨⟨k, x'⟩, hseat, heq⟩ := Option.bind_eq_some_iff.1 hx
  obtain ⟨⟨k', y'⟩, hseat', heq'⟩ := Option.bind_eq_some_iff.1 hy
  split_ifs at heq heq'
  obtain rfl := Option.some.inj heq
  obtain rfl := Option.some.inj heq'
  have hname : x'.name = i := (p.sees_of_seat hseat).name
  have hname' : y'.name = j := (p.sees_of_seat hseat').name
  rw [hname, hname']
  refine ⟨hne, ?_⟩
  rintro ⟨answer, t, hreturns, hlt⟩
  have hstart := (p.returns_unique _ _ _ hreturns).1
  omega

/-! ### The order -/

/-- The operations of the first `m` entries, and those that see no more. -/
noncomputable def order : ℕ → List (Performed ι Operation Answer)
  | 0 => p.quiet 0
  | m + 1 => order m ++ ((p.owner m).toList ++ p.quiet (m + 1))

theorem mem_order : x ∈ p.order m ↔
    (∃ k < m, p.owner k = some x) ∨ ∃ k ≤ m, x ∈ p.quiet k := by
  induction m with
  | zero => simp [order]
  | succ m ih =>
    rw [order, List.mem_append, List.mem_append, ih, Option.mem_toList]
    constructor
    · rintro ((⟨k, hk, hx⟩ | ⟨k, hk, hx⟩) | hx | hx)
      · exact Or.inl ⟨k, by omega, hx⟩
      · exact Or.inr ⟨k, by omega, hx⟩
      · exact Or.inl ⟨m, by omega, hx⟩
      · exact Or.inr ⟨m + 1, le_rfl, hx⟩
    · rintro (⟨k, hk, hx⟩ | ⟨k, hk, hx⟩)
      · rcases Nat.lt_or_eq_of_le (Nat.le_of_lt_succ hk) with hlt | rfl
        · exact Or.inl (Or.inl ⟨k, hlt, hx⟩)
        · exact Or.inr (Or.inl hx)
      · rcases Nat.lt_or_eq_of_le hk with hlt | rfl
        · exact Or.inl (Or.inr ⟨k, by omega, hx⟩)
        · exact Or.inr (Or.inr hx)

theorem legal (hm : m ≤ p.size) : o.Legal o.init (p.order m) (p.state m) := by
  have hquiet : ∀ m, o.Legal (p.state m) (p.quiet m) (p.state m) := fun m =>
    .of_forall fun x hx => (p.sees_of_mem hx).step
  induction m with
  | zero =>
    rw [← p.state_zero]
    exact hquiet 0
  | succ m ih =>
    refine (ih (by omega)).append (.append ?_ (hquiet (m + 1)))
    cases hx : p.owner m with
    | none =>
      rw [p.state_succ m hm hx]
      exact .nil _
    | some x => exact .cons (p.step_owner m hm x hx) (.nil _)

theorem level_of_mem (hm : m ≤ p.size) (hx : x ∈ p.order m) : (p.place x.name).level ≤ m := by
  rcases p.mem_order.1 hx with ⟨k, hk, hx⟩ | ⟨k, hk, hx⟩
  · rw [p.place_owner (by omega) hx]
    exact hk
  · rw [p.place_quiet hx]
    exact hk

/-- Two operations of which the second has the later place. -/
theorem apart (hlt : (p.place x.name).base < (p.place y.name).level)
    (hne : p.place x.name ≠ p.place y.name) :
    x.name ≠ y.name ∧ ¬ H.Precedes y.name x.name := by
  refine ⟨fun heq => hne (congrArg p.place heq), ?_⟩
  rintro ⟨answer, t, hreturns, hbefore⟩
  refine Nat.not_lt.2 ?_ hlt
  calc (p.place y.name).level
      ≤ p.known (t + 1) := p.level_le hreturns
    _ ≤ p.known (H.start x.name) := p.known_mono hbefore
    _ ≤ (p.place x.name).base := p.known_start _

/-- The order keeps the names and the times apart. -/
theorem pairwise_order (hm : m ≤ p.size) :
    (p.order m).Pairwise fun x y => x.name ≠ y.name ∧ ¬ H.Precedes y.name x.name := by
  induction m with
  | zero => exact p.pairwise_quiet 0
  | succ m ih =>
    have hnext : ∀ y ∈ (p.owner m).toList ++ p.quiet (m + 1), (p.place y.name).level = m + 1 := by
      intro y hy
      rcases List.mem_append.1 hy with hy | hy
      · rw [p.place_owner hm (Option.mem_toList.1 hy)]
        rfl
      · rw [p.place_quiet hy]
        rfl
    refine List.pairwise_append.2 ⟨ih (by omega),
      List.pairwise_append.2 ⟨?_, p.pairwise_quiet _, ?_⟩, ?_⟩
    · cases p.owner m with
      | none => exact .nil
      | some x => exact List.pairwise_singleton _ x
    · intro x hx y hy
      have hplace := p.place_owner hm (Option.mem_toList.1 hx)
      have hplace' := p.place_quiet hy
      refine p.apart ?_ ?_
      · rw [hplace, hplace']
        exact Nat.lt_succ_self m
      · rw [hplace, hplace']
        exact Place.noConfusion
    · intro x hx y hy
      have hle := p.level_of_mem (by omega) hx
      have hlevel := hnext y hy
      refine p.apart ?_ fun heq => ?_
      · have hbase := (p.place x.name).base_le_level
        omega
      · rw [heq] at hle
        omega

/-- **A log decides a linearization.** -/
theorem linearizes : H.Linearizes o (p.order p.size) where
  legal := ⟨_, p.legal le_rfl⟩
  nodup := List.pairwise_map.2 ((p.pairwise_order le_rfl).imp And.left)
  called x hx := by
    rcases p.mem_order.1 hx with ⟨k, hk, hx⟩ | ⟨k, hk, hx⟩
    · exact p.calls_owner k hk x hx
    · exact (p.sees_of_mem hx).calls
  refused x hx := by
    rcases p.mem_order.1 hx with ⟨k, hk, hx⟩ | ⟨k, hk, hx⟩
    · exact p.refuses_owner k hk x hx
    · obtain ⟨t, hreturns, -⟩ := (p.sees_of_mem hx).returns
      exact (p.returns_unique _ _ _ hreturns).2.1
  complete i answer t h := by
    rcases p.owns_or_seat h with ⟨m, hlt, x, hx, rfl⟩ | ⟨m, x, hseat, hanswer⟩
    · exact ⟨x, p.mem_order.2 (Or.inl ⟨m, hlt, hx⟩), rfl, (p.returns_owner m hlt x hx answer t h).1⟩
    · have hsees := p.sees_of_seat hseat
      obtain rfl : x.name = i := hsees.name
      exact ⟨x, p.mem_order.2 (Or.inr ⟨m, p.sees_le_size hsees, p.mem_quiet.2 hseat⟩), rfl, hanswer⟩
  realTime := (p.pairwise_order le_rfl).imp And.right

end LogOrder
