import Mathlib.Logic.Function.Basic
import Mathlib.Data.Nat.Init
import Mathlib.Order.Basic

/-!
# Runs of a system

A system is a start state and a partial function `next` from a state and an action to a state. A
run is a finite sequence of states from the start state with the actions in between. Four rules: a
property that every action preserves holds along a run, a relation that every action preserves
matches a run with a sequence of states of another system, where each action is one of the other
system or none, the sequence is a run of the other system, and an action that is possible in a state
of a run is the last action of another run. A path is what may follow in some state: so many actions
of a kind. It has an invariant rule and a simulation rule, too.
-/

variable {S A T B : Type*}

/-- A finite run: `state i` for `i ≤ length`, with `action i` between `state i` and
`state (i + 1)`. -/
structure SystemRun (start : S) (next : S → A → Option S) where
  length : ℕ
  state : ℕ → S
  action : ℕ → A
  state_zero : state 0 = start
  next_state : ∀ i < length, next (state i) (action i) = some (state (i + 1))

namespace SystemRun

variable {start : S} {next : S → A → Option S}

/-- **The invariant rule.** -/
theorem invariant (r : SystemRun start next) {P : S → Prop} (h0 : P start)
    (hstep : ∀ {s a s'}, P s → next s a = some s' → P s') : ∀ i ≤ r.length, P (r.state i) := by
  intro i hi
  induction i with
  | zero => rwa [r.state_zero]
  | succ i ih => exact hstep (ih (by omega)) (r.next_state i hi)

/-- **The simulation rule**: a relation to the states of another system that holds at the start
and that every action preserves by a move of the other system matches the run with a sequence of
states connected by moves. A move may depend on the action and the states around it. -/
theorem simulation (r : SystemRun start next) {t : T} {R : S → T → Prop}
    {M : S → A → S → T → T → Prop} (h0 : R start t)
    (hstep : ∀ {s a s' t}, R s t → next s a = some s' → ∃ t', M s a s' t t' ∧ R s' t') :
    ∃ ghost : ℕ → T, ghost 0 = t ∧ (∀ i ≤ r.length, R (r.state i) (ghost i)) ∧
      ∀ i < r.length, M (r.state i) (r.action i) (r.state (i + 1)) (ghost i) (ghost (i + 1)) := by
  suffices ∀ k ≤ r.length, ∃ ghost : ℕ → T, ghost 0 = t ∧
      (∀ i ≤ k, R (r.state i) (ghost i)) ∧
      ∀ i < k, M (r.state i) (r.action i) (r.state (i + 1)) (ghost i) (ghost (i + 1)) from
    this r.length (Nat.le_refl _)
  intro k hk
  induction k with
  | zero =>
    refine ⟨fun _ => t, rfl, fun i hi => ?_, fun i hi => absurd hi (Nat.not_lt_zero i)⟩
    rw [Nat.le_zero.1 hi, r.state_zero]
    exact h0
  | succ k ih =>
    obtain ⟨ghost, hzero, hR, hM⟩ := ih (by omega)
    obtain ⟨t', hmove, hR'⟩ := hstep (hR k (Nat.le_refl _)) (r.next_state k hk)
    have hold : ∀ i ≤ k, Function.update ghost (k + 1) t' i = ghost i := fun i hi =>
      Function.update_of_ne (by omega) _ _
    refine ⟨Function.update ghost (k + 1) t', (hold 0 (Nat.zero_le k)).trans hzero,
      fun i hi => ?_, fun i hi => ?_⟩
    · rcases Nat.lt_or_eq_of_le hi with hlt | rfl
      · rw [hold i (by omega)]
        exact hR i (by omega)
      · rwa [Function.update_self]
    · rw [hold i (by omega)]
      rcases Nat.lt_or_eq_of_le (Nat.le_of_lt_succ hi) with hlt | rfl
      · rw [hold (i + 1) hlt]
        exact hM i hlt
      · rwa [Function.update_self]

/-- The run with one more action. -/
def extend (r : SystemRun start next) {a : A} {s : S} (h : next (r.state r.length) a = some s) :
    SystemRun start next where
  length := r.length + 1
  state := Function.update r.state (r.length + 1) s
  action := Function.update r.action r.length a
  state_zero := (Function.update_of_ne (Nat.succ_ne_zero _).symm _ _).trans r.state_zero
  next_state i hi := by
    rcases Nat.lt_or_eq_of_le (Nat.le_of_lt_succ hi) with hlt | rfl
    · rw [Function.update_of_ne (by omega), Function.update_of_ne (by omega),
        Function.update_of_ne (by omega)]
      exact r.next_state i hlt
    · rw [Function.update_of_ne (by omega), Function.update_self, Function.update_self]
      exact h

theorem extend_state (r : SystemRun start next) {a : A} {s : S}
    (h : next (r.state r.length) a = some s) {i : ℕ} (hi : i ≤ r.length) :
    (r.extend h).state i = r.state i :=
  Function.update_of_ne (by omega) _ _

theorem extend_state_last (r : SystemRun start next) {a : A} {s : S}
    (h : next (r.state r.length) a = some s) : (r.extend h).state (r.length + 1) = s :=
  Function.update_self ..

theorem extend_action (r : SystemRun start next) {a : A} {s : S}
    (h : next (r.state r.length) a = some s) {i : ℕ} (hi : i < r.length) :
    (r.extend h).action i = r.action i :=
  Function.update_of_ne (by omega) _ _

theorem extend_action_last (r : SystemRun start next) {a : A} {s : S}
    (h : next (r.state r.length) a = some s) : (r.extend h).action r.length = a :=
  Function.update_self ..

/-- The first `k` actions of the run. -/
def upTo (r : SystemRun start next) {k : ℕ} (hk : k ≤ r.length) : SystemRun start next where
  length := k
  state := r.state
  action := r.action
  state_zero := r.state_zero
  next_state i hi := r.next_state i (Nat.lt_of_lt_of_le hi hk)

/-- **The extension rule**: an action that is possible in a state of a run is the last action of
another run that has come to that state in the same way. -/
theorem exists_extension (r : SystemRun start next) {i : ℕ} (hi : i ≤ r.length) {a : A} {s : S}
    (h : next (r.state i) a = some s) : ∃ r' : SystemRun start next, r'.length = i + 1 ∧
      (∀ j ≤ i, r'.state j = r.state j) ∧ r'.state (i + 1) = s ∧
      (∀ j < i, r'.action j = r.action j) ∧ r'.action i = a := by
  have hnext : next ((r.upTo hi).state (r.upTo hi).length) a = some s := h
  exact ⟨(r.upTo hi).extend hnext, rfl, fun _ hj => extend_state _ hnext hj,
    extend_state_last _ hnext, fun _ hj => extend_action _ hnext hj, extend_action_last _ hnext⟩

/-- **The projection rule**: a relation that holds at the start, and that every action preserves
either without a move of the other system or by one action of it, makes a run of the other system
out of the run. `f` counts the actions of the other system. -/
theorem projection [Inhabited B] (r : SystemRun start next) {t : T} {next' : T → B → Option T}
    {R : S → T → Prop} {M : S → A → B → Prop} (h0 : R start t)
    (hstep : ∀ {s a s' t}, R s t → next s a = some s' →
      R s' t ∨ ∃ b t', next' t b = some t' ∧ R s' t' ∧ M s a b) :
    ∃ (r' : SystemRun t next') (f : ℕ → ℕ), f 0 = 0 ∧ f r.length = r'.length ∧
      (∀ i ≤ r.length, f i ≤ r'.length ∧ R (r.state i) (r'.state (f i))) ∧
      ∀ i < r.length, f (i + 1) = f i ∨
        f (i + 1) = f i + 1 ∧ M (r.state i) (r.action i) (r'.action (f i)) := by
  suffices ∀ k ≤ r.length, ∃ (r' : SystemRun t next') (f : ℕ → ℕ), f 0 = 0 ∧ f k = r'.length ∧
      (∀ i ≤ k, f i ≤ r'.length ∧ R (r.state i) (r'.state (f i))) ∧
      ∀ i < k, f (i + 1) = f i ∨
        f (i + 1) = f i + 1 ∧ M (r.state i) (r.action i) (r'.action (f i)) from
    this r.length (Nat.le_refl _)
  intro k hk
  induction k with
  | zero =>
    refine ⟨⟨0, fun _ => t, fun _ => default, rfl, fun i hi => absurd hi (Nat.not_lt_zero i)⟩,
      fun _ => 0, rfl, rfl, fun i hi => ?_, fun i hi => absurd hi (Nat.not_lt_zero i)⟩
    rw [Nat.le_zero.1 hi, r.state_zero]
    exact ⟨Nat.le_refl _, h0⟩
  | succ k ih =>
    obtain ⟨r', f, hzero, hlast, hR, hM⟩ := ih (by omega)
    have hlastR := (hR k (Nat.le_refl _)).2
    have hold : ∀ m, ∀ i ≤ k, Function.update f (k + 1) m i = f i := fun m i hi =>
      Function.update_of_ne (by omega) _ _
    rcases hstep hlastR (r.next_state k hk) with hsame | ⟨b, t', hnext, hR', hM'⟩
    · refine ⟨r', Function.update f (k + 1) (f k), (hold _ 0 (Nat.zero_le k)).trans hzero,
        (Function.update_self ..).trans hlast, fun i hi => ?_, fun i hi => ?_⟩
      · rcases Nat.lt_or_eq_of_le hi with hlt | rfl
        · rw [hold _ i (by omega)]
          exact hR i (by omega)
        · rw [Function.update_self]
          exact ⟨(hR k (Nat.le_refl _)).1, hsame⟩
      · rw [hold _ i (by omega)]
        rcases Nat.lt_or_eq_of_le (Nat.le_of_lt_succ hi) with hlt | rfl
        · rw [hold _ (i + 1) hlt]
          exact hM i hlt
        · exact Or.inl (Function.update_self ..)
    · rw [hlast] at hnext
      refine ⟨r'.extend hnext, Function.update f (k + 1) (f k + 1),
        (hold _ 0 (Nat.zero_le k)).trans hzero, ?_, fun i hi => ?_, fun i hi => ?_⟩
      · rw [Function.update_self, hlast]
        rfl
      · rcases Nat.lt_or_eq_of_le hi with hlt | rfl
        · obtain ⟨hle, hRi⟩ := hR i (by omega)
          rw [hold _ i (by omega), extend_state r' hnext hle]
          exact ⟨Nat.le_succ_of_le hle, hRi⟩
        · rw [Function.update_self, hlast, extend_state_last]
          exact ⟨Nat.le_refl _, hR'⟩
      · rw [hold _ i (by omega)]
        rcases Nat.lt_or_eq_of_le (Nat.le_of_lt_succ hi) with hlt | rfl
        · rw [hold _ (i + 1) hlt]
          rcases hM i hlt with h | ⟨h, hact⟩
          · exact Or.inl h
          · refine Or.inr ⟨h, ?_⟩
            have hle := (hR (i + 1) hlt).1
            rwa [extend_action r' hnext (by omega)]
        · refine Or.inr ⟨Function.update_self .., ?_⟩
          rwa [hlast, extend_action_last]

/-- The run of a list of actions, each of which is possible. -/
def ofActions [Inhabited A] (actions : List A) (h : (actions.foldlM next start).isSome) :
    SystemRun start next where
  length := actions.length
  state i := ((actions.take i).foldlM next start).getD start
  action i := actions[i]?.getD default
  state_zero := rfl
  next_state i hi := by
    have hsplit : actions.take (i + 1) = actions.take i ++ [actions[i]] :=
      List.take_succ_eq_append_getElem hi
    have hsome : ((actions.take (i + 1)).foldlM next start).isSome := by
      rw [← List.take_append_drop (i + 1) actions, List.foldlM_append] at h
      cases hf : (actions.take (i + 1)).foldlM next start with
      | some s => rfl
      | none => simp [hf] at h
    rw [hsplit, List.foldlM_append] at hsome ⊢
    cases hf : (actions.take i).foldlM next start with
    | none => simp [hf] at hsome
    | some s =>
      simp only [hf, Option.bind_eq_bind, Option.bind_some, List.foldlM_cons, List.foldlM_nil,
        Option.getD_some, List.getElem?_eq_getElem hi] at hsome ⊢
      cases hn : next s actions[i] with
      | none => simp [hn] at hsome
      | some s' => rfl

end SystemRun

/-! ## Paths -/

/-- So many actions lead from one state to another, each of which has the property `P` in the state
where it is taken. -/
inductive SystemPath (next : S → A → Option S) (P : S → A → Prop) : ℕ → S → S → Prop
  | nil (s : S) : SystemPath next P 0 s s
  | snoc {k : ℕ} {s s' s'' : S} {a : A} (h : SystemPath next P k s s') (ha : P s' a)
      (hnext : next s' a = some s'') : SystemPath next P (k + 1) s s''

namespace SystemPath

variable {next : S → A → Option S} {P P' : S → A → Prop} {k k' : ℕ} {s s' s'' : S}

theorem single {a : A} (ha : P s a) (hnext : next s a = some s') : SystemPath next P 1 s s' :=
  .snoc (.nil s) ha hnext

theorem trans (h : SystemPath next P k s s') (h' : SystemPath next P k' s' s'') :
    SystemPath next P (k + k') s s'' := by
  induction h' with
  | nil => exact h
  | snoc _ ha hnext ih => exact .snoc (ih h) ha hnext

theorem mono (h : SystemPath next P k s s') (hP : ∀ {s a}, P s a → P' s a) :
    SystemPath next P' k s s' := by
  induction h with
  | nil => exact .nil _
  | snoc _ ha hnext ih => exact .snoc ih (hP ha) hnext

/-- **The invariant rule** for paths. -/
theorem invariant (h : SystemPath next P k s s') {I : S → Prop} (h0 : I s)
    (hstep : ∀ {s a s'}, I s → next s a = some s' → I s') : I s' := by
  induction h with
  | nil => exact h0
  | snoc _ _ hnext ih => exact hstep (ih h0) hnext

/-- **The simulation rule** for paths: where each action can be followed by one of another system,
so can the path. -/
theorem simulation (h : SystemPath next P k s s') {t : T} {next' : T → B → Option T}
    {Q : T → B → Prop} {R : S → T → Prop} (h0 : R s t)
    (hstep : ∀ {s a s' t}, R s t → P s a → next s a = some s' →
      ∃ b t', Q t b ∧ next' t b = some t' ∧ R s' t') :
    ∃ t', SystemPath next' Q k t t' ∧ R s' t' := by
  induction h with
  | nil => exact ⟨t, .nil t, h0⟩
  | snoc _ ha hnext ih =>
    obtain ⟨t', hpath, hR⟩ := ih h0
    obtain ⟨b, t'', hb, hnext', hR'⟩ := hstep hR ha hnext
    exact ⟨t'', .snoc hpath hb hnext', hR'⟩

end SystemPath
