import DistributedKV.Store.Codec
import Mathlib.Data.List.Induction
import Mathlib.Logic.Function.Basic

/-!
# The key-value state machine

`kv_state_machine.cpp`. The two maps of the class are functions to `Option`; the code only looks
up, inserts and erases single keys.
-/

namespace DistributedKV

inductive ApplyResult
  | applied
  | keyNotFound
  | requestConflict
  | invalidCommand
  | unexpectedIndex
  deriving DecidableEq, Repr

structure AppliedRequest where
  command : Command
  result : ApplyResult
  index : ℕ
  term : ℕ
  deriving DecidableEq

structure KvStateMachine where
  data : Bytes → Option Bytes := fun _ => none
  appliedRequests : RequestId → Option AppliedRequest := fun _ => none
  lastApplied : ℕ := 0

namespace KvStateMachine

def get (state : KvStateMachine) (key : Bytes) : Option Bytes := state.data key

def requestResult (state : KvStateMachine) (id : RequestId) : Option AppliedRequest :=
  state.appliedRequests id

/-- The shape check at the head of `apply`. -/
def malformed (command : Command) : Bool :=
  (command.type = .delete ∧ command.value ≠ []) ∨
    (command.type = .noOp ∧ (command.key ≠ [] ∨ command.value ≠ [] ∨ command.requestId.isSome))

/-- The switch of `apply`: the new key-value data and the result. -/
def execute (data : Bytes → Option Bytes) (command : Command) :
    (Bytes → Option Bytes) × ApplyResult :=
  match command.type with
  | .put => (Function.update data command.key (some command.value), .applied)
  | .delete =>
    if command.value ≠ [] then (data, .invalidCommand)
    else if (data command.key).isSome then (Function.update data command.key none, .applied)
    else (data, .keyNotFound)
  | .noOp =>
    if command.value ≠ [] ∨ command.key ≠ [] then (data, .invalidCommand) else (data, .applied)

/-- The earlier application of a command's request, if there was one. -/
def prior (state : KvStateMachine) (command : Command) : Option AppliedRequest :=
  command.requestId.bind state.requestResult

def apply (state : KvStateMachine) (logIndex : ℕ) (command : Command) (logTerm : ℕ) :
    KvStateMachine × ApplyResult :=
  if logIndex ≠ state.lastApplied + 1 then (state, .unexpectedIndex)
  else if malformed command then (state, .invalidCommand)
  else match state.prior command with
    | some p =>
      ({ state with lastApplied := logIndex },
        if p.command = command then p.result else .requestConflict)
    | none =>
      match execute state.data command with
      | (_, .invalidCommand) => (state, .invalidCommand)
      | (data, result) =>
        ({ data
           appliedRequests := match command.requestId with
             | some id => Function.update state.appliedRequests id
                 (some ⟨command, result, logIndex, logTerm⟩)
             | none => state.appliedRequests
           lastApplied := logIndex }, result)

theorem malformed_eq_false_iff (command : Command) :
    malformed command = false ↔ command.WellFormed := by
  unfold malformed Command.WellFormed
  cases command.type with
  | put => simp
  | delete => simp
  | noOp => cases command.requestId <;> simp

theorem execute_ne_invalidCommand {command : Command} (h : command.WellFormed)
    (data : Bytes → Option Bytes) : (execute data command).2 ≠ .invalidCommand := by
  unfold execute
  unfold Command.WellFormed at h
  cases ht : command.type with
  | put => simp
  | delete =>
    simp only [ht] at h
    simp only [h, ne_eq, not_true_eq_false, if_false]
    split_ifs <;> simp
  | noOp =>
    simp only [ht] at h
    simp [h]

theorem execute_ne_unexpectedIndex (data : Bytes → Option Bytes) (command : Command) :
    (execute data command).2 ≠ .unexpectedIndex := by
  unfold execute
  cases command.type with
  | put => simp
  | delete => split_ifs <;> simp
  | noOp => split_ifs <;> simp

/-- The state after a well-formed command at the next index. -/
def advance (state : KvStateMachine) (entry : LogEntry) : KvStateMachine :=
  (state.apply (state.lastApplied + 1) entry.command entry.term).1

/-- A request seen before only moves `lastApplied`. -/
theorem apply_of_prior {state : KvStateMachine} {command : Command} {p : AppliedRequest}
    (h : command.WellFormed) (hp : state.prior command = some p) (term : ℕ) :
    state.apply (state.lastApplied + 1) command term =
      ({ state with lastApplied := state.lastApplied + 1 },
        if p.command = command then p.result else .requestConflict) := by
  simp [apply, (malformed_eq_false_iff command).2 h, hp]

/-- A command without a request, or with a request not seen before, is executed and its request
is recorded. -/
theorem apply_of_fresh {state : KvStateMachine} {command : Command} (h : command.WellFormed)
    (hp : state.prior command = none) (term : ℕ) :
    state.apply (state.lastApplied + 1) command term =
      ({ data := (execute state.data command).1
         appliedRequests := match command.requestId with
           | some id => Function.update state.appliedRequests id
               (some ⟨command, (execute state.data command).2, state.lastApplied + 1, term⟩)
           | none => state.appliedRequests
         lastApplied := state.lastApplied + 1 }, (execute state.data command).2) := by
  have hne := execute_ne_invalidCommand h state.data
  simp only [apply, ne_eq, not_true_eq_false, if_false, (malformed_eq_false_iff command).2 h,
    Bool.false_eq_true, hp]

theorem apply_ne_error {state : KvStateMachine} {command : Command} (h : command.WellFormed)
    (hr : ∀ id p, state.appliedRequests id = some p →
      p.result ≠ .invalidCommand ∧ p.result ≠ .unexpectedIndex) (term : ℕ) :
    (state.apply (state.lastApplied + 1) command term).2 ≠ .invalidCommand ∧
      (state.apply (state.lastApplied + 1) command term).2 ≠ .unexpectedIndex := by
  cases hp : state.prior command with
  | some p =>
    rw [apply_of_prior h hp]
    obtain ⟨id, -, hid⟩ := Option.bind_eq_some_iff.1 hp
    dsimp only
    split_ifs
    · exact hr id p hid
    · simp
  | none =>
    rw [apply_of_fresh h hp]
    refine ⟨execute_ne_invalidCommand h _, ?_⟩
    exact execute_ne_unexpectedIndex _ _

@[simp] theorem lastApplied_advance {state : KvStateMachine} {entry : LogEntry}
    (h : entry.command.WellFormed) : (state.advance entry).lastApplied = state.lastApplied + 1 := by
  unfold advance
  cases hp : state.prior entry.command with
  | some p => rw [apply_of_prior h hp]
  | none => rw [apply_of_fresh h hp]

/-- `apply` moves `last_applied` to the index, if at all. -/
theorem lastApplied_apply_le (state : KvStateMachine) (index : ℕ) (command : Command) (term : ℕ) :
    (state.apply index command term).1.lastApplied ≤ max state.lastApplied index := by
  unfold apply
  split_ifs
  · exact Nat.le_max_left _ _
  · exact Nat.le_max_left _ _
  cases state.prior command with
  | some p => exact Nat.le_max_right _ _
  | none =>
    dsimp only
    split
    · exact Nat.le_max_left _ _
    · exact Nat.le_max_right _ _

/-! ## Replay -/

/-- The state machine that has applied the entries of a log in order. -/
def replay (log : List LogEntry) : KvStateMachine := log.foldl advance {}

@[simp] theorem replay_nil : replay [] = {} := rfl

theorem replay_concat (log : List LogEntry) (entry : LogEntry) :
    replay (log ++ [entry]) = (replay log).advance entry := by
  simp [replay]

theorem appliedRequests_advance {state : KvStateMachine} {entry : LogEntry}
    (h : entry.command.WellFormed) {id : RequestId} {p : AppliedRequest}
    (hp : (state.advance entry).appliedRequests id = some p) :
    state.appliedRequests id = some p ∨
      state.appliedRequests id = none ∧ entry.command.requestId = some id ∧
        p = ⟨entry.command, (execute state.data entry.command).2, state.lastApplied + 1,
          entry.term⟩ := by
  unfold advance at hp
  cases hq : state.prior entry.command with
  | some r =>
    rw [apply_of_prior h hq] at hp
    exact Or.inl hp
  | none =>
    rw [apply_of_fresh h hq] at hp
    cases hid : entry.command.requestId with
    | none =>
      simp only [hid] at hp
      exact Or.inl hp
    | some id' =>
      simp only [hid, Function.update_apply] at hp
      split_ifs at hp with heq
      · subst heq
        refine Or.inr ⟨?_, rfl, (Option.some.inj hp).symm⟩
        simpa [prior, hid, requestResult] using hq
      · exact Or.inl hp

/-- Only results of executed commands are recorded. -/
theorem result_of_replay {log : List LogEntry} (h : ∀ e ∈ log, e.command.WellFormed)
    {id : RequestId} {p : AppliedRequest} (hp : (replay log).appliedRequests id = some p) :
    p.result ≠ .invalidCommand ∧ p.result ≠ .unexpectedIndex := by
  induction log using List.reverseRecOn with
  | nil => cases hp
  | append_singleton log entry ih =>
    rw [replay_concat] at hp
    have hw : entry.command.WellFormed := h entry (by simp)
    rcases appliedRequests_advance hw hp with hp | ⟨-, -, rfl⟩
    · exact ih (fun e he => h e (by simp [he])) hp
    · exact ⟨execute_ne_invalidCommand hw _, execute_ne_unexpectedIndex _ _⟩

theorem lastApplied_replay {log : List LogEntry} (h : ∀ e ∈ log, e.command.WellFormed) :
    (replay log).lastApplied = log.length := by
  induction log using List.reverseRecOn with
  | nil => rfl
  | append_singleton log entry ih =>
    rw [replay_concat, lastApplied_advance (h entry (by simp)),
      ih fun e he => h e (by simp [he])]
    simp

end KvStateMachine

end DistributedKV
