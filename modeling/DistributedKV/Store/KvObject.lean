import DistributedKV.Foundations.Linearizability
import DistributedKV.Store.Executed

/-!
# The store, for one client at a time

What the store is for: a map, in which a write takes effect once under each request id. The state
after a log is given by the entries that are executed, and an entry does to it what a write of its
command does, unless an earlier entry carries the same request (`KvObject.perform_after`,
`KvObject.after_of_repeats`).
-/

namespace DistributedKV

open KvStateMachine (effect executed dataAfter repeats)

/-- The data, and the command that was executed under a request id. -/
structure KvObject where
  data : Bytes → Option Bytes
  done : RequestId → Option Command

inductive KvOperation
  | write (command : Command)
  | read (key : Bytes)
  deriving DecidableEq

/-- The answers. `conflict` is for a request id that stands for another command. -/
inductive KvAnswer
  | done
  | conflict
  | value (value : Option Bytes)
  deriving DecidableEq

namespace KvObject

def perform (s : KvObject) : KvOperation → KvObject × KvAnswer
  | .read key => (s, .value (s.data key))
  | .write command =>
    match command.requestId with
    | none => ({ s with data := effect s.data command }, .done)
    | some id =>
      match s.done id with
      | some prior => (s, if prior = command then .done else .conflict)
      | none =>
        (⟨effect s.data command, Function.update s.done id (some command)⟩, .done)

/-- The store, empty at first. -/
def object : SequentialObject KvObject KvOperation KvAnswer :=
  ⟨⟨fun _ => none, fun _ => none⟩, perform⟩

/-- The store after the entries of a log. -/
def after (log : List LogEntry) : KvObject :=
  ⟨dataAfter (executed log), fun id => (log.find? (LogEntry.carries id)).map LogEntry.command⟩

variable {log : List LogEntry} {entry : LogEntry} {command : Command} {id : RequestId}

theorem after_nil : after [] = object.init := rfl

theorem done_after (log : List LogEntry) (id : RequestId) :
    (after log).done id = (log.find? (LogEntry.carries id)).map LogEntry.command := rfl

/-- Whether an entry repeats a request can be seen in the store. -/
theorem repeats_executed (log : List LogEntry) (entry : LogEntry) :
    repeats (executed log) entry = (entry.command.requestId.bind (after log).done).isSome := by
  unfold repeats
  cases entry.command.requestId with
  | none => rfl
  | some id =>
    dsimp only
    rw [KvStateMachine.any_executed, Option.bind_some, done_after, Option.isSome_map]

/-- An entry that repeats a request has no effect. -/
theorem after_of_repeats (h : (entry.command.requestId.bind (after log).done).isSome) :
    after (log ++ [entry]) = after log := by
  have hrepeats : repeats (executed log) entry = true := (repeats_executed log entry).trans h
  rw [after, KvStateMachine.executed_concat, if_pos hrepeats, after, KvObject.mk.injEq]
  refine ⟨rfl, funext fun id => ?_⟩
  rw [List.find?_append]
  cases hfind : log.find? (LogEntry.carries id) with
  | some x => rfl
  | none =>
    -- the entry does not carry a request that the log does not have
    have hcarries : entry.carries id = false := by
      rw [LogEntry.carries, decide_eq_false_iff_not]
      intro hid
      rw [hid, Option.bind_some, done_after, hfind] at h
      cases h
    simp [hcarries]

/-- **An entry is a write**, if its request is new. -/
theorem perform_after (hw : entry.command.WellFormed)
    (h : entry.command.requestId.bind (after log).done = none) :
    (after log).perform (.write entry.command) = (after (log ++ [entry]), .done) := by
  have hrepeats : ¬ repeats (executed log) entry = true := by
    rw [repeats_executed, h]
    decide
  have hdata : (after (log ++ [entry])).data = effect (after log).data entry.command := by
    rw [after, KvStateMachine.executed_concat, if_neg hrepeats, dataAfter, List.foldl_append]
    exact KvStateMachine.execute_fst hw _
  have hdone : ∀ id, (after (log ++ [entry])).done id =
      ((after log).done id).or (if entry.carries id then some entry.command else none) := by
    intro id
    rw [done_after, List.find?_append, Option.map_or, ← done_after]
    cases hcarries : entry.carries id <;> simp [hcarries]
  dsimp only [perform]
  rw [← hdata]
  cases hid : entry.command.requestId with
  | none =>
    refine congrArg (fun done => (KvObject.mk _ done, KvAnswer.done)) (funext fun id => ?_)
    rw [← done_after, hdone, if_neg (by simp [LogEntry.carries, hid]), Option.or_none]
  | some id =>
    rw [hid, Option.bind_some] at h
    dsimp only
    rw [h]
    refine congrArg (fun done => (KvObject.mk _ done, KvAnswer.done)) (funext fun id' => ?_)
    rw [← done_after, hdone, LogEntry.carries, hid]
    by_cases heq : id' = id
    · subst heq
      rw [Function.update_self, h]
      simp
    · rw [Function.update_of_ne heq]
      simp [Ne.symm heq]

/-- The entry of an election has no effect. -/
theorem after_of_noOp (h : entry.command = {}) : after (log ++ [entry]) = after log := by
  have hw : entry.command.WellFormed := by
    rw [h]
    exact ⟨rfl, rfl, rfl⟩
  have hperform : (after log).perform (.write entry.command) = (after (log ++ [entry]), .done) :=
    perform_after hw (by rw [h]; rfl)
  rw [h] at hperform
  exact (Prod.mk.inj hperform).1.symm

/-- A retry of a write that has been executed. -/
theorem perform_repeated (hid : command.requestId = some id)
    (h : (after log).done id = some command) :
    (after log).perform (.write command) = (after log, .done) := by
  dsimp only [perform]
  rw [hid]
  dsimp only
  rw [h]
  dsimp only
  rw [if_pos rfl]

/-! ## The writes in a log -/

/-- Entry `m` of the log is a write: it is not that of an election, and its request is new. -/
structure Effective (log : List LogEntry) (m : ℕ) (entry : LogEntry) : Prop where
  get : log[m]? = some entry
  write : entry.command ≠ {}
  new : entry.command.requestId.bind (after (log.take m)).done = none

instance (log : List LogEntry) (m : ℕ) (entry : LogEntry) : Decidable (Effective log m entry) :=
  decidable_of_iff (log[m]? = some entry ∧ entry.command ≠ {} ∧
      (entry.command.requestId.bind (after (log.take m)).done).isNone)
    ⟨fun ⟨hget, hwrite, hnew⟩ => ⟨hget, hwrite, Option.isNone_iff_eq_none.1 hnew⟩,
      fun h => ⟨h.get, h.write, Option.isNone_iff_eq_none.2 h.new⟩⟩

variable {m k : ℕ}

theorem take_succ_of_getElem? (h : log[m]? = some entry) :
    log.take (m + 1) = log.take m ++ [entry] := by
  rw [List.take_add_one, h, Option.toList_some]

theorem Effective.perform (h : Effective log m entry) (hw : entry.command.WellFormed) :
    (after (log.take m)).perform (.write entry.command) = (after (log.take (m + 1)), .done) := by
  rw [take_succ_of_getElem? h.get]
  exact perform_after hw h.new

/-- The other entries have no effect. -/
theorem after_of_not_effective (h : log[m]? = some entry) (hne : ¬ Effective log m entry) :
    after (log.take (m + 1)) = after (log.take m) := by
  rw [take_succ_of_getElem? h]
  by_cases hcommand : entry.command = {}
  · exact after_of_noOp hcommand
  · refine after_of_repeats (Option.isSome_iff_ne_none.2 fun hnew => ?_)
    exact hne ⟨h, hcommand, hnew⟩

/-- A write is the first entry of its request. -/
theorem Effective.find? (h : Effective log m entry) (hid : entry.command.requestId = some id)
    (hk : m < k) : (log.take k).find? (LogEntry.carries id) = some entry := by
  have hnew := h.new
  rw [hid, Option.bind_some, done_after, Option.map_eq_none_iff] at hnew
  have hsucc : (log.take (m + 1)).find? (LogEntry.carries id) = some entry := by
    rw [take_succ_of_getElem? h.get, List.find?_append, hnew, Option.none_or]
    simp [LogEntry.carries, hid]
  exact (List.take_prefix_take_left hk).find?_eq_some hsucc

/-- A write is executed. -/
theorem Effective.mem_executed (h : Effective log m entry) (hk : m < k) :
    entry ∈ executed (log.take k) := by
  have hsub : executed (log.take (m + 1)) ⊆ executed (log.take k) := by
    induction k, hk using Nat.le_induction with
    | base => exact List.Subset.refl _
    | succ k hk ih =>
      refine List.Subset.trans ih ?_
      rw [List.take_add_one]
      cases log[k]? with
      | none =>
        rw [Option.toList_none, List.append_nil]
        exact List.Subset.refl _
      | some e =>
        rw [Option.toList_some, KvStateMachine.executed_concat]
        split_ifs
        · exact List.Subset.refl _
        · exact List.subset_append_left _ _
  refine hsub ?_
  have hrepeats : ¬ repeats (executed (log.take m)) entry = true := by
    rw [repeats_executed, h.new]
    decide
  rw [take_succ_of_getElem? h.get, KvStateMachine.executed_concat, if_neg hrepeats]
  exact List.mem_append_right _ (List.mem_singleton_self _)

end KvObject

end DistributedKV
