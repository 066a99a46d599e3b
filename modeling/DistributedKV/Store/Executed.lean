import DistributedKV.Store.KvStateMachine

/-!
# Which commands are executed

What the state machine says about retries, without its table: of the entries of a log that carry
the same request, the first one is executed and the others are not. The key-value data are those
of the executed entries (`data_replay`), and the table names for each request the entry that was
executed (`requestResult_replay`).
-/

namespace DistributedKV

/-- The entry carries the request. -/
def LogEntry.carries (id : RequestId) (entry : LogEntry) : Bool :=
  entry.command.requestId = some id

/-- What the table holds for a request, as an entry. -/
def AppliedRequest.entry (applied : AppliedRequest) : LogEntry :=
  ⟨applied.index, applied.term, applied.command⟩

namespace KvStateMachine

/-- The request of the entry has been executed. -/
def repeats (done : List LogEntry) (entry : LogEntry) : Bool :=
  match entry.command.requestId with
  | some id => done.any (LogEntry.carries id)
  | none => false

/-- The entries of a log that are executed. -/
def executed (log : List LogEntry) : List LogEntry :=
  log.foldl (fun done entry => if repeats done entry then done else done ++ [entry]) []

/-- The entries of a log whose request has not occurred earlier in it. -/
def firstOccurrences (log : List LogEntry) : List LogEntry :=
  (log.zipIdx.filter fun p => !repeats (log.take p.2) p.1).map Prod.fst

/-- What a put or a delete does to the data. -/
def effect (data : Bytes → Option Bytes) (command : Command) : Bytes → Option Bytes :=
  match command.type with
  | .put => Function.update data command.key (some command.value)
  | .delete => Function.update data command.key none
  | .noOp => data

/-- `apply` on the entries of a log in turn: the state, and the results. -/
def applyAll (log : List LogEntry) : KvStateMachine × List ApplyResult :=
  log.foldl (fun s entry =>
    match s.1.apply entry.index entry.command entry.term with
    | (state, result) => (state, s.2 ++ [result])) ({}, [])

/-- The key-value data after the commands of some entries, each executed in turn. -/
def dataAfter (entries : List LogEntry) : Bytes → Option Bytes :=
  entries.foldl (fun data entry => (execute data entry.command).1) fun _ => none

variable {log : List LogEntry} {entry : LogEntry}

/-! ## The executed entries -/

theorem executed_concat (log : List LogEntry) (entry : LogEntry) :
    executed (log ++ [entry]) =
      if repeats (executed log) entry then executed log else executed log ++ [entry] := by
  rw [executed, List.foldl_append]
  rfl

theorem executed_sublist (log : List LogEntry) : (executed log).Sublist log := by
  induction log using List.reverseRecOn with
  | nil => exact .slnil
  | append_singleton log entry ih =>
    rw [executed_concat]
    split_ifs
    · exact ih.trans (List.sublist_append_left _ _)
    · exact ih.append_right _

/-- **Of the entries for one request, the first is executed.** -/
theorem filter_executed (log : List LogEntry) (id : RequestId) :
    (executed log).filter (LogEntry.carries id) = (log.find? (LogEntry.carries id)).toList := by
  induction log using List.reverseRecOn with
  | nil => rfl
  | append_singleton log entry ih =>
    rw [executed_concat, List.find?_append]
    cases hid : entry.carries id with
    | false =>
      have hnone : [entry].find? (LogEntry.carries id) = none := by simp [hid]
      rw [hnone, Option.or_none, ← ih]
      split_ifs
      · rfl
      · simp [List.filter_append, hid]
    | true =>
      have hrequest : entry.command.requestId = some id := of_decide_eq_true hid
      have hrepeats : repeats (executed log) entry = (executed log).any (LogEntry.carries id) := by
        rw [repeats, hrequest]
      rw [hrepeats]
      cases hfind : log.find? (LogEntry.carries id) with
      | some x =>
        rw [hfind] at ih
        have hx : x ∈ (executed log).filter (LogEntry.carries id) := by simp [ih]
        rw [if_pos (List.any_eq_true.2 ⟨x, List.mem_filter.1 hx⟩), ih, Option.some_or]
      | none =>
        rw [hfind, Option.toList_none, List.filter_eq_nil_iff] at ih
        rw [if_neg (by simpa using ih), List.filter_append, List.filter_eq_nil_iff.2 ih,
          Option.none_or]
        simp [hid]

theorem any_executed (log : List LogEntry) (id : RequestId) :
    (executed log).any (LogEntry.carries id) = (log.find? (LogEntry.carries id)).isSome := by
  have h := congrArg (fun l => l.any fun _ => true) (filter_executed log id)
  cases hfind : log.find? (LogEntry.carries id) with
  | none => simpa [hfind, List.any_filter] using h
  | some x => simpa [hfind, List.any_filter] using h

/-- What the data holds was put by one of the entries. -/
theorem mem_of_dataAfter {entries : List LogEntry} {key value : Bytes}
    (h : dataAfter entries key = some value) : ∃ e ∈ entries, e.command.value = value := by
  induction entries using List.reverseRecOn with
  | nil => cases h
  | append_singleton entries entry ih =>
    have hold : dataAfter entries key = some value →
        ∃ e ∈ entries ++ [entry], e.command.value = value := fun h => by
      obtain ⟨e, he, hv⟩ := ih h
      exact ⟨e, List.mem_append_left _ he, hv⟩
    rw [dataAfter, List.foldl_append] at h
    change (execute (dataAfter entries) entry.command).1 key = some value at h
    unfold execute at h
    split at h
    · dsimp only at h
      rw [Function.update_apply] at h
      split_ifs at h
      · exact ⟨entry, List.mem_append_right _ (List.mem_singleton_self _), Option.some.inj h⟩
      · exact hold h
    · split_ifs at h
      · exact hold h
      · dsimp only at h
        rw [Function.update_apply] at h
        split_ifs at h
        exact hold h
      · exact hold h
    · split_ifs at h <;> exact hold h

/-- It is the same to look for earlier executions of a request and for earlier occurrences. -/
theorem executed_eq_firstOccurrences (log : List LogEntry) :
    executed log = firstOccurrences log := by
  induction log using List.reverseRecOn with
  | nil => rfl
  | append_singleton log entry ih =>
    have hrepeats : repeats (executed log) entry = repeats log entry := by
      unfold repeats
      cases entry.command.requestId with
      | none => rfl
      | some id =>
        dsimp only
        rw [any_executed, Bool.eq_iff_iff, List.find?_isSome, List.any_eq_true]
    have hfront : log.zipIdx.filter (fun p => !repeats ((log ++ [entry]).take p.2) p.1) =
        log.zipIdx.filter fun p => !repeats (log.take p.2) p.1 := by
      refine List.filter_congr fun p hp => ?_
      have hlt := List.snd_lt_of_mem_zipIdx hp
      rw [List.take_append_of_le_length (by omega)]
    rw [executed_concat, hrepeats, firstOccurrences, List.zipIdx_append, List.filter_append,
      List.map_append, hfront, ← firstOccurrences, ← ih]
    cases hr : repeats log entry <;> simp [hr]

/-- What a well-formed command that is executed answers. -/
theorem execute_snd {command : Command} (h : command.WellFormed) (data : Bytes → Option Bytes) :
    (execute data command).2 =
      if command.type = .delete ∧ data command.key = none then .keyNotFound else .applied := by
  unfold execute
  unfold Command.WellFormed at h
  cases ht : command.type with
  | put => rfl
  | delete =>
    simp only [ht] at h
    simp only [h, ne_eq, not_true_eq_false, if_false, true_and]
    cases data command.key <;> rfl
  | noOp =>
    simp only [ht] at h
    simp [h]

/-- A well-formed command is executed as a put, a delete or nothing. -/
theorem execute_fst {command : Command} (h : command.WellFormed) (data : Bytes → Option Bytes) :
    (execute data command).1 = effect data command := by
  unfold execute effect
  unfold Command.WellFormed at h
  cases ht : command.type with
  | put => rfl
  | delete =>
    simp only [ht] at h
    simp only [h, ne_eq, not_true_eq_false, if_false]
    split_ifs with hkey
    · rfl
    · rw [Bool.not_eq_true, Option.isSome_eq_false_iff, Option.isNone_iff_eq_none] at hkey
      exact (Function.update_eq_self_iff.2 hkey.symm).symm
  | noOp =>
    simp only [ht] at h
    simp [h]

/-! ## The state machine -/

/-- **The data are those of the executed entries, and the table names the entry that was executed
for each request.** -/
theorem replay_executed (hw : ∀ e ∈ log, e.command.WellFormed)
    (hi : ∀ {i e}, log[i]? = some e → e.index = i + 1) :
    (replay log).data = dataAfter (executed log) ∧
      ∀ id, ((replay log).requestResult id).map AppliedRequest.entry =
        log.find? (LogEntry.carries id) := by
  induction log using List.reverseRecOn with
  | nil => exact ⟨rfl, fun _ => rfl⟩
  | append_singleton log entry ih =>
    have hwl : ∀ e ∈ log, e.command.WellFormed := fun e he => hw e (List.mem_append_left _ he)
    obtain ⟨hdata, htable⟩ := ih hwl fun {i e} he =>
      hi (by rwa [List.getElem?_append_left (List.getElem?_eq_some_iff.1 he).1])
    have hentry : entry.command.WellFormed := hw entry (by simp)
    have hindex : entry.index = log.length + 1 := hi List.getElem?_concat_length
    have hlast := lastApplied_replay hwl
    rw [replay_concat, advance, executed_concat]
    cases hp : (replay log).prior entry.command with
    | some p =>
      obtain ⟨id, hid, hresult⟩ := Option.bind_eq_some_iff.1 hp
      have hfind := htable id
      rw [hresult, Option.map_some] at hfind
      have hrepeats : repeats (executed log) entry = true := by
        rw [repeats, hid]
        exact (any_executed log id).trans (by rw [← hfind]; rfl)
      rw [apply_of_prior hentry hp, if_pos hrepeats]
      refine ⟨hdata, fun id' => (htable id').trans ?_⟩
      rw [List.find?_append]
      cases hf : log.find? (LogEntry.carries id') with
      | some x => rfl
      | none =>
        by_cases heq : id' = id
        · rw [heq, ← hfind] at hf
          cases hf
        · have hne : entry.carries id' = false := by
            rw [LogEntry.carries, hid]
            simpa using fun h => heq h.symm
          simp [hne]
    | none =>
      rw [apply_of_fresh hentry hp]
      have hrepeats : repeats (executed log) entry = false := by
        rw [repeats]
        cases hid : entry.command.requestId with
        | none => rfl
        | some id =>
          have hfind := htable id
          rw [prior, hid, Option.bind_some] at hp
          rw [hp, Option.map_none] at hfind
          dsimp only
          rw [any_executed, ← hfind]
          rfl
      rw [if_neg (by simp [hrepeats])]
      refine ⟨?_, fun id' => ?_⟩
      · rw [dataAfter, List.foldl_append, ← dataAfter, ← hdata]
        rfl
      · rw [List.find?_append, ← htable id']
        cases hid : entry.command.requestId with
        | none =>
          have hne : entry.carries id' = false := by rw [LogEntry.carries, hid]; rfl
          simp [requestResult, hne]
        | some id =>
          by_cases heq : id' = id
          · subst heq
            rw [prior, hid, Option.bind_some] at hp
            have hyes : entry.carries id' = true := by simp [LogEntry.carries, hid]
            rw [hp]
            simp [requestResult, hyes, AppliedRequest.entry, hlast, ← hindex]
          · have hne : entry.carries id' = false := by
              rw [LogEntry.carries, hid]
              simpa using fun h => heq h.symm
            simp [requestResult, hne, Function.update_of_ne heq]

/-! ## Applying a log -/

theorem applyAll_concat (log : List LogEntry) (entry : LogEntry) :
    applyAll (log ++ [entry]) =
      (((applyAll log).1.apply entry.index entry.command entry.term).1,
        (applyAll log).2 ++ [((applyAll log).1.apply entry.index entry.command entry.term).2]) := by
  rw [applyAll, List.foldl_append]
  rfl

/-- The state machine, the results and the table after a log has been applied. -/
theorem applyAll_table (hw : ∀ e ∈ log, e.command.WellFormed)
    (hi : ∀ {i e}, log[i]? = some e → e.index = i + 1) :
    (applyAll log).1 = replay log ∧ (applyAll log).2.length = log.length ∧
      ∀ id, (applyAll log).1.requestResult id =
        ((log.zip (applyAll log).2).find? fun p => p.1.carries id).map
          fun p => ⟨p.1.command, p.2, p.1.index, p.1.term⟩ := by
  induction log using List.reverseRecOn with
  | nil => exact ⟨rfl, rfl, fun _ => rfl⟩
  | append_singleton log entry ih =>
    have hwl : ∀ e ∈ log, e.command.WellFormed := fun e he => hw e (List.mem_append_left _ he)
    obtain ⟨hstate, hlength, htable⟩ := ih hwl fun {i e} he =>
      hi (by rwa [List.getElem?_append_left (List.getElem?_eq_some_iff.1 he).1])
    have hentry : entry.command.WellFormed := hw entry (by simp)
    have hindex : entry.index = (applyAll log).1.lastApplied + 1 := by
      rw [hstate, lastApplied_replay hwl]
      exact hi List.getElem?_concat_length
    rw [applyAll_concat]
    refine ⟨?_, by simp [hlength], fun id => ?_⟩
    · rw [replay_concat, advance, hindex, hstate]
    rw [List.zip_append hlength.symm, List.find?_append, Option.map_or, ← htable id, hindex]
    cases hp : (applyAll log).1.prior entry.command with
    | some p =>
      rw [apply_of_prior hentry hp]
      obtain ⟨id', hid', hresult⟩ := Option.bind_eq_some_iff.1 hp
      by_cases heq : id = id'
      · subst heq
        rw [hresult, Option.some_or]
        exact hresult
      · have hne : entry.carries id = false := by
          rw [LogEntry.carries, hid']
          simpa using fun h => heq h.symm
        simp [requestResult, hne]
    | none =>
      rw [apply_of_fresh hentry hp]
      cases hid : entry.command.requestId with
      | none =>
        have hne : entry.carries id = false := by rw [LogEntry.carries, hid]; rfl
        simp [requestResult, hne]
      | some id' =>
        by_cases heq : id = id'
        · subst heq
          rw [prior, hid, Option.bind_some] at hp
          have hyes : entry.carries id = true := by simp [LogEntry.carries, hid]
          rw [hp, Option.none_or]
          simp [requestResult, hyes, hindex]
        · have hne : entry.carries id = false := by
            rw [LogEntry.carries, hid]
            simpa using fun h => heq h.symm
          simp [requestResult, hne, Function.update_of_ne heq]

/-- What a rejected command does. -/
theorem apply_of_rejected {state : KvStateMachine} {index : ℕ} {command : Command}
    (h : index ≠ state.lastApplied + 1 ∨ ¬ command.WellFormed) (term : ℕ) :
    state.apply index command term = (state, .unexpectedIndex) ∨
      state.apply index command term = (state, .invalidCommand) := by
  unfold apply
  split_ifs with hindex hshape
  · exact Or.inl rfl
  · exact Or.inr rfl
  · rw [Bool.not_eq_true, malformed_eq_false_iff] at hshape
    exact absurd hshape (h.resolve_left (by simpa using hindex))

/-- **The state machine refines a deduplicating fold.** After valid commands at the indices from 1
on, the data are those of the plain puts and deletes, less each command whose request id occurred
before. The table holds for each request the first command, with the result, index and term of its
own application. From there a command for a request in the table gets that result, or a conflict if
it is another command, and only moves `last_applied`. And what is invalid or out of sequence
changes nothing. -/
theorem refines_deduplication (hw : ∀ e ∈ log, e.command.WellFormed)
    (hi : ∀ {i e}, log[i]? = some e → e.index = i + 1) :
    (applyAll log).1.lastApplied = log.length ∧ (applyAll log).2.length = log.length ∧
    (applyAll log).1.data =
      (firstOccurrences log).foldl (fun data e => effect data e.command) (fun _ => none) ∧
    (∀ id, (applyAll log).1.requestResult id =
      ((log.zip (applyAll log).2).find? fun p => p.1.carries id).map
        fun p => ⟨p.1.command, p.2, p.1.index, p.1.term⟩) ∧
    ∀ index command term,
      (index = log.length + 1 → command.WellFormed →
        (∀ id p, command.requestId = some id → (applyAll log).1.requestResult id = some p →
          (applyAll log).1.apply index command term =
            ({ (applyAll log).1 with lastApplied := index },
              if p.command = command then p.result else .requestConflict)) ∧
        ((applyAll log).1.prior command = none →
          ((applyAll log).1.apply index command term).2 =
            if command.type = .delete ∧ (applyAll log).1.data command.key = none then .keyNotFound
            else .applied)) ∧
      (index ≠ log.length + 1 ∨ ¬ command.WellFormed →
        (applyAll log).1.apply index command term = ((applyAll log).1, .unexpectedIndex) ∨
          (applyAll log).1.apply index command term = ((applyAll log).1, .invalidCommand)) := by
  obtain ⟨hstate, hlength, htable⟩ := applyAll_table hw hi
  have hlast : (applyAll log).1.lastApplied = log.length := by
    rw [hstate, lastApplied_replay hw]
  refine ⟨hlast, hlength, ?_, htable, fun index command term => ⟨fun hindex hcommand => ⟨?_, ?_⟩,
    fun h => apply_of_rejected (hlast ▸ h) term⟩⟩
  · rw [hstate, (replay_executed hw hi).1, executed_eq_firstOccurrences]
    have hwf : ∀ e ∈ firstOccurrences log, e.command.WellFormed := fun e he =>
      hw e ((executed_sublist log).subset (executed_eq_firstOccurrences log ▸ he))
    rw [dataAfter]
    revert hwf
    generalize firstOccurrences log = entries
    generalize (fun _ => none : Bytes → Option Bytes) = data
    intro hwf
    induction entries generalizing data with
    | nil => rfl
    | cons e entries ih =>
      rw [List.foldl_cons, List.foldl_cons, execute_fst (hwf e (by simp))]
      exact ih _ fun e he => hwf e (by simp [he])
  · intro id p hid hp
    have hprior : (applyAll log).1.prior command = some p := by
      rw [prior, hid, Option.bind_some, hp]
    rw [hindex, ← hlast]
    exact apply_of_prior hcommand hprior term
  · intro hp
    rw [hindex, ← hlast, apply_of_fresh hcommand hp]
    exact execute_snd hcommand _

/-- A put, the same put again, a conflicting delete, and a delete without a request. -/
def retriedLog : List LogEntry :=
  let id : RequestId := ⟨List.replicate 16 1, rfl⟩
  [⟨1, 1, ⟨.put, [1], [7], some id⟩⟩, ⟨2, 1, ⟨.put, [1], [7], some id⟩⟩,
    ⟨3, 2, ⟨.delete, [1], [], some id⟩⟩, ⟨4, 2, ⟨.delete, [2], [], none⟩⟩]

theorem refines_deduplication_retried :
    (applyAll retriedLog).1.data =
        (firstOccurrences retriedLog).foldl (fun data e => effect data e.command) (fun _ => none) ∧
      (applyAll retriedLog).2 = [.applied, .applied, .requestConflict, .keyNotFound] := by
  have hi : ∀ {i e}, retriedLog[i]? = some e → e.index = i + 1 := by
    intro i e he
    rcases i with _ | _ | _ | _ | i
    · exact Option.some.inj he ▸ rfl
    · exact Option.some.inj he ▸ rfl
    · exact Option.some.inj he ▸ rfl
    · exact Option.some.inj he ▸ rfl
    · cases he
  exact ⟨(@refines_deduplication retriedLog (by decide) hi).2.2.1, by decide +kernel⟩

end KvStateMachine

end DistributedKV
