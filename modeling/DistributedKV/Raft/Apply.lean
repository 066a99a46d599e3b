import DistributedKV.Store.KvStateMachine
import DistributedKV.Store.PersistentLog

/-!
# Applying the committed prefix

`raft_apply.cpp`.
-/

namespace DistributedKV

structure AppliedLogEntry where
  index : ℕ
  result : ApplyResult
  deriving DecidableEq

inductive ApplyCommittedError
  | commitBeyondLog
  | stateAheadOfCommit
  | missingEntry
  | invalidCommand
  | unexpectedIndex
  deriving DecidableEq, Repr

/-- The loop of `apply_committed`. A round that does not return moves `last_applied` by one, so
the loop makes `commit_index - last_applied` rounds: the first argument. -/
def applyLoop (log : PersistentLog) : ℕ → KvStateMachine → List AppliedLogEntry →
    KvStateMachine × Except ApplyCommittedError (List AppliedLogEntry)
  | 0, state, applied => (state, .ok applied)
  | rounds + 1, state, applied =>
    let index := state.lastApplied + 1
    match log.entryAt index with
    | none => (state, .error .missingEntry)
    | some entry =>
      match state.apply index entry.command entry.term with
      | (state, .invalidCommand) => (state, .error .invalidCommand)
      | (state, .unexpectedIndex) => (state, .error .unexpectedIndex)
      | (state, result) => applyLoop log rounds state (applied ++ [⟨index, result⟩])

def applyCommitted (log : PersistentLog) (state : KvStateMachine) (commitIndex : ℕ) :
    KvStateMachine × Except ApplyCommittedError (List AppliedLogEntry) :=
  if log.lastIndex < commitIndex then (state, .error .commitBeyondLog)
  else if commitIndex < state.lastApplied then (state, .error .stateAheadOfCommit)
  else applyLoop log (commitIndex - state.lastApplied) state []

/-! ## Replay of a prefix -/

theorem applyLoop_eq {log : PersistentLog} (hw : ∀ e ∈ log.log, e.command.WellFormed) (c : ℕ)
    (rounds : ℕ) (applied : List AppliedLogEntry) (h : c + rounds ≤ log.lastIndex) :
    ∃ results, applyLoop log rounds (.replay (log.log.take c)) applied =
        (.replay (log.log.take (c + rounds)), .ok (applied ++ results)) ∧
      results.map AppliedLogEntry.index = List.range' (c + 1) rounds := by
  induction rounds generalizing c applied with
  | zero => exact ⟨[], by simp [applyLoop], rfl⟩
  | succ rounds ih =>
    have hc : c < log.log.length := by
      rw [PersistentLog.length_log]
      omega
    have hwt : ∀ e ∈ log.log.take c, e.command.WellFormed :=
      fun e he => hw e (List.mem_of_mem_take he)
    have hlast : (KvStateMachine.replay (log.log.take c)).lastApplied = c := by
      rw [KvStateMachine.lastApplied_replay hwt, List.length_take]
      omega
    have hentry : log.entryAt (c + 1) = some log.log[c] := by
      rw [PersistentLog.entryAt_succ, List.getElem?_eq_getElem hc]
    have hwe : log.log[c].command.WellFormed := hw _ (List.getElem_mem hc)
    have hnext : KvStateMachine.replay (log.log.take (c + 1)) =
        (KvStateMachine.replay (log.log.take c)).advance log.log[c] := by
      rw [List.take_succ_eq_append_getElem hc, KvStateMachine.replay_concat]
    have hne := KvStateMachine.apply_ne_error hwe (fun id p hp =>
      KvStateMachine.result_of_replay hwt hp) log.log[c].term
    rw [KvStateMachine.advance, hlast] at hnext
    rw [hlast] at hne
    simp only [applyLoop, hlast, hentry]
    cases hx : (KvStateMachine.replay (log.log.take c)).apply (c + 1) log.log[c].command
        log.log[c].term with
    | mk state result =>
      rw [hx] at hne hnext
      obtain ⟨results, h1, h2⟩ := ih (c + 1) (applied ++ [⟨c + 1, result⟩]) (by omega)
      refine ⟨⟨c + 1, result⟩ :: results, ?_, ?_⟩
      · rw [hnext, List.append_assoc, show c + 1 + rounds = c + (rounds + 1) by omega] at h1
        cases result with
        | invalidCommand => exact absurd rfl hne.1
        | unexpectedIndex => exact absurd rfl hne.2
        | applied | keyNotFound | requestConflict => exact h1
      · rw [List.map_cons, h2, List.range'_succ]

/-- Applying up to a commit index within the log succeeds and replays the log up to there. -/
theorem applyCommitted_eq {log : PersistentLog} (hw : ∀ e ∈ log.log, e.command.WellFormed)
    {c commitIndex : ℕ} (hc : c ≤ commitIndex) (hl : commitIndex ≤ log.lastIndex) :
    ∃ results, applyCommitted log (.replay (log.log.take c)) commitIndex =
        (.replay (log.log.take commitIndex), .ok results) ∧
      results.map AppliedLogEntry.index = List.range' (c + 1) (commitIndex - c) := by
  have hlast : (KvStateMachine.replay (log.log.take c)).lastApplied = c := by
    rw [KvStateMachine.lastApplied_replay fun e he => hw e (List.mem_of_mem_take he),
      List.length_take, PersistentLog.length_log]
    omega
  obtain ⟨results, h1, h2⟩ := applyLoop_eq hw c (commitIndex - c) [] (by omega)
  refine ⟨results, ?_, h2⟩
  rw [applyCommitted, if_neg (by omega), hlast, if_neg (by omega), h1, List.nil_append,
    show c + (commitIndex - c) = commitIndex by omega]

/-! ## Incremental application -/

/-- `apply_committed` with one commit index after the other. -/
def applyEach (log : PersistentLog) : KvStateMachine → List ℕ →
    KvStateMachine × Except ApplyCommittedError (List AppliedLogEntry)
  | state, [] => (state, .ok [])
  | state, commitIndex :: commits =>
    match applyCommitted log state commitIndex with
    | (state, .error e) => (state, .error e)
    | (state, .ok applied) =>
      match applyEach log state commits with
      | (state, .error e) => (state, .error e)
      | (state, .ok rest) => (state, .ok (applied ++ rest))

/-- The loop only adds to the list that it is given. -/
theorem applyLoop_acc (log : PersistentLog) (rounds : ℕ) (state : KvStateMachine)
    (applied : List AppliedLogEntry) : applyLoop log rounds state applied =
      ((applyLoop log rounds state []).1,
       (applyLoop log rounds state []).2.map (applied ++ ·)) := by
  induction rounds generalizing state applied with
  | zero => simp [applyLoop, Except.map]
  | succ rounds ih =>
    unfold applyLoop
    dsimp only
    cases log.entryAt (state.lastApplied + 1) with
    | none => rfl
    | some entry =>
      dsimp only
      generalize state.apply (state.lastApplied + 1) entry.command entry.term = r
      obtain ⟨state', result⟩ := r
      cases result with
      | invalidCommand | unexpectedIndex => rfl
      | applied | keyNotFound | requestConflict =>
        dsimp only
        rw [ih, ih _ ([] ++ _), List.nil_append]
        cases (applyLoop log rounds state' []).2 <;> simp [Except.map]

/-- The rounds of the loop can be made in two parts. -/
theorem applyLoop_add (log : PersistentLog) (m n : ℕ) (state : KvStateMachine)
    (applied : List AppliedLogEntry) : applyLoop log (m + n) state applied =
      match applyLoop log m state applied with
      | (state, .ok applied) => applyLoop log n state applied
      | (state, .error e) => (state, .error e) := by
  induction m generalizing state applied with
  | zero => simp [applyLoop]
  | succ m ih =>
    rw [Nat.succ_add, applyLoop, applyLoop]
    cases log.entryAt (state.lastApplied + 1) with
    | none => rfl
    | some entry =>
      dsimp only
      generalize state.apply (state.lastApplied + 1) entry.command entry.term = r
      obtain ⟨state', result⟩ := r
      cases result with
      | invalidCommand | unexpectedIndex => rfl
      | applied | keyNotFound | requestConflict => exact ih _ _

/-- Applying up to one index and then up to another is applying up to the latter. -/
theorem applyCommitted_trans {log : PersistentLog} (hw : ∀ e ∈ log.log, e.command.WellFormed)
    {c c' commitIndex : ℕ} (hc : c ≤ c') (hc' : c' ≤ commitIndex) (hl : commitIndex ≤ log.lastIndex)
    {results results' : List AppliedLogEntry}
    (h : applyCommitted log (.replay (log.log.take c)) c' =
      (.replay (log.log.take c'), .ok results))
    (h' : applyCommitted log (.replay (log.log.take c')) commitIndex =
      (.replay (log.log.take commitIndex), .ok results')) :
    applyCommitted log (.replay (log.log.take c)) commitIndex =
      (.replay (log.log.take commitIndex), .ok (results ++ results')) := by
  have hlast : ∀ {c : ℕ}, c ≤ commitIndex →
      (KvStateMachine.replay (log.log.take c)).lastApplied = c := fun {c} hle => by
    rw [KvStateMachine.lastApplied_replay fun e he => hw e (List.mem_of_mem_take he),
      List.length_take, PersistentLog.length_log]
    omega
  rw [applyCommitted, if_neg (by omega), hlast (Nat.le_trans hc hc'), if_neg (by omega)] at h
  rw [applyCommitted, if_neg (by omega), hlast hc', if_neg (by omega)] at h'
  rw [applyCommitted, if_neg (by omega), hlast (Nat.le_trans hc hc'), if_neg (by omega),
    show commitIndex - c = (c' - c) + (commitIndex - c') by omega, applyLoop_add, h]
  dsimp only
  rw [applyLoop_acc, h']
  rfl

/-- What a loop does depends on the entries that it reads. -/
theorem applyLoop_congr {log log' : PersistentLog} (rounds : ℕ) (state : KvStateMachine)
    (applied : List AppliedLogEntry) {c : ℕ} (hc : state.lastApplied + rounds ≤ c)
    (h : ∀ i ≤ c, log.entryAt i = log'.entryAt i) :
    applyLoop log rounds state applied = applyLoop log' rounds state applied := by
  induction rounds generalizing state applied with
  | zero => rfl
  | succ rounds ih =>
    unfold applyLoop
    dsimp only
    rw [h _ (by omega)]
    cases log'.entryAt (state.lastApplied + 1) with
    | none => rfl
    | some entry =>
      dsimp only
      have hle := state.lastApplied_apply_le (state.lastApplied + 1) entry.command entry.term
      revert hle
      generalize state.apply (state.lastApplied + 1) entry.command entry.term = r
      obtain ⟨state', result⟩ := r
      intro hle
      dsimp only at hle
      cases result with
      | invalidCommand | unexpectedIndex => rfl
      | applied | keyNotFound | requestConflict => exact ih _ _ (by omega)

/-- One commit index after the other, from a prefix that has been applied. -/
theorem applyEach_eq {log : PersistentLog} (hw : ∀ e ∈ log.log, e.command.WellFormed)
    (commits : List ℕ) {c : ℕ} (hs : (c :: commits).Pairwise (· ≤ ·))
    (hl : ∀ i ∈ c :: commits, i ≤ log.lastIndex) :
    ∃ results, applyEach log (.replay (log.log.take c)) commits =
        (.replay (log.log.take ((c :: commits).getLast (List.cons_ne_nil _ _))), .ok results) ∧
      applyCommitted log (.replay (log.log.take c))
          ((c :: commits).getLast (List.cons_ne_nil _ _)) =
        (.replay (log.log.take ((c :: commits).getLast (List.cons_ne_nil _ _))), .ok results) := by
  induction commits generalizing c with
  | nil =>
    obtain ⟨results, hresults, hindex⟩ := applyCommitted_eq hw (Nat.le_refl c) (hl c (by simp))
    obtain rfl : results = [] := by simpa using congrArg List.length hindex
    exact ⟨[], rfl, hresults⟩
  | cons c' commits ih =>
    obtain ⟨hle, hs⟩ := List.pairwise_cons.1 hs
    obtain ⟨rest, heach, hrest⟩ := ih hs fun i hi => hl i (List.mem_cons_of_mem _ hi)
    have hlast : c' ≤ (c' :: commits).getLast (List.cons_ne_nil _ _) ∧
        (c' :: commits).getLast (List.cons_ne_nil _ _) ≤ log.lastIndex := by
      have hmem := List.getLast_mem (List.cons_ne_nil c' commits)
      refine ⟨?_, hl _ (List.mem_cons_of_mem _ hmem)⟩
      rcases List.mem_cons.1 hmem with heq | hmem
      · exact Nat.le_of_eq heq.symm
      · exact List.rel_of_pairwise_cons hs hmem
    obtain ⟨results, hresults, -⟩ := applyCommitted_eq hw (hle c' (by simp)) (hl c' (by simp))
    refine ⟨results ++ rest, ?_, ?_⟩
    · rw [applyEach, hresults]
      dsimp only
      rw [heach]
      rfl
    · exact applyCommitted_trans hw (hle c' (by simp)) hlast.1 hlast.2 hresults hrest

/-- **Incremental application equals replay.** On a log that the store has accepted,
`apply_committed` with one commit index after the other ends in the same state as one call with the
last index, with the same results together: one for each index from 1 to the last, in order. And
any other store with the same entries up to there, such as that of a restarted process, rebuilds
just that. -/
theorem apply_incremental {log : PersistentLog} (h : log.Built) {commits : List ℕ}
    (hs : commits.Pairwise (· ≤ ·)) (hl : ∀ i ∈ commits, i ≤ log.lastIndex) :
    ∃ state results, applyEach log {} commits = (state, .ok results) ∧
      applyCommitted log {} (commits.getLastD 0) = (state, .ok results) ∧
      state.lastApplied = commits.getLastD 0 ∧
      results.map AppliedLogEntry.index = List.range' 1 (commits.getLastD 0) ∧
      ∀ log' : PersistentLog, log'.Built →
        log'.log.take (commits.getLastD 0) = log.log.take (commits.getLastD 0) →
          applyCommitted log' {} (commits.getLastD 0) = (state, .ok results) := by
  have hw := h.sequential.1.wellFormed
  have hs' : (0 :: commits).Pairwise (· ≤ ·) :=
    List.pairwise_cons.2 ⟨fun _ _ => Nat.zero_le _, hs⟩
  have hl' : ∀ i ∈ 0 :: commits, i ≤ log.lastIndex := fun i hi => by
    rcases List.mem_cons.1 hi with rfl | hi
    · exact Nat.zero_le _
    · exact hl i hi
  obtain ⟨results, heach, hall⟩ := applyEach_eq hw commits hs' hl'
  have hlast := hl' _ (List.getLast_mem (List.cons_ne_nil 0 commits))
  rw [List.getLast_eq_getLastD] at heach hall hlast
  generalize commits.getLastD 0 = last at heach hall hlast
  obtain ⟨results', hresults, hindex⟩ := applyCommitted_eq hw (Nat.zero_le last) hlast
  rw [hall] at hresults
  obtain rfl := Except.ok.inj (Prod.mk.inj hresults).2
  refine ⟨_, results, heach, hall, ?_, hindex, fun log' h' htake => ?_⟩
  · rw [KvStateMachine.lastApplied_replay fun e he => hw e (List.mem_of_mem_take he),
      List.length_take, PersistentLog.length_log, Nat.min_eq_left hlast]
  have hlength := congrArg List.length htake
  rw [List.length_take, List.length_take, PersistentLog.length_log,
    PersistentLog.length_log] at hlength
  have hentries : ∀ i ≤ last, log'.entryAt i = log.entryAt i := fun i hi => by
    rw [PersistentLog.entryAt_eq, PersistentLog.entryAt_eq]
    split_ifs with h0
    · rfl
    · rw [← List.getElem?_take_of_lt (show i - 1 < last by omega), htake,
        List.getElem?_take_of_lt (by omega)]
  rw [List.take_zero, KvStateMachine.replay_nil, applyCommitted, if_neg (Nat.not_lt.2 hlast),
    if_neg (Nat.not_lt_zero _)] at hall
  rw [applyCommitted, if_neg (by omega), if_neg (Nat.not_lt_zero _),
    applyLoop_congr (last - 0) _ [] (show 0 + (last - 0) ≤ last by omega) hentries]
  exact hall

/-- A store that has accepted the entry of an election and a put. -/
def acceptedLog : PersistentLog :=
  (((PersistentLog.openFrom []).append ⟨1, 1, {}⟩).1.append ⟨2, 1, ⟨.put, [1], [7], none⟩⟩).1

theorem apply_incremental_accepted : ∃ state results,
    applyEach acceptedLog {} [1, 1, 2] = (state, .ok results) ∧
      applyCommitted acceptedLog {} 2 = (state, .ok results) ∧ state.lastApplied = 2 := by
  have h : acceptedLog.Built := .append (.append (.opened []) _) _
  have hs : [1, 1, 2].Pairwise (· ≤ ·) := by decide
  obtain ⟨state, results, heach, hall, hlast, -⟩ := apply_incremental h hs (by decide +kernel)
  exact ⟨state, results, heach, hall, hlast⟩

end DistributedKV
