import DistributedKV.Raft.NodeTracking
import DistributedKV.Raft.Repair

/-!
# Elections with storage that works

What a node does in an election when no write of it fails: it stands in the next term, and it
answers a candidate from the larger of their terms. Of two logs one is up to date for the other, so
of two nodes one gets the other's vote.
-/

namespace DistributedKV

/-! ## The term and vote store -/

namespace PersistentMetadata.Working

variable {metadata : PersistentMetadata}

theorem persist (h : metadata.Working) {next : RaftMetadata}
    (hvalid : PersistentMetadata.invalidState next = false) :
    ∃ metadata', metadata.persist next = (metadata', .persisted) ∧ metadata'.Working ∧
      metadata'.state = next := by
  rw [PersistentMetadata.persist, hvalid, h.outcomes]
  exact ⟨_, rfl, ⟨h.ioFailed, rfl⟩, rfl⟩

theorem enter (h : metadata.Working) {term : ℕ} (ht : metadata.state.currentTerm < term) :
    ∃ metadata', metadata.advanceTerm term = (metadata', .persisted) ∧ metadata'.Working ∧
      metadata'.state = ⟨term, none⟩ := by
  rw [PersistentMetadata.advanceTerm, h.ioFailed, if_neg Bool.false_ne_true,
    if_neg (not_lt.2 ht.le), if_neg ht.ne']
  exact h.persist (by simp [PersistentMetadata.invalidState])

theorem castVote (h : metadata.Working) (h0 : metadata.state.currentTerm ≠ 0)
    (hv : metadata.state.votedFor = none) (candidate : ℕ) :
    ∃ metadata', metadata.voteFor candidate = (metadata', .persisted) ∧ metadata'.Working ∧
      metadata'.state = ⟨metadata.state.currentTerm, some candidate⟩ := by
  rw [PersistentMetadata.voteFor, h.ioFailed, if_neg Bool.false_ne_true, if_neg h0, hv,
    if_neg (by simp), if_neg (by simp)]
  exact h.persist (by simp [PersistentMetadata.invalidState, h0])

end PersistentMetadata.Working

/-- An answer to a candidate: the record is in the larger of the two terms, and a candidate of a
later term with a log that is up to date gets the vote. -/
theorem handleRequestVote_answers {metadata : PersistentMetadata} (h : metadata.Working)
    (log : PersistentLog) (request : RequestVote) :
    ∃ metadata' granted, handleRequestVote metadata log request =
        (metadata', .ok ⟨metadata'.state.currentTerm, granted⟩) ∧ metadata'.Working ∧
      metadata'.state.currentTerm = max metadata.state.currentTerm request.term ∧
      (metadata.state.currentTerm < request.term → candidateLogIsUpToDate request log = true →
        granted = true) := by
  rcases Nat.lt_trichotomy metadata.state.currentTerm request.term with hlt | heq | hgt
  · obtain ⟨entered, hadvance, hw, hstate⟩ := h.enter hlt
    have hmax : max metadata.state.currentTerm request.term = request.term := max_eq_right hlt.le
    have hterm : entered.state.currentTerm = request.term := by rw [hstate]
    have hcurrent : ¬ (request.term = 0 ∨ request.term < entered.state.currentTerm) := by omega
    rw [handleRequestVote, hadvance, hmax]
    dsimp only
    rw [if_neg hcurrent]
    by_cases hlog : candidateLogIsUpToDate request log = false
    · rw [if_pos (Or.inr hlog)]
      exact ⟨entered, false, rfl, hw, hterm, fun _ hup => by simp [hlog] at hup⟩
    · have hfree : ¬ ((entered.state.votedFor.isSome ∧
          entered.state.votedFor ≠ some request.candidateId) ∨
            candidateLogIsUpToDate request log = false) := by
        simp [hstate, hlog]
      obtain ⟨voted, hvote, hw', hstate'⟩ := hw.castVote (by omega) (by rw [hstate])
        request.candidateId
      rw [if_neg hfree, hvote]
      exact ⟨voted, true, rfl, hw', by rw [hstate', hterm], fun _ _ => rfl⟩
  · have hadvance : metadata.advanceTerm request.term = (metadata, .unchanged) := by
      simp [PersistentMetadata.advanceTerm, h.ioFailed, heq]
    rw [handleRequestVote, hadvance, ← heq, max_self]
    dsimp only
    split_ifs with h0 hno
    · exact ⟨metadata, false, rfl, h, rfl, fun hlt => absurd hlt (lt_irrefl _)⟩
    · exact ⟨metadata, false, rfl, h, rfl, fun hlt => absurd hlt (lt_irrefl _)⟩
    · rw [not_or] at h0 hno
      cases hv : metadata.state.votedFor with
      | none =>
        obtain ⟨voted, hvote, hw', hstate'⟩ := h.castVote h0.1 hv request.candidateId
        rw [hvote]
        exact ⟨voted, true, rfl, hw', by rw [hstate'], fun _ _ => rfl⟩
      | some candidate =>
        have hsame : candidate = request.candidateId := by simpa [hv] using hno.1
        have hvote : metadata.voteFor request.candidateId = (metadata, .unchanged) := by
          simp [PersistentMetadata.voteFor, h.ioFailed, h0.1, hv, hsame]
        rw [hvote]
        exact ⟨metadata, true, rfl, h, rfl, fun _ _ => rfl⟩
  · have hadvance : metadata.advanceTerm request.term = (metadata, .staleTerm) := by
      simp [PersistentMetadata.advanceTerm, h.ioFailed, hgt]
    rw [handleRequestVote, hadvance, max_eq_left hgt.le]
    dsimp only
    rw [if_pos (Or.inr hgt)]
    exact ⟨metadata, false, rfl, h, rfl, fun hlt => absurd hlt (not_lt.2 hgt.le)⟩

/-- Of two logs, one is up to date for the other. -/
theorem candidateLogIsUpToDate_total (log log' : PersistentLog) :
    (∀ term n, candidateLogIsUpToDate ⟨term, n, log.lastIndex, log.lastTerm⟩ log' = true) ∨
      ∀ term n, candidateLogIsUpToDate ⟨term, n, log'.lastIndex, log'.lastTerm⟩ log = true := by
  simp only [candidateLogIsUpToDate]
  rcases Nat.lt_trichotomy log.lastTerm log'.lastTerm with hlt | heq | hgt
  · refine Or.inr fun _ _ => ?_
    rw [if_pos hlt.ne']
    simpa using hlt
  · refine (Nat.le_total log'.lastIndex log.lastIndex).imp (fun hle _ _ => ?_) fun hle _ _ => ?_
    · rw [if_neg (not_not.2 heq)]
      simpa using hle
    · rw [if_neg (not_not.2 heq.symm)]
      simpa using hle
  · refine Or.inl fun _ _ => ?_
    rw [if_pos hgt.ne']
    simpa using hgt

theorem PersistentLog.lastIndex_of_append {log log' : PersistentLog} {e : LogEntry}
    (h : log'.log = log.log ++ [e]) : log'.lastIndex = log.lastIndex + 1 := by
  rw [← length_log, h, List.length_append, length_log]
  rfl

namespace RaftNode

variable {node : RaftNode}

theorem position_cases : ∀ i : Fin 2, i = 0 ∨ i = 1 :=
  Fin.forall_fin_two.2 ⟨Or.inl rfl, Or.inr rfl⟩

theorem isPeer_peerIds (node : RaftNode) (i : Fin 2) : node.isPeer (node.peerIds i) = true := by
  obtain rfl | rfl := position_cases i
  · simp [isPeer]
  · simp [isPeer]

/-- The stores of a node take writes, and none will fail. -/
structure Working (node : RaftNode) : Prop where
  metadata : node.metadata.Working
  log : node.log.Working

/-- Storage that works has no failures ahead. -/
theorem Working.withFaults (h : node.Working) : node.withFaults {} = node := by
  have hm : ({ node.metadata with outcomes := [] } : PersistentMetadata) = node.metadata := by
    rw [← h.metadata.outcomes]
  have hl : ({ node.log with outcomes := [] } : PersistentLog) = node.log := by
    rw [← h.log.outcomes]
  rw [RaftNode.withFaults, hm, hl]

/-- A node that has been opened and has not led or followed since. -/
structure Rests (node : RaftNode) : Prop where
  running : node.stopped = false
  working : node.Working
  packed : node.log.Packed
  idle : node.dropLeadership = node
  role : node.election.cachedRole = .follower
  commitIndex : node.commitIndex = 0

theorem Rests.setMetadata (h : node.Rests) {metadata : PersistentMetadata}
    (hw : metadata.Working) : Rests { node with metadata } :=
  ⟨h.running, ⟨hw, h.working.log⟩, h.packed,
    congrArg (fun node : RaftNode => { node with metadata }) h.idle, h.role, h.commitIndex⟩

theorem openFrom_rests {selfId : ℕ} {peerIds : Fin 2 → ℕ} {disk : Disk}
    (h : openFrom selfId peerIds disk = some node) :
    node.Rests ∧ node.term = disk.metadata.currentTerm ∧ node.log.log = disk.log := by
  obtain rfl := openFrom_eq h
  exact ⟨⟨rfl, ⟨⟨rfl, rfl⟩, ⟨rfl, rfl⟩⟩, PersistentLog.packed_openFrom _, rfl, rfl, rfl⟩, rfl,
    PersistentLog.log_openFrom _⟩

/-! ## Standing and answering -/

/-- The node has become a candidate in the next term, and its peers have not replied yet. -/
structure Stands (node node' : RaftNode) : Prop where
  running : node'.stopped = false
  working : node'.Working
  log : node'.log = node.log
  commitIndex : node'.commitIndex = node.commitIndex
  idle : node'.dropLeadership = node'
  role : node'.election.cachedRole = .candidate
  electionTerm : node'.election.electionTerm = node.term + 1
  replied : node'.election.replied = fun _ => false
  term : node'.term = node.term + 1
  vote : node'.metadata.state.votedFor = some node.selfId

theorem mem_broadcast {peerId : ℕ} (h : node.isPeer peerId = true) (message : RaftMessage) :
    ⟨peerId, message⟩ ∈ node.broadcast message := by
  rw [isPeer, decide_eq_true_eq] at h
  rcases h with rfl | rfl
  · exact List.mem_cons_self
  · exact List.mem_cons_of_mem _ List.mem_cons_self

/-- A follower whose election timer fires asks both peers for their votes in the next term. -/
theorem onElectionTimeout_stands (h : node.Invariant) (hs : node.stopped = false)
    (hw : node.Working) (hrole : node.election.cachedRole = .follower)
    (ht : node.term < uint64Max) :
    ∃ node' actions, node.onElectionTimeout = (node', .ok actions) ∧ node.Stands node' ∧
      actions.messages = node.broadcast (.requestVote
        ⟨node.term + 1, node.selfId, node.lastIndex, node.log.lastTerm⟩) := by
  obtain ⟨entered, hadvance, hw', hstate⟩ := hw.metadata.enter (Nat.lt_succ_self node.term)
  obtain ⟨voted, hvote, hw'', hstate'⟩ := hw'.castVote (by rw [hstate]; simp) (by rw [hstate])
    node.selfId
  rw [hstate] at hstate'
  have hstart : node.election.startElection node.metadata node.log =
      ({ node.election with
          cachedRole := .candidate
          electionTerm := node.term + 1
          replied := fun _ => false
          grantedVotes := 1 }, voted,
        .ok ⟨node.term + 1, node.selfId, node.lastIndex, node.log.lastTerm⟩) := by
    rw [RaftElection.startElection, if_neg (by simp [h.usable])]
    have hrefresh : node.election.refreshRoleFromMetadata node.metadata =
        (node.election, false) := by
      simp [RaftElection.refreshRoleFromMetadata, hrole]
    have hmax : node.metadata.state.currentTerm ≠ uint64Max := Nat.ne_of_lt ht
    have hadvance' : node.metadata.advanceTerm (node.metadata.state.currentTerm + 1) =
      (entered, .persisted) := hadvance
    rw [hrefresh]
    dsimp only
    rw [if_neg (by simp [hrole]), if_neg hmax, hadvance']
    dsimp only
    rw [h.selfId, hvote]
    rfl
  rw [onElectionTimeout, if_neg (by simp [hs]), hstart]
  refine ⟨_, _, rfl, ⟨hs, ⟨hw'', hw.log⟩, rfl, rfl, rfl, rfl, rfl, rfl, ?_, ?_⟩, rfl⟩
  · exact congrArg RaftMetadata.currentTerm hstate'
  · exact congrArg RaftMetadata.votedFor hstate'

/-- A node without leadership answers a candidate and stays as it is otherwise. -/
theorem onRequestVote_answers (hs : node.stopped = false) (hw : node.Working)
    (hidle : node.dropLeadership = node) (request : RequestVote)
    (hpeer : node.isPeer request.candidateId = true) :
    ∃ metadata granted actions, node.onRequestVote request.candidateId request =
        ({ node with metadata }, .ok actions) ∧ metadata.Working ∧
      actions.messages =
        [⟨request.candidateId, .requestVoteReply ⟨metadata.state.currentTerm, granted⟩⟩] ∧
      metadata.state.currentTerm = max node.term request.term ∧
      (node.term < request.term → candidateLogIsUpToDate request node.log = true →
        granted = true) := by
  obtain ⟨metadata, granted, hhandle, hw', hterm, hgranted⟩ :=
    handleRequestVote_answers hw.metadata node.log request
  have hsame : { node with metadata }.dropLeadership = { node with metadata } := by
    have hdrop : { node with metadata }.dropLeadership = { node.dropLeadership with metadata } :=
      rfl
    rw [hdrop, hidle]
  rw [onRequestVote, if_neg (by simp [hs]), if_neg (by simp [hpeer]), if_neg (not_not.2 rfl),
    hhandle]
  dsimp only
  rw [hsame, ite_self]
  exact ⟨metadata, granted, _, rfl, hw', rfl, hterm, hgranted⟩

end RaftNode

end DistributedKV
