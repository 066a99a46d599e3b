import DistributedKV.Raft.NodeEntries
import DistributedKV.Raft.NodeWrites

/-!
# Which entries a call creates

Entries are copied from requests, except for two: the entry of an election, and that of a proposal.
The node that creates one of these leads the term of the entry, and puts it behind its log.
-/

namespace DistributedKV

/-- A node that becomes a replicator leads. -/
theorem RaftLeaderReplication.create_role {election : RaftElection}
    {metadata : PersistentMetadata} {log : PersistentLog} {commitIndex : ℕ}
    {leader : RaftLeaderReplication}
    (h : RaftLeaderReplication.create election metadata log commitIndex = some leader) :
    election.role metadata = .leader := by
  unfold RaftLeaderReplication.create at h
  dsimp only at h
  split_ifs at h with hbad
  by_contra hne
  exact hbad (Or.inr (Or.inr (Or.inr (Or.inl hne))))

namespace PersistentLog

variable {log log' log'' : PersistentLog} {e x : LogEntry}

/-- What an append that fails may leave on the disk. -/
theorem mem_of_failed (hs : log.Synced) (h : log.Failed (log.log ++ [x]) log')
    (he : e ∈ log'.durable) : e ∈ log.durable ∨ e = x := by
  rw [hs.durable]
  rcases h.durable with hd | hd
  · exact Or.inl (hd ▸ he)
  · rw [hd, List.mem_append, List.mem_singleton] at he
    exact he

/-- What an append that succeeds leaves on the disk. -/
theorem mem_of_appended (hs : log.Synced) (hs' : log'.Synced) (h : log'.log = log.log ++ [x])
    (h' : log'' = log') (he : e ∈ log''.durable) : e ∈ log.durable ∨ e = x := by
  rw [h', hs'.durable, h, ← hs.durable, List.mem_append, List.mem_singleton] at he
  exact he

end PersistentLog

namespace RaftNode

variable {node node' : RaftNode} {c : NodeCall} {e : LogEntry}

/-- The entry is new in the log, and the call comes from an election or a proposal. -/
structure Creates (node : RaftNode) (c : NodeCall) (e : LogEntry) : Prop where
  index : e.index = node.lastIndex + 1
  term : e.term = node.term
  term' : (node.call c).1.term = node.term
  role' : (node.call c).1.role = .leader
  source : (node.role = .candidate ∧ e.command = {} ∧ ∃ peerId reply, c = .voteReply peerId reply) ∨
    node.leader.isSome ∧ c = .propose e.command

theorem queueAppend_same (node : RaftNode) (peerId : ℕ) (actions : RaftNodeActions) :
    ∃ leader, (node.queueAppend peerId actions).1 = { node with leader } := by
  unfold queueAppend
  split
  · exact ⟨node.leader, rfl⟩
  · split <;> exact ⟨_, rfl⟩

/-- Sending requests changes nothing but the replication object. -/
theorem queueAppends_same (node : RaftNode) (peerIds : List ℕ) (actions : RaftNodeActions) :
    ∃ leader, (node.queueAppends peerIds actions).1 = { node with leader } := by
  induction peerIds generalizing node actions with
  | nil => exact ⟨node.leader, rfl⟩
  | cons peerId peerIds ih =>
    obtain ⟨leader, hfirst⟩ := queueAppend_same node peerId actions
    rw [queueAppends]
    revert hfirst
    rcases node.queueAppend peerId actions with ⟨node', _ | actions'⟩
    · exact fun hfirst => ⟨leader, hfirst⟩
    · rintro rfl
      exact ih { node with leader } actions'

theorem same_of_queueAppends {peerIds : List ℕ} {actions : RaftNodeActions}
    {result : Option RaftNodeActions} (h : node.queueAppends peerIds actions = (node', result)) :
    node'.log = node.log ∧ node'.term = node.term ∧ node'.role = node.role := by
  obtain ⟨leader, hsame⟩ := queueAppends_same node peerIds actions
  obtain rfl : node' = { node with leader } := by rwa [h] at hsame
  exact ⟨rfl, rfl, rfl⟩

theorem creates_of_onVoteReply (h : node.Invariant) (hs : node.stopped = false) {peerId : ℕ}
    {reply : RequestVoteReply} (he : e ∈ (node.onVoteReply peerId reply).1.log.durable) :
    e ∈ node.log.durable ∨ node.Creates (.voteReply peerId reply) e := by
  -- what follows for the new entry from what is left of the node
  have hcreates : ∀ {leader : RaftLeaderReplication}, leader.term = node.term →
      node.role = .candidate → (node.onVoteReply peerId reply).1.term = node.term →
      (node.onVoteReply peerId reply).1.role = .leader →
      e = ⟨node.log.lastIndex + 1, leader.term, {}⟩ →
        node.Creates (.voteReply peerId reply) e := by
    rintro leader hterm hcandidate hterm' hrole rfl
    exact ⟨rfl, hterm, hterm', hrole, Or.inl ⟨hcandidate, rfl, _, _, rfl⟩⟩
  revert hcreates he
  rw [onVoteReply, if_neg (by simp [hs])]
  split_ifs
  · exact fun he _ => Or.inl he
  have hend := RaftElection.handleVoteReply_rule peerId reply (A := fun _ => True) h.usable
    h.metadata trivial h.votes fun _ => trivial
  revert hend
  generalize node.election.handleVoteReply node.metadata peerId reply = r
  rintro (⟨-⟩ | ⟨m, -, -⟩ | ⟨e, -, m, -, -⟩ | ⟨replied, -⟩ | ⟨replied, votes, hcand, -, -, -⟩)
  · exact fun he _ => Or.inl he
  · exact fun he _ => Or.inl he
  · exact fun he _ => Or.inl he
  · exact fun he _ => Or.inl he
  dsimp only
  split
  · exact fun he _ => Or.inl he
  next leader hcreate =>
  have hterm : leader.term = node.term := by
    rw [RaftLeaderReplication.create_eq_some hcreate]
    rfl
  have hrole := RaftLeaderReplication.create_role hcreate
  generalize ({ node.election with replied, grantedVotes := votes, cachedRole := .leader } :
    RaftElection) = election at hrole
  have happ := leader.appendCommand_rule election node.metadata h.logSynced {}
  revert happ
  generalize leader.appendCommand election node.metadata node.log {} = r
  rintro (⟨e', -, -⟩ | ⟨log', -, -, hfailed⟩ | ⟨log', hsynced, -, -, hlog⟩)
  · exact fun he _ => Or.inl he
  · intro he hcreates
    exact (PersistentLog.mem_of_failed h.logSynced hfailed he).imp_right (hcreates hterm hcand rfl hrole)
  · dsimp only
    generalize hq : queueAppends _ _ _ = r
    obtain ⟨node', result⟩ := r
    obtain ⟨hlog', hterm', hrole'⟩ := same_of_queueAppends hq
    have hlast := PersistentLog.mem_of_appended (e := e) h.logSynced hsynced hlog hlog'
    intro he hcreates
    cases result with
    | none | some =>
      exact (hlast he).imp_right (hcreates hterm hcand hterm' (hrole'.trans hrole))

theorem creates_of_propose (h : node.Invariant) (hs : node.stopped = false) {command : Command}
    (he : e ∈ (node.propose command).1.log.durable) :
    e ∈ node.log.durable ∨ node.Creates (.propose command) e := by
  cases hl : node.leader with
  | none =>
    rw [propose, if_neg (by simp [hs]), hl] at he
    exact Or.inl he
  | some leader =>
  obtain ⟨-, hrole, hterm, -, -⟩ := h.leader_facts hl
  have hcreates : (node.propose command).1.term = node.term →
      (node.propose command).1.role = node.role →
      e = ⟨node.log.lastIndex + 1, leader.term, command⟩ →
        node.Creates (.propose command) e := by
    rintro hterm' hrole' rfl
    exact ⟨rfl, hterm, hterm', hrole'.trans hrole, Or.inr ⟨by simp [hl], rfl⟩⟩
  revert hcreates he
  rw [propose, if_neg (by simp [hs]), hl]
  dsimp only
  rw [if_neg (by simp [h.active hl])]
  split_ifs
  · exact fun he _ => Or.inl he
  rw [appendAsLeader, if_neg (by simp [hs]), hl]
  dsimp only
  rw [if_neg (by simp [h.active hl])]
  have happ := leader.appendCommand_rule node.election node.metadata h.logSynced command
  revert happ
  generalize leader.appendCommand node.election node.metadata node.log command = r
  rintro (⟨e', -, -⟩ | ⟨log', -, -, hfailed⟩ | ⟨log', hsynced, -, -, hlog⟩)
  · cases e' <;> exact fun he _ => Or.inl he
  · intro he hcreates
    exact (PersistentLog.mem_of_failed h.logSynced hfailed he).imp_right (hcreates rfl rfl)
  · dsimp only
    generalize hq : queueAppends _ _ _ = r
    obtain ⟨node', result⟩ := r
    obtain ⟨hlog', hterm', hrole'⟩ := same_of_queueAppends hq
    have hlast := PersistentLog.mem_of_appended (e := e) h.logSynced hsynced hlog hlog'
    intro he hcreates
    cases result with
    | none | some => exact (hlast he).imp_right (hcreates hterm' hrole')

/-- **What a call creates**: an entry on the disk after a call was there before, or it comes from
the request of the call, or the call has created it. -/
theorem creates_of_call (h : node.Invariant) (hs : node.stopped = false)
    (he : e ∈ (node.call c).1.log.durable) : e ∈ node.log.durable ∨
      (∃ peerId request, c = .appendEntries peerId request ∧ e ∈ request.entries) ∨
        node.Creates c e := by
  cases c with
  | voteReply peerId reply => exact (creates_of_onVoteReply h hs he).imp_right Or.inr
  | propose command => exact (creates_of_propose h hs he).imp_right Or.inr
  | appendEntries peerId request =>
    exact (mem_durable_call he).imp_right fun he => Or.inl ⟨peerId, request, rfl, he⟩
  | electionTimeout | heartbeatTimeout | requestVote | appendReply | readBarrier =>
    exact (mem_durable_call he).imp_right False.elim

end RaftNode

end DistributedKV
