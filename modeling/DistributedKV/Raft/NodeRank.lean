import DistributedKV.Foundations.Settling
import DistributedKV.Raft.NodeEntries
import DistributedKV.Raft.NodeReads
import Mathlib.Algebra.Order.Group.Nat
import Mathlib.Algebra.Order.Group.Synonym
import Mathlib.Tactic.Ring

/-!
# What a node has left to do

The rank of a node: whether it may still win its election, and as a leader how far its commit index
and its peers are behind. A message from a peer never raises the rank, and where it leaves the rank
as it is, the answer is lighter than the message.
-/

namespace DistributedKV

/-- What the progress of a peer satisfies on a leader whose log has `last` entries. -/
structure PeerBounds (last : ℕ) (peer : PeerState) : Prop where
  match_lt : peer.progress.matchIndex < peer.progress.nextIndex
  next_le : peer.progress.nextIndex ≤ last + 1
  pending : ∀ {request}, peer.pending = some request →
    request.prevLogIndex + 1 = peer.progress.nextIndex ∧
      request.prevLogIndex + request.entries.length ≤ last

namespace PeerState

/-- The pending request carries nothing although there is something to send by now. -/
def outdated (last : ℕ) (peer : PeerState) : Bool :=
  peer.pending.any (fun request => request.entries.isEmpty) ∧ peer.progress.nextIndex ≤ last

/-- How far a peer is behind a log of `last` entries. -/
def remaining (last : ℕ) (peer : PeerState) : ℕ :=
  (last - peer.progress.matchIndex) * (last + 1) + peer.progress.nextIndex +
    (peer.outdated last).toNat

@[simp] theorem outdated_none (last id : ℕ) (progress : PeerProgress) :
    outdated last ⟨id, progress, none⟩ = false := rfl

end PeerState

namespace RaftLeaderReplication

variable {leader leader' : RaftLeaderReplication} {election : RaftElection}
  {metadata : PersistentMetadata} {log : PersistentLog} {commitIndex peerId last : ℕ}

def remaining (last : ℕ) (leader : RaftLeaderReplication) : ℕ :=
  (leader.peers 0).remaining last + (leader.peers 1).remaining last

theorem remaining_setPeer (leader : RaftLeaderReplication) (last : ℕ) (i : Fin 2)
    (peer : PeerState) :
    (leader.setPeer i peer).remaining last + (leader.peers i).remaining last =
      leader.remaining last + peer.remaining last := by
  unfold remaining
  rcases Fin.exists_fin_two.1 ⟨i, rfl⟩ with rfl | rfl
  · rw [setPeer_self, setPeer_of_ne (by decide)]
    omega
  · rw [setPeer_self, setPeer_of_ne (by decide)]
    omega

theorem remaining_setPeer_lt {i : Fin 2} {peer : PeerState}
    (h : peer.remaining last < (leader.peers i).remaining last) :
    (leader.setPeer i peer).remaining last < leader.remaining last := by
  have := leader.remaining_setPeer last i peer
  omega

theorem remaining_setPeer_le {i : Fin 2} {peer : PeerState}
    (h : peer.remaining last ≤ (leader.peers i).remaining last) :
    (leader.setPeer i peer).remaining last ≤ leader.remaining last := by
  have := leader.remaining_setPeer last i peer
  omega

/-- A request that the leader builds is up to date. -/
theorem MakeRequestEnd.remaining {request : AppendEntries}
    (h : leader.MakeRequestEnd election metadata log commitIndex peerId 4 (leader', .ok request)) :
    leader'.remaining log.lastIndex = leader.remaining log.lastIndex := by
  cases h with
  | pending => rfl
  | fresh i hi hp k hk hl =>
    have hout : PeerState.outdated log.lastIndex { leader.peers i with
        pending := some (leader.requestFrom log.log commitIndex k 4) } =
        (leader.peers i).outdated log.lastIndex := by
      simp only [PeerState.outdated, hp, hk, Option.any_some, Option.any_none, requestFrom,
        List.isEmpty_iff, List.take_eq_nil_iff, List.drop_eq_nil_iff, PersistentLog.length_log,
        decide_eq_decide]
      simp only [Bool.false_eq_true, false_and, iff_false, not_and]
      omega
    have hpeer : PeerState.remaining log.lastIndex { leader.peers i with
        pending := some (leader.requestFrom log.log commitIndex k 4) } =
        (leader.peers i).remaining log.lastIndex := by
      simp only [PeerState.remaining, hout]
    have := leader.remaining_setPeer log.lastIndex i { leader.peers i with
      pending := some (leader.requestFrom log.log commitIndex k 4) }
    omega

/-- After a rejection the peer is asked for one entry more. -/
theorem remaining_rejected {peer : PeerState} {k : ℕ} (hk : peer.progress.nextIndex = k + 1) :
    PeerState.remaining last { peer with
      progress := { peer.progress with nextIndex := k }, pending := none } <
      peer.remaining last := by
  simp only [PeerState.remaining, PeerState.outdated_none, hk, Bool.toNat_false]
  omega

/-- After an acceptance the peer is less behind, unless there was nothing to send. -/
theorem remaining_accepted {peer : PeerState} (h : PeerBounds last peer) {request : AppendEntries}
    (hp : peer.pending = some request) :
    (accepted peer (request.prevLogIndex + request.entries.length)).remaining last ≤
        peer.remaining last ∧
      ((accepted peer (request.prevLogIndex + request.entries.length)).progress.nextIndex ≤ last →
        (accepted peer (request.prevLogIndex + request.entries.length)).remaining last <
          peer.remaining last) := by
  obtain ⟨hprev, hlast⟩ := h.pending hp
  have hlt := h.match_lt
  obtain ⟨m, hm⟩ : ∃ m, m = request.prevLogIndex + request.entries.length := ⟨_, rfl⟩
  rw [← hm] at hlast ⊢
  have hmax : max peer.progress.matchIndex m = m := max_eq_right (by omega)
  simp only [PeerState.remaining, accepted, hmax, PeerState.outdated_none, Bool.toNat_false]
  rcases Nat.eq_or_lt_of_le (by omega : peer.progress.matchIndex ≤ m) with heq | hgt
  · -- the request carried nothing, and told nothing new
    rw [heq]
    refine ⟨by omega, fun hle => ?_⟩
    have hnil : request.entries = [] := List.eq_nil_of_length_eq_zero (by omega)
    have hout : peer.outdated last = true := by
      simp only [PeerState.outdated, hp, Option.any_some, hnil, List.isEmpty_nil, true_and,
        decide_eq_true_eq]
      omega
    rw [hout, Bool.toNat_true]
    omega
  · obtain ⟨d, hd⟩ : ∃ d, last - peer.progress.matchIndex = last - m + (d + 1) :=
      ⟨m - peer.progress.matchIndex - 1, by omega⟩
    have hmul : (last - m + (d + 1)) * (last + 1) =
        (last - m) * (last + 1) + d * (last + 1) + (last + 1) := by ring
    rw [hd, hmul]
    omega

end RaftLeaderReplication

/-- A request weighs as much as its answer and one more. -/
def RaftMessage.weight : RaftMessage → ℕ
  | .requestVote _ | .appendEntries _ => 2
  | .requestVoteReply _ | .appendEntriesReply _ => 1

/-- The weight of the message that a call delivers. -/
def NodeCall.weight : NodeCall → ℕ
  | .requestVote _ _ | .appendEntries _ _ => 2
  | .voteReply _ _ | .appendReply _ _ _ => 1
  | _ => 0

namespace RaftNodeResult

/-- The weight of the messages that a result asks to send. -/
def weight (result : RaftNodeResult) : ℕ := (result.messages.map fun m => m.message.weight).sum

end RaftNodeResult

namespace RaftNode

variable {node node' : RaftNode} {result : RaftNodeResult} {weight : ℕ}

/-- What a leader has left to commit and to send. -/
def remaining (node : RaftNode) : ℕ :=
  match node.leader with
  | none => 0
  | some leader => node.lastIndex - node.commitIndex + leader.remaining node.lastIndex

def rank (node : RaftNode) : ℕ ×ₗ ℕ :=
  toLex (if node.role = .candidate then 1 else 0, node.remaining)

/-- Handling a message of that weight lowers the rank, or leaves it and sends less weight. -/
def Settles (node : RaftNode) (weight : ℕ) (r : RaftNode × RaftNodeResult) : Prop :=
  r.1.rank < node.rank ∨ r.1.rank = node.rank ∧ r.2.weight < weight

/-- The node does not become a candidate. -/
def CandidateFrom (node node' : RaftNode) : Prop :=
  node'.role = .candidate → node.role = .candidate

theorem remaining_of_none (h : node.leader = none) : node.remaining = 0 := by
  rw [remaining, h]

theorem remaining_of_some {leader : RaftLeaderReplication} (h : node.leader = some leader) :
    node.remaining = node.lastIndex - node.commitIndex + leader.remaining node.lastIndex := by
  rw [remaining, h]

theorem facts_of_candidate (h : node.role = .candidate) :
    node.election.cachedRole = .candidate ∧
      node.metadata.state.votedFor = some node.election.selfId := by
  have hne : node.election.role node.metadata ≠ .follower := by
    rw [← role, h]
    simp
  obtain ⟨hrole, -, hvote⟩ := RaftElection.facts_of_role hne
  exact ⟨hrole.symm.trans h, hvote⟩

theorem CandidateFrom.of_eq (he : node'.election = node.election)
    (hm : node'.metadata.state = node.metadata.state) : node.CandidateFrom node' := fun hr =>
  (role_of_eq he hm).1 ▸ hr

theorem CandidateFrom.of_cachedRole (h : node'.election.cachedRole ≠ .candidate) :
    node.CandidateFrom node' := fun hr => absurd (facts_of_candidate hr).1 h

theorem CandidateFrom.of_metadata (he : node'.election = node.election)
    (hm : node'.metadata.state = node.metadata.state ∨
      node'.metadata.state.votedFor ≠ some node.election.selfId) : node.CandidateFrom node' := by
  rcases hm with hm | hm
  · exact .of_eq he hm
  · exact fun hr => absurd (he ▸ (facts_of_candidate hr).2) hm

theorem Settles.of_lt (hc : node.CandidateFrom node') (h : node'.remaining < node.remaining) :
    node.Settles weight (node', result) := by
  left
  rw [rank, rank, Prod.Lex.toLex_lt_toLex]
  by_cases hr : node'.role = .candidate
  · rw [if_pos hr, if_pos (hc hr)]
    exact Or.inr ⟨rfl, h⟩
  · rw [if_neg hr]
    split_ifs
    · exact Or.inl Nat.zero_lt_one
    · exact Or.inr ⟨rfl, h⟩

theorem Settles.of_le (hc : node.CandidateFrom node') (h : node'.remaining ≤ node.remaining)
    (hw : result.weight < weight) : node.Settles weight (node', result) := by
  rcases Nat.lt_or_eq_of_le h with hlt | heq
  · exact .of_lt hc hlt
  · by_cases hr : node'.role = .candidate
    · right
      simp only [rank, hr, hc hr, heq, if_true, true_and, hw]
    · by_cases hr' : node.role = .candidate
      · left
        rw [rank, rank, Prod.Lex.toLex_lt_toLex, if_neg hr, if_pos hr']
        exact Or.inl Nat.zero_lt_one
      · right
        simp only [rank, hr, hr', heq, if_false, true_and, hw]

theorem Settles.of_won (hr : node.role = .candidate) (hc : node'.election.cachedRole = .leader) :
    node.Settles weight (node', result) := by
  left
  have hr' : node'.role ≠ .candidate := fun hr' => by
    rw [(facts_of_candidate hr').1] at hc
    cases hc
  rw [rank, rank, Prod.Lex.toLex_lt_toLex, if_pos hr, if_neg hr']
  exact Or.inl Nat.zero_lt_one

theorem Settles.of_stop (hc : node.CandidateFrom node') (hw : 0 < weight) (e : RaftNodeError) :
    node.Settles weight (node'.stop e) :=
  .of_le hc ((remaining_of_none rfl).le.trans (Nat.zero_le _)) hw

/-- The node keeps its log, its commit index and its replication object, or drops the latter. -/
theorem Settles.of_kept (hc : node.CandidateFrom node')
    (h : node'.leader = none ∨ node'.leader = node.leader ∧ node'.lastIndex = node.lastIndex ∧
      node'.commitIndex = node.commitIndex) (hw : result.weight < weight) :
    node.Settles weight (node', result) := by
  refine .of_le hc ?_ hw
  rcases h with h | ⟨hl, hlast, hcommit⟩
  · exact (remaining_of_none h).le.trans (Nat.zero_le _)
  · rw [remaining, remaining, hl, hlast, hcommit]

/-! ## Messages of an election -/

theorem onRequestVote_settles (h : node.Invariant) (hs : node.stopped = false) (peerId : ℕ)
    (request : RequestVote) : node.Settles 2 (node.onRequestVote peerId request) := by
  rw [onRequestVote, if_neg (by simp [hs])]
  split_ifs with hp hc
  · exact .of_le (.of_eq rfl rfl) (Nat.le_refl _) Nat.two_pos
  · exact .of_le (.of_eq rfl rfl) (Nat.le_refl _) Nat.two_pos
  rw [Bool.not_eq_false] at hp
  rw [not_not] at hc
  have hne : some request.candidateId ≠ some node.election.selfId := fun he =>
    isPeer_ne_self h hp (by rw [← hc, Option.some.inj he, h.selfId])
  have hend := handleRequestVote_rule node.log request (A := fun m => m = node.metadata.state ∨
    m.votedFor ≠ some node.election.selfId) h.metadata (Or.inl rfl) (fun _ => Or.inr (by simp))
    fun _ _ _ => Or.inr hne
  have hlight : ∀ {reply : RequestVoteReply} {reset : Bool}, RaftNodeResult.weight (.ok
      { resetElectionTimer := reset, messages := [⟨peerId, .requestVoteReply reply⟩] }) < 2 :=
    Nat.one_lt_two
  dsimp only
  revert hend
  generalize handleRequestVote node.metadata node.log request = r
  rintro (⟨m, -, hA⟩ | ⟨m, -, -, hA⟩ | ⟨m, hA, -⟩)
  · dsimp only
    split_ifs
    · exact .of_kept (.of_metadata rfl hA) (Or.inl rfl) hlight
    · exact .of_kept (.of_metadata rfl hA) (Or.inr ⟨rfl, rfl, rfl⟩) hlight
  · dsimp only
    split_ifs
    · exact .of_kept (.of_metadata rfl hA) (Or.inl rfl) hlight
    · exact .of_kept (.of_metadata rfl hA) (Or.inr ⟨rfl, rfl, rfl⟩) hlight
  · refine .of_stop ?_ Nat.two_pos _
    exact .of_metadata rfl hA

/-- The end of a handler in which a candidate wins and sends requests. -/
theorem Settles.of_sending {leader : RaftLeaderReplication} (hr : node.role = .candidate)
    (hc : node'.election.cachedRole = .leader) (hl : node'.leader = some leader)
    (peerIds : List ℕ) (actions : RaftNodeActions) :
    node.Settles weight (match node'.queueAppends peerIds actions with
      | (node, none) => node.stop .inconsistentState
      | (node, some actions) => (node, .ok actions)) := by
  have hend := queueAppends_rule (P := fun _ => True) (M := fun _ => True) (B := True) hl trivial
    peerIds (fun _ _ _ => ⟨trivial, trivial⟩) (fun _ _ _ => trivial) actions
  revert hend
  generalize node'.queueAppends peerIds actions = r
  rintro (⟨l, -, -⟩ | ⟨l, -, messages, -⟩)
  · exact .of_won hr hc
  · exact .of_won hr hc

theorem onVoteReply_settles (h : node.Invariant) (hs : node.stopped = false) (peerId : ℕ)
    (reply : RequestVoteReply) : node.Settles 1 (node.onVoteReply peerId reply) := by
  rw [onVoteReply, if_neg (by simp [hs])]
  split_ifs with hp
  · exact .of_le (.of_eq rfl rfl) (Nat.le_refl _) Nat.one_pos
  have hend := RaftElection.handleVoteReply_rule peerId reply (A := fun _ => True) h.usable
    h.metadata trivial h.votes fun _ => trivial
  revert hend
  generalize node.election.handleVoteReply node.metadata peerId reply = r
  rintro (⟨-⟩ | ⟨m, -, -⟩ | ⟨e, he, m, -, -⟩ | ⟨replied, hr⟩ | ⟨replied, votes, hr, -, -, -⟩)
  · exact .of_kept (.of_eq rfl rfl) (Or.inr ⟨rfl, rfl, rfl⟩) Nat.one_pos
  · refine .of_kept (.of_cachedRole ?_) (Or.inl rfl) Nat.one_pos
    simp [dropLeadership, RaftElection.becomeFollower]
  · refine .of_stop ?_ Nat.one_pos _
    exact .of_cachedRole (by simp [he])
  · exact .of_kept (fun _ => hr) (Or.inr ⟨rfl, rfl, rfl⟩) Nat.one_pos
  · -- whatever follows, the election is over
    dsimp only
    split
    · exact .of_won hr rfl
    · next leader hcreate =>
      generalize leader.appendCommand _ node.metadata node.log {} = r
      rcases r with ⟨leader', log', e | index⟩
      · exact .of_won hr rfl
      · exact .of_sending hr rfl rfl _ _

/-! ## Messages of replication -/

theorem onAppendEntries_settles (h : node.Invariant) (hs : node.stopped = false) (peerId : ℕ)
    (request : AppendEntries) : node.Settles 2 (node.onAppendEntries peerId request) := by
  rw [onAppendEntries, if_neg (by simp [hs])]
  split_ifs with hp hl
  · exact .of_le (.of_eq rfl rfl) (Nat.le_refl _) Nat.two_pos
  · exact .of_le (.of_eq rfl rfl) (Nat.le_refl _) Nat.two_pos
  have hend := handleAppendEntries_rule node.log node.commitIndex request
    (A := fun m => node.metadata.state.Succeeds m ∧ (m = node.metadata.state ∨
      m.votedFor ≠ some node.election.selfId)) h.metadata ⟨.refl _, Or.inl rfl⟩
    fun ht => ⟨.enter ht, Or.inr (by simp)⟩
  have hlight : ∀ {reply : AppendEntriesReply} {reset : Bool}, RaftNodeResult.weight (.ok
      { resetElectionTimer := reset, messages := [⟨peerId, .appendEntriesReply reply⟩] }) < 2 :=
    Nat.one_lt_two
  have hinvalid : ∀ {m : PersistentMetadata} {log : PersistentLog}, log.log = node.log.log →
      (m.state = node.metadata.state ∨ m.state.votedFor ≠ some node.election.selfId) →
      node.Settles 2 (if node.term < m.state.currentTerm
        then { node with metadata := m, log }.dropLeadership
        else { node with metadata := m, log }, .error .invalidRequest) := by
    intro m log hlog hA
    split_ifs
    · exact .of_kept (.of_metadata rfl hA) (Or.inl rfl) Nat.two_pos
    · refine .of_kept (.of_metadata rfl hA) (Or.inr ⟨rfl, ?_, rfl⟩) Nat.two_pos
      rw [lastIndex, lastIndex, ← PersistentLog.length_log, ← PersistentLog.length_log, hlog]
  -- the leader of the term is someone else
  have hfollow : ∀ {m : PersistentMetadata}, m.state.currentTerm = request.term →
      request.term ≠ 0 → ∀ {x : RaftNode}, x.election = node.election.observeLeader m request.term →
      node.CandidateFrom x := by
    intro m ht h0 x hx
    refine .of_cachedRole ?_
    rw [hx, RaftElection.cachedRole_observeLeader h0 ht]
    simp
  have happly : ∀ {x : RaftNode} {reply : AppendEntriesReply}, node.CandidateFrom x →
      x.leader = none → node.Settles 2 (match x.applyReady { resetElectionTimer := true } with
        | (node, none) => node.stop .inconsistentState
        | (node, some actions) => (node, .ok { actions with
            messages := actions.messages ++ [⟨peerId, .appendEntriesReply reply⟩] })) := by
    intro x reply hx hnone
    obtain ⟨state, h1, h2⟩ := x.applyReady_shape { resetElectionTimer := true }
    revert h1 h2
    rcases x.applyReady { resetElectionTimer := true } with ⟨x', _ | actions'⟩
    · rintro rfl -
      refine .of_stop ?_ Nat.two_pos _
      exact hx
    · rintro rfl h2
      obtain ⟨applied, rfl⟩ := h2 actions' rfl
      exact .of_kept hx (Or.inl hnone) Nat.one_lt_two
  dsimp only
  revert hend
  generalize handleAppendEntries node.metadata node.log node.commitIndex request = r
  rintro (⟨m, hm, -⟩ | ⟨hstale⟩ | ⟨m, -, hA, -, -⟩ | ⟨m, -, hA, ht, h0, -⟩ |
    ⟨m, -, hA, ht, h0, hv, hp, log, e, hloop⟩ | ⟨m, -, -, ht, h0, -, -, log, -⟩)
  · dsimp only
    split_ifs
    · refine .of_stop ?_ Nat.two_pos _
      exact .of_eq rfl hm
    · refine .of_stop ?_ Nat.two_pos _
      exact .of_eq rfl hm
  · have hf : ¬ (request.term ≠ 0 ∧ request.term = node.metadata.state.currentTerm) := by omega
    simp only [hf, decide_false, Bool.false_eq_true, if_false]
    rw [if_neg (lt_irrefl _)]
    exact .of_kept (.of_eq rfl rfl) (Or.inr ⟨rfl, rfl, rfl⟩) hlight
  · exact hinvalid rfl hA.2
  · simp only [ne_eq, h0, not_false_eq_true, true_and, decide_true, if_true, Bool.false_eq_true,
      if_false]
    split_ifs
    · exact .of_kept (hfollow ht h0 rfl) (Or.inl rfl) hlight
    · exact .of_kept (hfollow ht h0 rfl) (Or.inl rfl) hlight
  · cases e with
    | invalidRequest =>
      exact hinvalid (appendLoop_invalidRequest h (hA.1.term_le.trans ht.le) hv hp hloop) hA.2
    | committedConflict | persistenceError =>
      dsimp only
      split_ifs
      all_goals
        refine .of_stop ?_ Nat.two_pos _
        exact .of_metadata rfl hA.2
  · simp only [ne_eq, h0, not_false_eq_true, true_and, decide_true, if_true]
    split_ifs
    · exact happly (hfollow ht h0 rfl) rfl
    · exact happly (hfollow ht h0 rfl) rfl

/-- Sending to the peers leaves the leader with what it had left to do. -/
theorem queueAppends_remaining {leader : RaftLeaderReplication} (hl : node.leader = some leader)
    (peerIds : List ℕ) (actions : RaftNodeActions) :
    QueueEnd node (fun l => l.remaining node.lastIndex = leader.remaining node.lastIndex)
      (fun _ => True) True actions (node.queueAppends peerIds actions) :=
  queueAppends_rule (P := fun l => l.remaining node.lastIndex = leader.remaining node.lastIndex) hl
    rfl peerIds (fun hP _ hmake => ⟨hmake.remaining.trans hP, trivial⟩) (fun _ _ _ => trivial)
    actions

/-- The end of `on_append_reply` keeps the rank and sends nothing. -/
theorem Settles.completeRead {actions : RaftNodeActions} (hc : node.CandidateFrom node')
    (hw : 0 < weight) (h : node.Settles weight (node', .ok actions))
    (sentRequest : AppendEntries) (reply : AppendEntriesReply) :
    node.Settles weight (node'.completeRead sentRequest reply actions) := by
  rw [RaftNode.completeRead]
  split_ifs
  · split
    · dsimp only
      split_ifs
      · exact .of_stop hc hw _
      · exact h
      · exact h
    · exact h
  · exact h

/-- What following up on an outcome keeps. -/
structure SameRank (node node' : RaftNode) : Prop where
  election : node'.election = node.election
  metadata : node'.metadata = node.metadata
  remaining : node'.remaining = node.remaining

theorem queueAppends_sameRank {leader : RaftLeaderReplication} (hl : node.leader = some leader)
    (peerIds : List ℕ) (actions : RaftNodeActions) :
    SameRank node (node.queueAppends peerIds actions).1 := by
  have hend := queueAppends_remaining hl peerIds actions
  revert hend
  generalize node.queueAppends peerIds actions = r
  have hsame : ∀ {l : RaftLeaderReplication},
      l.remaining node.lastIndex = leader.remaining node.lastIndex →
      SameRank node { node with leader := some l } := fun h => by
    refine ⟨rfl, rfl, ?_⟩
    rw [remaining_of_some hl, ← h]
    rfl
  rintro (⟨l, h, -⟩ | ⟨l, h, messages, -⟩)
  · exact hsame h
  · exact hsame h

theorem followUp_sameRank {leader : RaftLeaderReplication} (hl : node.leader = some leader)
    (peerId : ℕ) (outcome : AppendReplyOutcome) :
    SameRank node (node.followUp peerId outcome).1 := by
  have hone : SameRank node (node.queueAppend peerId {}).1 := by
    rw [← queueAppends_singleton]
    exact queueAppends_sameRank hl _ _
  cases outcome with
  | ignored | steppedDown | inconsistentFollower | persistenceError => exact ⟨rfl, rfl, rfl⟩
  | retry => exact hone
  | recorded =>
    rw [followUp]
    split
    · exact ⟨rfl, rfl, rfl⟩
    · split_ifs
      · exact hone
      · exact ⟨rfl, rfl, rfl⟩
  | committed =>
    rw [followUp]
    obtain ⟨state, h1, -⟩ := node.applyReady_shape {}
    revert h1
    rcases node.applyReady {} with ⟨node₁, _ | actions₁⟩
    · rintro rfl
      exact ⟨rfl, rfl, rfl⟩
    · rintro rfl
      have hall : SameRank node (queueAppends { node with state } node.peers actions₁).1 := by
        have :
          SameRank { node with state } (queueAppends { node with state } node.peers actions₁).1 :=
          @queueAppends_sameRank { node with state } leader hl node.peers actions₁
        exact ⟨this.election, this.metadata, this.remaining⟩
      dsimp only
      revert hall
      have hpeers : peers { node with state } = node.peers := rfl
      rw [hpeers]
      rcases queueAppends { node with state } node.peers actions₁ with ⟨node₂, _ | actions₂⟩
      · exact id
      · intro hall
        dsimp only
        rw [startWaitingReads]
        split_ifs
        · exact hall
        · exact ⟨hall.election, hall.metadata, hall.remaining⟩

/-- Following up sends nothing after a reply that is ignored or that completes a peer's log. -/
theorem followUp_quiet {peerId : ℕ} {outcome : AppendReplyOutcome}
    (h : outcome = .ignored ∨ outcome = .recorded ∧ ∀ progress,
      (node.leader.bind fun leader => leader.progress peerId) = some progress →
        node.lastIndex < progress.nextIndex)
    {actions : RaftNodeActions} (ha : (node.followUp peerId outcome).2 = some actions) :
    actions.messages = [] := by
  rcases h with rfl | ⟨rfl, h⟩
  · obtain rfl := Option.some.inj ha
    rfl
  · rw [followUp] at ha
    split at ha
    · cases ha
    · next progress hp =>
      rw [if_neg (not_le.2 (h progress hp))] at ha
      obtain rfl := Option.some.inj ha
      rfl

/-- Every reply that a leader follows up on by sending something has brought it further. -/
theorem followUp_settles {node₀ : RaftNode} {leader : RaftLeaderReplication} {peerId : ℕ}
    {outcome : AppendReplyOutcome} (hl : node₀.leader = some leader)
    (he : node₀.election = node.election) (hm : node₀.metadata = node.metadata)
    (h : node₀.remaining < node.remaining ∨ node₀.remaining ≤ node.remaining ∧
      (outcome = .ignored ∨ outcome = .recorded ∧ ∀ progress,
        leader.progress peerId = some progress → node₀.lastIndex < progress.nextIndex))
    (sentRequest : AppendEntries) (reply : AppendEntriesReply) :
    node.Settles 1 (match node₀.followUp peerId outcome with
      | (node, none) => node.stop .inconsistentState
      | (node, some actions) => node.completeRead sentRequest reply actions) := by
  have hsame := followUp_sameRank hl peerId outcome
  have hquiet := @followUp_quiet node₀ peerId outcome
  revert hsame hquiet
  rcases node₀.followUp peerId outcome with ⟨node₁, _ | actions⟩
  · intro hsame _
    refine .of_stop ?_ Nat.one_pos _
    exact .of_eq (hsame.election.trans he) (by rw [hsame.metadata, hm])
  · intro hsame hquiet
    have hc : node.CandidateFrom node₁ :=
      .of_eq (hsame.election.trans he) (by rw [hsame.metadata, hm])
    refine .completeRead hc Nat.one_pos ?_ sentRequest reply
    rcases h with hlt | ⟨hle, ho⟩
    · exact .of_lt hc (hsame.remaining ▸ hlt)
    · refine .of_le hc (hsame.remaining ▸ hle) ?_
      have hnil : actions.messages = [] := hquiet (by simpa [hl] using ho) rfl
      rw [RaftNodeResult.weight, RaftNodeResult.messages, hnil]
      exact Nat.one_pos

theorem onAppendReply_settles (h : node.Invariant) (hs : node.stopped = false)
    (hb : ∀ {leader}, node.leader = some leader →
      ∀ i, PeerBounds node.lastIndex (leader.peers i)) (peerId : ℕ)
    (sentRequest : AppendEntries) (reply : AppendEntriesReply) :
    node.Settles 1 (node.onAppendReply peerId sentRequest reply) := by
  rw [onAppendReply, if_neg (by simp [hs])]
  by_cases hpeer : node.isPeer peerId = false
  · rw [if_pos hpeer]
    exact .of_le (.of_eq rfl rfl) (Nat.le_refl _) Nat.one_pos
  rw [if_neg hpeer]
  cases hl : node.leader with
  | none =>
    dsimp only
    split_ifs with ht
    · rcases PersistentMetadata.advanceTerm_cases h.metadata reply.term with
        ⟨hlt, -⟩ | ⟨heq, -⟩ | ⟨-, hup⟩
      · exact absurd ht (not_lt.2 hlt.le)
      · exact absurd ht (not_lt.2 heq.le)
      · revert hup
        generalize node.metadata.advanceTerm reply.term = r
        rintro (⟨m, hm, hn⟩ | ⟨m, hn, -⟩)
        · exact .of_kept (.of_metadata rfl (Or.inr (by simp [dropLeadership, hn]))) (Or.inl rfl)
            Nat.one_pos
        · refine .of_stop ?_ Nat.one_pos _
          exact .of_eq rfl hn
    · exact .of_kept (.of_eq rfl rfl) (Or.inr ⟨rfl, rfl, rfl⟩) Nat.one_pos
  | some leader =>
    have hend := leader.handleReply_rule node.election node.log node.commitIndex peerId sentRequest
      reply (A := fun _ => True) h.metadata trivial fun _ _ => trivial
    have hrem := remaining_of_some hl
    have hfollow : ∀ {l : RaftLeaderReplication} {c : ℕ} (outcome : AppendReplyOutcome),
        (node.lastIndex - c + l.remaining node.lastIndex < node.remaining ∨
          node.lastIndex - c + l.remaining node.lastIndex ≤ node.remaining ∧
            (outcome = .ignored ∨ outcome = .recorded ∧ ∀ progress,
              l.progress peerId = some progress → node.lastIndex < progress.nextIndex)) →
        node.Settles 1 (match followUp { node with leader := some l, commitIndex := c } peerId
            outcome with
          | (node, none) => node.stop .inconsistentState
          | (node, some actions) => node.completeRead sentRequest reply actions) :=
      fun {l c} outcome ho =>
        @followUp_settles node { node with leader := some l, commitIndex := c }
        l peerId outcome rfl rfl rfl ho sentRequest reply
    dsimp only
    revert hend
    generalize leader.handleReply node.election node.metadata node.log node.commitIndex peerId
      sentRequest reply = r
    rintro (⟨-⟩ | ⟨m, hm, hn, ht, -⟩ | ⟨m, hn, -⟩ | ⟨i, -, -, -, -, -⟩ |
      ⟨i, hi, -, -, -, k, hk, -⟩ | ⟨i, hi, -, -, hp, l, rfl⟩ | ⟨i, hi, -, -, hp, l, rfl, c, hc⟩)
    · exact hfollow .ignored (Or.inr ⟨hrem.ge, Or.inl rfl⟩)
    · exact .of_kept (.of_metadata rfl (Or.inr (by simp [dropLeadership, hn]))) (Or.inl rfl)
        Nat.one_pos
    · refine .of_stop ?_ Nat.one_pos _
      exact .of_eq rfl hn
    · refine .of_stop ?_ Nat.one_pos _
      exact .of_eq rfl rfl
    · refine hfollow .retry (Or.inl ?_)
      rw [hrem]
      exact Nat.add_lt_add_left (RaftLeaderReplication.remaining_setPeer_lt
        (RaftLeaderReplication.remaining_rejected hk)) _
    · obtain ⟨hle, hlt⟩ := RaftLeaderReplication.remaining_accepted (hb hl i) hp
      refine hfollow .recorded ?_
      rw [hrem]
      by_cases hnext : (RaftLeaderReplication.accepted (leader.peers i)
          (sentRequest.prevLogIndex + sentRequest.entries.length)).progress.nextIndex ≤
            node.lastIndex
      · exact Or.inl (Nat.add_lt_add_left (RaftLeaderReplication.remaining_setPeer_lt
          (hlt hnext)) _)
      · refine Or.inr ⟨Nat.add_le_add_left (RaftLeaderReplication.remaining_setPeer_le hle) _,
          Or.inr ⟨rfl, fun progress hprogress => ?_⟩⟩
        rw [RaftLeaderReplication.progress_setPeer hi (by rfl)] at hprogress
        obtain rfl := Option.some.inj hprogress
        exact not_le.1 hnext
    · obtain ⟨hle, -⟩ := RaftLeaderReplication.remaining_accepted (hb hl i) hp
      obtain ⟨k, e, rfl, hcommit, hentry, -⟩ :=
        RaftLeaderReplication.advanceCommitIndex_eq_some hc
      have hk : k < node.lastIndex := by
        rw [lastIndex, ← PersistentLog.length_log]
        exact (List.getElem?_eq_some_iff.1 hentry).1
      have hrest := RaftLeaderReplication.remaining_setPeer_le hle
      refine hfollow .committed (Or.inl ?_)
      rw [hrem]
      dsimp only
      omega

/-- **One message**: it lowers the rank, or leaves it and is answered by less than its weight. -/
theorem call_settles (h : node.Invariant) (hs : node.stopped = false)
    (hb : ∀ {leader}, node.leader = some leader →
      ∀ i, PeerBounds node.lastIndex (leader.peers i)) {c : NodeCall} (hc : 0 < c.weight) :
    node.Settles c.weight (node.call c) := by
  cases c with
  | requestVote peerId request => exact onRequestVote_settles h hs peerId request
  | voteReply peerId reply => exact onVoteReply_settles h hs peerId reply
  | appendEntries peerId request => exact onAppendEntries_settles h hs peerId request
  | appendReply peerId sentRequest reply =>
    exact onAppendReply_settles h hs hb peerId sentRequest reply
  | electionTimeout | heartbeatTimeout | propose _ | readBarrier =>
    exact absurd hc (Nat.lt_irrefl 0)

end RaftNode

end DistributedKV
