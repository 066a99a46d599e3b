import DistributedKV.Raft.NodeRun

/-!
# Leadership and reads across a call

What one call may do to the role of a node, to its waiting reads and to the probes that are sent
for them. A read gets the next id, its probe is fixed once an entry of the current term is
committed, and it is reported when a peer answers that probe.
-/

namespace DistributedKV

namespace RaftNodeResult

/-- What a result tells the caller, by part; an error tells nothing. -/
def messages : RaftNodeResult → List OutboundRaftMessage
  | .ok actions => actions.messages
  | .error _ => []

def readyReads : RaftNodeResult → List ReadyRead
  | .ok actions => actions.readyReads
  | .error _ => []

def startedReadId : RaftNodeResult → Option ℕ
  | .ok actions => actions.startedReadId
  | .error _ => none

end RaftNodeResult

open RaftNodeResult in
/-- The probe of a read, as it was before the call or as the node after the call builds it. -/
def RaftNode.Probes (node node' : RaftNode) (id : ℕ) (probe : AppendEntries) : Prop :=
  (id, some probe) ∈ node.readRounds ∨
    probe = node'.readProbe id ∧ node'.currentTermCommitted = true

open RaftNodeResult in
/-- What a call does to the role and to the waiting reads. -/
structure RaftNode.CallFacts (node : RaftNode) (c : NodeCall) (r : RaftNode × RaftNodeResult) :
    Prop where
  role : r.1.role = .leader → r.1.term = node.term ∧ (node.role = .leader ∨ node.role = .candidate)
  nextReadId : r.1.nextReadId = match startedReadId r.2 with
    | some id => (id + 1) % 2 ^ 64
    | none => node.nextReadId
  started : ∀ {id}, startedReadId r.2 = some id →
    id = node.nextReadId ∧ id ≠ 0 ∧ node.role = .leader ∧ r.1.role = .leader
  rounds : ∀ {id o}, (id, o) ∈ r.1.readRounds →
    (id ∈ OrderedMap.keys node.readRounds ∨ startedReadId r.2 = some id) ∧
      ∀ probe, o = some probe → node.Probes r.1 id probe
  probes : ∀ m ∈ messages r.2, ∀ request, m.message = .appendEntries request →
    request.readContext = 0 ∨ request.readContext ∈ OrderedMap.keys node.readRounds ∨
      startedReadId r.2 = some request.readContext
  ready : ∀ x ∈ readyReads r.2, ∃ peerId sentRequest reply,
    c = .appendReply peerId sentRequest reply ∧ node.isPeer peerId = true ∧
      sentRequest.readContext = x.id ∧ sentRequest.leaderCommit = x.index ∧
      reply.success = true ∧ reply.term = r.1.term ∧ r.1.role = .leader ∧
      x.id ∈ OrderedMap.keys node.readRounds ∧ x.id ∉ OrderedMap.keys r.1.readRounds ∧
      node.Probes r.1 x.id sentRequest ∧ x.index ≤ r.1.lastApplied
  ready_le : (readyReads r.2).length ≤ 1

namespace RaftNode

open RaftNodeResult

variable {node node' : RaftNode} {c : NodeCall}

/-! ## Roles -/

/-- A role that a call may lead to. -/
def RoleFrom (node node' : RaftNode) : Prop :=
  node'.role = .leader → node'.term = node.term ∧ (node.role = .leader ∨ node.role = .candidate)

theorem role_of_eq (he : node'.election = node.election)
    (hm : node'.metadata.state = node.metadata.state) :
    node'.role = node.role ∧ node'.term = node.term := by
  simp [role, term, RaftElection.role, RaftElection.stale, he, hm]

theorem RoleFrom.of_eq (he : node'.election = node.election)
    (hm : node'.metadata.state = node.metadata.state) : node.RoleFrom node' := fun hr =>
  ⟨(role_of_eq he hm).2, Or.inl ((role_of_eq he hm).1 ▸ hr)⟩

theorem RoleFrom.of_cachedRole (h : node'.election.cachedRole ≠ .leader) : node.RoleFrom node' :=
  fun hr => absurd (role_eq_leader_iff.1 hr).1 h

theorem RoleFrom.of_follower (h : node'.election.cachedRole = .follower) : node.RoleFrom node' :=
  .of_cachedRole (by simp [h])

theorem RoleFrom.of_vote (h : node'.metadata.state.votedFor ≠ some node'.election.selfId) :
    node.RoleFrom node' := fun hr => absurd (role_eq_leader_iff.1 hr).2.2 h

/-! ## Calls that do not concern reads -/

/-- No pending request is a probe. -/
def PlainPending (leader : RaftLeaderReplication) : Prop :=
  ∀ i request, (leader.peers i).pending = some request → request.readContext = 0

/-- Messages that are no probes. -/
def Plain (m : OutboundRaftMessage) : Prop :=
  ∀ request, m.message = .appendEntries request → request.readContext = 0

theorem PlainPending.makeRequest {leader leader' : RaftLeaderReplication} {election : RaftElection}
    {metadata : PersistentMetadata} {log : PersistentLog} {c peerId k : ℕ} {request : AppendEntries}
    (h : PlainPending leader)
    (hmake : leader.MakeRequestEnd election metadata log c peerId k (leader', .ok request)) :
    PlainPending leader' ∧ Plain ⟨peerId, .appendEntries request⟩ := by
  have hplain : request.readContext = 0 → Plain ⟨peerId, .appendEntries request⟩ := by
    rintro h0 request' heq
    obtain rfl := RaftMessage.appendEntries.inj heq
    exact h0
  cases hmake with
  | pending i _ _ hp => exact ⟨h, hplain (h i _ hp)⟩
  | fresh i _ _ j _ _ =>
    refine ⟨fun a request hr => ?_, hplain rfl⟩
    by_cases ha : a = i
    · subst ha
      rw [RaftLeaderReplication.setPeer_self] at hr
      obtain rfl := Option.some.inj hr
      rfl
    · rw [RaftLeaderReplication.setPeer_of_ne ha] at hr
      exact h a request hr

/-- Sending to the peers sends no probes and changes the replication object only. -/
theorem queueAppends_plain {leader : RaftLeaderReplication} (hl : node.leader = some leader)
    (hp : PlainPending leader) (peerIds : List ℕ) (actions : RaftNodeActions) :
    QueueEnd node PlainPending Plain True actions (node.queueAppends peerIds actions) :=
  queueAppends_rule hl hp _ (fun h _ hmake => h.makeRequest hmake) (fun _ _ _ => trivial) actions

theorem queueAppend_plain {leader : RaftLeaderReplication} (hl : node.leader = some leader)
    (hp : PlainPending leader) (peerId : ℕ) (actions : RaftNodeActions) :
    QueueEnd node PlainPending Plain True actions (node.queueAppend peerId actions) :=
  queueAppend_rule hl hp (fun hmake => hp.makeRequest hmake) (fun _ => trivial) actions

/-- A call that keeps or drops the waiting reads, and starts and reports none. -/
theorem CallFacts.of_plain {r : RaftNode × RaftNodeResult} (hrole : node.RoleFrom r.1)
    (hnext : r.1.nextReadId = node.nextReadId)
    (hrounds : r.1.readRounds = [] ∨ r.1.readRounds = node.readRounds)
    (hstarted : startedReadId r.2 = none) (hready : readyReads r.2 = [])
    (hmessages : ∀ m ∈ messages r.2, Plain m) : CallFacts node c r where
  role := hrole
  nextReadId := by rw [hstarted, hnext]
  started h := by simp [hstarted] at h
  rounds {id o} h := by
    rcases hrounds with hr | hr
    · simp [hr] at h
    · rw [hr] at h
      exact ⟨Or.inl (OrderedMap.mem_keys_iff.2 ⟨o, h⟩), fun probe ho => Or.inl (ho ▸ h)⟩
  probes m hm request hr := Or.inl (hmessages m hm request hr)
  ready x hx := by simp [hready] at hx
  ready_le := by simp [hready]

theorem CallFacts.of_stop (hrole : node.RoleFrom node') (hnext : node'.nextReadId = node.nextReadId)
    (e : RaftNodeError) : CallFacts node c (node'.stop e) :=
  .of_plain hrole hnext (Or.inl rfl) rfl rfl (by simp [stop, RaftNodeResult.messages])

theorem CallFacts.of_error (e : RaftNodeError) : CallFacts node c (node, .error e) :=
  .of_plain (.of_eq rfl rfl) rfl (Or.inr rfl) rfl rfl (by simp [RaftNodeResult.messages])

theorem CallFacts.of_ok {actions : RaftNodeActions} (hrole : node.RoleFrom node')
    (hnext : node'.nextReadId = node.nextReadId)
    (hrounds : node'.readRounds = [] ∨ node'.readRounds = node.readRounds)
    (hstarted : actions.startedReadId = none) (hready : actions.readyReads = [])
    (hmessages : ∀ m ∈ actions.messages, Plain m) : CallFacts node c (node', .ok actions) :=
  .of_plain hrole hnext hrounds hstarted hready hmessages

/-- The metadata is the old one, or has no vote for the node itself. -/
theorem RoleFrom.of_metadata (he : node'.election = node.election)
    (hm : node'.metadata.state = node.metadata.state ∨
      node'.metadata.state.votedFor ≠ some node.election.selfId) : node.RoleFrom node' := by
  rcases hm with hm | hm
  · exact .of_eq he hm
  · exact .of_vote (by rwa [he])

theorem onElectionTimeout_facts (h : node.Invariant) (hs : node.stopped = false) :
    CallFacts node .electionTimeout node.onElectionTimeout := by
  have hend := RaftElection.startElection_rule node.log (A := fun _ => True) h.usable h.metadata
    trivial trivial trivial
  rw [onElectionTimeout, if_neg (by simp [hs])]
  revert hend
  generalize node.election.startElection node.metadata node.log = r
  rintro (⟨-⟩ | ⟨e, he⟩ | ⟨m, -, -, e, he⟩ | ⟨m, -, -, -, -⟩)
  · exact .of_ok (.of_eq rfl rfl) rfl (Or.inr rfl) rfl rfl (by simp)
  · refine .of_stop ?_ ?_ _
    · rcases he with rfl | rfl
      · exact .of_eq rfl rfl
      · exact .of_cachedRole (by simp [RaftElection.becomeFollower])
    · rfl
  · refine .of_stop ?_ ?_ _
    · exact .of_cachedRole (by simp [he])
    · rfl
  · refine .of_ok (.of_cachedRole (by simp [dropLeadership])) rfl (Or.inl rfl) rfl rfl ?_
    intro msg hmsg request hr
    simp only [broadcast, List.mem_map] at hmsg
    obtain ⟨p, -, rfl⟩ := hmsg
    cases hr

theorem onRequestVote_facts (h : node.Invariant) (hs : node.stopped = false) (peerId : ℕ)
    (request : RequestVote) :
    CallFacts node (.requestVote peerId request) (node.onRequestVote peerId request) := by
  rw [onRequestVote, if_neg (by simp [hs])]
  split_ifs with hp hc
  · exact .of_error _
  · exact .of_error _
  rw [Bool.not_eq_false] at hp
  rw [not_not] at hc
  have hne : some request.candidateId ≠ some node.election.selfId := fun he =>
    isPeer_ne_self h hp (by rw [← hc, Option.some.inj he, h.selfId])
  have hend := handleRequestVote_rule node.log request (A := fun m => m = node.metadata.state ∨
    m.votedFor ≠ some node.election.selfId) h.metadata (Or.inl rfl) (fun _ => Or.inr (by simp))
    fun _ _ _ => Or.inr hne
  have hplain : ∀ {reply : RequestVoteReply},
      ∀ m ∈ [(⟨peerId, .requestVoteReply reply⟩ : OutboundRaftMessage)], Plain m := by
    intro reply m hm request hr
    obtain rfl := List.mem_singleton.1 hm
    cases hr
  dsimp only
  revert hend
  generalize handleRequestVote node.metadata node.log request = r
  rintro (⟨m, -, hA⟩ | ⟨m, -, -, hA⟩ | ⟨m, hA, -⟩)
  · dsimp only
    split_ifs
    · exact .of_ok (.of_metadata rfl hA) rfl (Or.inl rfl) rfl rfl hplain
    · exact .of_ok (.of_metadata rfl hA) rfl (Or.inr rfl) rfl rfl hplain
  · dsimp only
    split_ifs
    · exact .of_ok (.of_metadata rfl hA) rfl (Or.inl rfl) rfl rfl hplain
    · exact .of_ok (.of_metadata rfl hA) rfl (Or.inr rfl) rfl rfl hplain
  · refine .of_stop ?_ ?_ _
    · exact .of_metadata rfl hA
    · rfl

/-- The end of a handler that sends requests to the peers. -/
theorem CallFacts.of_queueAppends {leader : RaftLeaderReplication} (hl : node'.leader = some leader)
    (hp : PlainPending leader) (hrole : node.RoleFrom node')
    (hnext : node'.nextReadId = node.nextReadId) (hrounds : node'.readRounds = node.readRounds)
    (peerIds : List ℕ) {actions : RaftNodeActions} (hstarted : actions.startedReadId = none)
    (hready : actions.readyReads = []) (hmessages : actions.messages = []) :
    CallFacts node c (match node'.queueAppends peerIds actions with
      | (node, none) => node.stop .inconsistentState
      | (node, some actions) => (node, .ok actions)) := by
  have hend := queueAppends_plain hl hp peerIds actions
  revert hend
  generalize node'.queueAppends peerIds actions = r
  rintro (⟨l, -, -⟩ | ⟨l, -, messages, hM⟩)
  · exact .of_stop hrole hnext _
  · exact .of_ok hrole hnext (Or.inr hrounds) hstarted hready (by simpa [hmessages] using hM)

theorem onVoteReply_facts (h : node.Invariant) (hs : node.stopped = false) (peerId : ℕ)
    (reply : RequestVoteReply) :
    CallFacts node (.voteReply peerId reply) (node.onVoteReply peerId reply) := by
  rw [onVoteReply, if_neg (by simp [hs])]
  split_ifs with hp
  · exact .of_error _
  have hend := RaftElection.handleVoteReply_rule peerId reply (A := fun _ => True) h.usable
    h.metadata trivial h.votes fun _ => trivial
  revert hend
  generalize node.election.handleVoteReply node.metadata peerId reply = r
  rintro (⟨-⟩ | ⟨m, -, -⟩ | ⟨e, he, m, -, -⟩ | ⟨replied, hr⟩ | ⟨replied, votes, hr, -, -, -⟩)
  · exact .of_ok (.of_eq rfl rfl) rfl (Or.inr rfl) rfl rfl (by simp)
  · exact .of_ok (.of_cachedRole (by simp [dropLeadership, RaftElection.becomeFollower])) rfl
      (Or.inl rfl) rfl rfl (by simp)
  · refine .of_stop ?_ ?_ _
    · exact .of_cachedRole (by simp [he])
    · rfl
  · refine .of_ok (fun hl => ?_) rfl (Or.inr rfl) rfl rfl (by simp)
    have hrole : role { node with election := { node.election with replied } } = node.role := rfl
    rw [hrole, role, hr] at hl
    cases hl
  · -- the election is won by a candidate of the current term
    have hfrom : ∀ {node'' : RaftNode}, node''.metadata = node.metadata → node.RoleFrom node'' :=
      fun hm _ => ⟨by rw [term, term, hm], Or.inr hr⟩
    generalize ({ node.election with replied, grantedVotes := votes, cachedRole := .leader } :
      RaftElection) = election
    dsimp only
    split
    · refine .of_stop ?_ ?_ _
      · exact hfrom rfl
      · rfl
    · next leader hcreate =>
      have hl := RaftLeaderReplication.create_eq_some hcreate
      have hplain : PlainPending leader := fun i request hr => by
        rw [hl] at hr
        cases hr
      have happ := leader.appendCommand_rule election node.metadata h.logSynced {}
      revert happ
      generalize leader.appendCommand election node.metadata node.log {} = r
      rintro (⟨e, -, -⟩ | ⟨log', -, -⟩ | ⟨log', -, -, -⟩)
      · refine .of_stop ?_ ?_ _
        · exact hfrom rfl
        · rfl
      · refine .of_stop ?_ ?_ _
        · exact hfrom rfl
        · rfl
      · refine .of_queueAppends rfl hplain ?_ ?_ ?_ _ ?_ ?_ ?_
        · exact hfrom rfl
        all_goals rfl

theorem appendAsLeader_facts (h : node.Invariant) (hs : node.stopped = false)
    (hp : ∀ {leader}, node.leader = some leader → PlainPending leader) (command : Command) :
    CallFacts node c (node.appendAsLeader command) := by
  rw [appendAsLeader, if_neg (by simp [hs])]
  cases hl : node.leader with
  | none => exact .of_error _
  | some leader =>
    dsimp only
    rw [if_neg (by simp [h.active hl])]
    have happ := leader.appendCommand_rule node.election node.metadata h.logSynced command
    revert happ
    generalize leader.appendCommand node.election node.metadata node.log command = r
    rintro (⟨e, -, -⟩ | ⟨log', -, -⟩ | ⟨log', -, -, -⟩)
    · cases e with
      | invalidCommand =>
        exact .of_plain (.of_eq rfl rfl) rfl (Or.inr rfl) rfl rfl
          (by simp [RaftNodeResult.messages])
      | notLeader | unknownPeer | invalidBatchSize | indexExhausted | persistenceError
        | inconsistentState => exact .of_stop (.of_eq rfl rfl) rfl _
    · refine .of_stop ?_ ?_ _
      · exact .of_eq rfl rfl
      · rfl
    · refine .of_queueAppends rfl (hp hl) ?_ ?_ ?_ _ ?_ ?_ ?_
      · exact .of_eq rfl rfl
      all_goals rfl

theorem propose_facts (h : node.Invariant) (hs : node.stopped = false)
    (hp : ∀ {leader}, node.leader = some leader → PlainPending leader) (command : Command) :
    CallFacts node (.propose command) (node.propose command) := by
  rw [propose, if_neg (by simp [hs])]
  cases hl : node.leader with
  | none => exact .of_error _
  | some leader =>
    dsimp only
    rw [if_neg (by simp [h.active hl])]
    split_ifs
    · exact .of_error _
    · exact appendAsLeader_facts h hs hp command

/-- Applying changes the state machine and what is reported as applied. -/
theorem applyReady_shape (node : RaftNode) (actions : RaftNodeActions) :
    ∃ state, (node.applyReady actions).1 = { node with state } ∧
      ∀ actions', (node.applyReady actions).2 = some actions' →
        ∃ applied, actions' = { actions with applied } := by
  rw [applyReady]
  rcases applyCommitted node.log node.state node.commitIndex with ⟨state, e | applied⟩
  · exact ⟨state, rfl, fun _ h => by cases h⟩
  · exact ⟨state, rfl, fun _ h => ⟨applied, (Option.some.inj h).symm⟩⟩

/-- The end of a handler that applies what has become committed and sends one message. -/
theorem CallFacts.of_applyReady {actions : RaftNodeActions} {m : OutboundRaftMessage}
    (hrole : node.RoleFrom node') (hnext : node'.nextReadId = node.nextReadId)
    (hrounds : node'.readRounds = []) (hstarted : actions.startedReadId = none)
    (hready : actions.readyReads = []) (hmessages : ∀ m' ∈ actions.messages ++ [m], Plain m') :
    CallFacts node c (match node'.applyReady actions with
      | (node, none) => node.stop .inconsistentState
      | (node, some actions) =>
        (node, .ok { actions with messages := actions.messages ++ [m] })) := by
  obtain ⟨state, h1, h2⟩ := node'.applyReady_shape actions
  revert h1 h2
  rcases node'.applyReady actions with ⟨node'', _ | actions'⟩
  · rintro rfl -
    refine .of_stop ?_ ?_ _
    · exact hrole
    · exact hnext
  · rintro rfl h2
    obtain ⟨applied, rfl⟩ := h2 actions' rfl
    exact .of_ok hrole hnext (Or.inl hrounds) hstarted hready hmessages

theorem onAppendEntries_facts (h : node.Invariant) (hs : node.stopped = false) (peerId : ℕ)
    (request : AppendEntries) :
    CallFacts node (.appendEntries peerId request) (node.onAppendEntries peerId request) := by
  rw [onAppendEntries, if_neg (by simp [hs])]
  split_ifs with hp hl
  · exact .of_error _
  · exact .of_error _
  have hend := handleAppendEntries_rule node.log node.commitIndex request
    (A := fun m => m = node.metadata.state ∨ m.votedFor ≠ some node.election.selfId) h.metadata
    (Or.inl rfl) fun _ => Or.inr (by simp)
  have hplain : ∀ {reply : AppendEntriesReply},
      ∀ m ∈ [(⟨peerId, .appendEntriesReply reply⟩ : OutboundRaftMessage)], Plain m := by
    intro reply m hm request hr
    obtain rfl := List.mem_singleton.1 hm
    cases hr
  -- an `InvalidRequest`, with what has been done to the stores by then
  have hinvalid : ∀ {m : PersistentMetadata} {log : PersistentLog}, (m.state = node.metadata.state ∨
      m.state.votedFor ≠ some node.election.selfId) → ∀ {c : Prop} [Decidable c],
      CallFacts node (.appendEntries peerId request) (if c
        then { node with metadata := m, log }.dropLeadership
        else { node with metadata := m, log }, .error .invalidRequest) := by
    intro m log hA c _
    split_ifs
    · exact .of_plain (.of_metadata rfl hA) rfl (Or.inl rfl) rfl rfl
        (by simp [RaftNodeResult.messages])
    · exact .of_plain (.of_metadata rfl hA) rfl (Or.inr rfl) rfl rfl
        (by simp [RaftNodeResult.messages])
  dsimp only
  revert hend
  generalize handleAppendEntries node.metadata node.log node.commitIndex request = r
  rintro (⟨m, hm, -⟩ | ⟨hstale⟩ | ⟨m, -, hA, -, -⟩ | ⟨m, -, -, ht, h0, -⟩ |
    ⟨m, -, hA, ht, h0, -, -, log, e, -⟩ | ⟨m, -, -, ht, h0, -, -, log, -⟩)
  · dsimp only
    split_ifs
    all_goals
      refine .of_stop ?_ ?_ _
      · exact .of_eq rfl hm
      · rfl
  · have hf : ¬ (request.term ≠ 0 ∧ request.term = node.metadata.state.currentTerm) := by omega
    simp only [hf, decide_false, Bool.false_eq_true, if_false]
    rw [if_neg (lt_irrefl _)]
    exact .of_ok (.of_eq rfl rfl) rfl (Or.inr rfl) rfl rfl hplain
  · exact hinvalid hA
  · simp only [ne_eq, h0, not_false_eq_true, true_and, decide_true, if_true, Bool.false_eq_true,
      if_false]
    split_ifs
    all_goals
      refine .of_ok (.of_follower ?_) ?_ (Or.inl rfl) rfl rfl hplain
      · exact RaftElection.cachedRole_observeLeader h0 ht
      · rfl
  · cases e with
    | invalidRequest => exact hinvalid hA
    | committedConflict | persistenceError =>
      dsimp only
      split_ifs
      all_goals
        refine .of_stop ?_ ?_ _
        · exact .of_metadata rfl hA
        · rfl
  · simp only [ne_eq, h0, not_false_eq_true, true_and, decide_true, if_true]
    split_ifs
    all_goals
      refine .of_applyReady ?_ ?_ ?_ ?_ ?_ ?_
      · exact .of_follower (RaftElection.cachedRole_observeLeader h0 ht)
      · rfl
      · rfl
      · rfl
      · rfl
      · exact hplain

/-! ## Calls that concern reads -/

/-- Every probe carries the id of its read. -/
def OwnProbes (node : RaftNode) : Prop :=
  ∀ id probe, (id, some probe) ∈ node.readRounds → probe.readContext = id

/-- Requests that are plain or probes of waiting reads. -/
def PlainOrProbe (ids : List ℕ) (m : OutboundRaftMessage) : Prop :=
  ∀ request, m.message = .appendEntries request →
    request.readContext = 0 ∨ request.readContext ∈ ids

theorem Plain.plainOrProbe {m : OutboundRaftMessage} (h : Plain m) (ids : List ℕ) :
    PlainOrProbe ids m := fun request hr => Or.inl (h request hr)

/-- The probes of the reads that already have one. -/
theorem plainOrProbe_of_flatMap (hown : node.OwnProbes) {m : OutboundRaftMessage}
    (hm : m ∈ node.readRounds.flatMap fun p =>
      match p.2 with
      | some probe => node.broadcast (.appendEntries probe)
      | none => []) : PlainOrProbe (OrderedMap.keys node.readRounds) m := by
  obtain ⟨⟨id, o⟩, hp, hm⟩ := List.mem_flatMap.1 hm
  cases o with
  | none => cases hm
  | some probe =>
    obtain ⟨p, -, rfl⟩ := List.mem_map.1 hm
    intro request hr
    obtain rfl := RaftMessage.appendEntries.inj hr
    right
    rw [hown id probe hp]
    exact OrderedMap.mem_keys_iff.2 ⟨_, hp⟩

theorem onHeartbeatTimeout_facts (h : node.Invariant) (hs : node.stopped = false)
    (hp : ∀ {leader}, node.leader = some leader → PlainPending leader) (hown : node.OwnProbes) :
    CallFacts node .heartbeatTimeout node.onHeartbeatTimeout := by
  rw [onHeartbeatTimeout, if_neg (by simp [hs])]
  cases hl : node.leader with
  | none => exact .of_ok (.of_eq rfl rfl) rfl (Or.inr rfl) rfl rfl (by simp)
  | some leader =>
    simp only [h.active hl, Bool.true_eq_false, if_false]
    have hend := queueAppends_plain hl (hp hl) node.peers { scheduleHeartbeat := true }
    revert hend
    generalize node.queueAppends node.peers { scheduleHeartbeat := true } = r
    rintro (⟨l, -, -⟩ | ⟨l, -, messages, hM⟩)
    · refine .of_stop ?_ ?_ _
      · exact .of_eq rfl rfl
      · rfl
    · refine ⟨RoleFrom.of_eq rfl rfl, rfl, fun h => (by cases h), fun {id o} hm => ?_,
        fun m hm => ?_, fun x hx => (by cases hx), Nat.zero_le _⟩
      · exact ⟨Or.inl (OrderedMap.mem_keys_iff.2 ⟨o, hm⟩), fun probe ho => Or.inl (ho ▸ hm)⟩
      · have hplain : PlainOrProbe (OrderedMap.keys node.readRounds) m := by
          rcases List.mem_append.1 hm with hm | hm
          · exact (hM m hm).plainOrProbe _
          · exact plainOrProbe_of_flatMap hown hm
        exact fun request hr => (hplain request hr).imp_right Or.inl

/-- What starting the waiting reads does. -/
theorem startWaitingReads_shape (node : RaftNode) (actions : RaftNodeActions) :
    ∃ rounds messages, node.startWaitingReads actions =
        ({ node with readRounds := rounds },
          { actions with messages := actions.messages ++ messages }) ∧
      (∀ id o, (id, o) ∈ rounds → id ∈ OrderedMap.keys node.readRounds ∧
        ∀ probe, o = some probe → node.Probes { node with readRounds := rounds } id probe) ∧
      ∀ m ∈ messages, PlainOrProbe (OrderedMap.keys node.readRounds) m := by
  rw [startWaitingReads]
  split_ifs with hc
  · exact ⟨node.readRounds, [], by simp, fun id o hm =>
      ⟨OrderedMap.mem_keys_iff.2 ⟨o, hm⟩, fun probe ho => Or.inl (ho ▸ hm)⟩, by simp⟩
  · refine ⟨_, _, rfl, fun id o hm => ?_, fun m hm => ?_⟩
    · obtain ⟨⟨id', o'⟩, hmem, heq⟩ := List.mem_map.1 hm
      simp only [Prod.mk.injEq] at heq
      obtain ⟨rfl, rfl⟩ := heq
      refine ⟨OrderedMap.mem_keys_iff.2 ⟨o', hmem⟩, fun probe ho => ?_⟩
      cases o' with
      | none => exact Or.inr ⟨(Option.some.inj ho).symm, (Bool.not_eq_false _).mp hc⟩
      | some probe' =>
        obtain rfl := Option.some.inj ho
        exact Or.inl hmem
    · obtain ⟨⟨id, o⟩, hmem, hm⟩ := List.mem_flatMap.1 hm
      cases o with
      | some probe => cases hm
      | none =>
        obtain ⟨p, -, rfl⟩ := List.mem_map.1 hm
        intro request hr
        obtain rfl := RaftMessage.appendEntries.inj hr
        exact Or.inr (OrderedMap.mem_keys_iff.2 ⟨_, hmem⟩)

theorem readBarrier_facts (h : node.Invariant) (hs : node.stopped = false) :
    CallFacts node .readBarrier node.readBarrier := by
  rw [readBarrier, if_neg (by simp [hs])]
  cases hl : node.leader with
  | none => exact .of_error _
  | some leader =>
    dsimp only
    rw [if_neg (by simp [h.active hl])]
    split_ifs with h0
    · exact .of_stop (.of_eq rfl rfl) rfl _
    · have hlead := (h.leader_facts hl).2.1
      obtain ⟨rounds, messages, hshape, hrounds, hM⟩ := startWaitingReads_shape { node with
        nextReadId := (node.nextReadId + 1) % 2 ^ 64
        readRounds := OrderedMap.emplace node.nextReadId none node.readRounds }
        { startedReadId := some node.nextReadId }
      have hkeys : ∀ id ∈ OrderedMap.keys (OrderedMap.emplace node.nextReadId none node.readRounds),
          id ∈ OrderedMap.keys node.readRounds ∨ some node.nextReadId = some id := by
        intro id hid
        obtain ⟨o, ho⟩ := OrderedMap.mem_keys_iff.1 hid
        rcases OrderedMap.mem_emplace ho with ho | ho
        · exact Or.inr (congrArg some (Prod.mk.inj ho).1.symm)
        · exact Or.inl (OrderedMap.mem_keys_iff.2 ⟨o, ho⟩)
      rw [← hl, hshape]
      refine ⟨RoleFrom.of_eq rfl rfl, rfl, fun hid => ?_, fun {id o} hm => ⟨?_, fun probe ho => ?_⟩,
        fun m hm request hr => ?_, fun x hx => (by cases hx), Nat.zero_le _⟩
      · obtain rfl := Option.some.inj hid
        exact ⟨rfl, h0, hlead, hlead⟩
      · exact hkeys id (hrounds id o hm).1
      · rcases (hrounds id o hm).2 probe ho with hp | hp
        · rcases OrderedMap.mem_emplace hp with hp | hp
          · cases hp
          · exact Or.inl hp
        · exact Or.inr hp
      · exact (hM m hm request hr).imp_right (hkeys _)

/-- What following up on the outcome of a reply does to the waiting reads. -/
structure FollowFacts (node : RaftNode) (r : RaftNode × Option RaftNodeActions) : Prop where
  election : r.1.election = node.election
  metadata : r.1.metadata = node.metadata
  nextReadId : r.1.nextReadId = node.nextReadId
  rounds : ∀ {id o}, (id, o) ∈ r.1.readRounds → id ∈ OrderedMap.keys node.readRounds ∧
    ∀ probe, o = some probe → node.Probes r.1 id probe
  actions : ∀ {actions}, r.2 = some actions → actions.startedReadId = none ∧
    actions.readyReads = [] ∧
      ∀ m ∈ actions.messages, PlainOrProbe (OrderedMap.keys node.readRounds) m

theorem FollowFacts.refl (node : RaftNode) : FollowFacts node (node, some {}) where
  election := rfl
  metadata := rfl
  nextReadId := rfl
  rounds {id o} hm := ⟨OrderedMap.mem_keys_iff.2 ⟨o, hm⟩, fun _ ho => Or.inl (ho ▸ hm)⟩
  actions ha := by
    obtain rfl := Option.some.inj ha
    simp

theorem FollowFacts.failed (he : node'.election = node.election)
    (hm : node'.metadata = node.metadata) (hnext : node'.nextReadId = node.nextReadId)
    (hrounds : node'.readRounds = node.readRounds) : FollowFacts node (node', none) where
  election := he
  metadata := hm
  nextReadId := hnext
  rounds {id o} h := by
    dsimp only at h
    rw [hrounds] at h
    exact ⟨OrderedMap.mem_keys_iff.2 ⟨o, h⟩, fun _ ho => Or.inl (ho ▸ h)⟩
  actions h := by cases h

theorem queueAppend_follows {leader : RaftLeaderReplication} (hl : node.leader = some leader)
    (hp : PlainPending leader) (peerId : ℕ) : FollowFacts node (node.queueAppend peerId {}) := by
  have hend := queueAppend_plain hl hp peerId {}
  revert hend
  generalize node.queueAppend peerId {} = r
  rintro (⟨l, -, -⟩ | ⟨l, -, messages, hM⟩)
  · exact .failed rfl rfl rfl rfl
  · refine ⟨rfl, rfl, rfl, fun {id o} hm => ?_, fun ha => ?_⟩
    · exact ⟨OrderedMap.mem_keys_iff.2 ⟨o, hm⟩, fun _ ho => Or.inl (ho ▸ hm)⟩
    · obtain rfl := Option.some.inj ha
      exact ⟨rfl, rfl, fun m hm => (hM m hm).plainOrProbe _⟩

theorem followUp_follows {leader : RaftLeaderReplication} (hl : node.leader = some leader)
    (hp : PlainPending leader) (peerId : ℕ) (outcome : AppendReplyOutcome) :
    FollowFacts node (node.followUp peerId outcome) := by
  cases outcome with
  | retry => exact queueAppend_follows hl hp peerId
  | recorded =>
    rw [followUp]
    split
    · exact .failed rfl rfl rfl rfl
    · split_ifs
      · exact queueAppend_follows hl hp peerId
      · exact .refl node
  | ignored | steppedDown | inconsistentFollower | persistenceError => exact .refl node
  | committed =>
    rw [followUp]
    obtain ⟨state, h1, h2⟩ := node.applyReady_shape {}
    revert h1 h2
    rcases node.applyReady {} with ⟨node₁, _ | actions₁⟩
    · rintro rfl -
      exact .failed rfl rfl rfl rfl
    rintro rfl h2
    obtain ⟨applied, rfl⟩ := h2 actions₁ rfl
    dsimp only
    have hl' : ({ node with state } : RaftNode).leader = some leader := hl
    have hend := queueAppends_plain hl' hp node.peers { applied }
    have hpeers : peers { node with state } = node.peers := rfl
    rw [hpeers]
    revert hend
    generalize queueAppends { node with state } node.peers { applied } = r
    rintro (⟨l, -, -⟩ | ⟨l, -, messages, hM⟩)
    · exact .failed rfl rfl rfl rfl
    · dsimp only
      obtain ⟨rounds, messages', hw, hrounds, hM'⟩ := startWaitingReads_shape
        { node with state, leader := some l } { applied, messages := [] ++ messages }
      rw [hw]
      refine ⟨rfl, rfl, rfl, hrounds _ _, fun ha => ?_⟩
      obtain rfl := Option.some.inj ha
      refine ⟨rfl, rfl, fun m hm => ?_⟩
      rcases List.mem_append.1 hm with hm | hm
      · exact (hM m hm).plainOrProbe _
      · exact hM' m hm

/-- The end of `on_append_reply` on a node that leads. -/
theorem completeRead_facts {node₀ node₁ : RaftNode} {actions : RaftNodeActions}
    {peerId : ℕ} {sentRequest : AppendEntries} {reply : AppendEntriesReply}
    (hf : FollowFacts node₀ (node₁, some actions)) (hrole₀ : node₀.role = .leader)
    (hkeys : node₀.readRounds = node.readRounds) (hnext : node₀.nextReadId = node.nextReadId)
    (he : node₀.election = node.election) (hm : node₀.metadata = node.metadata)
    (hp : node.isPeer peerId = true) :
    CallFacts node (.appendReply peerId sentRequest reply)
      (node₁.completeRead sentRequest reply actions) := by
  have he₁ : node₁.election = node.election := hf.election.trans he
  have hm₁ : node₁.metadata = node.metadata := hf.metadata.trans hm
  have hn₁ : node₁.nextReadId = node.nextReadId := hf.nextReadId.trans hnext
  have hlead : node₁.role = .leader := by
    rw [← hrole₀]
    exact (role_of_eq hf.election (by rw [hf.metadata])).1
  obtain ⟨hstarted, hready, hM⟩ := hf.actions rfl
  -- without a completed read
  have hplain : CallFacts node (.appendReply peerId sentRequest reply) (node₁, .ok actions) := by
    refine ⟨RoleFrom.of_eq he₁ (by rw [hm₁]), ?_, fun hid => ?_, fun {id o} h => ?_,
      fun m hm request hr => ?_, fun x hx => ?_, ?_⟩
    · simp only [RaftNodeResult.startedReadId, hstarted, hn₁]
    · simp [RaftNodeResult.startedReadId, hstarted] at hid
    · obtain ⟨hid, hprobe⟩ := hf.rounds h
      refine ⟨Or.inl (hkeys ▸ hid), fun probe ho => ?_⟩
      simpa only [Probes, hkeys] using hprobe probe ho
    · exact (hM m hm request hr).imp_right fun hid => Or.inl (hkeys ▸ hid)
    · simp [RaftNodeResult.readyReads, hready] at hx
    · simp [RaftNodeResult.readyReads, hready]
  rw [completeRead]
  split_ifs with hr
  · split
    · next probe hfind =>
      dsimp only
      split_ifs with hpe hlt
      · exact .of_stop (.of_eq he₁ (by rw [hm₁])) hn₁ _
      · subst hpe
        have hmem := OrderedMap.mem_of_find hfind
        obtain ⟨hid, hprobe⟩ := hf.rounds hmem
        have hpr : node.Probes node₁ probe.readContext probe := by
          simpa only [Probes, hkeys] using hprobe probe rfl
        refine ⟨hplain.role, hplain.nextReadId, hplain.started, fun {id o} h => ?_, hplain.probes,
          fun x hx => ?_, ?_⟩
        · exact hplain.rounds (OrderedMap.mem_erase.1 h).1
        · simp only [RaftNodeResult.readyReads, hready, List.nil_append,
            List.mem_singleton] at hx
          subst hx
          refine ⟨peerId, probe, reply, rfl, hp, rfl, rfl, hr.2.2, hr.2.1, hlead, hkeys ▸ hid, ?_,
            hpr, not_lt.1 hlt⟩
          simp [OrderedMap.keys, OrderedMap.erase]
        · simp [RaftNodeResult.readyReads, hready]
      · exact hplain
    · exact hplain
  · exact hplain

theorem onAppendReply_facts (h : node.Invariant) (hs : node.stopped = false)
    (hp : ∀ {leader}, node.leader = some leader → PlainPending leader) (peerId : ℕ)
    (sentRequest : AppendEntries) (reply : AppendEntriesReply) :
    CallFacts node (.appendReply peerId sentRequest reply)
      (node.onAppendReply peerId sentRequest reply) := by
  rw [onAppendReply, if_neg (by simp [hs])]
  by_cases hpeer : node.isPeer peerId = false
  · rw [if_pos hpeer]
    exact .of_error _
  rw [if_neg hpeer]
  rw [Bool.not_eq_false] at hpeer
  cases hl : node.leader with
  | none =>
    dsimp only
    split_ifs with ht
    · rcases PersistentMetadata.advanceTerm_cases h.metadata reply.term with
        ⟨hlt, -⟩ | ⟨heq, -⟩ | ⟨-, hup⟩
      · exact absurd ht (not_lt.2 hlt.le)
      · exact absurd ht (not_lt.2 heq.le)
      · revert hup
        generalize node.metadata.advanceTerm reply.term = r
        rintro (⟨m, hm, hn⟩ | ⟨m, hn, -⟩)
        · refine .of_ok (.of_vote ?_) rfl (Or.inl rfl) rfl rfl (by simp)
          simp [dropLeadership, hn]
        · refine .of_stop ?_ ?_ _
          · exact .of_eq rfl hn
          · rfl
    · exact .of_ok (.of_eq rfl rfl) rfl (Or.inr rfl) rfl rfl (by simp)
  | some leader =>
    obtain ⟨-, hrole, -, -, -⟩ := h.leader_facts hl
    have hend := leader.handleReply_rule node.election node.log node.commitIndex peerId sentRequest
      reply (A := fun _ => True) h.metadata trivial fun _ _ => trivial
    have hfollow : ∀ {l : RaftLeaderReplication} {c : ℕ} (outcome : AppendReplyOutcome),
        PlainPending l → CallFacts node (.appendReply peerId sentRequest reply)
          (match followUp { node with leader := some l, commitIndex := c } peerId outcome with
            | (node, none) => node.stop .inconsistentState
            | (node, some actions) => node.completeRead sentRequest reply actions) := by
      intro l c outcome hl'
      have hleader :
          ({ node with leader := some l, commitIndex := c } : RaftNode).leader = some l :=
        rfl
      have hf := followUp_follows hleader hl' peerId outcome
      revert hf
      generalize followUp { node with leader := some l, commitIndex := c } peerId outcome = r
      rcases r with ⟨node₁, _ | actions⟩
      · intro hf
        refine .of_stop ?_ ?_ _
        · exact .of_eq hf.election (congrArg PersistentMetadata.state hf.metadata)
        · exact hf.nextReadId
      · intro hf
        exact completeRead_facts hf hrole rfl rfl rfl rfl hpeer
    dsimp only
    revert hend
    generalize leader.handleReply node.election node.metadata node.log node.commitIndex peerId
      sentRequest reply = r
    have hset : ∀ (i : Fin 2) (peer : PeerState), (∀ request, peer.pending = some request →
        request.readContext = 0) → PlainPending (leader.setPeer i peer) := by
      intro i peer hpeer a request hr
      by_cases ha : a = i
      · subst ha
        rw [RaftLeaderReplication.setPeer_self] at hr
        exact hpeer request hr
      · rw [RaftLeaderReplication.setPeer_of_ne ha] at hr
        exact hp hl a request hr
    rintro (⟨-⟩ | ⟨m, hm, hn, ht, -⟩ | ⟨m, hn, -⟩ | ⟨i, -, -, -, -, -⟩ |
      ⟨i, -, -, -, -, k, -, -⟩ | ⟨i, -, -, -, -, l, rfl⟩ | ⟨i, -, -, -, -, l, rfl, c, hc⟩)
    · exact hfollow .ignored (hp hl)
    · refine .of_ok (.of_vote ?_) rfl (Or.inl rfl) rfl rfl (by simp)
      simp [dropLeadership, hn]
    · refine .of_stop ?_ ?_ _
      · exact .of_eq rfl hn
      · rfl
    · exact .of_stop (.of_eq rfl rfl) rfl _
    · exact hfollow .retry (hset i _ (by simp))
    · exact hfollow .recorded (hset i _ (by simp [RaftLeaderReplication.accepted]))
    · exact hfollow .committed (hset i _ (by simp [RaftLeaderReplication.accepted]))

/-! ## Every call -/

theorem call_facts (h : node.Invariant) (hs : node.stopped = false)
    (hp : ∀ {leader}, node.leader = some leader → PlainPending leader) (hown : node.OwnProbes)
    (c : NodeCall) : CallFacts node c (node.call c) := by
  cases c with
  | electionTimeout => exact onElectionTimeout_facts h hs
  | heartbeatTimeout => exact onHeartbeatTimeout_facts h hs hp hown
  | requestVote peerId request => exact onRequestVote_facts h hs peerId request
  | voteReply peerId reply => exact onVoteReply_facts h hs peerId reply
  | appendEntries peerId request => exact onAppendEntries_facts h hs peerId request
  | appendReply peerId sentRequest reply =>
    exact onAppendReply_facts h hs hp peerId sentRequest reply
  | propose command => exact propose_facts h hs hp command
  | readBarrier => exact readBarrier_facts h hs

end RaftNode

end DistributedKV
