import DistributedKV.Raft.NodeBatches

/-!
# What a call sends, and to whom

A node sends messages to its two peers only. It asks for votes when it stands for election, answers
a vote request with one reply and an append request with one reply, to the peer that has asked, and
sends append requests on any occasion (`RaftNode.call_addressed`).
-/

namespace DistributedKV

namespace RaftNode

open RaftNodeResult

variable {node node' : RaftNode} {c : NodeCall} {peers : List ℕ}
  {messages : List OutboundRaftMessage} {actions : RaftNodeActions}

theorem isPeer_iff {peerId : ℕ} : node.isPeer peerId = true ↔ peerId ∈ node.peers := by
  simp [isPeer, peers]

/-- The message is one that the call `c` may send to one of the peers. -/
inductive Addressed (peers : List ℕ) (c : NodeCall) : OutboundRaftMessage → Prop
  | requestVote {peerId : ℕ} (hp : peerId ∈ peers) (request : RequestVote)
      (hc : c = .electionTimeout) : Addressed peers c ⟨peerId, .requestVote request⟩
  | requestVoteReply {peerId : ℕ} (hp : peerId ∈ peers) (reply : RequestVoteReply)
      {request : RequestVote} (hc : c = .requestVote peerId request) :
      Addressed peers c ⟨peerId, .requestVoteReply reply⟩
  | appendEntries {peerId : ℕ} (hp : peerId ∈ peers) (request : AppendEntries) :
      Addressed peers c ⟨peerId, .appendEntries request⟩
  | appendEntriesReply {peerId : ℕ} (hp : peerId ∈ peers) (reply : AppendEntriesReply)
      {request : AppendEntries} (hc : c = .appendEntries peerId request) :
      Addressed peers c ⟨peerId, .appendEntriesReply reply⟩

theorem Addressed.mem {m : OutboundRaftMessage} (h : Addressed peers c m) : m.peerId ∈ peers := by
  cases h <;> assumption

/-- The node has these peers, and the messages are addressed to them. -/
structure Addresses (peers : List ℕ) (c : NodeCall) (node : RaftNode)
    (messages : List OutboundRaftMessage) : Prop where
  same : node.peers = peers
  sent : ∀ m ∈ messages, Addressed peers c m

/-- Every success of a helper leaves messages that are addressed to the peers. -/
def AddressesEnd (peers : List ℕ) (c : NodeCall) (r : RaftNode × Option RaftNodeActions) : Prop :=
  ∀ actions, r.2 = some actions → Addresses peers c r.1 actions.messages

/-! ## The helpers -/

theorem Addresses.nil (h : node.peers = peers) : Addresses peers c node [] :=
  ⟨h, fun _ hm => by cases hm⟩

theorem Addresses.append {messages' : List OutboundRaftMessage}
    (h : Addresses peers c node messages) (h' : ∀ m ∈ messages', Addressed peers c m) :
    Addresses peers c node (messages ++ messages') :=
  ⟨h.same, fun m hm => (List.mem_append.1 hm).elim (h.sent m) (h' m)⟩

theorem addressed_broadcast (request : AppendEntries) :
    ∀ m ∈ node.broadcast (.appendEntries request), Addressed node.peers c m := by
  intro m hm
  obtain ⟨p, hp, rfl⟩ := List.mem_map.1 hm
  exact .appendEntries hp request

theorem Addresses.queueAppends (h : Addresses peers c node actions.messages)
    (hl : node.leader.isSome) {peerIds : List ℕ} (hp : ∀ p ∈ peerIds, p ∈ peers) :
    AddressesEnd peers c (node.queueAppends peerIds actions) := by
  obtain ⟨leader, hl⟩ := Option.isSome_iff_exists.1 hl
  have hend := queueAppends_rule hl (P := fun _ => True) trivial (M := Addressed peers c)
    (B := True) peerIds (fun _ hmem _ => ⟨trivial, .appendEntries (hp _ hmem) _⟩)
    (fun _ _ _ => trivial) actions
  revert hend
  generalize node.queueAppends peerIds actions = r
  rintro (⟨l, -, -⟩ | ⟨l, -, messages, hM⟩) actions' ha
  · cases ha
  · obtain rfl := Option.some.inj ha
    have happend := h.append hM
    exact ⟨happend.same, happend.sent⟩

theorem Addresses.queueAppend (h : Addresses peers c node actions.messages)
    (hl : node.leader.isSome) {peerId : ℕ} (hp : peerId ∈ peers) :
    AddressesEnd peers c (node.queueAppend peerId actions) := by
  rw [← queueAppends_singleton]
  exact h.queueAppends hl fun p hmem => List.mem_singleton.1 hmem ▸ hp

theorem Addresses.startWaitingReads (h : Addresses peers c node actions.messages) :
    Addresses peers c (node.startWaitingReads actions).1
      (node.startWaitingReads actions).2.messages := by
  rw [RaftNode.startWaitingReads]
  split_ifs
  · exact h
  · refine ⟨h.same, fun m hm => ?_⟩
    rcases List.mem_append.1 hm with hm | hm
    · exact h.sent m hm
    · obtain ⟨⟨id, o⟩, -, hm⟩ := List.mem_flatMap.1 hm
      cases o with
      | none => exact h.same ▸ addressed_broadcast _ m hm
      | some probe => cases hm

theorem Addresses.applyReady (h : Addresses peers c node actions.messages) :
    AddressesEnd peers c (node.applyReady actions) ∧
      (node.applyReady actions).1.leader = node.leader := by
  obtain ⟨state, h1, h2⟩ := node.applyReady_shape actions
  rw [h1]
  refine ⟨fun actions' ha => ?_, rfl⟩
  obtain ⟨applied, rfl⟩ := h2 actions' ha
  rw [h1]
  exact ⟨h.same, h.sent⟩

theorem Addresses.completeRead (h : Addresses peers c node actions.messages)
    (sentRequest : AppendEntries) (reply : AppendEntriesReply) :
    Addresses peers c (node.completeRead sentRequest reply actions).1
      (RaftNodeResult.messages (node.completeRead sentRequest reply actions).2) := by
  rw [RaftNode.completeRead]
  split_ifs
  · split
    · dsimp only
      split_ifs
      · exact .nil h.same
      · exact ⟨h.same, h.sent⟩
      · exact h
    · exact h
  · exact h

theorem addresses_followUp (hp : node.peers = peers) (hl : node.leader.isSome) {peerId : ℕ}
    (hmem : peerId ∈ peers) (outcome : AppendReplyOutcome) :
    AddressesEnd peers c (node.followUp peerId outcome) := by
  have hnil : Addresses peers c node ({} : RaftNodeActions).messages := .nil hp
  have hsame : AddressesEnd peers c (node, some {}) := fun _ ha => by
    obtain rfl := Option.some.inj ha
    exact hnil
  have hqueue : AddressesEnd peers c (node.queueAppend peerId {}) := hnil.queueAppend hl hmem
  cases outcome with
  | retry => exact hqueue
  | ignored | steppedDown | inconsistentFollower | persistenceError => exact hsame
  | recorded =>
    rw [RaftNode.followUp]
    split
    · exact fun _ ha => by cases ha
    · split_ifs
      · exact hqueue
      · exact hsame
  | committed =>
    obtain ⟨happ, hleader⟩ : AddressesEnd peers c (node.applyReady {}) ∧ _ := hnil.applyReady
    rw [RaftNode.followUp]
    revert happ hleader
    rcases node.applyReady {} with ⟨node₁, _ | actions₁⟩
    · exact fun _ _ _ ha => by cases ha
    · intro happ hleader
      have hnode₁ := happ _ rfl
      have hq : AddressesEnd peers c (node₁.queueAppends node₁.peers actions₁) :=
        hnode₁.queueAppends (hleader ▸ hl) fun p hp => hnode₁.same ▸ hp
      dsimp only at hq ⊢
      revert hq
      rcases node₁.queueAppends node₁.peers actions₁ with ⟨node₂, _ | actions₂⟩
      · exact fun _ _ ha => by cases ha
      · intro hq actions ha
        obtain rfl := Option.some.inj ha
        exact (hq _ rfl).startWaitingReads

/-! ## The handlers -/

/-- The end of a handler that goes on with the result of a helper. -/
theorem AddressesEnd.elim {r : RaftNode × Option RaftNodeActions} (h : AddressesEnd peers c r)
    {f : RaftNode → RaftNodeActions → RaftNode × RaftNodeResult}
    (hf : ∀ node actions, Addresses peers c node actions.messages →
      ∀ m ∈ RaftNodeResult.messages (f node actions).2, Addressed peers c m) :
    ∀ m ∈ RaftNodeResult.messages
      (match r with
        | (node, none) => node.stop .inconsistentState
        | (node, some actions) => f node actions).2, Addressed peers c m := by
  rcases r with ⟨node', _ | actions⟩
  · exact fun _ hm => by cases hm
  · exact hf _ _ (h actions rfl)

theorem onElectionTimeout_addressed : ∀ m ∈ RaftNodeResult.messages node.onElectionTimeout.2,
    Addressed node.peers .electionTimeout m := by
  rw [onElectionTimeout]
  split_ifs
  · exact fun _ hm => by cases hm
  · rcases node.election.startElection node.metadata node.log with
      ⟨election, metadata, (_ | _ | _) | request⟩
    · exact fun _ hm => by cases hm
    · exact fun _ hm => by cases hm
    · exact fun _ hm => by cases hm
    · intro m hm
      obtain ⟨p, hp, rfl⟩ := List.mem_map.1 hm
      exact .requestVote hp request rfl

theorem onHeartbeatTimeout_addressed :
    ∀ m ∈ RaftNodeResult.messages node.onHeartbeatTimeout.2, Addressed node.peers c m := by
  rw [onHeartbeatTimeout]
  split_ifs
  · exact fun _ hm => by cases hm
  · cases hl : node.leader with
    | none => exact fun _ hm => by cases hm
    | some leader =>
      dsimp only
      split_ifs
      · exact fun _ hm => by cases hm
      · have hstart : Addresses node.peers c node
            ({ scheduleHeartbeat := true } : RaftNodeActions).messages := .nil rfl
        refine (hstart.queueAppends (by simp [hl]) fun _ hp => hp).elim fun node' actions h => ?_
        refine (h.append fun m hm => ?_).sent
        obtain ⟨⟨id, o⟩, -, hm⟩ := List.mem_flatMap.1 hm
        cases o with
        | none => cases hm
        | some probe => exact h.same ▸ addressed_broadcast _ m hm

theorem onRequestVote_addressed (peerId : ℕ) (request : RequestVote) :
    ∀ m ∈ RaftNodeResult.messages (node.onRequestVote peerId request).2,
      Addressed node.peers (.requestVote peerId request) m := by
  rw [onRequestVote]
  split_ifs with _ hpeer
  · exact fun _ hm => by cases hm
  · exact fun _ hm => by cases hm
  · exact fun _ hm => by cases hm
  · rcases handleRequestVote node.metadata node.log request with ⟨metadata, e | reply⟩
    · exact fun _ hm => by cases hm
    · intro m hm
      obtain rfl := List.mem_singleton.1 hm
      exact .requestVoteReply (isPeer_iff.1 (by simpa using hpeer)) reply rfl

theorem onVoteReply_addressed (peerId : ℕ) (reply : RequestVoteReply) :
    ∀ m ∈ RaftNodeResult.messages (node.onVoteReply peerId reply).2,
      Addressed node.peers c m := by
  rw [onVoteReply]
  split_ifs
  · exact fun _ hm => by cases hm
  · exact fun _ hm => by cases hm
  · rcases node.election.handleVoteReply node.metadata peerId reply with ⟨election, metadata, _⟩
    dsimp only
    split
    · exact fun _ hm => by cases hm
    · exact fun _ hm => by cases hm
    · exact fun _ hm => by cases hm
    · exact fun _ hm => by cases hm
    · split
      · exact fun _ hm => by cases hm
      · split
        · exact fun _ hm => by cases hm
        · next leader' log _ _ =>
          have hstart : Addresses node.peers c { node with
              election
              metadata
              knownLeader := some node.selfId
              leader := some leader'
              log } ({ scheduleHeartbeat := true } : RaftNodeActions).messages := .nil rfl
          exact (hstart.queueAppends rfl fun _ hp => hp).elim fun _ _ h => h.sent

theorem onAppendEntries_addressed (peerId : ℕ) (request : AppendEntries) :
    ∀ m ∈ RaftNodeResult.messages (node.onAppendEntries peerId request).2,
      Addressed node.peers (.appendEntries peerId request) m := by
  rw [onAppendEntries]
  split_ifs with _ hpeer
  · exact fun _ hm => by cases hm
  · exact fun _ hm => by cases hm
  · exact fun _ hm => by cases hm
  · dsimp only
    rcases handleAppendEntries node.metadata node.log node.commitIndex request with
      ⟨metadata, log, commitIndex, (_ | _ | _) | reply⟩
    · exact fun _ hm => by cases hm
    · exact fun _ hm => by cases hm
    · exact fun _ hm => by cases hm
    · have hreplied : ∀ {node' : RaftNode} {actions : RaftNodeActions},
          Addresses node.peers (.appendEntries peerId request) node' actions.messages →
          ∀ m ∈ actions.messages ++ [⟨peerId, .appendEntriesReply reply⟩],
            Addressed node.peers (.appendEntries peerId request) m := fun h =>
        (h.append fun m hm => by
          obtain rfl := List.mem_singleton.1 hm
          exact .appendEntriesReply (isPeer_iff.1 (by simpa using hpeer)) reply rfl).sent
      dsimp only
      generalize hnode : (if node.term < _ then _ else _ : RaftNode) = node'
      have hpeers : node'.peers = node.peers := by
        rw [← hnode]
        split_ifs <;> rfl
      generalize decide (request.term ≠ 0 ∧ request.term = reply.term) = following
      generalize hnode' : (if following = true then _ else _ : RaftNode) = node''
      have hstart : Addresses node.peers (.appendEntries peerId request) node''
          ({ resetElectionTimer := following } : RaftNodeActions).messages := by
        refine .nil (Eq.trans ?_ hpeers)
        rw [← hnode']
        split_ifs <;> rfl
      by_cases hsuccess : reply.success = true
      · rw [if_pos hsuccess]
        exact hstart.applyReady.1.elim fun _ _ h => hreplied h
      · rw [if_neg hsuccess]
        exact hreplied hstart

theorem onAppendReply_addressed (peerId : ℕ) (sentRequest : AppendEntries)
    (reply : AppendEntriesReply) :
    ∀ m ∈ RaftNodeResult.messages (node.onAppendReply peerId sentRequest reply).2,
      Addressed node.peers c m := by
  rw [onAppendReply]
  split
  · exact fun _ hm => by cases hm
  split
  · exact fun _ hm => by cases hm
  · next _ hpeer =>
    have hmem : peerId ∈ node.peers := isPeer_iff.1 (by simpa using hpeer)
    cases hl : node.leader with
    | none =>
      dsimp only
      split_ifs
      · rcases node.metadata.advanceTerm reply.term with ⟨metadata, _ | _ | _ | _ | _ | _⟩
        all_goals exact fun _ hm => by cases hm
      · exact fun _ hm => by cases hm
    | some leader =>
      dsimp only
      rcases leader.handleReply node.election node.metadata node.log node.commitIndex peerId
        sentRequest reply with ⟨leader', metadata, commitIndex, outcome⟩
      have hfollow : ∀ outcome, ∀ m ∈ RaftNodeResult.messages
          (match followUp { node with leader := some leader', metadata, commitIndex } peerId
              outcome with
            | (node, none) => node.stop .inconsistentState
            | (node, some actions) => node.completeRead sentRequest reply actions).2,
          Addressed node.peers c m := fun outcome => by
        let node' := { node with leader := some leader', metadata, commitIndex }
        have hpeers : node'.peers = node.peers := rfl
        exact (addresses_followUp hpeers rfl hmem outcome).elim fun _ _ h =>
          (h.completeRead sentRequest reply).sent
      cases outcome with
      | persistenceError | inconsistentFollower | steppedDown => exact fun _ hm => by cases hm
      | ignored => exact hfollow .ignored
      | retry => exact hfollow .retry
      | recorded => exact hfollow .recorded
      | committed => exact hfollow .committed

theorem appendAsLeader_addressed (command : Command) :
    ∀ m ∈ RaftNodeResult.messages (node.appendAsLeader command).2, Addressed node.peers c m := by
  rw [appendAsLeader]
  split
  · exact fun _ hm => by cases hm
  · cases hl : node.leader with
    | none => exact fun _ hm => by cases hm
    | some leader =>
      dsimp only
      split_ifs
      · exact fun _ hm => by cases hm
      · rcases leader.appendCommand node.election node.metadata node.log command with
          ⟨leader', log, e | index⟩
        · cases e <;> exact fun _ hm => by cases hm
        · have hstart : Addresses node.peers c { node with leader := some leader', log }
              ({ proposedIndex := some index } : RaftNodeActions).messages := .nil rfl
          exact (hstart.queueAppends rfl fun _ hp => hp).elim fun _ _ h => h.sent

theorem propose_addressed (command : Command) :
    ∀ m ∈ RaftNodeResult.messages (node.propose command).2, Addressed node.peers c m := by
  rw [propose]
  split
  · exact fun _ hm => by cases hm
  · cases node.leader with
    | none => exact fun _ hm => by cases hm
    | some leader =>
      dsimp only
      split_ifs
      · exact fun _ hm => by cases hm
      · exact fun _ hm => by cases hm
      · exact appendAsLeader_addressed command

theorem readBarrier_addressed :
    ∀ m ∈ RaftNodeResult.messages node.readBarrier.2, Addressed node.peers c m := by
  rw [readBarrier]
  split
  · exact fun _ hm => by cases hm
  · cases node.leader with
    | none => exact fun _ hm => by cases hm
    | some leader =>
      dsimp only
      split_ifs
      · exact fun _ hm => by cases hm
      · exact fun _ hm => by cases hm
      · have hstart : Addresses node.peers c { node with
            leader := some leader
            nextReadId := (node.nextReadId + 1) % 2 ^ 64
            readRounds := OrderedMap.emplace node.nextReadId none node.readRounds }
            ({ startedReadId := some node.nextReadId } : RaftNodeActions).messages := .nil rfl
        exact hstart.startWaitingReads.sent

/-- **What a call sends, and to whom.** -/
theorem call_addressed (node : RaftNode) (c : NodeCall) :
    ∀ m ∈ RaftNodeResult.messages (node.call c).2, Addressed node.peers c m := by
  cases c with
  | electionTimeout => exact onElectionTimeout_addressed
  | heartbeatTimeout => exact onHeartbeatTimeout_addressed
  | requestVote peerId request => exact onRequestVote_addressed peerId request
  | voteReply peerId reply => exact onVoteReply_addressed peerId reply
  | appendEntries peerId request => exact onAppendEntries_addressed peerId request
  | appendReply peerId sentRequest reply => exact onAppendReply_addressed peerId sentRequest reply
  | propose command => exact propose_addressed command
  | readBarrier => exact readBarrier_addressed

end RaftNode

end DistributedKV
