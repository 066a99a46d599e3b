import DistributedKV.Raft.MachineRaft
import DistributedKV.Raft.NodeEntries
import DistributedKV.Wire.RaftWire

/-!
# The handlers on words

The handlers of `raft_node.cpp` over the checked functions. A call on a node whose log has room and
whose records are in range computes without a fault what the handler computes over the natural
numbers (`Machine.call_eq`); the one exception is the read barrier that gives out the last id, after
which the counter of the ids is zero.
-/

namespace DistributedKV

/-- The numbers of the messages are 64-bit numbers. -/
def NodeCall.InRange : NodeCall → Prop
  | .electionTimeout | .heartbeatTimeout | .propose _ | .readBarrier => True
  | .requestVote _ request => (RaftMessage.requestVote request).InRange
  | .voteReply _ reply => (RaftMessage.requestVoteReply reply).InRange
  | .appendEntries _ request => request.InRange
  | .appendReply _ sentRequest reply =>
    sentRequest.InRange ∧ (RaftMessage.appendEntriesReply reply).InRange

namespace Machine

open Checked

/-! ## Handlers -/

def queueAppend (node : RaftNode) (peerId : ℕ) (actions : RaftNodeActions) :
    Checked (RaftNode × Option RaftNodeActions) :=
  match node.leader with
  | none => .ok (node, none)
  | some leader => do
    match ← makeRequest leader node.election node.metadata node.log node.commitIndex peerId 4 with
    | (leader, .ok request) =>
      .ok ({ node with leader := some leader },
        some { actions with messages := actions.messages ++ [⟨peerId, .appendEntries request⟩] })
    | (leader, .error _) => .ok ({ node with leader := some leader }, none)

def queueAppends (node : RaftNode) : List ℕ → RaftNodeActions →
    Checked (RaftNode × Option RaftNodeActions)
  | [], actions => .ok (node, some actions)
  | peerId :: peerIds, actions => do
    match ← queueAppend node peerId actions with
    | (node, some actions) => queueAppends node peerIds actions
    | (node, none) => .ok (node, none)

def applyReady (node : RaftNode) (actions : RaftNodeActions) :
    Checked (RaftNode × Option RaftNodeActions) := do
  match ← applyCommitted node.log node.state node.commitIndex with
  | (state, .ok applied) => .ok ({ node with state }, some { actions with applied })
  | (state, .error _) => .ok ({ node with state }, none)

def onElectionTimeout (node : RaftNode) : Checked (RaftNode × RaftNodeResult) :=
  if node.stopped then .ok (node, .error .stopped)
  else do
    match ← startElection node.election node.metadata node.log with
    | (election, metadata, result) =>
      let node := { node with election, metadata }
      match result with
      | .error .alreadyLeader => .ok (node, .ok {})
      | .error .termExhausted => .ok (node.stop .termExhausted)
      | .error .persistenceError => .ok (node.stop .persistenceError)
      | .ok request =>
        .ok (node.dropLeadership,
          .ok { resetElectionTimer := true, messages := node.broadcast (.requestVote request) })

def onHeartbeatTimeout (node : RaftNode) : Checked (RaftNode × RaftNodeResult) :=
  if node.stopped then .ok (node, .error .stopped)
  else match node.leader with
    | none => .ok (node, .ok {})
    | some leader =>
      if node.leaderActive leader = false then .ok (node.dropLeadership, .ok {})
      else do
        match ← queueAppends node node.peers { scheduleHeartbeat := true } with
        | (node, none) => .ok (node.stop .inconsistentState)
        | (node, some actions) =>
          let probes := node.readRounds.flatMap fun p =>
            match p.2 with
            | some probe => node.broadcast (.appendEntries probe)
            | none => []
          .ok (node, .ok { actions with messages := actions.messages ++ probes })

def onVoteReply (node : RaftNode) (peerId : ℕ) (reply : RequestVoteReply) :
    Checked (RaftNode × RaftNodeResult) :=
  if node.stopped then .ok (node, .error .stopped)
  else if node.isPeer peerId = false then .ok (node, .error .invalidPeer)
  else match node.election.handleVoteReply node.metadata peerId reply with
    | (election, metadata, outcome) =>
      let node := { node with election, metadata }
      match outcome with
      | .persistenceError => .ok (node.stop .persistenceError)
      | .steppedDown => .ok (node.dropLeadership, .ok { resetElectionTimer := true })
      | .ignored | .recorded => .ok (node, .ok {})
      | .becameLeader => do
        let node := { node with knownLeader := some node.selfId }
        match ← create node.election node.metadata node.log node.commitIndex with
        | none => .ok (node.stop .inconsistentState)
        | some leader =>
          match ← appendCommand leader node.election node.metadata node.log {} with
          | (leader, log, .error _) =>
            .ok ({ node with leader := some leader, log }.stop .persistenceError)
          | (leader, log, .ok _) =>
            let node := { node with leader := some leader, log }
            match ← queueAppends node node.peers { scheduleHeartbeat := true } with
            | (node, none) => .ok (node.stop .inconsistentState)
            | (node, some actions) => .ok (node, .ok actions)

def onAppendEntries (node : RaftNode) (peerId : ℕ) (request : AppendEntries) :
    Checked (RaftNode × RaftNodeResult) :=
  if node.stopped then .ok (node, .error .stopped)
  else if node.isPeer peerId = false then .ok (node, .error .invalidPeer)
  else if request.leaderId ≠ peerId then .ok (node, .error .invalidRequest)
  else do
    let oldTerm := node.term
    match ← handleAppendEntries node.metadata node.log node.commitIndex request with
    | ⟨metadata, log, commitIndex, result⟩ =>
      let node := { node with metadata, log, commitIndex }
      let node := if oldTerm < node.term then node.dropLeadership else node
      match result with
      | .error .invalidRequest => .ok (node, .error .invalidRequest)
      | .error .persistenceError => .ok (node.stop .persistenceError)
      | .error .committedConflict => .ok (node.stop .inconsistentState)
      | .ok reply =>
        let following : Bool := request.term ≠ 0 ∧ request.term = reply.term
        let node := if following then
          { { node with
              election := node.election.observeLeader node.metadata request.term }.dropLeadership
            with knownLeader := some peerId }
          else node
        let actions : RaftNodeActions := { resetElectionTimer := following }
        let replied (actions : RaftNodeActions) : RaftNodeActions :=
          { actions with messages := actions.messages ++ [⟨peerId, .appendEntriesReply reply⟩] }
        if reply.success then
          match ← applyReady node actions with
          | (node, none) => .ok (node.stop .inconsistentState)
          | (node, some actions) => .ok (node, .ok (replied actions))
        else .ok (node, .ok (replied actions))

/-- The part of `on_append_reply` that follows up on the outcome. -/
def followUp (node : RaftNode) (peerId : ℕ) (outcome : AppendReplyOutcome) :
    Checked (RaftNode × Option RaftNodeActions) :=
  match outcome with
  | .retry => queueAppend node peerId {}
  | .committed => do
    match ← applyReady node {} with
    | (node, none) => .ok (node, none)
    | (node, some actions) =>
      match ← queueAppends node node.peers actions with
      | (node, none) => .ok (node, none)
      | (node, some actions) =>
        match node.startWaitingReads actions with
        | (node, actions) => .ok (node, some actions)
  | .recorded =>
    match node.leader.bind fun leader => leader.progress peerId with
    | none => .ok (node, none)
    | some progress =>
      if progress.nextIndex ≤ node.lastIndex then queueAppend node peerId {}
      else .ok (node, some {})
  | _ => .ok (node, some {})

def onAppendReply (node : RaftNode) (peerId : ℕ) (sentRequest : AppendEntries)
    (reply : AppendEntriesReply) : Checked (RaftNode × RaftNodeResult) :=
  if node.stopped then .ok (node, .error .stopped)
  else if node.isPeer peerId = false then .ok (node, .error .invalidPeer)
  else match node.leader with
    | none => .ok (node.onAppendReply peerId sentRequest reply)
    | some leader => do
      match ← handleReply leader node.election node.metadata node.log node.commitIndex peerId
          sentRequest reply with
      | ⟨leader, metadata, commitIndex, outcome⟩ =>
        let node := { node with leader := some leader, metadata, commitIndex }
        match outcome with
        | .persistenceError => .ok (node.stop .persistenceError)
        | .inconsistentFollower => .ok (node.stop .inconsistentState)
        | .steppedDown => .ok (node.dropLeadership, .ok { resetElectionTimer := true })
        | outcome =>
          match ← followUp node peerId outcome with
          | (node, none) => .ok (node.stop .inconsistentState)
          | (node, some actions) => .ok (node.completeRead sentRequest reply actions)

def appendAsLeader (node : RaftNode) (command : Command) : Checked (RaftNode × RaftNodeResult) :=
  if node.stopped then .ok (node, .error .stopped)
  else match node.leader with
    | none => .ok (node, .error .notLeader)
    | some leader =>
      if node.leaderActive leader = false then .ok (node, .error .notLeader)
      else do
        match ← appendCommand leader node.election node.metadata node.log command with
        | (leader, log, result) =>
          let node := { node with leader := some leader, log }
          match result with
          | .error .invalidCommand => .ok (node, .error .invalidCommand)
          | .error .persistenceError => .ok (node.stop .persistenceError)
          | .error _ => .ok (node.stop .inconsistentState)
          | .ok index =>
            match ← queueAppends node node.peers { proposedIndex := some index } with
            | (node, none) => .ok (node.stop .inconsistentState)
            | (node, some actions) => .ok (node, .ok actions)

def propose (node : RaftNode) (command : Command) : Checked (RaftNode × RaftNodeResult) :=
  if node.stopped then .ok (node, .error .stopped)
  else match node.leader with
    | none => .ok (node, .error .notLeader)
    | some leader =>
      if node.leaderActive leader = false then .ok (node, .error .notLeader)
      else if command.type = .noOp then .ok (node, .error .invalidCommand)
      else appendAsLeader node command

def readBarrier (node : RaftNode) : Checked (RaftNode × RaftNodeResult) :=
  if node.stopped then .ok (node, .error .stopped)
  else match node.leader with
    | none => .ok (node, .error .notLeader)
    | some leader =>
      if node.leaderActive leader = false then .ok (node, .error .notLeader)
      else if node.nextReadId = 0 then .ok (node.stop .inconsistentState)
      else do
        let id := node.nextReadId
        let nextReadId ← add id 1
        let node :=
          { node with nextReadId, readRounds := OrderedMap.emplace id none node.readRounds }
        match node.startWaitingReads { startedReadId := some id } with
        | (node, actions) => .ok (node, .ok actions)

/-- A call, with its arithmetic on words; a vote request needs none. -/
def call (node : RaftNode) : NodeCall → Checked (RaftNode × RaftNodeResult)
  | .electionTimeout => onElectionTimeout node
  | .heartbeatTimeout => onHeartbeatTimeout node
  | .requestVote peerId request => .ok (node.onRequestVote peerId request)
  | .voteReply peerId reply => onVoteReply node peerId reply
  | .appendEntries peerId request => onAppendEntries node peerId request
  | .appendReply peerId sentRequest reply => onAppendReply node peerId sentRequest reply
  | .propose command => propose node command
  | .readBarrier => readBarrier node

/-! ## No handler goes wrong -/

variable {node : RaftNode}

theorem queueAppend_eq (h : node.log.lastIndex + 1 < 2 ^ 64) (peerId : ℕ)
    (actions : RaftNodeActions) :
    queueAppend node peerId actions = .ok (node.queueAppend peerId actions) := by
  rw [queueAppend, RaftNode.queueAppend]
  cases node.leader with
  | none => rfl
  | some leader =>
    dsimp only
    rw [makeRequest_eq _ _ _ _ _ h, ok_bind]
    rcases leader.makeRequest node.election node.metadata node.log node.commitIndex peerId 4 with
      ⟨leader', e | request⟩ <;> rfl

/-- Sending keeps the log. -/
theorem log_queueAppend (node : RaftNode) (peerId : ℕ) (actions : RaftNodeActions) :
    (node.queueAppend peerId actions).1.log = node.log := by
  rw [RaftNode.queueAppend]
  cases node.leader with
  | none => rfl
  | some leader =>
    dsimp only
    rcases leader.makeRequest node.election node.metadata node.log node.commitIndex peerId 4 with
      ⟨leader', e | request⟩ <;> rfl

theorem queueAppends_eq (h : node.log.lastIndex + 1 < 2 ^ 64) (peerIds : List ℕ)
    (actions : RaftNodeActions) :
    queueAppends node peerIds actions = .ok (node.queueAppends peerIds actions) := by
  induction peerIds generalizing node actions with
  | nil => rfl
  | cons peerId peerIds ih =>
    have hlog := log_queueAppend node peerId actions
    rw [queueAppends, RaftNode.queueAppends, queueAppend_eq h, ok_bind]
    revert hlog
    rcases node.queueAppend peerId actions with ⟨node', _ | actions'⟩
    · exact fun _ => rfl
    · exact fun hlog => ih (hlog ▸ h) actions'

theorem applyReady_eq (h : node.commitIndex < 2 ^ 64) (actions : RaftNodeActions) :
    applyReady node actions = .ok (node.applyReady actions) := by
  rw [applyReady, RaftNode.applyReady, applyCommitted_eq h, ok_bind]
  rcases DistributedKV.applyCommitted node.log node.state node.commitIndex with
    ⟨state, e | applied⟩ <;> rfl

theorem onElectionTimeout_eq (h : node.term < 2 ^ 64) :
    onElectionTimeout node = .ok node.onElectionTimeout := by
  rw [onElectionTimeout, RaftNode.onElectionTimeout]
  refine ite_eq_ok fun _ => ?_
  rw [startElection_eq _ _ h, ok_bind]
  rcases node.election.startElection node.metadata node.log with
    ⟨election, metadata, (_ | _ | _) | request⟩ <;> rfl

theorem onHeartbeatTimeout_eq (h : node.log.lastIndex + 1 < 2 ^ 64) :
    onHeartbeatTimeout node = .ok node.onHeartbeatTimeout := by
  rw [onHeartbeatTimeout, RaftNode.onHeartbeatTimeout]
  refine ite_eq_ok fun _ => ?_
  cases node.leader with
  | none => rfl
  | some leader =>
    refine ite_eq_ok fun _ => ?_
    rw [queueAppends_eq h, ok_bind]
    rcases node.queueAppends node.peers { scheduleHeartbeat := true } with
      ⟨node', _ | actions⟩ <;> rfl

/-- A command makes the log longer by one entry at most. -/
theorem lastIndex_appendCommand (leader : RaftLeaderReplication) (election : RaftElection)
    (metadata : PersistentMetadata) (log : PersistentLog) (command : Command) {index : ℕ}
    (h : (leader.appendCommand election metadata log command).2.2 = .ok index) :
    (leader.appendCommand election metadata log command).2.1.lastIndex + 1 < 2 ^ 64 ∧
      (leader.appendCommand election metadata log command).1 = leader := by
  unfold RaftLeaderReplication.appendCommand at h ⊢
  split_ifs at h ⊢ with hactive hmax
  rw [uint64Max] at hmax
  dsimp only at h ⊢
  cases happend : log.append ⟨log.lastIndex + 1, leader.term, command⟩ with
  | mk log' result =>
    rw [happend] at h
    cases result with
    | appended =>
      have hlast := (lastIndex_of_appended happend).2
      dsimp only
      exact ⟨by omega, rfl⟩
    | unexpectedIndex | invalidEntry | ioError => cases h

theorem onVoteReply_eq (h : node.log.lastIndex + 1 < 2 ^ 64) (peerId : ℕ)
    (reply : RequestVoteReply) :
    onVoteReply node peerId reply = .ok (node.onVoteReply peerId reply) := by
  rw [onVoteReply, RaftNode.onVoteReply]
  refine ite_eq_ok fun _ => ite_eq_ok fun _ => ?_
  rcases node.election.handleVoteReply node.metadata peerId reply with
    ⟨election, metadata, _ | _ | _ | _ | _⟩
  all_goals try rfl
  dsimp only
  rw [create_eq _ _ _ h, ok_bind]
  cases RaftLeaderReplication.create election metadata node.log node.commitIndex with
  | none => rfl
  | some leader =>
    dsimp only
    rw [appendCommand_eq, ok_bind]
    have hroom := @lastIndex_appendCommand leader election metadata node.log {}
    revert hroom
    rcases leader.appendCommand election metadata node.log {} with ⟨leader', log', e | index⟩
    · exact fun _ => rfl
    intro hroom
    obtain ⟨hlast, -⟩ := hroom rfl
    dsimp only at hlast ⊢
    rw [queueAppends_eq hlast, ok_bind]
    generalize RaftNode.queueAppends _ _ _ = r
    rcases r with ⟨node', _ | actions⟩ <;> rfl

/-- The new commit index is the old one or covered by the leader's. -/
theorem commitIndex_handleAppendEntries (metadata : PersistentMetadata) (log : PersistentLog)
    (commitIndex : ℕ) (request : AppendEntries) :
    (DistributedKV.handleAppendEntries metadata log commitIndex request).commitIndex ≤
      max commitIndex request.leaderCommit := by
  unfold DistributedKV.handleAppendEntries
  have hself : commitIndex ≤ max commitIndex request.leaderCommit := le_max_left _ _
  rcases metadata.advanceTerm request.term with ⟨metadata', _ | _ | _ | _ | _ | _⟩
  all_goals dsimp only
  all_goals try exact hself
  all_goals split_ifs
  all_goals try exact hself
  all_goals
    rcases DistributedKV.appendLoop commitIndex log request.entries with ⟨log', e | _⟩
    · exact hself
    · exact max_le_max le_rfl (min_le_left _ _)

theorem onAppendEntries_eq (hlog : node.log.lastIndex + 1 < 2 ^ 64)
    (hcommit : node.commitIndex < 2 ^ 64) (peerId : ℕ) {request : AppendEntries}
    (hr : request.InRange) :
    onAppendEntries node peerId request = .ok (node.onAppendEntries peerId request) := by
  rw [onAppendEntries, RaftNode.onAppendEntries]
  refine ite_eq_ok fun _ => ite_eq_ok fun _ => ite_eq_ok fun _ => ?_
  dsimp only
  rw [handleAppendEntries_eq node.metadata node.commitIndex hr.prevLogIndex hlog, ok_bind]
  have hnew : (DistributedKV.handleAppendEntries node.metadata node.log node.commitIndex
      request).commitIndex < 2 ^ 64 :=
    (commitIndex_handleAppendEntries _ _ _ _).trans_lt (max_lt hcommit hr.leaderCommit)
  revert hnew
  rcases DistributedKV.handleAppendEntries node.metadata node.log node.commitIndex request with
    ⟨metadata, log, commitIndex, (_ | _ | _) | reply⟩
  · exact fun _ => rfl
  · exact fun _ => rfl
  · exact fun _ => rfl
  · intro hnew
    dsimp only at hnew ⊢
    split_ifs
    all_goals try rfl
    all_goals
      rw [applyReady_eq hnew, ok_bind]
      generalize RaftNode.applyReady _ _ = r
      rcases r with ⟨node', _ | actions⟩ <;> rfl

theorem followUp_eq (hlog : node.log.lastIndex + 1 < 2 ^ 64) (hcommit : node.commitIndex < 2 ^ 64)
    (peerId : ℕ) (outcome : AppendReplyOutcome) :
    followUp node peerId outcome = .ok (node.followUp peerId outcome) := by
  unfold followUp RaftNode.followUp
  cases outcome with
  | retry => exact queueAppend_eq hlog peerId {}
  | committed =>
    dsimp only
    have hsame : (node.applyReady {}).1.log = node.log := by
      rw [RaftNode.applyReady]
      rcases DistributedKV.applyCommitted node.log node.state node.commitIndex with
        ⟨state, e | applied⟩ <;> rfl
    rw [applyReady_eq hcommit, ok_bind]
    revert hsame
    rcases node.applyReady {} with ⟨node', _ | actions⟩
    · exact fun _ => rfl
    · intro hsame
      dsimp only at hsame ⊢
      rw [queueAppends_eq (hsame ▸ hlog), ok_bind]
      rcases node'.queueAppends node'.peers actions with ⟨node'', _ | actions'⟩ <;> rfl
  | recorded =>
    dsimp only
    cases node.leader.bind fun leader => leader.progress peerId with
    | none => rfl
    | some progress =>
      dsimp only
      split_ifs
      · exact queueAppend_eq hlog peerId {}
      · rfl
  | ignored | steppedDown | inconsistentFollower | persistenceError => rfl

/-- The new commit index is the old one or within the log. -/
theorem commitIndex_handleReply (leader : RaftLeaderReplication) (election : RaftElection)
    (metadata : PersistentMetadata) (log : PersistentLog) (commitIndex peerId : ℕ)
    (sentRequest : AppendEntries) (reply : AppendEntriesReply) :
    (leader.handleReply election metadata log commitIndex peerId sentRequest reply).commitIndex ≤
      max commitIndex log.lastIndex := by
  unfold RaftLeaderReplication.handleReply
  have hself : commitIndex ≤ max commitIndex log.lastIndex := le_max_left _ _
  cases leader.findPeer peerId with
  | none => exact hself
  | some i =>
    dsimp only
    split_ifs
    · exact hself
    · split <;> exact hself
    · exact hself
    · exact hself
    · exact hself
    · split
      · next hadvance =>
        obtain ⟨k, e, rfl, -, he, -⟩ := RaftLeaderReplication.advanceCommitIndex_eq_some hadvance
        have hk := (List.getElem?_eq_some_iff.1 he).1
        rw [PersistentLog.length_log] at hk
        exact le_max_of_le_right hk
      · exact hself

theorem onAppendReply_eq (hlog : node.log.lastIndex + 1 < 2 ^ 64)
    (hcommit : node.commitIndex < 2 ^ 64)
    (hwords : ∀ leader, node.leader = some leader → ∀ i, PeerWords (leader.peers i)) (peerId : ℕ)
    (sentRequest : AppendEntries) (reply : AppendEntriesReply) :
    onAppendReply node peerId sentRequest reply =
      .ok (node.onAppendReply peerId sentRequest reply) := by
  unfold onAppendReply
  cases hl : node.leader with
  | none =>
    unfold RaftNode.onAppendReply
    rw [hl]
    split_ifs <;> rfl
  | some leader =>
    unfold RaftNode.onAppendReply
    rw [hl]
    refine ite_eq_ok fun _ => ite_eq_ok fun _ => ?_
    dsimp only
    rw [handleReply_eq (hwords leader hl), ok_bind]
    have hnew : (leader.handleReply node.election node.metadata node.log node.commitIndex peerId
        sentRequest reply).commitIndex < 2 ^ 64 :=
      (commitIndex_handleReply _ _ _ _ _ _ _ _).trans_lt (max_lt hcommit (by omega))
    revert hnew
    rcases leader.handleReply node.election node.metadata node.log node.commitIndex peerId
      sentRequest reply with ⟨leader', metadata, commitIndex, outcome⟩
    intro hnew
    dsimp only at hnew ⊢
    cases outcome with
    | persistenceError | inconsistentFollower | steppedDown => rfl
    | ignored | retry | recorded | committed =>
      dsimp only
      rw [followUp_eq (by exact hlog) hnew, ok_bind]
      generalize RaftNode.followUp _ _ _ = r
      rcases r with ⟨node', _ | actions⟩ <;> rfl

theorem appendAsLeader_eq (command : Command) :
    appendAsLeader node command = .ok (node.appendAsLeader command) := by
  rw [appendAsLeader, RaftNode.appendAsLeader]
  refine ite_eq_ok fun _ => ?_
  cases node.leader with
  | none => rfl
  | some leader =>
    refine ite_eq_ok fun _ => ?_
    rw [appendCommand_eq, ok_bind]
    have hroom := @lastIndex_appendCommand leader node.election node.metadata node.log command
    revert hroom
    rcases leader.appendCommand node.election node.metadata node.log command with
      ⟨leader', log', e | index⟩
    · intro _
      cases e <;> rfl
    intro hroom
    obtain ⟨hlast, -⟩ := hroom rfl
    dsimp only at hlast ⊢
    rw [queueAppends_eq hlast, ok_bind]
    generalize RaftNode.queueAppends _ _ _ = r
    rcases r with ⟨node', _ | actions⟩ <;> rfl

theorem propose_eq (command : Command) : propose node command = .ok (node.propose command) := by
  rw [propose, RaftNode.propose]
  refine ite_eq_ok fun _ => ?_
  cases node.leader with
  | none => rfl
  | some leader =>
    dsimp only
    refine ite_eq_ok fun _ => ite_eq_ok fun _ => appendAsLeader_eq command

/-- The node takes read barriers. -/
def TakesReads (node : RaftNode) : Prop :=
  node.stopped = false ∧ node.nextReadId ≠ 0 ∧
    ∃ leader, node.leader = some leader ∧ node.leaderActive leader = true

/-- A read barrier computes nothing, or it gives out the next id. -/
theorem readBarrier_cases (node : RaftNode) :
    (¬ TakesReads node ∧ readBarrier node = .ok node.readBarrier ∧
      RaftNodeResult.startedReadId node.readBarrier.2 = none) ∨
    (RaftNodeResult.startedReadId node.readBarrier.2 = some node.nextReadId ∧
      node.readBarrier.1.nextReadId = (node.nextReadId + 1) % 2 ^ 64 ∧
      (node.nextReadId + 1 < 2 ^ 64 → readBarrier node = .ok node.readBarrier) ∧
      (¬ node.nextReadId + 1 < 2 ^ 64 → readBarrier node = .error .wrap)) := by
  unfold readBarrier RaftNode.readBarrier
  by_cases hs : node.stopped = true
  · rw [if_pos hs, if_pos hs]
    exact Or.inl ⟨fun h => by simp [h.1] at hs, rfl, rfl⟩
  rw [if_neg hs, if_neg hs]
  cases hl : node.leader with
  | none => exact Or.inl ⟨fun h => by simp [TakesReads, hl] at h, rfl, rfl⟩
  | some leader =>
    dsimp only
    by_cases ha : node.leaderActive leader = false
    · rw [if_pos ha, if_pos ha]
      exact Or.inl ⟨fun h => by simp [TakesReads, hl, ha] at h, rfl, rfl⟩
    rw [if_neg ha, if_neg ha]
    by_cases h0 : node.nextReadId = 0
    · rw [if_pos h0, if_pos h0]
      exact Or.inl ⟨fun h => h.2.1 h0, rfl, rfl⟩
    rw [if_neg h0, if_neg h0]
    have hsame := RaftNode.startWaitingReads_entries { node with
      nextReadId := (node.nextReadId + 1) % 2 ^ 64
      readRounds := OrderedMap.emplace node.nextReadId none node.readRounds }
      { startedReadId := some node.nextReadId }
    rw [hl] at hsame
    refine Or.inr ⟨hsame.startedReadId, hsame.nextReadId, fun hlt => ?_, fun hge => ?_⟩
    · rw [add_eq hlt, ok_bind, Nat.mod_eq_of_lt hlt]
    · rw [add, if_neg hge]
      rfl

/-- A call, unless it gives out the last id. -/
theorem readBarrier_eq (h : node.nextReadId < 2 ^ 64)
    (hid : RaftNodeResult.startedReadId node.readBarrier.2 ≠ some uint64Max) :
    readBarrier node = .ok node.readBarrier := by
  rcases readBarrier_cases node with ⟨-, heq, -⟩ | ⟨hstarted, -, heq, -⟩
  · exact heq
  · rw [hstarted, Ne, Option.some_inj, uint64Max] at hid
    exact heq (by omega)

/-- **The increment after the last id wraps**: the counter is zero from then on. -/
theorem readBarrier_last (hid : RaftNodeResult.startedReadId node.readBarrier.2 = some uint64Max) :
    readBarrier node = .error .wrap ∧ node.readBarrier.1.nextReadId = 0 := by
  rcases readBarrier_cases node with ⟨-, -, hnone⟩ | ⟨hstarted, hnext, -, hwrap⟩
  · rw [hnone] at hid
    cases hid
  · rw [hstarted, Option.some_inj] at hid
    rw [hnext, hid]
    exact ⟨hwrap (by rw [hid, uint64Max]; decide), rfl⟩

/-! ## Any call -/

/-- A stopped node computes nothing. -/
theorem call_of_stopped (h : node.stopped = true) (c : NodeCall) :
    call node c = .ok (node.call c) := by
  rw [RaftNode.call_of_stopped h]
  cases c <;>
    simp only [call, onElectionTimeout, onHeartbeatTimeout, RaftNode.onRequestVote, onVoteReply,
      onAppendEntries, onAppendReply, propose, readBarrier, h, if_true]

/-- What a node has recorded leaves room for the handlers' arithmetic. -/
structure Room (node : RaftNode) : Prop where
  term : node.term < 2 ^ 64
  log : node.log.lastIndex + 1 < 2 ^ 64
  commitIndex : node.commitIndex < 2 ^ 64
  peers : ∀ leader, node.leader = some leader → ∀ i, PeerWords (leader.peers i)
  nextReadId : node.nextReadId < 2 ^ 64

/-- **No call goes wrong**, except the read barrier that gives out the last id. -/
theorem call_eq (h : Room node) {c : NodeCall} (hc : c.InRange)
    (hid : RaftNodeResult.startedReadId (node.call c).2 ≠ some uint64Max) :
    call node c = .ok (node.call c) := by
  cases c with
  | electionTimeout => exact onElectionTimeout_eq h.term
  | heartbeatTimeout => exact onHeartbeatTimeout_eq h.log
  | requestVote peerId request => rfl
  | voteReply peerId reply => exact onVoteReply_eq h.log peerId reply
  | appendEntries peerId request => exact onAppendEntries_eq h.log h.commitIndex peerId hc
  | appendReply peerId sentRequest reply =>
    exact onAppendReply_eq h.log h.commitIndex h.peers peerId sentRequest reply
  | propose command => exact propose_eq command
  | readBarrier => exact readBarrier_eq h.nextReadId hid

end Machine

end DistributedKV
