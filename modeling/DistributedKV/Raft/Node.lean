import DistributedKV.Foundations.OrderedMap
import DistributedKV.Raft.Apply
import DistributedKV.Raft.Leader

/-!
# A Raft node

`raft_node.cpp`: one event at a time. A handler takes the node and returns it with the actions
that the caller performs, or with an error.
-/

namespace DistributedKV

inductive RaftMessage
  | requestVote (request : RequestVote)
  | requestVoteReply (reply : RequestVoteReply)
  | appendEntries (request : AppendEntries)
  | appendEntriesReply (reply : AppendEntriesReply)
  deriving DecidableEq

structure OutboundRaftMessage where
  peerId : ℕ
  message : RaftMessage
  deriving DecidableEq

structure ReadyRead where
  id : ℕ
  index : ℕ
  deriving DecidableEq

structure RaftNodeActions where
  messages : List OutboundRaftMessage := []
  applied : List AppliedLogEntry := []
  readyReads : List ReadyRead := []
  proposedIndex : Option ℕ := none
  startedReadId : Option ℕ := none
  resetElectionTimer : Bool := false
  scheduleHeartbeat : Bool := false
  deriving DecidableEq

inductive RaftNodeError
  | invalidPeer
  | invalidRequest
  | notLeader
  | invalidCommand
  | termExhausted
  | persistenceError
  | inconsistentState
  | stopped
  deriving DecidableEq, Repr

abbrev RaftNodeResult := Except RaftNodeError RaftNodeActions

/-- What a node's data directory holds. -/
structure Disk where
  metadata : RaftMetadata := {}
  log : List LogEntry := []
  deriving DecidableEq

structure RaftNode where
  selfId : ℕ
  peerIds : Fin 2 → ℕ
  metadata : PersistentMetadata
  log : PersistentLog
  commitIndex : ℕ := 0
  state : KvStateMachine := {}
  election : RaftElection
  leader : Option RaftLeaderReplication := none
  readRounds : List (ℕ × Option AppendEntries) := []
  nextReadId : ℕ := 1
  knownLeader : Option ℕ := none
  stopped : Bool := false

namespace RaftNode

/-- `RaftNode::open` on a data directory with readable and whole files; `none` for
`InvalidConfiguration`. On a torn log file `open` ends with `LogError`. The disk has no such file: in
a run of the cluster the member is one that is not restarted, and `FileWorld` adds what is torn. -/
def openFrom (selfId : ℕ) (peerIds : Fin 2 → ℕ) (disk : Disk) : Option RaftNode :=
  if peerIds 0 = peerIds 1 ∨ peerIds 0 = selfId ∨ peerIds 1 = selfId then none
  else some
    { selfId
      peerIds
      metadata := .openFrom disk.metadata
      log := .openFrom disk.log
      election := { selfId, peerIds } }

def role (node : RaftNode) : RaftRole := node.election.role node.metadata

def term (node : RaftNode) : ℕ := node.metadata.state.currentTerm

def lastIndex (node : RaftNode) : ℕ := node.log.lastIndex

def lastApplied (node : RaftNode) : ℕ := node.state.lastApplied

def get (node : RaftNode) (key : Bytes) : Option Bytes := node.state.get key

def requestResult (node : RaftNode) (id : RequestId) : Option AppliedRequest :=
  node.state.requestResult id

/-- `leader_->active()`. -/
def leaderActive (node : RaftNode) (leader : RaftLeaderReplication) : Bool :=
  leader.active node.election node.metadata

def peerProgress (node : RaftNode) (peerId : ℕ) : Option PeerProgress :=
  match node.leader with
  | some leader => if node.leaderActive leader then leader.progress peerId else none
  | none => none

/-- What a reopen would recover. -/
def disk (node : RaftNode) : Disk := ⟨node.metadata.durable, node.log.durable⟩

def isPeer (node : RaftNode) (peerId : ℕ) : Bool :=
  peerId = node.peerIds 0 ∨ peerId = node.peerIds 1

/-- The loop `for (const auto peer_id : peer_ids_)`. -/
def peers (node : RaftNode) : List ℕ := [node.peerIds 0, node.peerIds 1]

/-- The same message to both peers. -/
def broadcast (node : RaftNode) (message : RaftMessage) : List OutboundRaftMessage :=
  node.peers.map fun peerId => ⟨peerId, message⟩

def dropLeadership (node : RaftNode) : RaftNode :=
  { node with leader := none, readRounds := [], knownLeader := none }

def stop (node : RaftNode) (error : RaftNodeError) : RaftNode × RaftNodeResult :=
  ({ node.dropLeadership with stopped := true }, .error error)

/-- `queue_append`; `none` where it returns false. -/
def queueAppend (node : RaftNode) (peerId : ℕ) (actions : RaftNodeActions) :
    RaftNode × Option RaftNodeActions :=
  match node.leader with
  | none => (node, none)
  | some leader =>
    -- Keep socket frames bounded even when the log has a long backlog.
    match leader.makeRequest node.election node.metadata node.log node.commitIndex peerId 4 with
    | (leader, .ok request) =>
      ({ node with leader := some leader },
        some { actions with messages := actions.messages ++ [⟨peerId, .appendEntries request⟩] })
    | (leader, .error _) => ({ node with leader := some leader }, none)

/-- `queue_append` for every peer in turn. -/
def queueAppends (node : RaftNode) : List ℕ → RaftNodeActions → RaftNode × Option RaftNodeActions
  | [], actions => (node, some actions)
  | peerId :: peerIds, actions =>
    match node.queueAppend peerId actions with
    | (node, some actions) => node.queueAppends peerIds actions
    | (node, none) => (node, none)

/-- `apply_ready`; `none` where it returns false. -/
def applyReady (node : RaftNode) (actions : RaftNodeActions) :
    RaftNode × Option RaftNodeActions :=
  match applyCommitted node.log node.state node.commitIndex with
  | (state, .ok applied) => ({ node with state }, some { actions with applied })
  | (state, .error _) => ({ node with state }, none)

def currentTermCommitted (node : RaftNode) : Bool :=
  if node.commitIndex = 0 ∨ node.lastApplied < node.commitIndex then false
  else match node.log.entryAt node.commitIndex with
    | none => false
    | some entry => entry.term = node.term

/-- The heartbeat that confirms leadership for a read. -/
def readProbe (node : RaftNode) (id : ℕ) : AppendEntries :=
  ⟨node.term, node.selfId, 0, 0, [], node.commitIndex, id⟩

def startWaitingReads (node : RaftNode) (actions : RaftNodeActions) :
    RaftNode × RaftNodeActions :=
  if node.currentTermCommitted = false then (node, actions)
  else
    ({ node with
        readRounds := node.readRounds.map fun p => (p.1, some (p.2.getD (node.readProbe p.1))) },
      { actions with
        messages := actions.messages ++ node.readRounds.flatMap fun p =>
          match p.2 with
          | some _ => []
          | none => node.broadcast (.appendEntries (node.readProbe p.1)) })

def onElectionTimeout (node : RaftNode) : RaftNode × RaftNodeResult :=
  if node.stopped then (node, .error .stopped)
  else match node.election.startElection node.metadata node.log with
    | (election, metadata, result) =>
      let node := { node with election, metadata }
      match result with
      | .error .alreadyLeader => (node, .ok {})
      | .error .termExhausted => node.stop .termExhausted
      | .error .persistenceError => node.stop .persistenceError
      | .ok request =>
        (node.dropLeadership,
          .ok { resetElectionTimer := true, messages := node.broadcast (.requestVote request) })

def onHeartbeatTimeout (node : RaftNode) : RaftNode × RaftNodeResult :=
  if node.stopped then (node, .error .stopped)
  else match node.leader with
    | none => (node, .ok {})
    | some leader =>
      if node.leaderActive leader = false then (node.dropLeadership, .ok {})
      else match node.queueAppends node.peers { scheduleHeartbeat := true } with
        | (node, none) => node.stop .inconsistentState
        | (node, some actions) =>
          let probes := node.readRounds.flatMap fun p =>
            match p.2 with
            | some probe => node.broadcast (.appendEntries probe)
            | none => []
          (node, .ok { actions with messages := actions.messages ++ probes })

def onRequestVote (node : RaftNode) (peerId : ℕ) (request : RequestVote) :
    RaftNode × RaftNodeResult :=
  if node.stopped then (node, .error .stopped)
  else if node.isPeer peerId = false then (node, .error .invalidPeer)
  else if request.candidateId ≠ peerId then (node, .error .invalidRequest)
  else
    let oldTerm := node.term
    match handleRequestVote node.metadata node.log request with
    | (metadata, .error _) => { node with metadata }.stop .persistenceError
    | (metadata, .ok reply) =>
      let node := { node with metadata }
      let node := if oldTerm < node.term then node.dropLeadership else node
      (node, .ok
        { resetElectionTimer := oldTerm < node.term ∨ reply.voteGranted
          messages := [⟨peerId, .requestVoteReply reply⟩] })

def onVoteReply (node : RaftNode) (peerId : ℕ) (reply : RequestVoteReply) :
    RaftNode × RaftNodeResult :=
  if node.stopped then (node, .error .stopped)
  else if node.isPeer peerId = false then (node, .error .invalidPeer)
  else match node.election.handleVoteReply node.metadata peerId reply with
    | (election, metadata, outcome) =>
      let node := { node with election, metadata }
      match outcome with
      | .persistenceError => node.stop .persistenceError
      | .steppedDown => (node.dropLeadership, .ok { resetElectionTimer := true })
      | .ignored | .recorded => (node, .ok {})
      | .becameLeader =>
        let node := { node with knownLeader := some node.selfId }
        match RaftLeaderReplication.create node.election node.metadata node.log
            node.commitIndex with
        | none => node.stop .inconsistentState
        | some leader =>
          match leader.appendCommand node.election node.metadata node.log {} with
          | (leader, log, .error _) =>
            { node with leader := some leader, log }.stop .persistenceError
          | (leader, log, .ok _) =>
            let node := { node with leader := some leader, log }
            match node.queueAppends node.peers { scheduleHeartbeat := true } with
            | (node, none) => node.stop .inconsistentState
            | (node, some actions) => (node, .ok actions)

def onAppendEntries (node : RaftNode) (peerId : ℕ) (request : AppendEntries) :
    RaftNode × RaftNodeResult :=
  if node.stopped then (node, .error .stopped)
  else if node.isPeer peerId = false then (node, .error .invalidPeer)
  else if request.leaderId ≠ peerId then (node, .error .invalidRequest)
  else
    let oldTerm := node.term
    match handleAppendEntries node.metadata node.log node.commitIndex request with
    | ⟨metadata, log, commitIndex, result⟩ =>
      let node := { node with metadata, log, commitIndex }
      let node := if oldTerm < node.term then node.dropLeadership else node
      match result with
      | .error .invalidRequest => (node, .error .invalidRequest)
      | .error .persistenceError => node.stop .persistenceError
      | .error .committedConflict => node.stop .inconsistentState
      | .ok reply =>
        let following : Bool := request.term ≠ 0 ∧ request.term = reply.term
        let node := if following then
          { { node with
              election := node.election.observeLeader node.metadata request.term }.dropLeadership
            with knownLeader := some peerId }
          else node
        let actions : RaftNodeActions := { resetElectionTimer := following }
        let replied (actions : RaftNodeActions) : RaftNodeActions :=
          { actions with messages := actions.messages ++ [⟨peerId, .appendEntriesReply reply⟩] }
        if reply.success then
          match node.applyReady actions with
          | (node, none) => node.stop .inconsistentState
          | (node, some actions) => (node, .ok (replied actions))
        else (node, .ok (replied actions))

/-- The part of `on_append_reply` that follows up on the outcome; `none` where it stops the node
with `InconsistentState`. -/
def followUp (node : RaftNode) (peerId : ℕ) (outcome : AppendReplyOutcome) :
    RaftNode × Option RaftNodeActions :=
  match outcome with
  | .retry => node.queueAppend peerId {}
  | .committed =>
    match node.applyReady {} with
    | (node, none) => (node, none)
    | (node, some actions) =>
      match node.queueAppends node.peers actions with
      | (node, none) => (node, none)
      | (node, some actions) =>
        match node.startWaitingReads actions with
        | (node, actions) => (node, some actions)
  | .recorded =>
    match node.leader.bind fun leader => leader.progress peerId with
    | none => (node, none)
    | some progress =>
      if progress.nextIndex ≤ node.lastIndex then node.queueAppend peerId {} else (node, some {})
  | _ => (node, some {})

/-- The end of `on_append_reply`: a fresh success of a read's probe completes the read. -/
def completeRead (node : RaftNode) (sentRequest : AppendEntries) (reply : AppendEntriesReply)
    (actions : RaftNodeActions) : RaftNode × RaftNodeResult :=
  if sentRequest.readContext ≠ 0 ∧ reply.term = node.term ∧ reply.success then
    match OrderedMap.find sentRequest.readContext node.readRounds with
    | some (some probe) =>
      if probe = sentRequest then
        let index := probe.leaderCommit
        if node.lastApplied < index then node.stop .inconsistentState
        else
          ({ node with readRounds := OrderedMap.erase sentRequest.readContext node.readRounds },
            .ok { actions with
              readyReads := actions.readyReads ++ [⟨sentRequest.readContext, index⟩] })
      else (node, .ok actions)
    | _ => (node, .ok actions)
  else (node, .ok actions)

def onAppendReply (node : RaftNode) (peerId : ℕ) (sentRequest : AppendEntries)
    (reply : AppendEntriesReply) : RaftNode × RaftNodeResult :=
  if node.stopped then (node, .error .stopped)
  else if node.isPeer peerId = false then (node, .error .invalidPeer)
  else match node.leader with
    | none =>
      if node.term < reply.term then
        match node.metadata.advanceTerm reply.term with
        | (metadata, .persisted) =>
          ({ node with metadata }.dropLeadership, .ok { resetElectionTimer := true })
        | (metadata, _) => { node with metadata }.stop .persistenceError
      else (node, .ok {})
    | some leader =>
      match leader.handleReply node.election node.metadata node.log node.commitIndex peerId
          sentRequest reply with
      | ⟨leader, metadata, commitIndex, outcome⟩ =>
        let node := { node with leader := some leader, metadata, commitIndex }
        match outcome with
        | .persistenceError => node.stop .persistenceError
        | .inconsistentFollower => node.stop .inconsistentState
        | .steppedDown => (node.dropLeadership, .ok { resetElectionTimer := true })
        | outcome =>
          match node.followUp peerId outcome with
          | (node, none) => node.stop .inconsistentState
          | (node, some actions) => node.completeRead sentRequest reply actions

def appendAsLeader (node : RaftNode) (command : Command) : RaftNode × RaftNodeResult :=
  if node.stopped then (node, .error .stopped)
  else match node.leader with
    | none => (node, .error .notLeader)
    | some leader =>
      if node.leaderActive leader = false then (node, .error .notLeader)
      else match leader.appendCommand node.election node.metadata node.log command with
        | (leader, log, result) =>
          let node := { node with leader := some leader, log }
          match result with
          | .error .invalidCommand => (node, .error .invalidCommand)
          | .error .persistenceError => node.stop .persistenceError
          | .error _ => node.stop .inconsistentState
          | .ok index =>
            match node.queueAppends node.peers { proposedIndex := some index } with
            | (node, none) => node.stop .inconsistentState
            | (node, some actions) => (node, .ok actions)

def propose (node : RaftNode) (command : Command) : RaftNode × RaftNodeResult :=
  if node.stopped then (node, .error .stopped)
  else match node.leader with
    | none => (node, .error .notLeader)
    | some leader =>
      if node.leaderActive leader = false then (node, .error .notLeader)
      else if command.type = .noOp then (node, .error .invalidCommand)
      else node.appendAsLeader command

def readBarrier (node : RaftNode) : RaftNode × RaftNodeResult :=
  if node.stopped then (node, .error .stopped)
  else match node.leader with
    | none => (node, .error .notLeader)
    | some leader =>
      if node.leaderActive leader = false then (node, .error .notLeader)
      else if node.nextReadId = 0 then node.stop .inconsistentState
      else
        let id := node.nextReadId
        let node :=
          { node with
            nextReadId := (id + 1) % 2 ^ 64
            readRounds := OrderedMap.emplace id none node.readRounds }
        match node.startWaitingReads { startedReadId := some id } with
        | (node, actions) => (node, .ok actions)

end RaftNode

end DistributedKV
