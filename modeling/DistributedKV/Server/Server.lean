import DistributedKV.Cluster.World
import DistributedKV.Wire.ClientWire
import DistributedKV.Wire.RaftWire

/-!
# The server

The class `Server` of `raft_server.cpp`: a node, the clients that wait for it, and the loop that
feeds it. A socket is a number, given out in the order in which connections are accepted. What an
event puts out is recorded in the server: the replies to clients as they are passed to
`send_client_reply` and its siblings, and the Raft frames that could be encoded. A frame that a
peer does not take is lost on the way.
-/

namespace DistributedKV

/-- A reply that a server passes to one of the three functions that send one. -/
inductive ClientReply
  | write (reply : ClientWriteReply)
  | read (reply : ClientReadReply)
  | status (reply : ClientStatusReply)
  deriving DecidableEq

structure PendingWrite where
  connections : List ℕ
  term : ℕ
  command : Command
  deriving DecidableEq

/-- The same reply to all clients of a pending write. -/
def PendingWrite.answers (pending : PendingWrite) (reply : ClientWriteReply) :
    List (ℕ × ClientReply) :=
  pending.connections.map fun connection => (connection, .write reply)

structure PendingRead where
  connection : ℕ
  term : ℕ
  key : Bytes
  deriving DecidableEq

structure Server where
  node : RaftNode
  blockedPeers : ℕ → Bool := fun _ => false
  pendingWrites : List (ℕ × PendingWrite) := []
  pendingReads : List (ℕ × PendingRead) := []
  consoleLine : Bytes := []
  discardingLine : Bool := false
  running : Bool := true
  fatal : Bool := false
  /-- `run` has returned. -/
  returned : Bool := false
  /-- What the last event put out. -/
  replies : List (ℕ × ClientReply) := []
  sent : List Envelope := []

/-- The errors after which a server gives up. -/
def RaftNodeError.isFatal : RaftNodeError → Bool
  | .persistenceError => true
  | .inconsistentState => true
  | .termExhausted => true
  | .stopped => true
  | _ => false

/-- `client_role`. -/
def clientRole : RaftRole → ClientNodeRole
  | .follower => .follower
  | .candidate => .candidate
  | .leader => .leader

/-- The bound on the clients of one pending write, and on the pending requests. -/
def maxPending : ℕ := 1024

/-- The longest console line. -/
def maxConsoleLine : ℕ := 1024 * 1024

namespace Server

/-- `known_leader().value_or(0)`. -/
def leaderHint (server : Server) : ℕ := server.node.knownLeader.getD 0

def reply (server : Server) (connection : ℕ) (reply : ClientReply) : Server :=
  { server with replies := server.replies ++ [(connection, reply)] }

def replyAll (server : Server) (replies : List (ℕ × ClientReply)) : Server :=
  { server with replies := server.replies ++ replies }

/-! ## Draining the pending requests -/

/-- The reply of `fail_pending` and `expire_pending` to the clients of some writes. -/
def unknownOutcomes (server : Server) (writes : List (ℕ × PendingWrite)) :
    List (ℕ × ClientReply) :=
  writes.flatMap fun p => p.2.answers ⟨.outcomeUnknown, p.2.term, p.1, server.leaderHint⟩

def failPending (server : Server) : Server :=
  { server.replyAll (server.unknownOutcomes server.pendingWrites ++
      server.pendingReads.map fun p => (p.2.connection,
        .read ⟨.internalError, p.2.term, 0, server.leaderHint, none⟩)) with
    pendingWrites := []
    pendingReads := [] }

/-- The node still leads the term in which a request was accepted. -/
def current (server : Server) (term : ℕ) : Bool :=
  server.node.role = .leader ∧ term = server.node.term

def expirePending (server : Server) : Server :=
  let expiredWrites := server.pendingWrites.filter fun p => !server.current p.2.term
  let expiredReads := server.pendingReads.filter fun p => !server.current p.2.term
  { server.replyAll (server.unknownOutcomes expiredWrites ++
      expiredReads.map fun p => (p.2.connection,
        .read ⟨.notLeader, server.node.term, 0, server.leaderHint, none⟩)) with
    pendingWrites := server.pendingWrites.filter fun p => server.current p.2.term
    pendingReads := server.pendingReads.filter fun p => server.current p.2.term }

/-- The server gives up. -/
def fail (server : Server) : Server := { server.failPending with fatal := true, running := false }

/-! ## What a call of the node leads to -/

/-- The answer to a request that has been applied, given what the node has recorded for it. -/
def requestReply (server : Server) (prior : Option AppliedRequest) (command : Command) :
    ClientWriteReply :=
  match prior with
  | some prior =>
    if prior.command = command then ⟨.committed, prior.term, prior.index, server.node.selfId⟩
    else ⟨.invalidRequest, server.node.term, 0, server.node.selfId⟩
  | none => ⟨.invalidRequest, server.node.term, 0, server.node.selfId⟩

/-- What the node has recorded for the request of a command. -/
def prior (server : Server) (command : Command) : Option AppliedRequest :=
  command.requestId.bind server.node.requestResult

/-- One turn of the loop over the applied entries. -/
def answerWrite (server : Server) (entry : AppliedLogEntry) : Server :=
  match OrderedMap.find entry.index server.pendingWrites with
  | none => server
  | some pending =>
    { server.replyAll
        (pending.answers (server.requestReply (server.prior pending.command) pending.command)) with
      pendingWrites := OrderedMap.erase entry.index server.pendingWrites }

/-- The answer to a read that is ready. -/
def readReply (server : Server) (pending : PendingRead) (ready : ReadyRead) : ClientReadReply :=
  let value := server.node.get pending.key
  ⟨if value.isSome then .found else .notFound, pending.term, ready.index, server.node.selfId, value⟩

/-- One turn of the loop over the reads that are ready. -/
def answerRead (server : Server) (ready : ReadyRead) : Server :=
  match OrderedMap.find ready.id server.pendingReads with
  | none => server
  | some pending =>
    { server.reply pending.connection (.read (server.readReply pending ready)) with
      pendingReads := OrderedMap.erase ready.id server.pendingReads }

/-- The loop over the messages. -/
def sendMessages (server : Server) (repliedTo : Option AppendEntries) :
    List OutboundRaftMessage → Server
  | [] => server
  | outbound :: messages =>
    if server.blockedPeers outbound.peerId then server.sendMessages repliedTo messages
    else
      let frame := envelope server.node.selfId repliedTo outbound
      match encodeRaftEnvelope ⟨frame.sender, frame.message, frame.repliedTo⟩ with
      | .error _ => server.fail
      -- An unavailable peer is retried by the next election or heartbeat.
      | .ok _ => { server with sent := server.sent ++ [frame] }.sendMessages repliedTo messages

def process (server : Server) (result : RaftNodeResult) (repliedTo : Option AppendEntries) :
    Server :=
  let server := server.expirePending
  match result with
  | .error error => if error.isFatal then server.fail else server
  | .ok actions =>
    let server := actions.applied.foldl answerWrite server
    let server := actions.readyReads.foldl answerRead server
    server.sendMessages repliedTo actions.messages

/-- A call of the node, with what its writes meet. -/
def call (server : Server) (faults : Faults) (c : NodeCall) : Server × RaftNodeResult :=
  match (server.node.withFaults faults).call c with
  | (node, result) => ({ server with node }, result)

/-- A call of the node whose result is processed. -/
def perform (server : Server) (faults : Faults) (c : NodeCall)
    (repliedTo : Option AppendEntries) : Server :=
  match server.call faults c with
  | (server, result) => server.process result repliedTo

/-! ## Clients -/

/-- The end of `handle_client_write`: the command is proposed. -/
def proposeWrite (server : Server) (connection : ℕ) (faults : Faults) (command : Command) :
    Server :=
  let term := server.node.term
  match server.call faults (.propose command) with
  | (server, result) =>
    let refuse (status : ClientWriteStatus) : Server :=
      server.reply connection (.write ⟨status, server.node.term, 0, server.leaderHint⟩)
    match result with
    | .error .notLeader => refuse .notLeader
    | .error .invalidCommand => refuse .invalidRequest
    | .error _ => (refuse .internalError).process result none
    | .ok actions =>
      match actions.proposedIndex with
      | none => refuse .internalError
      | some index =>
        { server with
          pendingWrites := OrderedMap.emplace index ⟨[connection], term, command⟩
            server.pendingWrites }.process result none

def handleClientWrite (server : Server) (connection : ℕ) (faults : Faults) (bytes : Bytes) :
    Server :=
  let refuse (status : ClientWriteStatus) (hint : ℕ) : Server :=
    server.reply connection (.write ⟨status, server.node.term, 0, hint⟩)
  match decodeClientRequest bytes with
  | .error _ => refuse .invalidRequest 0
  | .ok ⟨command⟩ =>
    if server.node.role ≠ .leader then refuse .notLeader server.leaderHint
    else if (server.prior command).isSome then
      server.reply connection (.write (server.requestReply (server.prior command) command))
    else match server.pendingWrites.find? fun p => p.2.command.requestId = command.requestId with
      | some (index, pending) =>
        if pending.command ≠ command then refuse .invalidRequest server.node.selfId
        else if maxPending ≤ pending.connections.length then refuse .busy server.node.selfId
        else
          -- The retry waits for the same entry.
          { server with
            pendingWrites := OrderedMap.modify index
              (fun p => { p with connections := p.connections ++ [connection] })
              server.pendingWrites }
      | none =>
        if maxPending ≤ server.pendingWrites.length + server.pendingReads.length then
          refuse .busy server.node.selfId
        else server.proposeWrite connection faults command

/-- The end of `handle_client_read`: a read barrier is started. -/
def startRead (server : Server) (connection : ℕ) (faults : Faults) (key : Bytes) : Server :=
  let term := server.node.term
  match server.call faults .readBarrier with
  | (server, result) =>
    let refuse (status : ClientReadStatus) : Server :=
      server.reply connection (.read ⟨status, server.node.term, 0, server.leaderHint, none⟩)
    match result with
    | .error .notLeader => refuse .notLeader
    | .error _ => (refuse .internalError).process result none
    | .ok actions =>
      match actions.startedReadId with
      | none => refuse .internalError
      | some id =>
        { server with
          pendingReads := OrderedMap.emplace id ⟨connection, term, key⟩
            server.pendingReads }.process result none

def handleClientRead (server : Server) (connection : ℕ) (faults : Faults) (bytes : Bytes) :
    Server :=
  let refuse (status : ClientReadStatus) (hint : ℕ) : Server :=
    server.reply connection (.read ⟨status, server.node.term, 0, hint, none⟩)
  match decodeClientReadRequest bytes with
  | .error _ => refuse .invalidRequest 0
  | .ok ⟨key⟩ =>
    if server.node.role ≠ .leader then refuse .notLeader server.leaderHint
    else if maxPending ≤ server.pendingWrites.length + server.pendingReads.length then
      refuse .busy server.node.selfId
    else server.startRead connection faults key

def peerStatus (server : Server) (peerId : ℕ) : ClientPeerStatus :=
  match server.node.peerProgress peerId with
  | some progress => ⟨peerId, progress.nextIndex, progress.matchIndex⟩
  | none => ⟨peerId, 0, 0⟩

/-- The reply to a well-formed status request. -/
def status (server : Server) : ClientStatusReply where
  status := .ok
  nodeId := server.node.selfId
  role := clientRole server.node.role
  term := server.node.term
  knownLeader := server.leaderHint
  lastIndex := server.node.lastIndex
  commitIndex := server.node.commitIndex
  lastApplied := server.node.lastApplied
  peers := (server.peerStatus (server.node.peerIds 0), server.peerStatus (server.node.peerIds 1))

def handleClientStatus (server : Server) (connection : ℕ) (bytes : Bytes) : Server :=
  match decodeClientStatusRequest bytes with
  | .error _ => server.reply connection (.status {})
  | .ok _ => server.reply connection (.status server.status)

/-! ## Peers -/

def handleEnvelope (server : Server) (faults : Faults) (envelope : RaftEnvelope) : Server :=
  let sender := envelope.senderId
  if sender < 1 ∨ 3 < sender ∨ sender = server.node.selfId then server
  else if server.blockedPeers sender then server
  else match envelope.message with
    | .requestVote value => server.perform faults (.requestVote sender value) none
    | .requestVoteReply value => server.perform faults (.voteReply sender value) none
    | .appendEntries value => server.perform faults (.appendEntries sender value) (some value)
    | .appendEntriesReply value =>
      match envelope.repliedTo with
      | none => server
      | some request => server.perform faults (.appendReply sender request value) none

/-- `receive_one` on an accepted connection; `none` where no frame arrives. -/
def receiveOne (server : Server) (connection : ℕ) (faults : Faults) : Option Bytes → Server
  | none => server
  | some bytes =>
    if bytes[1]? = some 5 then server.handleClientWrite connection faults bytes
    else if bytes[1]? = some 7 then server.handleClientRead connection faults bytes
    else if bytes[1]? = some 9 then server.handleClientStatus connection bytes
    else match decodeRaftEnvelope bytes with
      | .error _ => server
      | .ok envelope => server.handleEnvelope faults envelope

/-! ## The console -/

/-- `std::isspace` in the classic locale. -/
def isSpace (b : UInt8) : Bool := b = 32 ∨ 9 ≤ b ∧ b ≤ 13

/-- `input >> word` on a string stream; `none` where it fails. -/
def nextWord (input : Bytes) : Option (Bytes × Bytes) :=
  let input := input.dropWhile isSpace
  if input = [] then none
  else some (input.takeWhile fun b => !isSpace b, input.dropWhile fun b => !isSpace b)

def ascii (text : String) : Bytes := text.toList.map fun c => c.toNat.toUInt8

/-- `std::from_chars` on the whole of a word, for a peer id other than the own one. -/
def parsePeer (server : Server) (text : Bytes) : Option ℕ :=
  if text.all fun b => 48 ≤ b && b ≤ 57 then
    let peer := text.foldl (fun n b => 10 * n + (b.toNat - 48)) 0
    if peer < 1 ∨ 3 < peer ∨ peer = server.node.selfId then none else some peer
  else none

/-- `handle_console_line`. `status` and `inspect` only print. -/
def handleConsoleLine (server : Server) (faults : Faults) (line : Bytes) : Server :=
  match nextWord line with
  | none => server
  | some (operation, input) =>
    if operation = ascii "quit" then { server with running := false }
    else if operation = ascii "block" ∨ operation = ascii "unblock" then
      match nextWord input with
      | none => server
      | some (peerText, input) =>
        if (nextWord input).isSome then server
        else match server.parsePeer peerText with
          | none => server
          | some peer =>
            { server with
              blockedPeers := Function.update server.blockedPeers peer
                (operation = ascii "block") }
    else match nextWord input with
      | none => server
      | some (key, input) =>
        if operation = ascii "put" then
          server.perform faults (.propose { type := .put, key, value := input.dropWhile isSpace })
            none
        else if operation = ascii "delete" then
          server.perform faults (.propose { type := .delete, key }) none
        else server

/-- `read_console` on one character. -/
def readConsole (server : Server) (faults : Faults) (character : UInt8) : Server :=
  if server.discardingLine then { server with discardingLine := character ≠ 10 }
  else if character = 10 then
    { server.handleConsoleLine faults server.consoleLine with consoleLine := [] }
  else if server.consoleLine.length < maxConsoleLine then
    { server with consoleLine := server.consoleLine ++ [character] }
  else { server with consoleLine := [], discardingLine := true }

/-! ## The loop -/

/-- What `run` meets. -/
inductive Event
  | accept (frame : Option Bytes)
  | console (character : UInt8)
  | deadline
  | pollFailure
  | finish
  deriving DecidableEq

/-- The deadline of the current role has passed. -/
def timeout (server : Server) (faults : Faults) : Server :=
  if server.node.role = .leader then server.perform faults .heartbeatTimeout none
  else server.perform faults .electionTimeout none

/-- Nothing has been put out yet. -/
def silent (server : Server) : Server := { server with replies := [], sent := [] }

/-- One step of `run`; `none` where it is not possible. A turn of the loop in which the server
stops still reads the console. -/
def step (server : Server) (connection : ℕ) (faults : Faults) (event : Event) : Option Server :=
  let server := server.silent
  if server.returned then none
  else match event with
    | .accept frame =>
      if server.running then some (server.receiveOne connection faults frame) else none
    | .console character => some (server.readConsole faults character)
    | .deadline => if server.running then some (server.timeout faults) else none
    | .pollFailure =>
      if server.running then some { server.failPending with fatal := true, returned := true }
      else none
    | .finish =>
      if server.running then none else some { server.failPending with returned := true }

end Server

end DistributedKV
