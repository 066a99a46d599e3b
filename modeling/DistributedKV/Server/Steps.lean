import DistributedKV.Server.Pending

/-!
# The steps of a server

What one event may do, case by case: `StepEnd` lists every way in which a client is answered at
once, is put among the pending requests or is refused by the node, and every other event calls the
node at most once and processes the result.
-/

namespace DistributedKV.Server

/-- The frame of a client that the event accepts. -/
def Event.client : Event → Option Bytes
  | .accept (some bytes) =>
    if bytes[1]? = some 5 ∨ bytes[1]? = some 7 ∨ bytes[1]? = some 9 then some bytes else none
  | _ => none

/-- The servers differ in nothing that concerns their node or their clients. -/
structure SameRequests (server server' : Server) : Prop where
  node : server'.node = server.node
  pendingWrites : server'.pendingWrites = server.pendingWrites
  pendingReads : server'.pendingReads = server.pendingReads
  replies : server'.replies = server.replies
  sent : server'.sent = server.sent
  returned : server'.returned = server.returned
  fatal : server'.fatal = server.fatal
  running : server'.running = true → server.running = true
  consoleLine : server.consoleLine.length ≤ maxConsoleLine →
    server'.consoleLine.length ≤ maxConsoleLine

theorem SameRequests.refl (server : Server) : SameRequests server server :=
  ⟨rfl, rfl, rfl, rfl, rfl, rfl, rfl, id, id⟩

/-- No pending write is for the request of the command, there is room for one more, and the node
has not applied the request. -/
structure Unserved (server : Server) (command : Command) : Prop where
  role : server.node.role = .leader
  prior : server.prior command = none
  pending : ∀ p ∈ server.pendingWrites, p.2.command.requestId ≠ command.requestId
  room : server.pendingWrites.length + server.pendingReads.length < maxPending

/-- The replies that a client gets without a call of the node. -/
inductive Immediate (server : Server) (bytes : Bytes) : ClientReply → Prop
  | malformedWrite {e : ClientWireError} (hb : bytes[1]? = some 5)
      (hd : decodeClientRequest bytes = .error e) :
      Immediate server bytes (.write ⟨.invalidRequest, server.node.term, 0, 0⟩)
  | notLeaderWrite {command : Command} (hb : bytes[1]? = some 5)
      (hd : decodeClientRequest bytes = .ok ⟨command⟩) (hr : server.node.role ≠ .leader) :
      Immediate server bytes (.write ⟨.notLeader, server.node.term, 0, server.leaderHint⟩)
  | priorWrite {command : Command} {prior : AppliedRequest} (hb : bytes[1]? = some 5)
      (hd : decodeClientRequest bytes = .ok ⟨command⟩) (hp : server.prior command = some prior) :
      Immediate server bytes (.write (server.requestReply (some prior) command))
  | conflictingWrite {command : Command} {index : ℕ} {pending : PendingWrite}
      (hb : bytes[1]? = some 5) (hd : decodeClientRequest bytes = .ok ⟨command⟩)
      (hp : (index, pending) ∈ server.pendingWrites)
      (hid : pending.command.requestId = command.requestId) (hc : pending.command ≠ command) :
      Immediate server bytes (.write ⟨.invalidRequest, server.node.term, 0, server.node.selfId⟩)
  | busyWrite {command : Command} (hb : bytes[1]? = some 5)
      (hd : decodeClientRequest bytes = .ok ⟨command⟩) :
      Immediate server bytes (.write ⟨.busy, server.node.term, 0, server.node.selfId⟩)
  | malformedRead {e : ClientWireError} (hb : bytes[1]? = some 7)
      (hd : decodeClientReadRequest bytes = .error e) :
      Immediate server bytes (.read ⟨.invalidRequest, server.node.term, 0, 0, none⟩)
  | notLeaderRead (hb : bytes[1]? = some 7) :
      Immediate server bytes (.read ⟨.notLeader, server.node.term, 0, server.leaderHint, none⟩)
  | busyRead (hb : bytes[1]? = some 7) :
      Immediate server bytes (.read ⟨.busy, server.node.term, 0, server.node.selfId, none⟩)
  | malformedStatus (hb : bytes[1]? = some 9) : Immediate server bytes (.status {})
  | status (hb : bytes[1]? = some 9) : Immediate server bytes (.status server.status)

/-- Who is answered is a client. -/
theorem Immediate.client {server : Server} {bytes : Bytes} {reply : ClientReply}
    (h : server.Immediate bytes reply) : (Event.accept (some bytes)).client = some bytes := by
  rw [Event.client, if_pos]
  cases h <;> simp [*]

/-- The only reply of a server that has not put out anything before. -/
theorem eq_of_mem_reply {server : Server} {connection : ℕ} {answer : ClientReply}
    {x : ℕ × ClientReply} (h : server.replies = [])
    (hx : x ∈ (server.reply connection answer).replies) : x = (connection, answer) := by
  rw [reply, h] at hx
  exact List.mem_singleton.1 hx

/-- A pending write at a new index. -/
def addWrite (server : Server) (index : ℕ) (pending : PendingWrite) : Server :=
  { server with pendingWrites := OrderedMap.emplace index pending server.pendingWrites }

/-- A pending read of a new id. -/
def addRead (server : Server) (id : ℕ) (pending : PendingRead) : Server :=
  { server with pendingReads := OrderedMap.emplace id pending server.pendingReads }

/-- One more client of a pending write. -/
def join (server : Server) (index connection : ℕ) : Server :=
  { server with
    pendingWrites := OrderedMap.modify index
      (fun p => { p with connections := p.connections ++ [connection] }) server.pendingWrites }

/-- The server after a call of its node. -/
def called (server : Server) (faults : Faults) (c : NodeCall) : Server :=
  { server with node := ((server.node.withFaults faults).call c).1 }

/-- The result of a call of the node. -/
def resultOf (server : Server) (faults : Faults) (c : NodeCall) : RaftNodeResult :=
  ((server.node.withFaults faults).call c).2

/-- The inputs of the node that an event may lead to. -/
inductive Feeds (server : Server) : Event → Input → Prop
  | heartbeat : Feeds server .deadline .heartbeatTimeout
  | election : Feeds server .deadline .electionTimeout
  | console {character : UInt8} {command : Command} (hid : command.requestId = none)
      (hlen : command.key.length + command.value.length ≤ server.consoleLine.length) :
      Feeds server (.console character) (.propose command)
  | write {bytes : Bytes} {command : Command} (hb : bytes[1]? = some 5)
      (hd : decodeClientRequest bytes = .ok ⟨command⟩) :
      Feeds server (.accept (some bytes)) (.propose command)
  | read {bytes : Bytes} (hb : bytes[1]? = some 7) :
      Feeds server (.accept (some bytes)) .readBarrier
  | peer {bytes : Bytes} {envelope : RaftEnvelope}
      (hclient : (Event.accept (some bytes)).client = none)
      (hd : decodeRaftEnvelope bytes = .ok envelope) :
      Feeds server (.accept (some bytes)) (.deliver ⟨envelope.senderId, server.node.selfId,
        envelope.message, envelope.repliedTo⟩)

/-- The call of the node that a client's frame leads to. -/
inductive Asks (server : Server) (bytes : Bytes) : NodeCall → Prop
  | write {command : Command} (hb : bytes[1]? = some 5)
      (hd : decodeClientRequest bytes = .ok ⟨command⟩) (hu : server.Unserved command) :
      Asks server bytes (.propose command)
  | read (hb : bytes[1]? = some 7) (hr : server.node.role = .leader) :
      Asks server bytes .readBarrier

/-- The replies after a call that the node has refused, or that has started nothing. The server is
the one after the call. -/
inductive Refusal (server : Server) : NodeCall → RaftNodeResult → ClientReply → Prop
  | notLeaderWrite (command : Command) :
      Refusal server (.propose command) (.error .notLeader)
        (.write ⟨.notLeader, server.node.term, 0, server.leaderHint⟩)
  | invalidCommand (command : Command) :
      Refusal server (.propose command) (.error .invalidCommand)
        (.write ⟨.invalidRequest, server.node.term, 0, server.leaderHint⟩)
  | unproposed (command : Command) {actions : RaftNodeActions} (h : actions.proposedIndex = none) :
      Refusal server (.propose command) (.ok actions)
        (.write ⟨.internalError, server.node.term, 0, server.leaderHint⟩)
  | notLeaderRead :
      Refusal server .readBarrier (.error .notLeader)
        (.read ⟨.notLeader, server.node.term, 0, server.leaderHint, none⟩)
  | unstarted {actions : RaftNodeActions} (h : actions.startedReadId = none) :
      Refusal server .readBarrier (.ok actions)
        (.read ⟨.internalError, server.node.term, 0, server.leaderHint, none⟩)

/-- The reply after a call that has failed otherwise. -/
inductive Failure (server : Server) : NodeCall → RaftNodeError → ClientReply → Prop
  | write (command : Command) {e : RaftNodeError} (h : e ≠ .notLeader) (h' : e ≠ .invalidCommand) :
      Failure server (.propose command) e
        (.write ⟨.internalError, server.node.term, 0, server.leaderHint⟩)
  | read {e : RaftNodeError} (h : e ≠ .notLeader) :
      Failure server .readBarrier e
        (.read ⟨.internalError, server.node.term, 0, server.leaderHint, none⟩)

/-- How an event ends on a server that has not put out anything yet. -/
inductive StepEnd (server : Server) (connection : ℕ) (faults : Faults) : Event → Server → Prop
  | quiet {event : Event} (hclient : event.client = none) {server' : Server}
      (h : SameRequests server server') : StepEnd server connection faults event server'
  | performed {event : Event} (hclient : event.client = none) {input : Input} {c : NodeCall}
      (hfeeds : server.Feeds event input) (hc : input.call = some c) {server' : Server}
      (h : SameRequests
        ((server.called faults c).process (server.resultOf faults c) input.repliedTo) server') :
      StepEnd server connection faults event server'
  | drained {event : Event} (hclient : event.client = none) {fatal : Bool}
      (hf : fatal = true → server.fatal = true ∨ event = .pollFailure) :
      StepEnd server connection faults event { server.failPending with fatal, returned := true }
  | answered {bytes : Bytes} {reply : ClientReply} (h : server.Immediate bytes reply) :
      StepEnd server connection faults (.accept (some bytes)) (server.reply connection reply)
  | joined {bytes : Bytes} {index : ℕ} {pending : PendingWrite} (hb : bytes[1]? = some 5)
      (hd : decodeClientRequest bytes = .ok ⟨pending.command⟩) (hr : server.node.role = .leader)
      (hp : (index, pending) ∈ server.pendingWrites) :
      StepEnd server connection faults (.accept (some bytes)) (server.join index connection)
  | refused {bytes : Bytes} {c : NodeCall} {reply : ClientReply} (hc : server.Asks bytes c)
      (h : (server.called faults c).Refusal c (server.resultOf faults c) reply) :
      StepEnd server connection faults (.accept (some bytes))
        ((server.called faults c).reply connection reply)
  | failed {bytes : Bytes} {c : NodeCall} {e : RaftNodeError} {reply : ClientReply}
      (hc : server.Asks bytes c) (he : server.resultOf faults c = .error e)
      (h : (server.called faults c).Failure c e reply) :
      StepEnd server connection faults (.accept (some bytes))
        (((server.called faults c).reply connection reply).process (.error e) none)
  | proposed {bytes : Bytes} {command : Command} {actions : RaftNodeActions} {index : ℕ}
      (hc : server.Asks bytes (.propose command))
      (ha : server.resultOf faults (.propose command) = .ok actions)
      (hi : actions.proposedIndex = some index) :
      StepEnd server connection faults (.accept (some bytes))
        (((server.called faults (.propose command)).addWrite index
          ⟨[connection], server.node.term, command⟩).process (.ok actions) none)
  | reading {bytes key : Bytes} {actions : RaftNodeActions} {id : ℕ}
      (hc : server.Asks bytes .readBarrier)
      (hd : decodeClientReadRequest bytes = .ok ⟨key⟩)
      (ha : server.resultOf faults .readBarrier = .ok actions)
      (hi : actions.startedReadId = some id) :
      StepEnd server connection faults (.accept (some bytes))
        (((server.called faults .readBarrier).addRead id
          ⟨connection, server.node.term, key⟩).process (.ok actions) none)

variable {server server' : Server} {connection : ℕ} {faults : Faults} {bytes : Bytes}

/-! ## Clients -/

theorem proposeWrite_end {command : Command} (hc : server.Asks bytes (.propose command)) :
    StepEnd server connection faults (.accept (some bytes))
      (server.proposeWrite connection faults command) := by
  have hcall : server.call faults (.propose command) =
      (server.called faults (.propose command), server.resultOf faults (.propose command)) := rfl
  unfold proposeWrite
  rw [hcall]
  dsimp only
  cases hr : server.resultOf faults (.propose command) with
  | error e =>
    cases e with
    | notLeader => exact .refused hc (hr ▸ .notLeaderWrite command)
    | invalidCommand => exact .refused hc (hr ▸ .invalidCommand command)
    | invalidPeer | invalidRequest | termExhausted | persistenceError | inconsistentState
      | stopped => exact .failed hc hr (.write command (by simp) (by simp))
  | ok actions =>
    dsimp only
    cases hi : actions.proposedIndex with
    | none => exact .refused hc (hr ▸ .unproposed command hi)
    | some index => exact .proposed hc hr hi

theorem handleClientWrite_end (hb : bytes[1]? = some 5) :
    StepEnd server connection faults (.accept (some bytes))
      (server.handleClientWrite connection faults bytes) := by
  unfold handleClientWrite
  cases hd : decodeClientRequest bytes with
  | error e => exact .answered (.malformedWrite hb hd)
  | ok request =>
    obtain ⟨command⟩ := request
    dsimp only
    by_cases hrole : server.node.role = .leader
    swap
    · rw [if_pos hrole]
      exact .answered (.notLeaderWrite hb hd hrole)
    rw [if_neg (not_not.2 hrole)]
    cases hprior : server.prior command with
    | some prior => exact .answered (.priorWrite hb hd hprior)
    | none =>
      rw [if_neg (by simp)]
      cases hf : server.pendingWrites.find? fun p =>
          decide (p.2.command.requestId = command.requestId) with
      | some p =>
        obtain ⟨index, pending⟩ := p
        have hp := List.mem_of_find?_eq_some hf
        have hid : pending.command.requestId = command.requestId := by
          simpa using List.find?_some hf
        dsimp only
        split_ifs with hcommand hfull
        · exact .answered (.conflictingWrite hb hd hp hid hcommand)
        · exact .answered (.busyWrite hb hd)
        · rw [not_not] at hcommand
          subst hcommand
          exact .joined hb hd hrole hp
      | none =>
        dsimp only
        split_ifs with hroom
        · exact .answered (.busyWrite hb hd)
        · refine proposeWrite_end (.write hb hd ⟨hrole, hprior, fun p hp => ?_, not_le.1 hroom⟩)
          simpa using List.find?_eq_none.1 hf p hp

theorem handleClientRead_end (hb : bytes[1]? = some 7) :
    StepEnd server connection faults (.accept (some bytes))
      (server.handleClientRead connection faults bytes) := by
  unfold handleClientRead
  cases hd : decodeClientReadRequest bytes with
  | error e => exact .answered (.malformedRead hb hd)
  | ok request =>
    obtain ⟨key⟩ := request
    dsimp only
    split_ifs with hrole hroom
    · exact .answered (.notLeaderRead hb)
    · exact .answered (.busyRead hb)
    rw [not_not] at hrole
    have hc : server.Asks bytes .readBarrier := .read hb hrole
    have hcall : server.call faults .readBarrier =
        (server.called faults .readBarrier, server.resultOf faults .readBarrier) := rfl
    unfold startRead
    rw [hcall]
    dsimp only
    cases hr : server.resultOf faults .readBarrier with
    | error e =>
      cases e with
      | notLeader => exact .refused hc (hr ▸ .notLeaderRead)
      | invalidPeer | invalidRequest | invalidCommand | termExhausted | persistenceError
        | inconsistentState | stopped => exact .failed hc hr (.read (by simp))
    | ok actions =>
      dsimp only
      cases hi : actions.startedReadId with
      | none => exact .refused hc (hr ▸ .unstarted hi)
      | some id => exact .reading hc hd hr hi

theorem handleClientStatus_end (hb : bytes[1]? = some 9) :
    StepEnd server connection faults (.accept (some bytes))
      (server.handleClientStatus connection bytes) := by
  unfold handleClientStatus
  cases decodeClientStatusRequest bytes with
  | error e => exact .answered (.malformedStatus hb)
  | ok request => exact .answered (.status hb)

/-! ## Peers, the console and the timers -/

/-- An event that is no client's frame does nothing, or calls the node and processes the result. -/
inductive Performs (server : Server) (faults : Faults) (event : Event) (server' : Server) : Prop
  | nothing (h : SameRequests server server')
  | call {input : Input} {c : NodeCall} (hfeeds : server.Feeds event input)
      (hc : input.call = some c)
      (h : SameRequests
        ((server.called faults c).process (server.resultOf faults c) input.repliedTo) server')

variable {event : Event}

theorem Performs.stepEnd (h : server.Performs faults event server')
    (hclient : event.client = none) : StepEnd server connection faults event server' := by
  cases h with
  | nothing h => exact .quiet hclient h
  | call hfeeds hc h => exact .performed hclient hfeeds hc h

theorem Feeds.performs {input : Input} {c : NodeCall} (hfeeds : server.Feeds event input)
    (hc : input.call = some c) :
    server.Performs faults event (server.perform faults c input.repliedTo) :=
  .call hfeeds hc (.refl _)

theorem handleEnvelope_performs (faults : Faults) {envelope : RaftEnvelope}
    (hclient : (Event.accept (some bytes)).client = none)
    (hd : decodeRaftEnvelope bytes = .ok envelope) :
    server.Performs faults (.accept (some bytes)) (server.handleEnvelope faults envelope) := by
  have hpeer : server.Feeds (.accept (some bytes)) _ := .peer hclient hd
  obtain ⟨sender, message, repliedTo⟩ := envelope
  unfold handleEnvelope
  dsimp only
  split_ifs
  · exact .nothing (.refl _)
  · exact .nothing (.refl _)
  · cases message with
    | requestVote | requestVoteReply | appendEntries => exact hpeer.performs rfl
    | appendEntriesReply =>
      cases repliedTo with
      | none => exact .nothing (.refl _)
      | some request => exact hpeer.performs rfl

theorem length_nextWord {input word rest : Bytes} (h : nextWord input = some (word, rest)) :
    word.length + rest.length ≤ input.length := by
  rw [nextWord] at h
  split_ifs at h
  obtain ⟨rfl, rfl⟩ := Prod.mk.inj (Option.some.inj h)
  rw [← List.length_append, List.takeWhile_append_dropWhile]
  exact (List.dropWhile_sublist _).length_le

theorem handleConsoleLine_performs (server : Server) (faults : Faults) (character : UInt8) :
    server.Performs faults (.console character)
      (server.handleConsoleLine faults server.consoleLine) := by
  have hnothing : server.Performs faults (.console character) server := .nothing (.refl _)
  unfold handleConsoleLine
  cases hoperation : nextWord server.consoleLine with
  | none => exact hnothing
  | some word =>
    obtain ⟨operation, input⟩ := word
    have hinput := length_nextWord hoperation
    dsimp only
    by_cases hquit : operation = ascii "quit"
    · rw [if_pos hquit]
      exact .nothing ⟨rfl, rfl, rfl, rfl, rfl, rfl, rfl, fun h => (by cases h), id⟩
    rw [if_neg hquit]
    cases hkey : nextWord input with
    | none => split_ifs <;> exact hnothing
    | some word =>
      obtain ⟨key, rest⟩ := word
      have hrest := length_nextWord hkey
      have hvalue : (rest.dropWhile isSpace).length ≤ rest.length :=
        (List.dropWhile_sublist _).length_le
      dsimp only
      split_ifs
      · exact hnothing
      · cases server.parsePeer key with
        | none => exact hnothing
        | some peer => exact .nothing ⟨rfl, rfl, rfl, rfl, rfl, rfl, rfl, id, id⟩
      · refine Feeds.performs (.console rfl ?_) rfl
        dsimp only
        omega
      · refine Feeds.performs (.console rfl ?_) rfl
        dsimp only [List.length_nil]
        omega
      · exact hnothing

/-- The console line does not concern the clients. -/
theorem Performs.setConsole (h : server.Performs faults event server') {line : Bytes}
    (hline : line.length ≤ maxConsoleLine ∨ line = server'.consoleLine) (discarding : Bool) :
    server.Performs faults event
      { server' with consoleLine := line, discardingLine := discarding } := by
  have hle : server'.consoleLine.length ≤ maxConsoleLine → line.length ≤ maxConsoleLine :=
    fun h => hline.elim id fun heq => heq ▸ h
  cases h with
  | nothing h =>
    exact .nothing
      ⟨h.node, h.pendingWrites, h.pendingReads, h.replies, h.sent, h.returned, h.fatal, h.running,
        fun hc => hle (h.consoleLine hc)⟩
  | call hfeeds hc h =>
    exact .call hfeeds hc
      ⟨h.node, h.pendingWrites, h.pendingReads, h.replies, h.sent, h.returned, h.fatal, h.running,
        fun hc => hle (h.consoleLine hc)⟩

theorem readConsole_performs (server : Server) (faults : Faults) (character : UInt8) :
    server.Performs faults (.console character) (server.readConsole faults character) := by
  have hnothing : server.Performs faults (.console character) server := .nothing (.refl _)
  have hempty : ([] : Bytes).length ≤ maxConsoleLine := Nat.zero_le _
  unfold readConsole
  split_ifs with _ _ hlt
  · exact hnothing.setConsole (Or.inr rfl) _
  · exact (handleConsoleLine_performs server faults character).setConsole (Or.inl hempty) _
  · refine hnothing.setConsole (Or.inl ?_) _
    rw [List.length_append]
    exact hlt
  · exact hnothing.setConsole (Or.inl hempty) _

/-- A server that has returned makes no more steps. -/
theorem returned_of_step {event : Event} (h : server.step connection faults event = some server') :
    server.returned = false := by
  by_contra hret
  have hret : server.silent.returned = true := by simpa [silent] using hret
  unfold step at h
  dsimp only at h
  rw [if_pos hret] at h
  cases h

/-- **The steps of a server.** -/
theorem step_cases {event : Event} (h : server.step connection faults event = some server') :
    StepEnd server.silent connection faults event server' := by
  have hret : ¬ server.silent.returned = true := by
    simpa [silent] using returned_of_step h
  unfold step at h
  dsimp only at h
  rw [if_neg hret] at h
  cases event with
  | accept frame =>
    dsimp only at h
    split_ifs at h
    obtain rfl := Option.some.inj h
    cases frame with
    | none => exact .quiet rfl (.refl _)
    | some bytes =>
      rw [receiveOne]
      split_ifs with h5 h7 h9
      · exact handleClientWrite_end h5
      · exact handleClientRead_end h7
      · exact handleClientStatus_end h9
      · have hclient : (Event.accept (some bytes)).client = none := by
          simp [Event.client, h5, h7, h9]
        cases hd : decodeRaftEnvelope bytes with
        | error e => exact .quiet hclient (.refl _)
        | ok envelope => exact (handleEnvelope_performs faults hclient hd).stepEnd hclient
  | console character =>
    obtain rfl := Option.some.inj h
    exact (readConsole_performs _ _ _).stepEnd rfl
  | deadline =>
    dsimp only at h
    split_ifs at h
    obtain rfl := Option.some.inj h
    rw [timeout]
    split_ifs
    · exact (Feeds.heartbeat.performs rfl).stepEnd rfl
    · exact (Feeds.election.performs rfl).stepEnd rfl
  | pollFailure =>
    dsimp only at h
    split_ifs at h
    obtain rfl := Option.some.inj h
    exact .drained rfl fun _ => Or.inr rfl
  | finish =>
    dsimp only at h
    split_ifs at h
    obtain rfl := Option.some.inj h
    exact .drained rfl Or.inl

end DistributedKV.Server
