import DistributedKV.Server.Answering

/-!
# A server from start to end

One server from `Server::run` to its return: any frames, from clients and from peers, any console
input and timers, and any failures of the node's writes. Clients are numbered in the order in which
they are accepted.
-/

namespace DistributedKV

/-- A server, the frames of the clients that it has accepted, and all replies that it has sent. -/
structure Session where
  server : Server
  clients : List Bytes := []
  replies : List (ℕ × ClientReply) := []

namespace Session

/-- The server has just been constructed. -/
def start (node : RaftNode) : Session := { server := { node } }

def next (session : Session) (action : Server.Event × Faults) : Option Session :=
  (session.server.step session.clients.length action.2 action.1).map fun server =>
    { server
      clients := session.clients ++ action.1.client.toList
      replies := session.replies ++ server.replies }

instance : Inhabited (Server.Event × Faults) := ⟨(.finish, {})⟩

/-- The clients that have been answered and those that wait are those that were accepted, and a
server that has returned has none waiting. -/
structure Ok (session : Session) : Prop where
  invariant : session.server.Invariant
  accounted : (session.replies.map Prod.fst ++ session.server.waiting).Perm
    (List.range session.clients.length)
  returned : session.server.returned = true → session.server.waiting = []

variable {session session' : Session}

theorem Ok.start {selfId : ℕ} {peerIds : Fin 2 → ℕ} {disk : Disk} {node : RaftNode}
    (hd : DiskInvariant disk) (ho : RaftNode.openFrom selfId peerIds disk = some node) :
    (start node).Ok := by
  obtain ⟨hinv, hs⟩ := RaftNode.openFrom_invariant ho hd.log hd.vote
  refine ⟨.start ho hinv, .refl _, fun h => ?_⟩
  cases h

/-- The server has not returned, or it has with no client waiting. -/
theorem returned_of_stepEnd {server server' : Server} {connection : ℕ} {faults : Faults}
    {event : Server.Event} (hret : server.returned = false)
    (h : server.StepEnd connection faults event server') :
    server'.returned = true → server'.waiting = [] := by
  intro hret'
  have hprocess : ∀ {s : Server} {result : RaftNodeResult} {repliedTo : Option AppendEntries},
      (s.process result repliedTo).returned = true → s.returned = false → server'.waiting = [] := by
    intro s result repliedTo hs' hs
    rw [(Server.process_drains s result repliedTo).returned, hs] at hs'
    cases hs'
  cases h with
  | drained => rfl
  | quiet _ hsame => simp [hsame.returned, hret] at hret'
  | performed _ _ _ hsame =>
    rw [hsame.returned] at hret'
    exact hprocess hret' hret
  | answered | joined | refused => exact absurd (hret.symm.trans hret') (by decide)
  | failed | proposed | reading => exact hprocess hret' hret

theorem Ok.next {action : Server.Event × Faults} (h : session.Ok)
    (hnext : session.next action = some session') : session'.Ok := by
  obtain ⟨event, faults⟩ := action
  obtain ⟨server', hstep, rfl⟩ := Option.map_eq_some_iff.1 hnext
  have hend := Server.step_cases hstep
  have hsilent : session.server.silent.Invariant := h.invariant.of_eq rfl rfl rfl
  have hret : session.server.silent.returned = false := Server.returned_of_step hstep
  refine ⟨hend.invariant hsilent, ?_, returned_of_stepEnd hret hend⟩
  have hstep := hend.accounted hsilent
  -- the clients before the step wait in the server, which has put out nothing yet
  have hwaiting : session.server.silent.accounted = session.server.waiting := rfl
  rw [hwaiting] at hstep
  have hnew : List.range (session.clients ++ event.client.toList).length =
      List.range session.clients.length ++
        event.client.toList.map fun _ => session.clients.length := by
    cases event.client with
    | none => simp
    | some bytes => simp [List.range_succ]
  dsimp only
  rw [hnew, List.map_append, List.append_assoc]
  refine ((hstep.append_left _).trans ?_).trans (h.accounted.append_right _)
  rw [List.append_assoc]
  exact (List.perm_append_comm).append_left _

/-- **Every client is answered exactly once, and from the right entry.** A client that the server
has accepted gets at most one reply, and exactly one by the time `run` returns. What waits in
between waits for an entry of the term that the node leads, which holds the client's command and
has not been applied. -/
theorem answered_once {selfId : ℕ} {peerIds : Fin 2 → ℕ} {before node : RaftNode}
    (hd : RaftNode.Reachable selfId peerIds before)
    (ho : RaftNode.openFrom selfId peerIds before.disk = some node)
    (r : SystemRun (start node) next) {i : ℕ} (hi : i ≤ r.length) :
    (∀ connection, ((r.state i).replies.map Prod.fst).count connection ≤ 1) ∧
      ((r.state i).server.returned = true → ∀ connection < (r.state i).clients.length,
        ((r.state i).replies.map Prod.fst).count connection = 1) ∧
      ∀ index pending, (index, pending) ∈ (r.state i).server.pendingWrites →
        pending.term = (r.state i).server.node.term ∧
          (r.state i).server.node.role = .leader ∧
          (r.state i).server.node.lastApplied < index ∧
          (r.state i).server.node.log.entryAt index =
            some ⟨index, pending.term, pending.command⟩ := by
  have hok : (r.state i).Ok :=
    r.invariant (Ok.start hd.reached.disk ho) (fun h hnext => h.next hnext) i hi
  have hcount : ∀ connection, ((r.state i).replies.map Prod.fst).count connection +
      (r.state i).server.waiting.count connection =
        if connection < (r.state i).clients.length then 1 else 0 := fun connection => by
    rw [← List.count_append, hok.accounted.count_eq, List.count_range]
  refine ⟨fun connection => ?_, fun hret connection hc => ?_, fun index pending hp => ?_⟩
  · have h := hcount connection
    split_ifs at h <;> omega
  · have h := hcount connection
    rw [hok.returned hret, if_pos hc] at h
    simpa using h
  · obtain ⟨hcur, happlied, hentry⟩ := hok.invariant.writes hp
    rw [Server.current, decide_eq_true_eq] at hcur
    exact ⟨hcur.2, hcur.1, happlied, hentry⟩

/-- The first start of node 1. -/
def firstNode : RaftNode where
  selfId := 1
  peerIds i := i + 2
  metadata := .openFrom {}
  log := .openFrom []
  election := { selfId := 1, peerIds := fun i => i + 2 }

theorem openFrom_firstNode : RaftNode.openFrom 1 (fun i => i + 2) {} = some firstNode := rfl

theorem length_requestId : (List.replicate 16 (1 : UInt8)).length = 16 := rfl

/-- A put of the value `v` for the key `k`. -/
def putCommand : Command := ⟨.put, [107], [118], some ⟨List.replicate 16 1, length_requestId⟩⟩

/-- The frame that submits it. -/
def putFrame : Bytes :=
  [2, 5, 2, 1, 0, 0, 0, 1, 0, 0, 0, 1, 1, 1, 1, 1, 1, 1, 1, 1, 1, 1, 1, 1, 1, 1, 1, 1, 107, 118,
    234, 70, 177, 85]

theorem decode_putFrame : decodeClientRequest putFrame = .ok ⟨putCommand⟩ := by
  decide +kernel

/-- A put under a request id of its own, and its frame. -/
def freshCommand : Command :=
  ⟨.put, [107], [120], some ⟨List.replicate 16 2, List.length_replicate⟩⟩

def freshFrame : Bytes :=
  [2, 5, 2, 1, 0, 0, 0, 1, 0, 0, 0, 1, 2, 2, 2, 2, 2, 2, 2, 2, 2, 2, 2, 2, 2, 2, 2, 2, 107, 120,
    31, 154, 186, 170]

/-- The frame of a peer's message. -/
def peerFrame (sender : ℕ) (message : RaftMessage) (repliedTo : Option AppendEntries) :
    Server.Event :=
  .accept (encodeRaftEnvelope ⟨sender, message, repliedTo⟩).toOption

/-- The requests for the entry of the election, and for the put. -/
def electionAppend : AppendEntries := ⟨1, 1, 0, 0, [⟨1, 1, {}⟩], 0, 0⟩

def commandAppend : AppendEntries := ⟨1, 1, 1, 1, [⟨2, 1, putCommand⟩], 1, 0⟩

/-- A server is elected and takes a put and a retry of it, which are both answered when the put is
committed. Another put waits when the server is told to quit. -/
def quitEvents : List (Server.Event × Faults) :=
  [(.deadline, {}), (peerFrame 2 (.requestVoteReply ⟨1, true⟩) none, {}),
    (.accept (some putFrame), {}), (.accept (some putFrame), {}),
    (peerFrame 2 (.appendEntriesReply ⟨1, true⟩) (some electionAppend), {}),
    (peerFrame 2 (.appendEntriesReply ⟨1, true⟩) (some commandAppend), {}),
    (.accept (some freshFrame), {}), (.console 113, {}), (.console 117, {}), (.console 105, {}),
    (.console 116, {}), (.console 10, {}), (.finish, {})]

set_option maxRecDepth 20000 in
theorem quitEvents_possible : (quitEvents.foldlM next (start firstNode)).isSome := by
  decide +kernel

def quitSession : SystemRun (start firstNode) next := .ofActions quitEvents quitEvents_possible

set_option maxRecDepth 20000 in
/-- Two clients wait for the put at index 2, and then one for another put; all three have been
answered when the server returns. -/
theorem answered_once_quit :
    ((quitSession.state 4).server.node.lastApplied < 2 ∧
        (quitSession.state 4).server.node.log.entryAt 2 = some ⟨2, 1, putCommand⟩) ∧
      (2, ⟨[0, 1], 1, putCommand⟩) ∈ (quitSession.state 4).server.pendingWrites ∧
      ((quitSession.state 7).server.node.role = .leader ∧
        (quitSession.state 7).server.node.log.entryAt 3 = some ⟨3, 1, freshCommand⟩) ∧
      ∀ connection < 3, ((quitSession.state 13).replies.map Prod.fst).count connection = 1 := by
  have hjoined : (2, ⟨[0, 1], 1, putCommand⟩) ∈ (quitSession.state 4).server.pendingWrites := by
    decide +kernel
  have hfresh : (3, ⟨[2], 1, freshCommand⟩) ∈ (quitSession.state 7).server.pendingWrites := by
    decide +kernel
  have hend : (quitSession.state 13).server.returned = true ∧
      (quitSession.state 13).clients.length = 3 := by
    decide +kernel
  obtain ⟨-, -, happlied, hentry⟩ := (answered_once (.opened openFrom_firstNode)
    openFrom_firstNode quitSession (i := 4) (by decide)).2.2 2 _ hjoined
  obtain ⟨-, hrole, -, hentry'⟩ := (answered_once (.opened openFrom_firstNode)
    openFrom_firstNode quitSession (i := 7) (by decide)).2.2 3 _ hfresh
  have hall := (answered_once (.opened openFrom_firstNode) openFrom_firstNode quitSession (i := 13)
    (by decide)).2.1 hend.1
  rw [hend.2] at hall
  exact ⟨⟨happlied, hentry⟩, hjoined, ⟨hrole, hentry'⟩, hall⟩

end Session

end DistributedKV
