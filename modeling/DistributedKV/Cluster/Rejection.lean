import DistributedKV.Cluster.Completeness
import DistributedKV.Cluster.Tracking

/-!
# Stale rejections

A leader tells a late reply from a current one by comparing the request that the reply echoes with
the outstanding one. After stepping back over a peer's gap, and an acceptance of the four entries
that one request carries at most, it may build once more the very request that the peer has
rejected. A rejection of the first one that arrives only now is taken for one of the second, and
the leader stops.
-/

namespace DistributedKV

variable {cluster : Cluster} {s : Abstract} {n : ℕ} {node : RaftNode} {peerId : ℕ}
  {sentRequest : AppendEntries} {reply : AppendEntriesReply}

/-- The reply rejects the request that the leader has sent to the peer last, although the peer is
known to hold the entry before those of the request. -/
def RaftNode.StaleRejection (node : RaftNode) (peerId : ℕ) (sentRequest : AppendEntries)
    (reply : AppendEntriesReply) : Prop :=
  reply.success = false ∧ reply.term = node.term ∧ ∃ leader i, node.leader = some leader ∧
    leader.findPeer peerId = some i ∧ (leader.peers i).pending = some sentRequest ∧
    sentRequest.prevLogIndex ≤ (leader.peers i).progress.matchIndex

/-- The node does not take the reply for that of an inconsistent follower. -/
def RaftNode.Tolerates (node : RaftNode) (peerId : ℕ) (sentRequest : AppendEntries)
    (reply : AppendEntriesReply) : Prop :=
  node.replyOutcome peerId sentRequest reply ≠ some .inconsistentFollower ∧
    (node.onAppendReply peerId sentRequest reply).2 ≠ .error .inconsistentState

/-! ## One reply -/

/-- A leader finds a follower inconsistent exactly where a rejection is stale: the request that is
outstanding begins at the next index. -/
theorem NodeOk.inconsistentFollower_iff (h : NodeOk cluster s n node) :
    node.replyOutcome peerId sentRequest reply = some .inconsistentFollower ↔
      node.StaleRejection peerId sentRequest reply := by
  rw [RaftNode.replyOutcome, RaftNode.handleReply, Option.map_map]
  cases hl : node.leader with
  | none => simp [RaftNode.StaleRejection, hl]
  | some leader =>
    have hrun := h.running (h.stopped_of_leader hl)
    have hlead := hrun.leader hl
    have hterm : leader.term = node.term := hlead.term
    rw [Option.map_some, Option.some.injEq]
    constructor
    · intro ho
      have hend := leader.handleReply_rule node.election node.log node.commitIndex peerId
        sentRequest reply (A := fun _ => True) hrun.invariant.metadata trivial fun _ _ => trivial
      revert ho hend
      rw [Function.comp]
      generalize leader.handleReply node.election node.metadata node.log node.commitIndex peerId
        sentRequest reply = outcome
      rintro ho (⟨-⟩ | ⟨m, -, -, -, -⟩ | ⟨m, -, -⟩ | ⟨i, hi, ht, hr, hp, hn⟩ |
        ⟨i, -, -, -, -, k, -, -⟩ | ⟨i, -, -, -, -, l, -⟩ | ⟨i, -, -, -, -, l, -, c, -⟩)
      · cases ho
      · cases ho
      · cases ho
      · obtain ⟨-, -, -, hprev, -⟩ := (hlead.peer i).pending hp
        refine ⟨hr, ht.trans hterm, leader, i, hl, hi, hp, ?_⟩
        omega
      · cases ho
      · cases ho
      · cases ho
    · rintro ⟨hr, ht, leader', i, hl', hi, hp, hle⟩
      obtain rfl := Option.some.inj (hl.symm.trans hl')
      have hactive : leader.active node.election node.metadata = true := hrun.invariant.active hl
      obtain ⟨-, -, -, hprev, -⟩ := (hlead.peer i).pending hp
      have hlow : (leader.peers i).progress.nextIndex ≤
          (leader.peers i).progress.matchIndex + 1 := by omega
      simp [RaftLeaderReplication.handleReply, hi, hactive, ht, hterm, hp, hr, hlow]

/-! ## Runs -/

namespace Cluster.Run

/-- **A leader that gets no stale rejection never stops over a reply**: along a run
`handle_reply` returns no `InconsistentFollower`, and `on_append_reply` does not stop with
`InconsistentState`, if and only if no stale rejection is handled. -/
theorem rejection_never_stops_iff (r : cluster.Run) :
    (∀ i n node peerId sentRequest reply,
      r.Handles i n node (.appendReply peerId sentRequest reply) →
      node.Tolerates peerId sentRequest reply) ↔
    ∀ i n node peerId sentRequest reply,
      r.Handles i n node (.appendReply peerId sentRequest reply) →
      ¬ node.StaleRejection peerId sentRequest reply := by
  obtain ⟨g, h⟩ := r.exists_ghost
  constructor
  · intro htol i n node peerId sentRequest reply hh hstale
    obtain ⟨-, hnode, -⟩ := h.handles hh
    exact (htol i n node peerId sentRequest reply hh).1 (hnode.inconsistentFollower_iff.2 hstale)
  · intro hfresh i n node peerId sentRequest reply hh
    obtain ⟨hn, hnode, -⟩ := h.handles hh
    have hout : node.replyOutcome peerId sentRequest reply ≠ some .inconsistentFollower :=
      fun ho => hfresh i n node peerId sentRequest reply hh (hnode.inconsistentFollower_iff.1 ho)
    refine ⟨hout, fun he => ?_⟩
    cases hstop : node.stopped with
    | true =>
      rw [RaftNode.onAppendReply, if_pos hstop] at he
      cases he
    | false =>
      exact hout ((onAppendReply_simulates (h.refines i hh.1.le).sound hn hnode hstop
        (h.replyOk hh)).2 he)

/-! ## A rejection that arrives too late -/

def putCommand (key : UInt8) : Command := ⟨.put, [key], [key], none⟩

/-- The log of node 2 as the leader of term 2. -/
def leaderLog : List LogEntry :=
  [⟨1, 1, {}⟩, ⟨2, 1, putCommand 1⟩, ⟨3, 1, putCommand 2⟩, ⟨4, 1, putCommand 3⟩, ⟨5, 2, {}⟩]

/-- The request that node 2 sends to a peer that it takes to hold `k` entries. -/
def requestAfter (k : ℕ) : AppendEntries :=
  ⟨2, 2, k, PersistentLog.termAt leaderLog k, (leaderLog.drop k).take 4, 1, 0⟩

/-- Node 3 rejects the request. -/
def rejectionOf (k : ℕ) : Action :=
  .call 2 (.deliver ⟨3, 2, .appendEntriesReply ⟨2, false⟩, some (requestAfter k)⟩) {}

def deliverRequest (k : ℕ) : Action :=
  .call 3 (.deliver ⟨2, 3, .appendEntries (requestAfter k), none⟩) {}

/-- Node 1 leads term 1 and appends three commands, which node 2 copies. Node 2 leads term 2, and
a heartbeat repeats its first request to node 3. Node 3, whose log is empty, rejects both. With the
first rejection node 2 steps back to the first entry. Node 3 copies four entries, and the second
rejection arrives. -/
def rejectedActions : List Action :=
  [.restart 1, .restart 2, .restart 3, .call 1 .electionTimeout {},
    .call 2 (.deliver ⟨1, 2, .requestVote ⟨1, 1, 0, 0⟩, none⟩) {},
    .call 1 (.deliver ⟨2, 1, .requestVoteReply ⟨1, true⟩, none⟩) {},
    .call 1 (.propose (putCommand 1)) {}, .call 1 (.propose (putCommand 2)) {},
    .call 1 (.propose (putCommand 3)) {},
    .call 2 (.deliver ⟨1, 2, .appendEntries firstAppend, none⟩) {},
    .call 1 (.deliver ⟨2, 1, .appendEntriesReply ⟨1, true⟩, some firstAppend⟩) {},
    .call 2 (.deliver ⟨1, 2, .appendEntries ⟨1, 1, 1, 1, (leaderLog.drop 1).take 3, 1, 0⟩,
      none⟩) {},
    .call 2 .electionTimeout {},
    .call 3 (.deliver ⟨2, 3, .requestVote ⟨2, 2, 4, 1⟩, none⟩) {},
    .call 2 (.deliver ⟨3, 2, .requestVoteReply ⟨2, true⟩, none⟩) {},
    .call 2 .heartbeatTimeout {},
    deliverRequest 4, deliverRequest 4, rejectionOf 4,
    deliverRequest 3, rejectionOf 3, deliverRequest 2, rejectionOf 2,
    deliverRequest 1, rejectionOf 1, deliverRequest 0,
    .call 2 (.deliver ⟨3, 2, .appendEntriesReply ⟨2, true⟩, some (requestAfter 0)⟩) {},
    rejectionOf 4]

theorem rejectedActions_possible :
    (rejectedActions.foldlM (World.next serverCluster) World.init).isSome := by
  decide +kernel

def rejectedRun : serverCluster.Run := .ofActions rejectedActions rejectedActions_possible

/-- A leader with working storage stops over a late reply. -/
theorem not_rejection_never_stops : ¬ ∀ (r : serverCluster.Run), r.Working →
    ∀ i n node peerId sentRequest reply,
      r.Handles i n node (.appendReply peerId sentRequest reply) →
      node.Tolerates peerId sentRequest reply := by
  intro h
  have hworking : rejectedRun.Working := by
    intro i hi n input faults ha
    change i < 28 at hi
    interval_cases i <;> cases ha <;> rfl
  obtain ⟨node, hh, hout⟩ : ∃ node, rejectedRun.Handles 27 2 node
      (.appendReply 3 (requestAfter 4) ⟨2, false⟩) ∧
      node.replyOutcome 3 (requestAfter 4) ⟨2, false⟩ = some .inconsistentFollower :=
    ⟨_, ⟨by decide, _, _, _, rfl, rfl, rfl, rfl⟩, rfl⟩
  exact (h rejectedRun hworking 27 2 node 3 (requestAfter 4) ⟨2, false⟩ hh).1 hout

end Cluster.Run

end DistributedKV
