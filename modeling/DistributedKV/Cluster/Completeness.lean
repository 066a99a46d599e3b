import DistributedKV.Cluster.Safety
import DistributedKV.Raft.NodeReads

/-!
# Leader completeness

What a leader commits, and with which log a candidate wins. Both are read off from the calls that
nodes handle in a run, also from those that the process does not outlive.
-/

namespace DistributedKV

open Replication (Chosen ElectedWith)

variable {cluster : Cluster} {s : Abstract} {n : ℕ} {node : RaftNode}

/-! ## Handled calls -/

/-- What a call does to the role and the reads of a node of the cluster. -/
theorem NodeOk.callFacts (h : NodeOk cluster s n node) (c : NodeCall) :
    RaftNode.CallFacts node c (node.call c) := by
  cases hs : node.stopped with
  | true =>
    rw [RaftNode.call_of_stopped hs]
    exact .of_error _
  | false =>
    have hrun := h.running hs
    refine RaftNode.call_facts hrun.invariant hs (fun hl i request hr => ?_)
      (fun id probe hm => ?_) c
    · exact (((hrun.leader hl).peer i).pending hr).2.2.2.2
    · exact (hrun.reads id probe hm).2.2.2.2

theorem World.admits_of_next {w w' : World} {action : Action} (h : w.next cluster action = some w')
    {input : Input} {faults : Faults} (ha : action.handler = some (n, input, faults)) :
    w.admits n input = true := by
  unfold World.next at h
  cases action with
  | call | crash =>
    obtain ⟨rfl, rfl, rfl⟩ := (by simpa [Action.handler] using ha)
    dsimp only at h
    split at h
    · split_ifs at h with hadm
      exact hadm
    · cases h
  | halt | restart => cases ha

namespace Cluster.Run

variable {r : cluster.Run} {g : ℕ → Abstract} {i : ℕ} {c : NodeCall}

/-- The node before and after a call. -/
theorem Ghost.handles (h : r.Ghost g) (hh : r.Handles i n node c) :
    n ∈ cluster.members ∧ NodeOk cluster (g i) n node ∧
      NodeOk cluster (g (i + 1)) n (node.call c).1 := by
  obtain ⟨hi, node₀, input, faults, ha, hslot, hc, rfl⟩ := hh
  obtain ⟨hn, hnode⟩ := h.slot hi.le hslot
  exact ⟨hn, hnode.withFaults faults, (h.moves i hi).called ha hslot hc⟩

/-- A reply that is handled has been sent. -/
theorem Handles.reply_sent {peerId : ℕ} {sentRequest : AppendEntries} {reply : AppendEntriesReply}
    (hh : r.Handles i n node (.appendReply peerId sentRequest reply)) :
    ⟨peerId, n, .appendEntriesReply reply, some sentRequest⟩ ∈ (r.state i).sent := by
  obtain ⟨hi, node₀, input, faults, ha, -, hc, -⟩ := hh
  have hadm := World.admits_of_next (r.next_state i hi) ha
  cases input with
  | deliver envelope =>
    obtain ⟨sender, receiver, message, repliedTo⟩ := envelope
    simp only [World.admits, decide_eq_true_eq] at hadm
    obtain ⟨hmem, rfl⟩ := hadm
    cases message with
    | appendEntriesReply reply' =>
      obtain ⟨sent, hsent, heq⟩ := Option.map_eq_some_iff.1 hc
      obtain ⟨rfl, rfl, rfl⟩ := NodeCall.appendReply.inj heq
      dsimp only at hsent
      rwa [hsent] at hmem
    | requestVote | requestVoteReply | appendEntries => cases hc
  | electionTimeout | heartbeatTimeout | propose | readBarrier => cases hc

theorem Ghost.replyOk (h : r.Ghost g) {peerId : ℕ} {sentRequest : AppendEntries}
    {reply : AppendEntriesReply}
    (hh : r.Handles i n node (.appendReply peerId sentRequest reply)) :
    ReplyOk (g i) peerId sentRequest reply :=
  (h.refines i hh.1.le).message _ hh.reply_sent sentRequest rfl

end Cluster.Run

/-! ## Commitment and election -/

/-- What `handle_reply` commits has been chosen, and ends with an entry of the leader's term. -/
theorem NodeOk.chosen (hs : s.Sound cluster) (hn : n ∈ cluster.members)
    (h : NodeOk cluster s n node) {peerId : ℕ} {sentRequest : AppendEntries}
    {reply : AppendEntriesReply} (hok : ReplyOk s peerId sentRequest reply)
    {outcome : RaftLeaderReplication.ReplyOutcome}
    (hr : node.handleReply peerId sentRequest reply = some outcome)
    (ho : outcome.outcome = .committed) :
    s.leader node.term = some (n, node.log.log) ∧ outcome.commitIndex ≤ node.lastIndex ∧
      Chosen cluster.quorum LogEntry.term s node.term outcome.commitIndex := by
  obtain ⟨leader, hl, rfl⟩ := Option.map_eq_some_iff.1 hr
  have hstop : node.stopped = false := by
    cases hs : node.stopped with
    | false => rfl
    | true => simp [h.stopped hs] at hl
  have hrun := h.running hstop
  have hlead := hrun.leader hl
  have hend := leader.handleReply_rule node.election node.log node.commitIndex peerId sentRequest
    reply (A := fun _ => True) hrun.invariant.metadata trivial fun _ _ => trivial
  revert ho hend
  generalize leader.handleReply node.election node.metadata node.log node.commitIndex peerId
    sentRequest reply = outcome
  rintro ho (⟨-⟩ | ⟨m, -, -, -, -⟩ | ⟨m, -, -⟩ | ⟨j, -, -, -, -, -⟩ | ⟨j, -, -, -, -, k, -, -⟩ |
    ⟨j, -, -, -, -, l, -⟩ | ⟨i, hfind, -, hsucc, hpend, l, rfl, c, hc⟩)
  · cases ho
  · cases ho
  · cases ho
  · cases ho
  · cases ho
  · cases ho
  · have hack : s.ack (leader.peers i).id node.term
        (sentRequest.prevLogIndex + sentRequest.entries.length) := by
      have hack := (hok.accepted hsucc).2
      rwa [((hlead.peer i).pending hpend).2.2.1, ← findPeer_id hfind] at hack
    obtain ⟨k, e, rfl, -, he, het, j, hj⟩ := RaftLeaderReplication.advanceCommitIndex_eq_some hc
    have hk := (List.getElem?_eq_some_iff.1 he).1
    rw [PersistentLog.length_log] at hk
    exact ⟨hlead.lead, hk,
      (hlead.accept hs hack).chosen hn h.peerIds he (het.trans hlead.term) hj⟩

/-- A node that becomes a leader has been elected with the log that it had. -/
theorem NodeOk.electedWith {s' : Abstract} (hs' : s'.Sound cluster)
    (hg : Replication.Grows LogEntry.term s s') (h : NodeOk cluster s n node) {c : NodeCall}
    (h' : NodeOk cluster s' n (node.call c).1) (hrole : (node.call c).1.role = .leader)
    (hnew : ¬ (node.role = .leader ∧ node.term = (node.call c).1.term)) :
    ∃ L, s'.leader (node.call c).1.term = some (n, L) ∧
      ElectedWith cluster.quorum LogEntry.term s' (node.call c).1.term n node.log.log := by
  obtain ⟨hterm, hfrom⟩ := (h.callFacts c).role hrole
  have hcand : node.role = .candidate := hfrom.resolve_left fun hl => hnew ⟨hl, hterm.symm⟩
  have hstop : node.stopped = false := by
    cases hs : node.stopped with
    | false => rfl
    | true =>
      rw [RaftNode.call_of_stopped hs, hcand] at hrole
      cases hrole
  obtain ⟨L, hL⟩ := h'.leads hrole
  obtain ⟨l, -, hl⟩ := hs'.invariant.leader_elected hL
  have hcandidacy := hg.candidacy ((h.running hstop).candidate hcand).1
  rw [← hterm, hl.1] at hcandidacy
  exact ⟨L, hL, Option.some.inj hcandidacy ▸ hl⟩

namespace Cluster.Run

/-- **Leader completeness**: what `handle_reply` commits at the leader of a term, any node that
becomes the leader of a later term has in its log when it is elected, be that before or after. -/
theorem leader_completeness (r : cluster.Run) {i n : ℕ} {node : RaftNode} {peerId : ℕ}
    {sentRequest : AppendEntries} {reply : AppendEntriesReply}
    (hcommit : r.Handles i n node (.appendReply peerId sentRequest reply))
    {outcome : RaftLeaderReplication.ReplyOutcome}
    (hr : node.handleReply peerId sentRequest reply = some outcome)
    (ho : outcome.outcome = .committed) {index : ℕ} (hi : index ≤ outcome.commitIndex)
    {e : LogEntry} (he : node.log.entryAt index = some e) {j p : ℕ} {node' : RaftNode}
    {c : NodeCall} (helect : r.Handles j p node' c) (hrole : (node'.call c).1.role = .leader)
    (hnew : ¬ (node'.role = .leader ∧ node'.term = (node'.call c).1.term))
    (hlater : node.term < (node'.call c).1.term) : node'.log.entryAt index = some e := by
  obtain ⟨g, h⟩ := r.exists_ghost
  obtain ⟨hn, hnode, -⟩ := h.handles hcommit
  obtain ⟨-, hnode', hnode''⟩ := h.handles helect
  -- both events, in terms of the abstract state at the end of the run
  obtain ⟨hlead, -, hch⟩ := hnode.chosen (h.refines i hcommit.1.le).sound hn (h.replyOk hcommit)
    hr ho
  obtain ⟨L, -, hel⟩ := hnode'.electedWith (h.refines (j + 1) helect.1).sound
    (h.grows (Nat.le_succ j) helect.1) hnode'' hrole hnew
  obtain ⟨X, hX, -⟩ := (h.grows hcommit.1.le le_rfl).leader hlead
  have hp := (h.refines r.length le_rfl).sound.invariant.elected_complete
    (hch.grows (h.grows hcommit.1.le le_rfl)) hX hlater (hel.grows (h.grows helect.1 le_rfl))
  rw [PersistentLog.entryAt_eq] at he ⊢
  split_ifs at he ⊢ with h0
  refine Replication.getElem?_of_prefix hp ?_
  rw [List.getElem?_take_of_lt (by omega), List.getElem?_append_left
    (List.getElem?_eq_some_iff.1 he).1, he]

theorem leader_completeness_elected : ∃ node : RaftNode, electedRun.Handles 9 2 node
    (.voteReply 1 ⟨2, true⟩) ∧ node.log.entryAt 1 = some ⟨1, 1, {}⟩ := by
  have hcommit : ∃ node outcome,
      electedRun.Handles 6 1 node (.appendReply 2 firstAppend ⟨1, true⟩) ∧
      node.handleReply 2 firstAppend ⟨1, true⟩ = some outcome ∧ outcome.outcome = .committed ∧
      1 ≤ outcome.commitIndex ∧ node.log.entryAt 1 = some ⟨1, 1, {}⟩ ∧ node.term = 1 :=
    ⟨_, _, ⟨by decide, _, _, _, rfl, rfl, rfl, rfl⟩, rfl, rfl, by decide, rfl, rfl⟩
  have helect : ∃ node, electedRun.Handles 9 2 node (.voteReply 1 ⟨2, true⟩) ∧
      (node.call (.voteReply 1 ⟨2, true⟩)).1.role = .leader ∧ node.role ≠ .leader ∧
      (node.call (.voteReply 1 ⟨2, true⟩)).1.term = 2 :=
    ⟨_, ⟨by decide, _, _, _, rfl, rfl, rfl, rfl⟩, rfl, by decide, rfl⟩
  obtain ⟨node, outcome, h1, h2, h3, h4, h5, h6⟩ := hcommit
  obtain ⟨node', h7, h8, h9, h10⟩ := helect
  exact ⟨node', h7, leader_completeness electedRun h1 h2 h3 h4 h5 h7 h8
    (fun h => h9 h.1) (by omega)⟩

end Cluster.Run

end DistributedKV
