import DistributedKV.Cluster.Completeness
import DistributedKV.Raft.NodeHints

/-!
# Leader hints

The leader that a node names has been the leader of the node's term. Along a run this holds of the
nodes together with the requests that have been sent.
-/

namespace DistributedKV

variable {cluster : Cluster} {s : Abstract} {n : ℕ} {node : RaftNode}

/-- What a call does to the known leader of a node of the cluster. -/
theorem NodeOk.hintFacts (h : NodeOk cluster s n node) (c : NodeCall) :
    RaftNode.HintFacts node c (node.call c) := by
  cases hs : node.stopped with
  | true =>
    rw [RaftNode.call_of_stopped hs]
    exact .of_error _ (.of_eq rfl rfl)
  | false =>
    have hrun := h.running hs
    refine RaftNode.call_hint hrun.invariant hs (fun hl => ⟨?_, fun i request hr => ?_⟩)
      (fun id probe hm => ?_) c
    · exact (hrun.leader hl).term
    · exact (((hrun.leader hl).peer i).pending hr).2.2.1
    · exact (hrun.reads id probe hm).2.2.1

/-- A node with a replication object leads. -/
theorem NodeOk.role_of_leader (h : NodeOk cluster s n node) (hl : node.leader.isSome) :
    node.role = .leader := by
  obtain ⟨leader, hl⟩ := Option.isSome_iff_exists.1 hl
  cases hs : node.stopped with
  | true => simp [h.stopped hs] at hl
  | false => exact ((h.running hs).invariant.leader_facts hl).2.1

namespace World

/-- A request that reaches a node has been sent. -/
theorem request_sent {w : World} {input : Input} {l : ℕ} {request : AppendEntries}
    (hc : input.call = some (.appendEntries l request)) (ha : w.admits n input = true) :
    ∃ envelope ∈ w.sent, envelope.message = .appendEntries request := by
  cases input with
  | deliver envelope =>
    simp only [admits, decide_eq_true_eq] at ha
    refine ⟨envelope, ha.1, ?_⟩
    rw [Input.call] at hc
    cases hm : envelope.message with
    | appendEntries request' =>
      rw [hm] at hc
      obtain ⟨-, rfl⟩ := NodeCall.appendEntries.inj (Option.some.inj hc)
      rfl
    | appendEntriesReply reply =>
      rw [hm] at hc
      obtain ⟨sent, -, heq⟩ := Option.map_eq_some_iff.1 hc
      cases heq
    | requestVote | requestVoteReply =>
      rw [hm] at hc
      cases hc
  | electionTimeout | heartbeatTimeout | propose | readBarrier => cases hc

/-- What goes on the wire is a message of the result, from the node. -/
theorem mem_outgoing {repliedTo : Option AppendEntries} {result : RaftNodeResult}
    {envelope : Envelope} (h : envelope ∈ outgoing n repliedTo result) :
    envelope.sender = n ∧ ∃ m ∈ result.messages, m.message = envelope.message := by
  cases result with
  | error e => cases h
  | ok actions =>
    obtain ⟨m, hm, rfl⟩ := List.mem_map.1 h
    exact ⟨rfl, m, hm, rfl⟩

end World

namespace Cluster.Run

/-- Up to step `i` of the run, node `l` has been the leader of term `t`. -/
def Led (r : cluster.Run) (i l t : ℕ) : Prop :=
  ∃ j ≤ i, ∃ node, (r.state j).slots l = .up node ∧ node.role = .leader ∧ node.term = t

/-- The known leaders and the senders of requests have led. -/
structure HintsOk (r : cluster.Run) (i : ℕ) : Prop where
  node : ∀ {n node l}, (r.state i).slots n = .up node → node.knownLeader = some l →
    r.Led i l node.term
  sent : ∀ envelope ∈ (r.state i).sent, ∀ request, envelope.message = .appendEntries request →
    r.Led i request.leaderId request.term

variable {r : cluster.Run} {g : ℕ → Abstract} {i j l t : ℕ}

theorem Led.mono (h : r.Led i l t) (hij : i ≤ j) : r.Led j l t := by
  obtain ⟨k, hk, h⟩ := h
  exact ⟨k, hk.trans hij, h⟩

/-- A step that leaves a slot without a known leader and sends nothing. -/
theorem HintsOk.of_setSlot (h : r.HintsOk i) {n : ℕ} {slot : Slot}
    (hstate : r.state (i + 1) = (r.state i).setSlot n slot)
    (hslot : ∀ {node}, slot = .up node → node.knownLeader = none) : r.HintsOk (i + 1) where
  node {p node l} hp hl := by
    rw [hstate] at hp
    by_cases hpn : p = n
    · subst hpn
      rw [World.setSlot_self] at hp
      simp [hslot hp] at hl
    · rw [World.setSlot_of_ne _ hpn] at hp
      exact (h.node hp hl).mono (Nat.le_succ i)
  sent envelope hm request hr := by
    rw [hstate] at hm
    exact (h.sent envelope hm request hr).mono (Nat.le_succ i)

/-- **One step** keeps the hints right. -/
theorem Ghost.hints_step (h : r.Ghost g) (hi : i < r.length) (hints : r.HintsOk i) :
    r.HintsOk (i + 1) := by
  have hstep := World.step_of_next (r.next_state i hi)
  generalize hw : r.state (i + 1) = w at hstep
  generalize r.action i = action at hstep
  cases hstep with
  | crash faults => exact hints.of_setSlot hw fun he => by cases he
  | halt => exact hints.of_setSlot hw fun he => by cases he
  | restart _ _ ho =>
    refine hints.of_setSlot hw fun he => ?_
    obtain rfl := Slot.up.inj he
    obtain rfl := RaftNode.openFrom_eq ho
    rfl
  | call faults hslot hc ha =>
    rename_i n input node c
    have hnode := (h.slot hi.le hslot).2.withFaults faults
    have hslot' : (r.state (i + 1)).slots n = .up ((node.withFaults faults).call c).1 := by
      rw [hw]
      exact World.setSlot_self ..
    have hfacts := hnode.hintFacts c
    have hled : ((node.withFaults faults).call c).1.leader.isSome →
        r.Led (i + 1) n ((node.withFaults faults).call c).1.term := fun hl =>
      ⟨i + 1, le_rfl, _, hslot', (h.slot hi hslot').2.role_of_leader hl, rfl⟩
    constructor
    · intro p node' l hp hl
      by_cases hpn : p = n
      · subst hpn
        rw [hslot'] at hp
        obtain rfl := Slot.up.inj hp
        rcases hfacts.hint l hl with ⟨hknown, ht⟩ | ⟨rfl, hlead⟩ | ⟨request, rfl, rfl, ht⟩
        · rw [ht]
          exact (hints.node hslot hknown).mono (Nat.le_succ i)
        · rw [hnode.selfId]
          exact hled hlead
        · obtain ⟨envelope, hmem, hm⟩ := World.request_sent hc ha
          rw [← ht]
          exact (hints.sent envelope hmem request hm).mono (Nat.le_succ i)
      · rw [hw] at hp
        change ((r.state i).setSlot n _).slots p = _ at hp
        rw [World.setSlot_of_ne _ hpn] at hp
        exact (hints.node hp hl).mono (Nat.le_succ i)
    · intro envelope hm request hr
      have hm' := hm
      rw [hw] at hm'
      rcases List.mem_append.1 hm' with hmem | hmem
      · exact (hints.sent envelope hmem request hr).mono (Nat.le_succ i)
      · obtain ⟨hsender, m, hm, hmsg⟩ := World.mem_outgoing hmem
        rw [hr] at hmsg
        obtain ⟨hlead, ht⟩ := hfacts.sends m hm request hmsg
        have hok := (h.refines (i + 1) hi).message envelope (by rwa [hw])
        rw [MessageOk, hr] at hok
        rw [hok.1, hsender, ht]
        exact hled hlead

theorem Ghost.hintsOk (h : r.Ghost g) (hi : i ≤ r.length) : r.HintsOk i := by
  induction i with
  | zero =>
    refine ⟨fun {p node l} hp => ?_, fun envelope hm => ?_⟩
    · rw [r.state_zero] at hp
      cases hp
    · rw [r.state_zero] at hm
      cases hm
  | succ i ih => exact h.hints_step hi (ih (by omega))

/-- A term has no second leader. -/
theorem Led.unique {k p : ℕ} (h : r.Led i l t) (hi : i ≤ r.length) (h' : r.Led k p t)
    (hk : k ≤ r.length) : p = l := by
  obtain ⟨g, hg⟩ := r.exists_ghost
  have hleads : ∀ {m x}, m ≤ r.length → r.Led m x t → ∃ L, (g r.length).leader t = some (x, L) := by
    rintro m x hm ⟨j, hj, node, hslot, hrole, rfl⟩
    obtain ⟨L, hL⟩ := (hg.slot (hj.trans hm) hslot).2.leads hrole
    obtain ⟨X, hX, -⟩ := (hg.grows (hj.trans hm) le_rfl).leader hL
    exact ⟨_, hX⟩
  obtain ⟨L, hL⟩ := hleads hi h
  obtain ⟨L', hL'⟩ := hleads hk h'
  rw [hL] at hL'
  exact (Prod.mk.inj (Option.some.inj hL')).1.symm

/-- **Leader hints are right for their term**: the leader that a node names has become the leader
of the node's term, no other node ever does, and no node of this term ever names another one. -/
theorem leader_hint (r : cluster.Run) {i n l : ℕ} (hi : i ≤ r.length) {node : RaftNode}
    (hslot : (r.state i).slots n = .up node) (hl : node.knownLeader = some l) :
    r.Led i l node.term ∧
    (∀ k ≤ r.length, ∀ p, r.Led k p node.term → p = l) ∧
    ∀ k ≤ r.length, ∀ p node' l', (r.state k).slots p = .up node' → node'.term = node.term →
      node'.knownLeader = some l' → l' = l := by
  obtain ⟨g, h⟩ := r.exists_ghost
  have hled := (h.hintsOk hi).node hslot hl
  refine ⟨hled, fun k hk p hp => hled.unique hi hp hk, fun k hk p node' l' hslot' ht hl' => ?_⟩
  have hled' := (h.hintsOk hk).node hslot' hl'
  rw [ht] at hled'
  exact hled.unique hi hled' hk

/-- Node 2 has heard of node 1. -/
theorem leader_hint_elected : electedRun.Led 6 1 1 := by
  obtain ⟨node, hslot, hl, ht⟩ : ∃ node, (electedRun.state 6).slots 2 = .up node ∧
      node.knownLeader = some 1 ∧ node.term = 1 := ⟨_, rfl, rfl, rfl⟩
  have h := (leader_hint electedRun (i := 6) (by decide) hslot hl).1
  rwa [ht] at h

end Cluster.Run

end DistributedKV
