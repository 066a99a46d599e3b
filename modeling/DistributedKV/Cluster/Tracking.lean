import DistributedKV.Cluster.Hints
import DistributedKV.Cluster.Settling
import DistributedKV.Raft.NodeTracking
import Mathlib.Tactic.IntervalCases

/-!
# No read is forgotten

Along a run of the cluster a leader keeps track of every read that it has started until it reports
it. Giving up the leadership gives up the reads as well, also where the node is elected again.
-/

namespace DistributedKV

open RaftNodeResult

variable {cluster : Cluster} {s : Abstract} {n : ℕ} {node : RaftNode}

/-- `leader_ && leader_->active()`. -/
def RaftNode.activeLeader (node : RaftNode) : Bool := node.leader.any node.leaderActive

theorem RaftNode.exists_leader_of_active (h : node.activeLeader = true) :
    ∃ leader, node.leader = some leader := by
  rw [activeLeader] at h
  cases hl : node.leader with
  | none => simp [hl] at h
  | some leader => exact ⟨leader, rfl⟩

theorem NodeOk.stopped_of_leader (h : NodeOk cluster s n node) {leader : RaftLeaderReplication}
    (hl : node.leader = some leader) : node.stopped = false := by
  cases hs : node.stopped with
  | false => rfl
  | true => simp [h.stopped hs] at hl

theorem NodeOk.leaderBounds (h : NodeOk cluster s n node) {leader : RaftLeaderReplication}
    (hl : node.leader = some leader) : RaftNode.LeaderBounds node leader := by
  have hlead := (h.running (h.stopped_of_leader hl)).leader hl
  refine ⟨hlead.id, fun i => ?_, fun i request hp => ((hlead.peer i).pending hp).2.2.2.2⟩
  rw [RaftNode.lastIndex, ← PersistentLog.length_log]
  exact hlead.bounds i

namespace Cluster.Run

variable {r : cluster.Run} {g : ℕ → Abstract} {i j id : ℕ} {c : NodeCall}

/-- In step `i`, node `n` returns the id of a read that it starts. -/
def StartsRead (r : cluster.Run) (i n id : ℕ) : Prop :=
  ∃ node, r.Handles i n node .readBarrier ∧ startedReadId (node.call .readBarrier).2 = some id

/-- In step `i`, node `n` reports the read. -/
def ReportsRead (r : cluster.Run) (i n id : ℕ) : Prop :=
  ∃ node c, r.Handles i n node c ∧ ∃ x ∈ readyReads (node.call c).2, x.id = id

/-- In state `i`, node `n` is an active leader. -/
def ActiveLeader (r : cluster.Run) (i n : ℕ) : Prop :=
  ∃ node, (r.state i).slots n = .up node ∧ node.activeLeader = true

/-- A process that is up after a step was up before it, handled a call in it, or was started. -/
theorem up_succ (hi : i < r.length) (hslot : (r.state (i + 1)).slots n = .up node) :
    (r.state i).slots n = .up node ∨
      (∃ node₀ c, r.Handles i n node₀ c ∧ node = (node₀.call c).1) ∨
        ∃ disk, (r.state i).slots n = .down disk ∧
          RaftNode.openFrom n (cluster.peerIds n) disk = some node := by
  have hstep := World.step_of_next (r.next_state i hi)
  generalize hw : r.state (i + 1) = w at hstep
  generalize ha : r.action i = action at hstep
  rw [hw] at hslot
  -- the slot of the action, and the others
  have hset : ∀ {p : ℕ} {slot : Slot}, w.slots = ((r.state i).setSlot p slot).slots →
      (p = n ∧ slot = .up node) ∨ (r.state i).slots n = .up node := by
    intro p slot hslots
    rw [hslots] at hslot
    by_cases hp : n = p
    · subst hp
      rw [World.setSlot_self] at hslot
      exact Or.inl ⟨rfl, hslot⟩
    · rw [World.setSlot_of_ne _ hp] at hslot
      exact Or.inr hslot
  cases hstep with
  | call faults hslot₀ hc hadm =>
    rcases hset rfl with ⟨rfl, hup⟩ | hsame
    · refine Or.inr (Or.inl ⟨_, _, ⟨hi, _, _, faults, ?_, hslot₀, hc, rfl⟩, (Slot.up.inj hup).symm⟩)
      rw [ha]
      rfl
    · exact Or.inl hsame
  | crash | halt =>
    rcases hset rfl with ⟨-, hup⟩ | hsame
    · cases hup
    · exact Or.inl hsame
  | restart hslot₀ _ ho =>
    rcases hset rfl with ⟨rfl, hup⟩ | hsame
    · obtain rfl := Slot.up.inj hup
      exact Or.inr (Or.inr ⟨_, hslot₀, ho⟩)
    · exact Or.inl hsame

/-- **The rule for nodes**: what holds of a node that was opened, whatever its writes will meet, and
what every call keeps, holds of every node. -/
theorem node_invariant (r : cluster.Run) {P : RaftNode → Prop}
    (hfaults : ∀ {node} faults, P node → P (node.withFaults faults))
    (hopen : ∀ {n peerIds disk node}, RaftNode.openFrom n peerIds disk = some node → P node)
    (hcall : ∀ {i n node c}, r.Handles i n node c → P node → P (node.call c).1) :
    ∀ i ≤ r.length, ∀ {n node}, (r.state i).slots n = .up node → P node := by
  intro i hi
  induction i with
  | zero =>
    intro n node hslot
    rw [r.state_zero] at hslot
    cases hslot
  | succ i ih =>
    intro n node hslot
    rcases up_succ hi hslot with hsame | ⟨node₀, c, hh, rfl⟩ | ⟨disk, -, ho⟩
    · exact ih (by omega) hsame
    · refine hcall hh ?_
      obtain ⟨-, node₁, input, faults, -, hslot₁, -, rfl⟩ := hh
      exact hfaults faults (ih (by omega) hslot₁)
    · exact hopen ho

/-- A leader sees no request of its own term. -/
theorem Ghost.request_term (h : r.Ghost g) {peerId : ℕ} {request : AppendEntries}
    (hh : r.Handles i n node (.appendEntries peerId request)) (hl : node.leader.isSome)
    (hp : node.isPeer peerId = true) (hid : request.leaderId = peerId) :
    request.term ≠ node.term := by
  obtain ⟨-, hnode, -⟩ := h.handles hh
  obtain ⟨leader, hl⟩ := Option.isSome_iff_exists.1 hl
  have hrun := hnode.running (hnode.stopped_of_leader hl)
  obtain ⟨hi, node₀, input, faults, ha, -, hc, -⟩ := hh
  obtain ⟨envelope, hmem, hm⟩ := World.request_sent hc (World.admits_of_next (r.next_state i hi) ha)
  have hok := (h.refines i hi.le).message envelope hmem
  rw [MessageOk, hm] at hok
  obtain ⟨-, L, hL⟩ := hok
  intro hterm
  have hlead := (hrun.leader hl).lead
  rw [← hterm, hL.leader] at hlead
  have hself : request.leaderId = n := (Prod.mk.inj (Option.some.inj hlead)).1
  refine RaftNode.isPeer_ne_self hrun.invariant hp ?_
  rw [← hid, hself, hnode.selfId]

theorem Ghost.trackFacts (h : r.Ghost g) (hh : r.Handles i n node c) (ht : node.Tracking) :
    node.TrackFacts (node.call c) := by
  obtain ⟨-, hnode, -⟩ := h.handles hh
  cases hs : node.stopped with
  | true =>
    rw [RaftNode.call_of_stopped hs]
    exact .of_kept ht rfl rfl rfl fun _ => Or.inr rfl
  | false =>
    refine RaftNode.call_tracks (hnode.running hs).invariant hs ht (fun hl => hnode.leaderBounds hl)
      fun hc hl hp hid => ?_
    subst hc
    exact h.request_term hh hl hp hid

/-- **Every node keeps track of its reads.** -/
theorem tracking (r : cluster.Run) : ∀ i ≤ r.length, ∀ {n node},
    (r.state i).slots n = .up node → node.Tracking := by
  obtain ⟨g, h⟩ := r.exists_ghost
  refine r.node_invariant (fun faults ht => ht.withFaults faults) (fun ho => ?_)
    fun hh ht => (h.trackFacts hh ht).tracking
  obtain rfl := RaftNode.openFrom_eq ho
  exact ⟨.nil, by simp, fun hm => by cases hm⟩

theorem Handles.tracking (hh : r.Handles i n node c) : node.Tracking := by
  obtain ⟨hi, node₁, input, faults, -, hslot, -, rfl⟩ := hh
  exact (r.tracking i hi.le hslot).withFaults faults

/-- A process that outlives a call is what the call has made of it. -/
theorem Handles.up {node' : RaftNode} (hh : r.Handles i n node c)
    (hslot : (r.state (i + 1)).slots n = .up node') : node' = (node.call c).1 := by
  obtain ⟨hi, node₀, input, faults, ha, hslot₀, hc, rfl⟩ := hh
  have hstep := World.step_of_next (r.next_state i hi)
  generalize r.state (i + 1) = w at hstep hslot
  generalize r.action i = action at hstep ha
  cases hstep with
  | call faults' hslot₁ hc' _ =>
    obtain ⟨rfl, rfl, rfl⟩ : _ = n ∧ _ = input ∧ faults' = faults := by
      simpa [Action.handler] using ha
    rw [hslot₀] at hslot₁
    obtain rfl := Slot.up.inj hslot₁
    obtain rfl := Option.some.inj (hc.symm.trans hc')
    rw [World.setSlot_self] at hslot
    exact (Slot.up.inj hslot).symm
  | crash faults' _ _ _ =>
    obtain ⟨rfl, rfl, rfl⟩ : _ = n ∧ _ = input ∧ faults' = faults := by
      simpa [Action.handler] using ha
    rw [World.setSlot_self] at hslot
    cases hslot
  | halt => cases ha
  | restart => cases ha

/-- What a running leader knows of its reads in a state of the run. -/
theorem Ghost.keeps (h : r.Ghost g) {s : ℕ} (hj : j ≤ r.length) (hs : s < j)
    (hstart : r.StartsRead s n id) (hleads : ∀ i, s < i → i ≤ j → r.ActiveLeader i n)
    (hreport : ∀ i, s < i → i < j → ¬ r.ReportsRead i n id) :
    ∀ node, (r.state j).slots n = .up node → id ∈ OrderedMap.keys node.readRounds := by
  induction j, hs using Nat.le_induction with
  | base =>
    obtain ⟨node₀, hh, hid⟩ := hstart
    intro node hslot
    obtain rfl := hh.up hslot
    exact (h.trackFacts hh hh.tracking).started hid
  | succ j hs ih =>
    have hbefore := ih (by omega) (fun i h1 h2 => hleads i h1 (by omega))
      fun i h1 h2 => hreport i h1 (by omega)
    obtain ⟨node₁, hslot₁, -⟩ := hleads j hs (Nat.le_succ j)
    obtain ⟨node₂, hslot₂, hactive⟩ := hleads (j + 1) (by omega) le_rfl
    intro node hslot
    obtain rfl := Slot.up.inj (hslot₂.symm.trans hslot)
    rcases up_succ hj hslot with hsame | ⟨node₀, c, hh, rfl⟩ | ⟨disk, hdown, -⟩
    · exact hbefore _ hsame
    · have hmem : id ∈ OrderedMap.keys node₀.readRounds := by
        obtain ⟨-, node₃, input, faults, -, hslot₃, -, rfl⟩ := hh
        exact hbefore node₃ hslot₃
      obtain ⟨leader, hl⟩ := RaftNode.exists_leader_of_active hactive
      refine ((h.trackFacts hh hh.tracking).kept (by simp [hl]) hmem).resolve_right fun hx => ?_
      exact hreport j hs (Nat.lt_succ_self j) ⟨node₀, c, hh, hx⟩
    · rw [hslot₁] at hdown
      cases hdown

/-- The call that commits the first entry of a leader's term sends the probes of its reads. -/
theorem Ghost.probes (h : r.Ghost g) (hh : r.Handles j n node c) (ht : node.Tracking)
    (hl : node.leader.isSome) (hid : (id, none) ∈ node.readRounds)
    (hterm : (node.call c).1.term = node.term)
    (hcommit : (node.call c).1.hasCommitted node.term = true) :
    ∃ probe, probe.readContext = id ∧ (id, some probe) ∈ (node.call c).1.readRounds ∧
      ∀ p ∈ node.peers, ⟨p, .appendEntries probe⟩ ∈ messages (node.call c).2 := by
  obtain ⟨-, hnode, hnode'⟩ := h.handles hh
  have hfacts := h.trackFacts hh ht
  obtain ⟨leader, hleader⟩ := Option.isSome_iff_exists.1 hl
  have hinv := (hnode.running (hnode.stopped_of_leader hleader)).invariant
  have hleads : (node.call c).1.leader.isSome := by
    refine (hfacts.committed hl hterm).resolve_right fun htake => ?_
    have hbefore := ht.waiting hid
    rw [hinv.currentTermCommitted, RaftNode.hasCommitted, ← htake] at hbefore
    rw [RaftNode.hasCommitted, hbefore] at hcommit
    cases hcommit
  obtain ⟨leader', hleader'⟩ := Option.isSome_iff_exists.1 hleads
  have hinv' := (hnode'.running (hnode'.stopped_of_leader hleader')).invariant
  have hcurrent : (node.call c).1.currentTermCommitted = true := by
    rw [hinv'.currentTermCommitted, hterm]
    exact hcommit
  exact ⟨_, rfl, hfacts.probed hid hleads hcurrent⟩

/-- **No read is forgotten** by a leader: it keeps track of each read that it has started as this
leader and not reported; one without a probe waits for the first entry of the term to be committed,
and the call that commits it sends the probe to both peers, as every heartbeat does from then on;
and a success that echoes the probe reports this read only. -/
theorem reads_tracked (r : cluster.Run) {j n : ℕ} {node : RaftNode} (hj : j ≤ r.length)
    (hslot : (r.state j).slots n = .up node) (hactive : node.activeLeader = true) :
    (∀ s < j, ∀ id, r.StartsRead s n id → (∀ i, s < i → i ≤ j → r.ActiveLeader i n) →
      (∀ i, s < i → i < j → ¬ r.ReportsRead i n id) → id ∈ OrderedMap.keys node.readRounds) ∧
    (∀ id, (id, none) ∈ node.readRounds → node.hasCommitted node.term = false ∧
      ∀ node' c, r.Handles j n node' c → (node'.call c).1.term = node.term →
        (node'.call c).1.hasCommitted node.term = true →
        ∃ probe, probe.readContext = id ∧ (id, some probe) ∈ (node'.call c).1.readRounds ∧
          ∀ p ∈ node.peers, ⟨p, .appendEntries probe⟩ ∈ messages (node'.call c).2) ∧
    ∀ id probe, (id, some probe) ∈ node.readRounds → probe.readContext = id ∧
      ∀ p ∈ node.peers, ∀ faults,
        ⟨p, .appendEntries probe⟩ ∈ messages ((node.withFaults faults).call .heartbeatTimeout).2 ∧
        ∀ reply : AppendEntriesReply, reply.success = true → reply.term = node.term →
          readyReads ((node.withFaults faults).call (.appendReply p probe reply)).2 =
            [⟨id, probe.leaderCommit⟩] := by
  obtain ⟨g, h⟩ := r.exists_ghost
  obtain ⟨leader, hl⟩ := RaftNode.exists_leader_of_active hactive
  obtain ⟨-, hnode⟩ := h.slot hj hslot
  have hrun := hnode.running (hnode.stopped_of_leader hl)
  have ht := r.tracking j hj hslot
  refine ⟨fun s hs id hstart hleads hreport => h.keeps hj hs hstart hleads hreport _ hslot,
    fun id hid => ⟨?_, ?_⟩, fun id probe hid => ⟨?_, fun p hp faults => ⟨?_, ?_⟩⟩⟩
  · rw [← hrun.invariant.currentTermCommitted]
    exact ht.waiting hid
  · intro node' c hh hterm hcommit
    obtain ⟨faults, rfl⟩ : ∃ faults, node' = node.withFaults faults := by
      obtain ⟨-, node₀, input, faults, -, hslot₀, -, rfl⟩ := hh
      exact ⟨faults, by rw [Slot.up.inj (hslot.symm.trans hslot₀)]⟩
    exact h.probes hh hh.tracking (by simp [RaftNode.withFaults, hl]) hid hterm hcommit
  · exact (hrun.reads id probe hid).2.2.2.2
  · exact RaftNode.onHeartbeatTimeout_probes (hrun.invariant.withFaults faults)
      (hnode.stopped_of_leader hl) hl ((hnode.withFaults faults).leaderBounds hl) hid hp
  · intro reply hsuccess hterm
    obtain ⟨-, -, -, hcommit, hcontext⟩ := hrun.reads id probe hid
    exact RaftNode.onAppendReply_probe (hrun.invariant.withFaults faults)
      (hnode.stopped_of_leader hl) (ht.withFaults faults) hl
      ((hnode.withFaults faults).leaderBounds hl) hid hcontext hcommit hp hsuccess hterm

/-! ## Losing the leadership -/

/-- Node 1 leads term 1 and starts a read. A candidate of term 2 makes it a follower, and then it
is elected again, in term 3. -/
def reelectedActions : List Action :=
  [.restart 1, .restart 2, .call 1 .electionTimeout {},
    .call 2 (.deliver ⟨1, 2, .requestVote ⟨1, 1, 0, 0⟩, none⟩) {},
    .call 1 (.deliver ⟨2, 1, .requestVoteReply ⟨1, true⟩, none⟩) {},
    .call 1 .readBarrier {},
    .call 2 .electionTimeout {},
    .call 1 (.deliver ⟨2, 1, .requestVote ⟨2, 2, 0, 0⟩, none⟩) {},
    .call 1 .electionTimeout {},
    .call 2 (.deliver ⟨1, 2, .requestVote ⟨3, 1, 1, 1⟩, none⟩) {},
    .call 1 (.deliver ⟨2, 1, .requestVoteReply ⟨3, true⟩, none⟩) {}]

theorem reelectedActions_possible :
    (reelectedActions.foldlM (World.next serverCluster) World.init).isSome := by
  decide +kernel

def reelectedRun : serverCluster.Run := .ofActions reelectedActions reelectedActions_possible

theorem reads_tracked_started : ∃ node, (reelectedRun.state 6).slots 1 = .up node ∧
    1 ∈ OrderedMap.keys node.readRounds := by
  have hstart : reelectedRun.StartsRead 5 1 1 :=
    ⟨_, ⟨by decide, _, _, _, rfl, rfl, rfl, rfl⟩, rfl⟩
  have hleads : ∃ node, (reelectedRun.state 6).slots 1 = .up node ∧ node.activeLeader = true :=
    ⟨_, rfl, rfl⟩
  obtain ⟨node, hslot, hactive⟩ := hleads
  refine ⟨node, hslot, (reads_tracked reelectedRun (by decide) hslot hactive).1 5 (by decide) 1
    hstart
    (fun i h1 h2 => ?_) fun i h1 h2 => by omega⟩
  obtain rfl : i = 6 := by omega
  exact ⟨node, hslot, hactive⟩

/-- A leader does not keep track of the reads from an earlier leadership. -/
theorem not_reads_tracked : ¬ ∀ (r : serverCluster.Run) (s j n id : ℕ) (node : RaftNode),
    s < j → j ≤ r.length → r.StartsRead s n id → (r.state j).slots n = .up node →
      node.activeLeader = true → (∀ i, s < i → i < j → ¬ r.ReportsRead i n id) →
      id ∈ OrderedMap.keys node.readRounds := by
  intro h
  have hstart : reelectedRun.StartsRead 5 1 1 :=
    ⟨_, ⟨by decide, _, _, _, rfl, rfl, rfl, rfl⟩, rfl⟩
  have hend : ∃ node, (reelectedRun.state 11).slots 1 = .up node ∧ node.activeLeader = true ∧
      node.readRounds = [] := ⟨_, rfl, rfl, rfl⟩
  obtain ⟨node, hslot, hactive, hnil⟩ := hend
  obtain ⟨g, hg⟩ := reelectedRun.exists_ghost
  have hmem := h reelectedRun 5 11 1 1 node (by decide) le_rfl hstart hslot hactive ?_
  · rw [hnil] at hmem
    cases hmem
  · -- a read is reported on an append reply, and there is none
    rintro i h1 h2 ⟨node', c, hh, x, hx, -⟩
    obtain ⟨-, hnode, -⟩ := hg.handles hh
    obtain ⟨peerId, sent, reply, rfl, -⟩ := (hnode.callFacts c).ready x hx
    obtain ⟨-, _, input, faults, ha, -, hc, -⟩ := hh
    interval_cases i
    · cases ha
    · cases ha
      cases hc
    · cases ha
      cases hc
    · cases ha
    · cases ha
      cases hc

end Cluster.Run

end DistributedKV
