import DistributedKV.Cluster.Hints
import DistributedKV.Raft.NodeWrites

/-!
# Where entries come from

Every entry in a log of the cluster is the entry of an election, or holds a command that was
proposed. What holds of all those commands therefore holds of all entries on the disks, in the
requests that are sent, and in what nodes know to be committed.
-/

namespace DistributedKV.Cluster.Run

open Replication (CommittedBy)

variable {cluster : Cluster} {r : cluster.Run} {g : ℕ → Abstract} {P : Command → Prop} {i n : ℕ}

/-- All commands that are proposed in the run satisfy `P`. -/
def Proposes (r : cluster.Run) (P : Command → Prop) : Prop :=
  ∀ i < r.length, ∀ n command faults, (r.action i).handler = some (n, .propose command, faults) →
    P command

/-- All commands on the disks and in the requests satisfy `P`. -/
structure Sourced (r : cluster.Run) (P : Command → Prop) (i : ℕ) : Prop where
  disk : ∀ n, ∀ e ∈ ((r.state i).slots n).disk.log, P e.command
  sent : ∀ envelope ∈ (r.state i).sent, ∀ request, envelope.message = .appendEntries request →
    ∀ e ∈ request.entries, P e.command

/-- A proposal is an input. -/
theorem propose_of_call {input : Input} {command : Command}
    (hc : input.call = some (.propose command)) : input = .propose command := by
  cases input with
  | propose command' =>
    obtain rfl := NodeCall.propose.inj (Option.some.inj hc)
    rfl
  | deliver envelope =>
    rw [Input.call] at hc
    split at hc
    · cases hc
    · cases hc
    · cases hc
    · obtain ⟨sent, -, heq⟩ := Option.map_eq_some_iff.1 hc
      cases heq
  | electionTimeout | heartbeatTimeout | readBarrier => cases hc

/-- What a call leaves on the disk satisfies what the disks, the requests and the proposals did. -/
theorem Sourced.call (h : r.Sourced P i) (h0 : P {}) {node : RaftNode} {input : Input}
    {c : NodeCall}
    (hslot : (r.state i).slots n = .up node) (hc : input.call = some c)
    (ha : (r.state i).admits n input = true)
    (hpropose : ∀ command, input = .propose command → P command) (faults : Faults) :
    ∀ e ∈ ((node.withFaults faults).call c).1.disk.log, P e.command := by
  intro e he
  rcases RaftNode.mem_durable_call he with he | he
  · refine h.disk n e ?_
    rw [hslot]
    exact he
  · cases c with
    | appendEntries l request =>
      obtain ⟨envelope, hmem, hm⟩ := World.request_sent hc ha
      exact h.sent envelope hmem request hm e he
    | voteReply =>
      rw [NodeCall.Writes] at he
      rwa [he]
    | propose command =>
      rw [NodeCall.Writes] at he
      rw [he]
      exact hpropose command (propose_of_call hc)
    | electionTimeout | heartbeatTimeout | requestVote | appendReply | readBarrier => cases he

/-- A request that a node sends carries entries of the node's log. -/
theorem Ghost.request_entries (h : r.Ghost g) (hi : i ≤ r.length) {node : RaftNode}
    (hslot : (r.state i).slots n = .up node) {envelope : Envelope}
    (hmem : envelope ∈ (r.state i).sent) (hsender : envelope.sender = n) {request : AppendEntries}
    (hm : envelope.message = .appendEntries request) (hl : node.leader.isSome)
    (ht : request.term = node.term) : ∀ e ∈ request.entries, e ∈ node.disk.log := by
  intro e he
  obtain ⟨leader, hl⟩ := Option.isSome_iff_exists.1 hl
  obtain ⟨-, hrun⟩ := h.running hi hslot hl
  have hok := (h.refines i hi).message envelope hmem
  rw [MessageOk, hm] at hok
  obtain ⟨hid, L, hreq⟩ := hok
  have hL := hreq.leader
  rw [ht, hid, hsender, (hrun.leader hl).lead] at hL
  obtain rfl : node.log.log = L := (Prod.mk.inj (Option.some.inj hL)).2
  rw [RaftNode.disk, hrun.invariant.logSynced.durable]
  exact List.mem_of_mem_drop (hreq.entries.subset he)

/-- **One step** keeps the sources. -/
theorem Ghost.sourced_step (h : r.Ghost g) (h0 : P {}) (hP : r.Proposes P) (hi : i < r.length)
    (hs : r.Sourced P i) : r.Sourced P (i + 1) := by
  have hstep := World.step_of_next (r.next_state i hi)
  have hpropose := hP i hi
  generalize hw : r.state (i + 1) = w at hstep
  generalize r.action i = action at hstep hpropose
  -- a slot whose disk is in order
  have hset : ∀ {n : ℕ} (slot : Slot), (∀ e ∈ slot.disk.log, P e.command) → ∀ p,
      ∀ e ∈ (((r.state i).setSlot n slot).slots p).disk.log, P e.command := by
    intro n slot hslot p
    by_cases hp : p = n
    · subst hp
      rwa [World.setSlot_self]
    · rw [World.setSlot_of_ne _ hp]
      exact hs.disk p
  cases hstep with
  | @crash n input faults node c hslot hc ha =>
    have hdisk := hs.call h0 hslot hc ha (fun command heq => hpropose n command faults
      (by rw [heq]; rfl)) faults
    refine ⟨fun p => ?_, fun envelope hm => ?_⟩
    · rw [hw]
      exact hset (.down _) hdisk p
    · rw [hw] at hm
      exact hs.sent envelope hm
  | @halt n node hslot =>
    have hdisk := hs.disk n
    rw [hslot] at hdisk
    refine ⟨fun p => ?_, fun envelope hm => ?_⟩
    · rw [hw]
      exact hset (.down _) hdisk p
    · rw [hw] at hm
      exact hs.sent envelope hm
  | @restart n disk node hslot hn ho =>
    have hdisk := hs.disk n
    rw [hslot] at hdisk
    have hopen : node.disk = disk := by
      obtain rfl := RaftNode.openFrom_eq ho
      rfl
    refine ⟨fun p => ?_, fun envelope hm => ?_⟩
    · rw [hw]
      refine hset (.up node) ?_ p
      rw [Slot.disk, hopen]
      exact hdisk
    · rw [hw] at hm
      exact hs.sent envelope hm
  | @call n input faults node c hslot hc ha =>
    have hdisk := hs.call h0 hslot hc ha (fun command heq => hpropose n command faults
      (by rw [heq]; rfl)) faults
    have hslot' : (r.state (i + 1)).slots n = .up ((node.withFaults faults).call c).1 := by
      rw [hw]
      exact World.setSlot_self ..
    refine ⟨fun p => ?_, fun envelope hm request hr e he => ?_⟩
    · rw [hw]
      exact hset (.up _) hdisk p
    · have hm' := hm
      rw [hw] at hm'
      rcases List.mem_append.1 hm' with hmem | hmem
      · exact hs.sent envelope hmem request hr e he
      · obtain ⟨hsender, m, hmem, hmsg⟩ := World.mem_outgoing hmem
        obtain ⟨hlead, ht⟩ := (((h.slot hi.le hslot).2.withFaults faults).hintFacts c).sends m hmem
          request (hmsg.trans hr)
        exact hdisk e (h.request_entries hi hslot' hm hsender hr hlead ht e he)

/-- **The sources of entries**: what holds of the no-op of an election and of every command that is
proposed, holds of all commands on the disks and in the requests. -/
theorem Ghost.sourced (h : r.Ghost g) (h0 : P {}) (hP : r.Proposes P) (hi : i ≤ r.length) :
    r.Sourced P i := by
  induction i with
  | zero =>
    refine ⟨fun p e he => ?_, fun envelope hm => ?_⟩
    · rw [r.state_zero] at he
      cases he
    · rw [r.state_zero] at hm
      cases hm
  | succ i ih => exact h.sourced_step h0 hP hi (ih (by omega))

/-- What nodes know to be committed is on disks. -/
theorem Ghost.committed_sourced (h : r.Ghost g) (h0 : P {}) (hP : r.Proposes P) (hi : i ≤ r.length)
    {node : RaftNode} (hslot : (r.state i).slots n = .up node) :
    ∀ e ∈ node.log.log.take node.commitIndex, P e.command := by
  intro e he
  obtain ⟨t, ht⟩ := h.committed le_rfl hi hslot
  obtain ⟨Q, hQ, hlog⟩ := (h.refines i hi).sound.invariant.committedBy_quorum ht
    fun hnil => by simp [hnil] at he
  obtain ⟨p, q, hp, -⟩ := QuorumSystem.exists_pair_of_majority cluster.card_members hQ
  have htake := hlog p hp
  rw [(h.disk hi p).log] at htake
  exact (h.sourced h0 hP hi).disk p e (htake.subset he)

end DistributedKV.Cluster.Run
