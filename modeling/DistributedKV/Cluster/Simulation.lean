import DistributedKV.Cluster.Committing
import DistributedKV.Cluster.Following

/-!
# The cluster refines the abstract protocol

Every action of the cluster is some steps of one node of the abstract protocol, so a run comes
with a sequence of abstract states (`Cluster.Run.exists_ghost`) from which the properties of the
run are read off.
-/

namespace DistributedKV

open Replication (Grows CommittedBy)

variable {cluster : Cluster} {w w' : World} {s s' : Abstract} {n : ℕ} {node : RaftNode}

/-! ## One call -/

theorem RunningOk.withFaults (h : RunningOk s n node) (faults : Faults) :
    RunningOk s n (node.withFaults faults) where
  invariant := h.invariant.withFaults faults
  committed := h.committed
  candidate := h.candidate
  leader := h.leader
  reads := h.reads

theorem NodeOk.withFaults (h : NodeOk cluster s n node) (faults : Faults) :
    NodeOk cluster s n (node.withFaults faults) where
  selfId := h.selfId
  peerIds := h.peerIds
  disk := h.disk
  committed := h.committed
  commit_le := h.commit_le
  applied := h.applied
  leads := h.leads
  stopped := h.stopped
  running hs := (h.running hs).withFaults faults

/-- What reaches a node in a world that refines an abstract state. -/
theorem Refines.deliver (h : Refines cluster w s) {envelope : Envelope}
    (ha : w.admits n (.deliver envelope)) : MessageOk s envelope ∧ envelope.receiver = n := by
  simp only [World.admits, decide_eq_true_eq] at ha
  exact ⟨h.message envelope ha.1, ha.2⟩

/-- **One call**: every input that a node of the cluster may get has an effect on the abstract
state. -/
theorem Refines.call_simulates (h : Refines cluster w s) (hslot : w.slots n = .up node)
    {input : Input} {c : NodeCall} (hc : input.call = some c) (ha : w.admits n input)
    (faults : Faults) :
    Simulates cluster s n input.repliedTo ((node.withFaults faults).call c) := by
  have hslotOk := h.slot n
  rw [hslot] at hslotOk
  obtain ⟨hn, hnode⟩ := hslotOk
  have hok := hnode.withFaults faults
  revert hok
  generalize node.withFaults faults = node
  intro hok
  cases hstop : node.stopped with
  | true =>
    rw [RaftNode.call_of_stopped hstop]
    exact simulates_self hok fun actions ha => by cases ha
  | false =>
    cases input with
    | electionTimeout =>
      obtain rfl := Option.some.inj hc
      exact onElectionTimeout_simulates h.sound hok hstop
    | heartbeatTimeout =>
      obtain rfl := Option.some.inj hc
      exact onHeartbeatTimeout_simulates hok hstop
    | propose command =>
      obtain rfl := Option.some.inj hc
      exact propose_simulates h.sound hok hstop command
    | readBarrier =>
      obtain rfl := Option.some.inj hc
      exact readBarrier_simulates hok hstop
    | deliver envelope =>
      obtain ⟨hmsg, hto⟩ := h.deliver ha
      rw [Input.call] at hc
      cases hm : envelope.message with
      | requestVote request =>
        simp only [hm, Option.some.injEq] at hc
        subst hc
        rw [Input.repliedTo, hm]
        exact onRequestVote_simulates h.sound hok hstop hm hmsg
      | requestVoteReply reply =>
        simp only [hm, Option.some.injEq] at hc
        subst hc
        rw [Input.repliedTo, hm]
        exact onVoteReply_simulates h.sound hn hok hstop hm hto hmsg
      | appendEntries request =>
        simp only [hm, Option.some.injEq] at hc
        subst hc
        rw [Input.repliedTo, hm]
        exact onAppendEntries_simulates h.sound hok hstop hm hmsg
      | appendEntriesReply reply =>
        rw [hm] at hc
        obtain ⟨sent, hsent, rfl⟩ := Option.map_eq_some_iff.1 hc
        rw [Input.repliedTo, hm]
        rw [MessageOk, hm] at hmsg
        exact (onAppendReply_simulates h.sound hn hok hstop (hmsg sent hsent)).1

/-! ## One action -/

/-- Replacing the slot of a node that has made steps. -/
theorem Refines.setSlot (h : Refines cluster w s) (he : Effect cluster n s s') {slot : Slot}
    (hslot : SlotOk cluster s' n slot) : Refines cluster (w.setSlot n slot) s' where
  sound := h.sound.effect he
  slot p := by
    by_cases hp : p = n
    · subst hp
      rwa [World.setSlot_self]
    · rw [World.setSlot_of_ne w hp]
      exact (h.slot p).frame (he.grows h.sound) he.steps.frame hp
  message envelope hm := (h.message envelope hm).grows (he.grows h.sound)

theorem Refines.send (h : Refines cluster w s) {envelopes : List Envelope}
    (hm : ∀ envelope ∈ envelopes, MessageOk s envelope) :
    Refines cluster { w with sent := w.sent ++ envelopes } s where
  sound := h.sound
  slot := h.slot
  message envelope he := (List.mem_append.1 he).elim (h.message envelope) (hm envelope)

/-- A node that has just been opened. -/
theorem NodeOk.of_openFrom (hs : s.Sound cluster) {disk : Disk} (hdisk : DiskOk s n disk)
    (ho : RaftNode.openFrom n (cluster.peerIds n) disk = some node) : NodeOk cluster s n node := by
  have hlog := hs.logInvariant_node n
  rw [hdisk.log, hdisk.recorded.term] at hlog
  obtain ⟨hinv, hstop⟩ := RaftNode.openFrom_invariant ho hlog fun hv h0 => by
    rw [← hdisk.recorded.vote, h0, hs.vote_zero] at hv
    cases hv
  have hopen : node.selfId = n ∧ node.peerIds = cluster.peerIds n ∧ node.disk = disk ∧
      node.commitIndex = 0 ∧ node.election.cachedRole = .follower := by
    obtain rfl := RaftNode.openFrom_eq ho
    exact ⟨rfl, rfl, rfl, rfl, rfl⟩
  obtain ⟨hself, hpeers, hdisk', hcommit, hcached⟩ := hopen
  have hrole := role_follower_of_cachedRole hcached
  have hnil : ∀ t, CommittedBy s t (node.log.log.take node.commitIndex) := fun t => by
    rw [hcommit]
    exact .nil s t
  refine ⟨hself, hpeers, hdisk' ▸ hdisk, ⟨0, hnil 0⟩, hcommit.trans_le (Nat.zero_le _),
    hinv.applied, fun hr => ?_, fun hs => (by simp [hstop] at hs),
    fun _ => .of_follower hinv (hnil _) hrole⟩
  rw [hrole] at hr
  cases hr

/-- What an action between two worlds does to the abstract state: some steps of one node, what it
sends is true when it is sent, and a call leaves a node as it should be, even where the process
does not outlive the call. -/
structure Moves (cluster : Cluster) (w : World) (action : Action) (w' : World)
    (s s' : Abstract) : Prop where
  effect : ∃ n, Effect cluster n s s'
  sent : ∃ envelopes, w'.sent = w.sent ++ envelopes ∧ ∀ envelope ∈ envelopes, Fresh s' envelope
  called : ∀ {n input faults node c}, action.handler = some (n, input, faults) →
    w.slots n = .up node → input.call = some c →
      NodeOk cluster s' n ((node.withFaults faults).call c).1

theorem Moves.refl {action : Action} (n : ℕ) (ha : action.handler = none) (h : w'.sent = w.sent) :
    Moves cluster w action w' s s :=
  ⟨⟨n, .refl cluster n s⟩, ⟨[], by rw [h, List.append_nil], by simp⟩,
    fun hh => by simp [ha] at hh⟩

/-- The result of the one call of an action. -/
theorem called_of_call {action : Action} {input : Input} {faults : Faults} {c : NodeCall}
    (ha : action.handler = some (n, input, faults)) (hslot : w.slots n = .up node)
    (hc : input.call = some c) (hnode : NodeOk cluster s' n ((node.withFaults faults).call c).1)
    {n' : ℕ} {input' : Input} {faults' : Faults} {node' : RaftNode} {c' : NodeCall}
    (ha' : action.handler = some (n', input', faults')) (hslot' : w.slots n' = .up node')
    (hc' : input'.call = some c') :
    NodeOk cluster s' n' ((node'.withFaults faults').call c').1 := by
  rw [ha] at ha'
  simp only [Option.some.injEq, Prod.mk.injEq] at ha'
  obtain ⟨rfl, rfl, rfl⟩ := ha'
  rw [hslot] at hslot'
  obtain rfl := Slot.up.inj hslot'
  rw [hc] at hc'
  obtain rfl := Option.some.inj hc'
  exact hnode

/-- **One action** of the cluster is some steps of one node. -/
theorem Refines.next (h : Refines cluster w s) {action : Action}
    (hnext : w.next cluster action = some w') :
    ∃ s', Moves cluster w action w' s s' ∧ Refines cluster w' s' := by
  unfold World.next at hnext
  cases action with
  | call n input faults =>
    dsimp only at hnext
    split at hnext
    · next node c hslot hc =>
      split_ifs at hnext with ha
      obtain ⟨s', he, hnode, hm⟩ := h.call_simulates hslot hc ha faults
      obtain rfl := Option.some.inj hnext
      have hn : n ∈ cluster.members := by
        have := h.slot n
        rw [hslot] at this
        exact this.1
      have hslot' : SlotOk cluster s' n (.up ((node.withFaults faults).call c).1) := ⟨hn, hnode⟩
      have hsend : ∀ envelope ∈ World.outgoing n input.repliedTo
          ((node.withFaults faults).call c).2, MessageOk s' envelope ∧ Fresh s' envelope := by
        revert hm
        generalize ((node.withFaults faults).call c).2 = result
        intro hm envelope hmem
        cases result with
        | error e => cases hmem
        | ok actions =>
          obtain ⟨m, hmem', rfl⟩ := List.mem_map.1 hmem
          exact ⟨(hm actions rfl m hmem').ok, (hm actions rfl m hmem').fresh⟩
      exact ⟨s', ⟨⟨n, he⟩, ⟨_, rfl, fun envelope hmem => (hsend envelope hmem).2⟩,
          called_of_call rfl hslot hc hnode⟩,
        (h.setSlot he hslot').send fun envelope hmem => (hsend envelope hmem).1⟩
    · cases hnext
  | crash n input faults =>
    dsimp only at hnext
    split at hnext
    · next node c hslot hc =>
      split_ifs at hnext with ha
      obtain ⟨s', he, hnode, -⟩ := h.call_simulates hslot hc ha faults
      obtain rfl := Option.some.inj hnext
      exact ⟨s', ⟨⟨n, he⟩, ⟨[], (List.append_nil _).symm, by simp⟩,
        called_of_call rfl hslot hc hnode⟩, h.setSlot he hnode.disk⟩
    · cases hnext
  | halt n =>
    dsimp only at hnext
    split at hnext
    · next node hslot =>
      obtain rfl := Option.some.inj hnext
      have hnode := h.slot n
      rw [hslot] at hnode
      exact ⟨s, .refl n rfl rfl, h.setSlot (.refl cluster n s) hnode.2.disk⟩
    · cases hnext
  | restart n =>
    dsimp only at hnext
    split at hnext
    · next disk hslot =>
      split_ifs at hnext with hn
      obtain ⟨node, ho, rfl⟩ := Option.map_eq_some_iff.1 hnext
      have hdisk := h.slot n
      rw [hslot] at hdisk
      exact ⟨s, .refl n rfl rfl, h.setSlot (.refl cluster n s) ⟨hn, .of_openFrom h.sound hdisk ho⟩⟩
    · cases hnext

/-! ## Runs -/

theorem refines_init (cluster : Cluster) : Refines cluster World.init Replication.State.init where
  sound := .init
  slot _ := ⟨⟨rfl, rfl⟩, rfl⟩
  message _ h := by cases h

/-- The abstract states along a run. -/
structure Cluster.Run.Ghost (r : cluster.Run) (g : ℕ → Abstract) : Prop where
  zero : g 0 = Replication.State.init
  refines : ∀ i ≤ r.length, Refines cluster (r.state i) (g i)
  moves : ∀ i < r.length,
    Moves cluster (r.state i) (r.action i) (r.state (i + 1)) (g i) (g (i + 1))

/-- **A run of the cluster is a run of the abstract protocol.** -/
theorem Cluster.Run.exists_ghost (r : cluster.Run) : ∃ g, r.Ghost g := by
  obtain ⟨g, h0, h1, h2⟩ := r.simulation (R := Refines cluster)
    (M := Moves cluster) (refines_init cluster)
    fun h hnext => h.next hnext
  exact ⟨g, h0, h1, h2⟩

namespace Cluster.Run.Ghost

variable {r : cluster.Run} {g : ℕ → Abstract}

/-- What has been recorded stays recorded. -/
theorem grows (h : r.Ghost g) {i j : ℕ} (hij : i ≤ j) (hj : j ≤ r.length) :
    Grows LogEntry.term (g i) (g j) := by
  induction j, hij using Nat.le_induction with
  | base => exact .refl _
  | succ j hij ih =>
    obtain ⟨n, he⟩ := (h.moves j hj).effect
    exact (ih (by omega)).trans (he.grows (h.refines j (by omega)).sound)

theorem slot (h : r.Ghost g) {i : ℕ} (hi : i ≤ r.length) {n : ℕ} {node : RaftNode}
    (hslot : (r.state i).slots n = .up node) :
    n ∈ cluster.members ∧ NodeOk cluster (g i) n node := by
  have := (h.refines i hi).slot n
  rwa [hslot] at this

theorem disk (h : r.Ghost g) {i : ℕ} (hi : i ≤ r.length) (n : ℕ) :
    DiskOk (g i) n ((r.state i).slots n).disk := by
  have := (h.refines i hi).slot n
  cases hslot : (r.state i).slots n with
  | down disk => rwa [hslot] at this
  | up node =>
    rw [hslot] at this
    exact this.2.disk

end Cluster.Run.Ghost

end DistributedKV
