import DistributedKV.Cluster.Tracking

/-!
# A read sees what was committed before it

A leader reports a read with the index of its probe. Once the reply to the probe is there, the
leader and the peer are two nodes that were still in the leader's term when the read was started,
so no later term could have committed anything by then (`Ghost.length_le_index`); what earlier
terms have committed lies before the entries of the leader's own term, of which the probe's index
is one. The id of a read tells when its probe was sent: a process gives out each id once.
-/

namespace DistributedKV

open RaftNodeResult
open Replication (Grows CommittedBy)

variable {cluster : Cluster} {s s' : Abstract} {n id : ℕ} {node : RaftNode} {c : NodeCall}
  {result : RaftNode × RaftNodeResult}

namespace RaftNode

/-! ## Read ids -/

/-- The id has been given out. -/
def Issued (node : RaftNode) (id : ℕ) : Prop := node.nextReadId = 0 ∨ id < node.nextReadId

/-- The ids of the waiting reads have been given out. -/
structure ReadIds (node : RaftNode) : Prop where
  lt : node.nextReadId < 2 ^ 64
  issued : ∀ id ∈ OrderedMap.keys node.readRounds, node.Issued id

theorem ReadIds.withFaults {node : RaftNode} (h : node.ReadIds) (faults : Faults) :
    (node.withFaults faults).ReadIds :=
  ⟨h.lt, h.issued⟩

/-- The counter of the read ids after the id `m`. -/
theorem issued_succ {m : ℕ} (hm : m < 2 ^ 64) (hid : id ≤ m) :
    (m + 1) % 2 ^ 64 = 0 ∨ id < (m + 1) % 2 ^ 64 := by
  rcases Nat.lt_or_eq_of_le (Nat.succ_le_of_lt hm) with hlt | heq
  · rw [Nat.mod_eq_of_lt hlt]
    exact Or.inr (Nat.lt_succ_of_le hid)
  · rw [← heq, Nat.mod_self]
    exact Or.inl rfl

theorem CallFacts.issued (h : node.CallFacts c result) (hlt : node.nextReadId < 2 ^ 64)
    (hid : node.Issued id) : result.1.Issued id := by
  rw [Issued, h.nextReadId]
  cases hs : startedReadId result.2 with
  | none => exact hid
  | some id' =>
    obtain ⟨rfl, h0, -⟩ := h.started hs
    rcases hid with hid | hid
    · exact absurd hid h0
    · exact issued_succ hlt hid.le

/-- A read that is started gets an id that has not been given out. -/
theorem CallFacts.issued_started (h : node.CallFacts c result) (hlt : node.nextReadId < 2 ^ 64)
    (hid : startedReadId result.2 = some id) : result.1.Issued id ∧ ¬ node.Issued id := by
  obtain ⟨rfl, h0, -⟩ := h.started hid
  refine ⟨?_, fun h => h.elim h0 (lt_irrefl _)⟩
  rw [Issued, h.nextReadId, hid]
  exact issued_succ hlt le_rfl

theorem CallFacts.readIds (h : node.CallFacts c result) (hids : node.ReadIds) :
    result.1.ReadIds where
  lt := by
    rw [h.nextReadId]
    cases startedReadId result.2 with
    | none => exact hids.lt
    | some id => exact Nat.mod_lt _ (Nat.two_pow_pos 64)
  issued id hid := by
    obtain ⟨o, ho⟩ := OrderedMap.mem_keys_iff.1 hid
    rcases (h.rounds ho).1 with hold | hnew
    · exact h.issued hids.lt (hids.issued id hold)
    · exact (h.issued_started hids.lt hnew).1

end RaftNode

/-! ## Read indices -/

/-- Entry `index` of the log of the leader `n` of term `T` is of this term, and the leader had
committed no more in the term in the state `s`. -/
def ReadIndex (s s' : Abstract) (n T index : ℕ) : Prop :=
  ∃ L k e, s'.leader T = some (n, L) ∧ index = k + 1 ∧ L[k]? = some e ∧ e.term = T ∧
    s.committed T ≤ index

theorem ReadIndex.grows {s'' : Abstract} (hg : Grows LogEntry.term s' s'') {T index : ℕ}
    (h : ReadIndex s s' n T index) : ReadIndex s s'' n T index := by
  obtain ⟨L, k, e, hL, hk, he, ht, hc⟩ := h
  obtain ⟨L', hL', hp⟩ := hg.leader_prefix hL
  exact ⟨L', k, e, hL', hk, Replication.getElem?_of_prefix hp he, ht, hc⟩

/-- The index of the probes that a leader builds. -/
theorem NodeOk.readIndex (h : NodeOk cluster s' n node) (hl : node.leader.isSome)
    (hg : Grows LogEntry.term s s') (hc : node.currentTermCommitted = true) :
    ReadIndex s s' n node.term node.commitIndex := by
  obtain ⟨leader, hl⟩ := Option.isSome_iff_exists.1 hl
  have hlead := (h.running (h.stopped_of_leader hl)).leader hl
  rw [RaftNode.currentTermCommitted] at hc
  split_ifs at hc with h0
  obtain ⟨k, hk⟩ : ∃ k, node.commitIndex = k + 1 :=
    Nat.exists_eq_succ_of_ne_zero fun h => h0 (Or.inl h)
  rw [hk, PersistentLog.entryAt_succ] at hc
  cases he : node.log.log[k]? with
  | none => simp [he] at hc
  | some e =>
    refine ⟨_, k, e, hlead.lead, hk, he, by simpa [he] using hc, ?_⟩
    exact (hg.committed node.term).trans hlead.committed_le

/-- A node with a replication object is an active leader. -/
theorem NodeOk.activeLeader (h : NodeOk cluster s n node) (hl : node.leader.isSome) :
    node.activeLeader = true := by
  obtain ⟨leader, hl⟩ := Option.isSome_iff_exists.1 hl
  rw [RaftNode.activeLeader, hl]
  exact (h.running (h.stopped_of_leader hl)).invariant.active hl

/-- A node that reports something has not stopped, and did not stop. -/
theorem NodeOk.stopped_of_ready (h : NodeOk cluster s n node) {x : ReadyRead}
    (hx : x ∈ readyReads (node.call c).2) :
    node.stopped = false ∧ (node.call c).1.stopped = false := by
  have hs : node.stopped = false := by
    by_contra hs
    rw [RaftNode.call_of_stopped (by simpa using hs)] at hx
    cases hx
  refine ⟨hs, ?_⟩
  have hend := RaftNode.call_log (h.running hs).invariant hs c
  revert hx hend
  generalize node.call c = result
  rintro hx (_ | _ | ⟨node', actions, hs'⟩ | ⟨node', actions, command, -, hs'⟩ |
    ⟨node', actions, -, hs'⟩)
  · cases hx
  · cases hx
  · exact hs'
  · exact hs'
  · exact hs'

namespace Cluster.Run

variable {r : cluster.Run} {g : ℕ → Abstract} {i j k : ℕ}

/-- In state `i`, node `n` is an active leader of term `T`. -/
def LeadsTerm (r : cluster.Run) (i n T : ℕ) : Prop :=
  ∃ node, (r.state i).slots n = .up node ∧ node.activeLeader = true ∧ node.term = T

/-- From step `k` on until state `j` the process of node `n` has been up. -/
def Stays (r : cluster.Run) (k j n : ℕ) : Prop :=
  ∀ i, k < i → i ≤ j → ∃ node, (r.state i).slots n = .up node

theorem Stays.mono (h : r.Stays k j n) (hij : i ≤ j) : r.Stays k i n :=
  fun i' h1 h2 => h i' h1 (h2.trans hij)

theorem readIds (r : cluster.Run) : ∀ i ≤ r.length, ∀ {n node},
    (r.state i).slots n = .up node → node.ReadIds := by
  obtain ⟨g, h⟩ := r.exists_ghost
  refine r.node_invariant (fun faults hids => hids.withFaults faults) (fun ho => ?_)
    fun hh hids => ((h.handles hh).2.1.callFacts _).readIds hids
  obtain rfl := RaftNode.openFrom_eq ho
  exact ⟨Nat.one_lt_two_pow (by decide), fun id hid => by cases hid⟩

theorem Handles.readIds (hh : r.Handles i n node c) : node.ReadIds := by
  obtain ⟨hi, node₁, input, faults, -, hslot, -, rfl⟩ := hh
  exact (r.readIds i hi.le hslot).withFaults faults

/-! ## What has been sent -/

/-- A message that has been sent was sent before the last step, or it is one of its call. -/
theorem sent_succ (hi : i < r.length) {envelope : Envelope}
    (hmem : envelope ∈ (r.state (i + 1)).sent) : envelope ∈ (r.state i).sent ∨
      ∃ node c input, r.Handles i envelope.sender node c ∧
        (r.state i).admits envelope.sender input ∧
        input.call = some c ∧ ∃ m ∈ messages (node.call c).2,
          envelope = DistributedKV.envelope envelope.sender input.repliedTo m := by
  have hstep := World.step_of_next (r.next_state i hi)
  generalize r.state (i + 1) = w at hstep hmem
  generalize ha : r.action i = action at hstep
  cases hstep with
  | @call p input faults node c hslot hc hadm =>
    refine (List.mem_append.1 hmem).imp_right fun hnew => ?_
    revert hnew
    generalize hresult : ((node.withFaults faults).call c).2 = result
    intro hnew
    cases result with
    | error e => cases hnew
    | ok actions =>
      obtain ⟨m, hm, rfl⟩ := List.mem_map.1 hnew
      refine ⟨node.withFaults faults, c, input, ⟨hi, node, input, faults, ?_, hslot, hc, rfl⟩, hadm,
        hc, m, ?_, rfl⟩
      · rw [ha]
        rfl
      · rw [hresult]
        exact hm
  | crash | halt | restart => exact Or.inl hmem

/-- A leader has given out the ids of the probes that it has sent in its term. -/
theorem Ghost.probe_issued (h : r.Ghost g) (hi : i ≤ r.length)
    (hslot : (r.state i).slots n = .up node) (hl : node.leader.isSome) {envelope : Envelope}
    (hmem : envelope ∈ (r.state i).sent) {request : AppendEntries}
    (hm : envelope.message = .appendEntries request) (hself : request.leaderId = n)
    (ht : request.term = node.term) (h0 : request.readContext ≠ 0) :
    node.Issued request.readContext := by
  induction i generalizing node with
  | zero =>
    rw [r.state_zero] at hslot
    cases hslot
  | succ i ih =>
    have hok := (h.refines (i + 1) hi).message envelope hmem
    rw [MessageOk, hm] at hok
    have hsender : envelope.sender = n := hok.1.symm.trans hself
    have hrole := (h.slot hi hslot).2.role_of_leader hl
    rcases sent_succ hi hmem with hold | ⟨node₀, c, input, hh, -, -, m, hmsg, heq⟩
    · have hok₀ := (h.refines i (by omega)).message envelope hold
      rw [MessageOk, hm] at hok₀
      rcases up_succ hi hslot with hsame | ⟨node₀, c, hh, rfl⟩ | ⟨disk, -, ho⟩
      · exact ih (by omega) hsame hl hold ht
      · -- the node led the term before the call, for the term had a leader already
        obtain ⟨-, hnode, -⟩ := h.handles hh
        have hfacts := hnode.callFacts c
        obtain ⟨hterm, hbefore⟩ := hfacts.role hrole
        have hl₀ : node₀.leader.isSome := by
          have hs : node₀.stopped = false := by
            by_contra hs
            have hs' : node₀.stopped = true := by simpa using hs
            rw [RaftNode.call_of_stopped hs', hnode.stopped hs'] at hl
            cases hl
          rcases hbefore with hlead | hcand
          · exact (hnode.running hs).invariant.exists_leader hlead
          · obtain ⟨L, hL⟩ := hok₀.2
            have hnone := ((hnode.running hs).candidate hcand).2 L
            rw [← hterm, ← ht, ← hself] at hnone
            exact absurd hL.leader hnone
        refine hfacts.issued hh.readIds.lt ?_
        obtain ⟨-, node₁, input, faults, -, hslot₁, -, rfl⟩ := hh
        have hissued := ih (by omega) hslot₁ hl₀ hold (ht.trans hterm)
        exact hissued
      · obtain rfl := RaftNode.openFrom_eq ho
        cases hl
    · rw [hsender] at hh
      obtain rfl := hh.up hslot
      obtain ⟨-, hnode, -⟩ := h.handles hh
      have hfacts := hnode.callFacts c
      have hprobe : m.message = .appendEntries request := by
        rw [← hm, heq]
        rfl
      rcases hfacts.probes m hmsg request hprobe with hzero | hkey | hstarted
      · exact absurd hzero h0
      · exact hfacts.issued hh.readIds.lt (hh.readIds.issued _ hkey)
      · exact (hfacts.issued_started hh.readIds.lt hstarted).1

/-- A reply echoes a request that has been sent. -/
theorem request_of_reply (hi : i ≤ r.length) {envelope : Envelope}
    (hmem : envelope ∈ (r.state i).sent) {reply : AppendEntriesReply}
    (hm : envelope.message = .appendEntriesReply reply) {request : AppendEntries}
    (hr : envelope.repliedTo = some request) :
    ∃ x ∈ (r.state i).sent, x.message = .appendEntries request := by
  induction i with
  | zero =>
    rw [r.state_zero] at hmem
    cases hmem
  | succ i ih =>
    -- what has been sent stays
    have hmono : ∀ x ∈ (r.state i).sent, x ∈ (r.state (i + 1)).sent := by
      have hstep := World.step_of_next (r.next_state i hi)
      generalize r.state (i + 1) = w at hstep
      generalize r.action i = action at hstep
      cases hstep with
      | call => exact fun x hx => List.mem_append_left _ hx
      | crash | halt | restart => exact fun x hx => hx
    rcases sent_succ hi hmem with hold | ⟨node, c, input, hh, hadm, hc, m, hmsg, heq⟩
    · obtain ⟨x, hx, hxm⟩ := ih (by omega) hold
      exact ⟨x, hmono x hx, hxm⟩
    · have hmm : m.message = .appendEntriesReply reply := by
        rw [← hm, heq]
        rfl
      have hreplied : input.repliedTo = some request := by
        rw [← hr, heq, DistributedKV.envelope, hmm]
      cases input with
      | deliver x =>
        rw [Input.repliedTo] at hreplied
        simp only [World.admits, decide_eq_true_eq] at hadm
        refine ⟨x, hmono x hadm.1, ?_⟩
        cases hx : x.message with
        | appendEntries request' =>
          rw [hx] at hreplied
          rw [Option.some.inj hreplied]
        | requestVote | requestVoteReply | appendEntriesReply =>
          rw [hx] at hreplied
          cases hreplied
      | electionTimeout | heartbeatTimeout | propose | readBarrier => cases hreplied

/-- A node that sends a reply later is not beyond the reply's term yet. -/
theorem Ghost.term_le_reply (h : r.Ghost g) (hij : i ≤ j) (hj : j ≤ r.length)
    {envelope : Envelope} (hmem : envelope ∈ (r.state j).sent)
    (hnew : envelope ∉ (r.state i).sent) {reply : AppendEntriesReply}
    (hm : envelope.message = .appendEntriesReply reply) :
    (g i).term envelope.sender ≤ reply.term := by
  induction j, hij using Nat.le_induction with
  | base => exact absurd hmem hnew
  | succ j hij ih =>
    obtain ⟨envelopes, hsent, hfresh⟩ := (h.moves j hj).sent
    rw [hsent] at hmem
    rcases List.mem_append.1 hmem with hold | hlast
    · exact ih (by omega) hold
    · have hterm := hfresh envelope hlast
      rw [Fresh, hm] at hterm
      rw [hterm.1]
      exact (h.grows (hij.trans (Nat.le_succ j)) hj).term_le envelope.sender

/-! ## From the start of a read on -/

/-- In step `k`, node `n` returns the id of a read that it starts, as the leader of its term. -/
structure Starts (r : cluster.Run) (k n id : ℕ) (node : RaftNode) : Prop where
  handles : r.Handles k n node .readBarrier
  started : startedReadId (node.call .readBarrier).2 = some id

section Started

variable {node₀ : RaftNode}

/-- In state `i`, node `n` runs and has the read among those that wait. -/
def HasRead (r : cluster.Run) (i n id : ℕ) : Prop :=
  ∃ node, (r.state i).slots n = .up node ∧ node.stopped = false ∧
    id ∈ OrderedMap.keys node.readRounds

/-- A process that has been up until a state has made a call in the last step, or none. -/
theorem Stays.up_succ (hup : r.Stays k i n) (hki : k < i) (hi : i < r.length)
    (hslot : (r.state (i + 1)).slots n = .up node) : (r.state i).slots n = .up node ∨
      ∃ node₁ c, r.Handles i n node₁ c ∧ node = (node₁.call c).1 := by
  rcases Run.up_succ hi hslot with hsame | hcall | ⟨disk, hdown, -⟩
  · exact Or.inl hsame
  · exact Or.inr hcall
  · obtain ⟨node₁, hslot₁⟩ := hup i hki le_rfl
    rw [hdown] at hslot₁
    cases hslot₁

/-- The id stays given out as long as the process is up. -/
theorem Ghost.issued_after (h : r.Ghost g) (hstart : r.Starts k n id node₀) (hki : k < i)
    (hi : i ≤ r.length) (hup : r.Stays k i n) (hslot : (r.state i).slots n = .up node) :
    node.Issued id := by
  induction i, hki using Nat.le_induction generalizing node with
  | base =>
    obtain rfl := hstart.handles.up hslot
    obtain ⟨-, hnode, -⟩ := h.handles hstart.handles
    exact ((hnode.callFacts _).issued_started hstart.handles.readIds.lt hstart.started).1
  | succ i hki ih =>
    have hup' := hup.mono (Nat.le_succ i)
    rcases hup'.up_succ hki hi hslot with hsame | ⟨node₁, c, hh, rfl⟩
    · exact ih (by omega) hup' hsame
    · obtain ⟨-, hnode, -⟩ := h.handles hh
      refine (hnode.callFacts c).issued hh.readIds.lt ?_
      obtain ⟨-, node₂, input, faults, -, hslot₂, -, rfl⟩ := hh
      have hissued := ih (by omega) hup' hslot₂
      exact hissued

/-- After a call that leaves the read with the node, the node had it already. -/
theorem Ghost.hasRead_call (h : r.Ghost g) (hstart : r.Starts k n id node₀) (hki : k < i)
    (hup : r.Stays k i n) (hh : r.Handles i n node c) (hs : (node.call c).1.stopped = false)
    (hid : id ∈ OrderedMap.keys (node.call c).1.readRounds) : r.HasRead i n id := by
  obtain ⟨-, hnode, -⟩ := h.handles hh
  have hids := hh.readIds.lt
  have hrun := RaftNode.running_of_call hs
  obtain ⟨hi, node₁, input, faults, -, hslot, -, rfl⟩ := hh
  have hissued := h.issued_after hstart hki hi.le hup hslot
  have hs₁ : node₁.stopped = false := hrun
  obtain ⟨o, ho⟩ := OrderedMap.mem_keys_iff.1 hid
  refine ⟨node₁, hslot, hs₁, (((hnode.callFacts c).rounds ho).1).resolve_right fun hnew => ?_⟩
  exact ((hnode.callFacts c).issued_started hids hnew).2 hissued

/-- A read that a node has now it had before. -/
theorem Ghost.hasRead_mono (h : r.Ghost g) (hstart : r.Starts k n id node₀) (hki : k < i)
    (hij : i ≤ j) (hj : j ≤ r.length) (hup : r.Stays k j n) (hread : r.HasRead j n id) :
    r.HasRead i n id := by
  induction j, hij using Nat.le_induction with
  | base => exact hread
  | succ j hij ih =>
    have hup' := hup.mono (Nat.le_succ j)
    refine ih (by omega) hup' ?_
    obtain ⟨node, hslot, hs, hid⟩ := hread
    rcases hup'.up_succ (by omega) hj hslot with hsame | ⟨node₁, c, hh, rfl⟩
    · exact ⟨node, hsame, hs, hid⟩
    · exact h.hasRead_call hstart (by omega) hup' hh hs hid

/-- The node that starts a read leads, before and after. -/
theorem Ghost.leads_started (h : r.Ghost g) (hstart : r.Starts k n id node₀) :
    r.LeadsTerm k n node₀.term ∧ (node₀.call .readBarrier).1.term = node₀.term := by
  obtain ⟨-, hnode, -⟩ := h.handles hstart.handles
  obtain ⟨-, -, hrole, hrole'⟩ := (hnode.callFacts _).started hstart.started
  refine ⟨?_, ((hnode.callFacts _).role hrole').1⟩
  have hs : node₀.stopped = false := by
    by_contra hs
    have hid := hstart.started
    rw [RaftNode.call_of_stopped (by simpa using hs)] at hid
    cases hid
  have hactive := hnode.activeLeader ((hnode.running hs).invariant.exists_leader hrole)
  obtain ⟨-, node₁, input, faults, -, hslot, -, rfl⟩ := hstart.handles
  exact ⟨node₁, hslot, hactive, rfl⟩

/-- A node that waits for a read leads. -/
theorem Ghost.leader_of_hasRead (h : r.Ghost g) (hi : i ≤ r.length)
    (hslot : (r.state i).slots n = .up node) (hs : node.stopped = false)
    (hid : id ∈ OrderedMap.keys node.readRounds) : node.leader.isSome := by
  obtain ⟨-, hnode⟩ := h.slot hi hslot
  by_contra hl
  rw [(hnode.running hs).invariant.reads (by simpa using hl)] at hid
  cases hid

/-- **A node that has the read leads the term in which it was started.** -/
theorem Ghost.leads_of_hasRead (h : r.Ghost g) (hstart : r.Starts k n id node₀) (hki : k < i)
    (hi : i ≤ r.length) (hup : r.Stays k i n) (hread : r.HasRead i n id) :
    r.LeadsTerm i n node₀.term := by
  induction i, hki using Nat.le_induction with
  | base =>
    obtain ⟨node, hslot, hs, hid⟩ := hread
    have hactive := (h.slot hi hslot).2.activeLeader (h.leader_of_hasRead hi hslot hs hid)
    obtain rfl := hstart.handles.up hslot
    exact ⟨_, hslot, hactive, (h.leads_started hstart).2⟩
  | succ i hki ih =>
    have hup' := hup.mono (Nat.le_succ i)
    obtain ⟨node₁, hslot₁, -, hterm⟩ :=
      ih (by omega) hup' (h.hasRead_mono hstart hki (Nat.le_succ i) hi hup hread)
    obtain ⟨node, hslot, hs, hid⟩ := hread
    have hl := h.leader_of_hasRead hi hslot hs hid
    refine ⟨node, hslot, (h.slot hi hslot).2.activeLeader hl, ?_⟩
    rcases hup'.up_succ hki hi hslot with hsame | ⟨node₂, c, hh, rfl⟩
    · rw [← hterm, Slot.up.inj (hsame.symm.trans hslot₁)]
    · obtain ⟨-, hnode, -⟩ := h.handles hh
      rw [((hnode.callFacts c).role ((h.slot hi hslot).2.role_of_leader hl)).1, ← hterm]
      obtain ⟨-, node₃, input, faults, -, hslot₃, -, rfl⟩ := hh
      rw [Slot.up.inj (hslot₁.symm.trans hslot₃)]
      rfl

/-- The index of the probe is a read index. -/
theorem Ghost.probe_readIndex (h : r.Ghost g) (hstart : r.Starts k n id node₀) (hki : k < i)
    (hi : i ≤ r.length) (hup : r.Stays k i n) (hslot : (r.state i).slots n = .up node)
    (hs : node.stopped = false) {probe : AppendEntries}
    (hprobe : (id, some probe) ∈ node.readRounds) :
    ReadIndex (g k) (g i) n node.term probe.leaderCommit := by
  -- a probe that a call has built
  have hbuilt : ∀ {i : ℕ} {node : RaftNode}, k ≤ i → i ≤ r.length →
      (r.state i).slots n = .up node → node.stopped = false →
      (id, some probe) ∈ node.readRounds → probe = node.readProbe id →
      node.currentTermCommitted = true →
      ReadIndex (g k) (g i) n node.term probe.leaderCommit := by
    rintro i node hki hi hslot hs hm rfl hc
    have hl := h.leader_of_hasRead hi hslot hs (OrderedMap.mem_keys_iff.2 ⟨_, hm⟩)
    exact (h.slot hi hslot).2.readIndex hl (h.grows hki hi) hc
  induction i, hki using Nat.le_induction generalizing node with
  | base =>
    have hnode := (h.handles hstart.handles).2.1
    obtain rfl := hstart.handles.up hslot
    rcases ((hnode.callFacts _).rounds hprobe).2 probe rfl with hold | ⟨heq, hc⟩
    · have hissued := hstart.handles.readIds.issued id (OrderedMap.mem_keys_iff.2 ⟨_, hold⟩)
      exact absurd hissued ((hnode.callFacts _).issued_started hstart.handles.readIds.lt
        hstart.started).2
    · exact hbuilt (Nat.le_succ k) hi hslot hs hprobe heq hc
  | succ i hki ih =>
    have hup' := hup.mono (Nat.le_succ i)
    have hg := h.grows (Nat.le_succ i) hi
    rcases hup'.up_succ hki hi hslot with hsame | ⟨node₁, c, hh, rfl⟩
    · exact (ih (by omega) hup' hsame hs hprobe).grows hg
    · obtain ⟨-, hnode, -⟩ := h.handles hh
      rcases ((hnode.callFacts c).rounds hprobe).2 probe rfl with hold | ⟨heq, hc⟩
      · have hl := h.leader_of_hasRead hi hslot hs (OrderedMap.mem_keys_iff.2 ⟨_, hprobe⟩)
        rw [((hnode.callFacts c).role ((h.slot hi hslot).2.role_of_leader hl)).1]
        obtain ⟨node₃, hslot₃, hs₃, -⟩ := h.hasRead_call hstart hki hup' hh hs
          (OrderedMap.mem_keys_iff.2 ⟨_, hprobe⟩)
        obtain ⟨-, node₂, input, faults, -, hslot₂, -, rfl⟩ := hh
        obtain rfl := Slot.up.inj (hslot₂.symm.trans hslot₃)
        have hindex := ih (by omega) hup' hslot₂ hs₃ hold
        exact hindex.grows hg
      · exact hbuilt (by omega) hi hslot hs hprobe heq hc

/-! ## The report of a read -/

theorem Ghost.hasRead_of_ready (h : r.Ghost g) (hh : r.Handles j n node c) {x : ReadyRead}
    (hx : x ∈ readyReads (node.call c).2) : r.HasRead j n x.id := by
  obtain ⟨-, hnode, -⟩ := h.handles hh
  obtain ⟨peerId, sent, reply, -, -, -, -, -, -, -, hmem, -⟩ := (hnode.callFacts c).ready x hx
  have hs := (hnode.stopped_of_ready hx).1
  obtain ⟨hj, node₁, input, faults, -, hslot, -, rfl⟩ := hh
  exact ⟨node₁, hslot, hs, hmem⟩

/-- The reply to a probe was not there when the read was started. -/
theorem Ghost.reply_new (h : r.Ghost g) (hstart : r.Starts k n id node₀) {peerId : ℕ}
    {probe : AppendEntries} (hself : probe.leaderId = n) (ht : probe.term = node₀.term)
    (hid : probe.readContext = id) (reply : AppendEntriesReply) :
    ⟨peerId, n, .appendEntriesReply reply, some probe⟩ ∉ (r.state k).sent := by
  intro hmem
  have hk := hstart.handles.1
  obtain ⟨envelope, hmem, hm⟩ := request_of_reply hk.le hmem rfl rfl
  obtain ⟨-, hnode, -⟩ := h.handles hstart.handles
  have h0 := ((hnode.callFacts _).started hstart.started).2.1
  have hnot := ((hnode.callFacts _).issued_started hstart.handles.readIds.lt hstart.started).2
  obtain ⟨⟨node₁, hslot, hactive, hterm⟩, -⟩ := h.leads_started hstart
  obtain ⟨leader, hl⟩ := RaftNode.exists_leader_of_active hactive
  have hissued := h.probe_issued hk.le hslot (by simp [hl]) hmem hm hself (ht.trans hterm.symm)
    (hid.trans_ne h0)
  obtain ⟨-, node₂, input, faults, -, hslot₂, -, rfl⟩ := hstart.handles
  obtain rfl := Slot.up.inj (hslot₂.symm.trans hslot)
  exact hnot (hid ▸ hissued)

/-- **A reported read sees all that was committed when it was started.** -/
theorem Ghost.length_le_index (h : r.Ghost g) (hstart : r.Starts k n id node₀) (hkj : k < j)
    (hup : r.Stays k j n) (hh : r.Handles j n node c) {x : ReadyRead}
    (hx : x ∈ readyReads (node.call c).2) (hid : x.id = id) {t : ℕ} {l : List LogEntry}
    (hl : CommittedBy (g k) t l) : l.length ≤ x.index := by
  obtain ⟨hn, hnode, hnode'⟩ := h.handles hh
  have hj := hh.1
  obtain ⟨hs, hs'⟩ := hnode.stopped_of_ready hx
  have hread := h.hasRead_of_ready hh hx
  have hslot : ∃ node₁ faults,
      (r.state j).slots n = .up node₁ ∧ node = node₁.withFaults faults := by
    obtain ⟨-, node₁, input, faults, -, hslot, -, rfl⟩ := hh
    exact ⟨node₁, faults, hslot, rfl⟩
  have hterm₀ : node.term = node₀.term := by
    rw [hid] at hread
    obtain ⟨node₂, hslot₂, -, hterm⟩ := h.leads_of_hasRead hstart hkj hj.le hup hread
    obtain ⟨node₁, faults, hslot₁, rfl⟩ := hslot
    rw [← hterm, ← Slot.up.inj (hslot₁.symm.trans hslot₂)]
    rfl
  obtain ⟨peerId, sent, reply, rfl, hpeer, hcontext, hindex, -, hterm, hrole, -, -, hprobes, -⟩ :=
    (hnode.callFacts _).ready x hx
  have hleader := (hnode'.running hs').invariant.exists_leader hrole
  have hsame := ((hnode.callFacts _).role hrole).1
  -- the probe carries a read index, and was sent by this leader
  have hgrows := h.grows (hkj.le.trans (Nat.le_succ j)) hj
  have hprobe : ReadIndex (g k) (g (j + 1)) n node.term sent.leaderCommit ∧
      sent.leaderId = n ∧ sent.term = node.term := by
    rcases hprobes with hold | ⟨heq, hc⟩
    · obtain ⟨-, hself, ht, -⟩ := (hnode.running hs).reads x.id sent hold
      refine ⟨?_, hself, ht⟩
      obtain ⟨node₁, faults, hslot₁, rfl⟩ := hslot
      rw [hid] at hold
      have hold' : ReadIndex (g k) (g j) n node₁.term sent.leaderCommit :=
        h.probe_readIndex hstart hkj hj.le hup hslot₁ hs hold
      exact hold'.grows (h.grows (Nat.le_succ j) hj)
    · refine ⟨?_, ?_, ?_⟩
      · rw [heq, ← hsame]
        exact hnode'.readIndex hleader hgrows hc
      · rw [heq]
        exact hnode'.selfId
      · rw [heq, ← hsame]
        rfl
  obtain ⟨⟨L, m, e, hL, hm, he, het, hc⟩, hself, ht⟩ := hprobe
  -- neither the leader nor the peer had left the term
  have hpeerId : peerId ∈ cluster.members ∧ n ≠ peerId := by
    simp only [RaftNode.isPeer, decide_eq_true_eq] at hpeer
    rw [hnode.peerIds] at hpeer
    rcases hpeer with rfl | rfl
    · exact ⟨cluster.peerIds_mem n hn 0, (cluster.peerIds_ne_self n hn 0).symm⟩
    · exact ⟨cluster.peerIds_mem n hn 1, (cluster.peerIds_ne_self n hn 1).symm⟩
  have hnew : (⟨peerId, n, .appendEntriesReply reply, some sent⟩ : Envelope) ∉ (r.state k).sent :=
    h.reply_new hstart hself (ht.trans hterm₀) (hcontext.trans hid) reply
  have hle : ∀ p ∈ ({n, peerId} : Finset ℕ), (g k).term p ≤ node.term := by
    intro p hp
    rcases Finset.mem_insert.1 hp with rfl | hp
    · rw [← show (g j).term p = node.term from
        ((hnode.running hs).facts hnode.disk).1.term]
      exact (h.grows hkj.le hj.le).term_le p
    · rw [Finset.mem_singleton.1 hp, ← hsame, ← hterm]
      exact h.term_le_reply hkj.le hj.le hh.reply_sent hnew rfl
  rw [← hindex, hm]
  refine (h.refines k (by omega)).sound.invariant.length_le_of_quorum
    (h.refines (j + 1) hj).sound.invariant hgrows
    (QuorumSystem.majority_pair cluster.card_members hn hpeerId.1 hpeerId.2) hle hL he het ?_ hl
  rw [← hm]
  exact hc

/-- After a node has reported a read, it does not have it any more. -/
theorem Ghost.not_hasRead_after (h : r.Ghost g) (hstart : r.Starts k n id node₀) (hkj : k < j)
    (hh : r.Handles j n node c) {x : ReadyRead} (hx : x ∈ readyReads (node.call c).2)
    (hid : x.id = id) (hji : j < i) (hi : i ≤ r.length) (hup : r.Stays k i n) :
    ¬ r.HasRead i n id := by
  intro hread
  obtain ⟨node', hslot, -, hmem⟩ :=
    h.hasRead_mono hstart (hkj.trans (Nat.lt_succ_self j)) hji hi hup hread
  obtain rfl := hh.up hslot
  obtain ⟨-, hnode, -⟩ := h.handles hh
  obtain ⟨-, -, -, -, -, -, -, -, -, -, -, hgone, -⟩ := (hnode.callFacts c).ready x hx
  exact hgone (hid ▸ hmem)

end Started

/-- In a state up to `k`, or in a step before, some node has the commit index. -/
def Commits (r : cluster.Run) (k index : ℕ) : Prop :=
  ∃ m node, node.commitIndex = index ∧ ((∃ i ≤ k, (r.state i).slots m = .up node) ∨
    ∃ i < k, ∃ node₁ c, r.Handles i m node₁ c ∧ node = (node₁.call c).1)

/-- What it means that node `n`, in the call `c` of step `j`, reports a read that was started in
step `k`. -/
structure Reports (r : cluster.Run) (k j n : ℕ) (node : RaftNode) (c : NodeCall) (x : ReadyRead) :
    Prop where
  covers : ∀ index, r.Commits k index → index ≤ x.index
  leads : ∃ T, (∀ i, k ≤ i → i ≤ j → r.LeadsTerm i n T) ∧ (node.call c).1.role = .leader ∧
    (node.call c).1.term = T
  applied : x.index ≤ (node.call c).1.lastApplied
  once : readyReads (node.call c).2 = [x]
  last : ∀ i, j < i → r.Stays k i n → ¬ r.ReportsRead i n x.id

/-- **The report of a read** by the process that has started it. -/
theorem Ghost.reports (h : r.Ghost g) {node₀ : RaftNode} (hstart : r.Starts k n id node₀)
    (hkj : k < j) (hup : r.Stays k j n) (hh : r.Handles j n node c) {x : ReadyRead}
    (hx : x ∈ readyReads (node.call c).2) (hid : x.id = id) : r.Reports k j n node c x := by
  obtain ⟨hn, hnode, hnode'⟩ := h.handles hh
  have hfacts := hnode.callFacts c
  have hread := h.hasRead_of_ready hh hx
  rw [hid] at hread
  refine ⟨?_, ⟨node₀.term, fun i h1 h2 => ?_, ?_⟩, ?_, ?_, ?_⟩
  · -- what a node has committed, it has committed with its log
    have hlen : ∀ {i m : ℕ} {node : RaftNode}, i ≤ k → NodeOk cluster (g i) m node →
        node.commitIndex ≤ x.index := by
      intro i m node hik hok
      obtain ⟨t, ht⟩ := hok.committed
      have hle := h.length_le_index hstart hkj hup hh hx hid
        (ht.grows (h.grows hik (hkj.trans hh.1).le))
      have hlast : node.commitIndex ≤ node.log.lastIndex := hok.commit_le
      rwa [List.length_take, PersistentLog.length_log, min_eq_left hlast] at hle
    rintro index ⟨m, node, rfl, ⟨i, hi, hslot⟩ | ⟨i, hi, node₁, c₁, hh₁, rfl⟩⟩
    · exact hlen hi (h.slot (hi.trans (hkj.trans hh.1).le) hslot).2
    · exact hlen hi (h.handles hh₁).2.2
  · rcases Nat.lt_or_eq_of_le h1 with hlt | rfl
    · exact h.leads_of_hasRead hstart hlt (h2.trans hh.1.le) (hup.mono h2)
        (h.hasRead_mono hstart hlt h2 hh.1.le hup hread)
    · exact (h.leads_started hstart).1
  · obtain ⟨-, -, -, -, -, -, -, -, -, hrole, -⟩ := hfacts.ready x hx
    refine ⟨hrole, (hfacts.role hrole).1.trans ?_⟩
    obtain ⟨node₂, hslot₂, -, hterm⟩ := h.leads_of_hasRead hstart hkj hh.1.le hup hread
    obtain ⟨-, node₁, input, faults, -, hslot₁, -, rfl⟩ := hh
    rw [← hterm, ← Slot.up.inj (hslot₁.symm.trans hslot₂)]
    rfl
  · obtain ⟨-, -, -, -, -, -, -, -, -, -, -, -, -, happlied⟩ := hfacts.ready x hx
    exact happlied
  · have hle := hfacts.ready_le
    revert hx hle
    generalize readyReads (node.call c).2 = reads
    intro hx hle
    match reads, hle with
    | [y], _ => rw [List.mem_singleton.1 hx]
  · rintro i hji hup' ⟨node', c', hh', y, hy, hyid⟩
    have hread' := h.hasRead_of_ready hh' hy
    rw [hyid, hid] at hread'
    exact h.not_hasRead_after hstart hkj hh hx hid hji hh'.1.le hup' hread'

end Cluster.Run

end DistributedKV
