import DistributedKV.Cluster.Sources
import DistributedKV.Raft.NodeCreates

/-!
# Who created an entry

Every entry on a disk, and every entry that is sent, was created in one call: by a node that won an
election, or by a leader that was given the command. The node leads the term of the entry and puts
the entry behind its log, so no second call creates an entry of the same index and term
(`Cluster.Run.created_once`).
-/

namespace DistributedKV.Cluster.Run

variable {cluster : Cluster} {r : cluster.Run} {g : ℕ → Abstract} {i j k n p : ℕ} {e e' : LogEntry}

/-- In step `j`, node `n` has created the entry and put it on its disk. -/
def Creates (r : cluster.Run) (j n : ℕ) (e : LogEntry) : Prop :=
  ∃ node c, r.Handles j n node c ∧ node.Creates c e ∧ e ∈ (node.call c).1.disk.log

/-- The entries on the disks and in the requests were created before state `i`. -/
structure Created (r : cluster.Run) (i : ℕ) : Prop where
  disk : ∀ n, ∀ e ∈ ((r.state i).slots n).disk.log, ∃ j < i, ∃ p, r.Creates j p e
  sent : ∀ envelope ∈ (r.state i).sent, ∀ request, envelope.message = .appendEntries request →
    ∀ e ∈ request.entries, ∃ j < i, ∃ p, r.Creates j p e

/-! ## Every entry was created -/

/-- What a call leaves on the disk has been created. -/
theorem Created.call (hc : r.Created i) (h : r.Ghost g) {node : RaftNode} {input : Input}
    {c : NodeCall} {faults : Faults} (hi : i < r.length)
    (haction : (r.action i).handler = some (n, input, faults))
    (hslot : (r.state i).slots n = .up node) (hcall : input.call = some c)
    (ha : (r.state i).admits n input = true) :
    ∀ e ∈ ((node.withFaults faults).call c).1.disk.log, ∃ j < i + 1, ∃ p, r.Creates j p e := by
  intro e he
  have hbefore : e ∈ node.log.durable → ∃ j < i + 1, ∃ p, r.Creates j p e := by
    intro he
    obtain ⟨j, hj, hcreates⟩ := hc.disk n e (by rw [hslot]; exact he)
    exact ⟨j, by omega, hcreates⟩
  have hok := (h.slot hi.le hslot).2.withFaults faults
  cases hs : node.stopped with
  | true =>
    have hs' : (node.withFaults faults).stopped = true := hs
    rw [RaftNode.call_of_stopped hs'] at he
    exact hbefore he
  | false =>
    rcases RaftNode.creates_of_call (hok.running hs).invariant hs he with
      he | ⟨peerId, request, rfl, hmem⟩ | hcreates
    · exact hbefore he
    · obtain ⟨envelope, hsent, hm⟩ := World.request_sent hcall ha
      obtain ⟨j, hj, hcreates⟩ := hc.sent envelope hsent request hm e hmem
      exact ⟨j, by omega, hcreates⟩
    · exact ⟨i, Nat.lt_succ_self i, n, _, c,
        ⟨hi, node, input, faults, haction, hslot, hcall, rfl⟩, hcreates, he⟩

/-- **One step.** -/
theorem Ghost.created_step (h : r.Ghost g) (hi : i < r.length) (hc : r.Created i) :
    r.Created (i + 1) := by
  have hstep := World.step_of_next (r.next_state i hi)
  generalize hw : r.state (i + 1) = w at hstep
  generalize haction : r.action i = action at hstep
  have hmono : ∀ {e}, (∃ j < i, ∃ p, r.Creates j p e) → ∃ j < i + 1, ∃ p, r.Creates j p e :=
    fun ⟨j, hj, hcreates⟩ => ⟨j, by omega, hcreates⟩
  -- a slot whose disk is in order
  have hset : ∀ {n : ℕ} (slot : Slot),
      (∀ e ∈ slot.disk.log, ∃ j < i + 1, ∃ p, r.Creates j p e) → ∀ p,
        ∀ e ∈ (((r.state i).setSlot n slot).slots p).disk.log, ∃ j < i + 1, ∃ p,
          r.Creates j p e := by
    intro n slot hslot p
    by_cases hp : p = n
    · subst hp
      rwa [World.setSlot_self]
    · rw [World.setSlot_of_ne _ hp]
      exact fun e he => hmono (hc.disk p e he)
  have hsame : ∀ {n : ℕ} (slot : Slot), w = (r.state i).setSlot n slot →
      (∀ e ∈ slot.disk.log, ∃ j < i + 1, ∃ p, r.Creates j p e) → r.Created (i + 1) := by
    intro n slot hslot hdisk
    refine ⟨fun p => ?_, fun envelope hm request hr e he => ?_⟩
    · rw [hw, hslot]
      exact hset slot hdisk p
    · rw [hw, hslot] at hm
      exact hmono (hc.sent envelope hm request hr e he)
  cases hstep with
  | @crash n input faults node c hslot hcall ha =>
    exact hsame (.down _) rfl (hc.call h hi (by rw [haction]; rfl) hslot hcall ha)
  | @halt n node hslot =>
    have hdisk := hc.disk n
    rw [hslot] at hdisk
    exact hsame (.down _) rfl fun e he => hmono (hdisk e he)
  | @restart n disk node hslot hn ho =>
    have hdisk := hc.disk n
    rw [hslot] at hdisk
    obtain rfl := RaftNode.openFrom_eq ho
    exact hsame (.up _) rfl fun e he => hmono (hdisk e he)
  | @call n input faults node c hslot hcall ha =>
    have hdisk := hc.call h hi (by rw [haction]; rfl) hslot hcall ha
    have hslot' : (r.state (i + 1)).slots n = .up ((node.withFaults faults).call c).1 := by
      rw [hw]
      exact World.setSlot_self ..
    refine ⟨fun p => ?_, fun envelope hm request hr e he => ?_⟩
    · rw [hw]
      exact hset (.up _) hdisk p
    · have hm' := hm
      rw [hw] at hm'
      rcases List.mem_append.1 hm' with hmem | hmem
      · exact hmono (hc.sent envelope hmem request hr e he)
      · obtain ⟨hsender, m, hmem, hmsg⟩ := World.mem_outgoing hmem
        obtain ⟨hlead, ht⟩ := (((h.slot hi.le hslot).2.withFaults faults).hintFacts c).sends m hmem
          request (hmsg.trans hr)
        exact hdisk e (h.request_entries hi hslot' hm hsender hr hlead ht e he)

theorem Ghost.created (h : r.Ghost g) (hi : i ≤ r.length) : r.Created i := by
  induction i with
  | zero =>
    refine ⟨fun p e he => ?_, fun envelope hm => ?_⟩
    · rw [r.state_zero] at he
      cases he
    · rw [r.state_zero] at hm
      cases hm
  | succ i ih => exact h.created_step hi (ih (by omega))

/-! ## No entry is created twice -/

/-- A step creates one entry. -/
theorem Creates.unique (h : r.Creates j n e) (h' : r.Creates j p e') : n = p ∧ e = e' := by
  obtain ⟨node, c, ⟨hj, node₀, input, faults, ha, hslot, hcall, rfl⟩, hc, -⟩ := h
  obtain ⟨node', c', ⟨-, node₁, input', faults', ha', hslot', hcall', rfl⟩, hc', -⟩ := h'
  obtain ⟨rfl, rfl, rfl⟩ := (by simpa using ha.symm.trans ha' : _ ∧ _ ∧ _)
  obtain rfl := Slot.up.inj (hslot.symm.trans hslot')
  obtain rfl := Option.some.inj (hcall.symm.trans hcall')
  refine ⟨rfl, ?_⟩
  have hcommand : e.command = e'.command := by
    rcases hc.source with ⟨-, hnoOp, _, _, rfl⟩ | ⟨-, rfl⟩
    · rcases hc'.source with ⟨-, hnoOp', -⟩ | ⟨-, heq⟩
      · rw [hnoOp, hnoOp']
      · cases heq
    · rcases hc'.source with ⟨-, -, _, _, heq⟩ | ⟨-, heq⟩
      · cases heq
      · exact NodeCall.propose.inj heq
  rw [LogEntry.mk.injEq]
  exact ⟨hc.index.trans hc'.index.symm, hc.term.trans hc'.term.symm, hcommand⟩

/-- Once it is created, an entry is in the log of the leader of its term. -/
theorem Ghost.leader_of_creates (h : r.Ghost g) (hc : r.Creates j n e) :
    ∃ L, (g (j + 1)).leader e.term = some (n, L) ∧ e.index ≤ L.length := by
  obtain ⟨node, c, ⟨hj, node₀, input, faults, ha, hslot, hcall, rfl⟩, hcreates, he⟩ := hc
  have hok := (h.moves j hj).called ha hslot hcall
  obtain ⟨L, hL⟩ := hok.leads hcreates.role'
  rw [hcreates.term', ← hcreates.term] at hL
  refine ⟨L, hL, ?_⟩
  -- the disk has the entry in its place, and the leader of the term has it there as well
  have hs := (h.refines (j + 1) hj).sound
  rw [← hok.disk.log] at he
  obtain ⟨k, hk⟩ := List.mem_iff_getElem?.1 he
  have hplaced := hs.placed (hs.invariant.log_backed n) hk
  obtain ⟨c', L', hL', hpre⟩ := hs.invariant.log_backed n k e hk
  obtain rfl := (Prod.mk.inj (Option.some.inj (hL.symm.trans hL'))).2
  have hlen := hpre.length_le
  have hlt := (List.getElem?_eq_some_iff.1 hk).1
  rw [List.length_take] at hlen
  rw [hplaced.index]
  omega

/-- A later call creates no entry of an index and term that an entry already has. -/
theorem Ghost.creates_fresh (h : r.Ghost g) (hc : r.Creates j n e) (hc' : r.Creates k p e')
    (hterm : e'.term = e.term) (hjk : j < k) : e.index < e'.index := by
  obtain ⟨L, hL, hlen⟩ := h.leader_of_creates hc
  obtain ⟨L', hL', -⟩ := h.leader_of_creates hc'
  obtain ⟨node, c, ⟨hk, node₀, input, faults, ha, hslot, hcall, rfl⟩, hcreates, -⟩ := hc'
  have hok := (h.slot hk.le hslot).2.withFaults faults
  obtain ⟨X, hX, -⟩ := (h.grows (show j + 1 ≤ k from hjk) hk.le).leader hL
  obtain ⟨Y, hY, -⟩ := (h.grows (Nat.le_succ k) hk).leader hX
  rw [hterm] at hL'
  obtain rfl := (Prod.mk.inj (Option.some.inj (hY.symm.trans hL'))).1
  rw [← hterm, hcreates.term] at hX
  have hrunning : (node₀.withFaults faults).stopped = false := by
    cases hs : (node₀.withFaults faults).stopped with
    | false => rfl
    | true =>
      have hrole := hcreates.role'
      rcases hcreates.source with ⟨hcandidate, -⟩ | ⟨hleader, -⟩
      · rw [RaftNode.call_of_stopped hs, hcandidate] at hrole
        cases hrole
      · rw [hok.stopped hs] at hleader
        cases hleader
  have hrun := hok.running hrunning
  rcases hcreates.source with ⟨hcandidate, -⟩ | ⟨hleader, -⟩
  · exact absurd hX ((hrun.candidate hcandidate).2 _)
  · obtain ⟨leader, hl⟩ := Option.isSome_iff_exists.1 hleader
    have hlead := (hrun.leader hl).lead
    have hlog := (Prod.mk.inj (Option.some.inj (hX.symm.trans hlead))).2
    have hlength := congrArg List.length hlog
    rw [PersistentLog.length_log, List.length_append] at hlength
    rw [hcreates.index, RaftNode.lastIndex]
    omega

/-- No two calls create an entry of one index and term. -/
theorem Ghost.creates_unique (h : r.Ghost g) (hc : r.Creates j n e) (hc' : r.Creates k p e')
    (hindex : e'.index = e.index) (hterm : e'.term = e.term) : k = j ∧ p = n ∧ e' = e := by
  rcases Nat.lt_trichotomy j k with hlt | rfl | hlt
  · have hfresh := h.creates_fresh hc hc' hterm hlt
    omega
  · obtain ⟨rfl, rfl⟩ := hc.unique hc'
    exact ⟨rfl, rfl, rfl⟩
  · have hfresh := h.creates_fresh hc' hc hterm.symm hlt
    omega

/-- **Every entry has one origin.** An entry on a disk was created by a node that won an election or
that led when it was given the command. It was the next entry of the node's log, and its term was
the node's. No other call, of this node or another one, creates an entry of this index and term. -/
theorem created_once (r : cluster.Run) (hi : i ≤ r.length)
    (he : e ∈ ((r.state i).slots n).disk.log) : ∃ j < i, ∃ p, r.Creates j p e ∧
      ∀ k q e', r.Creates k q e' → e'.index = e.index → e'.term = e.term →
        k = j ∧ q = p ∧ e' = e := by
  obtain ⟨g, h⟩ := r.exists_ghost
  obtain ⟨j, hj, p, hc⟩ := (h.created hi).disk n e he
  exact ⟨j, hj, p, hc, fun k q e' hc' hindex hterm => h.creates_unique hc hc' hindex hterm⟩

/-- The entry of the election of node 1, on the disk of node 2. -/
theorem created_once_elected : ∃ j < 6, ∃ p, electedRun.Creates j p ⟨1, 1, {}⟩ ∧
    ∀ k q e', electedRun.Creates k q e' → e'.index = 1 → e'.term = 1 →
      k = j ∧ q = p ∧ e' = ⟨1, 1, {}⟩ :=
  created_once electedRun (i := 6) (n := 2) (by decide) (by decide)

/-- The disk after a call. -/
theorem Handles.disk_succ {node : RaftNode} {c : NodeCall} (hh : r.Handles i n node c) :
    ((r.state (i + 1)).slots n).disk = (node.call c).1.disk := by
  obtain ⟨hi, node₀, input, faults, ha, hslot, hcall, rfl⟩ := hh
  have hstep := World.step_of_next (r.next_state i hi)
  generalize r.state (i + 1) = w at hstep
  generalize r.action i = action at hstep ha
  cases hstep with
  | call faults' hslot' hcall' | crash faults' hslot' hcall' =>
    obtain ⟨rfl, rfl, rfl⟩ := (by simpa [Action.handler] using ha : _ ∧ _ ∧ _)
    obtain rfl := Slot.up.inj (hslot.symm.trans hslot')
    obtain rfl := Option.some.inj (hcall.symm.trans hcall')
    exact congrArg Slot.disk (World.setSlot_self ..)
  | halt | restart => cases ha

/-- An entry comes to a disk with its creation. -/
theorem Creates.not_mem (h : r.Creates j n e) (hi : i ≤ j) :
    e ∉ ((r.state i).slots p).disk.log := by
  intro he
  have hj : j < r.length := by
    obtain ⟨_, _, ⟨hj, -⟩, -⟩ := h
    exact hj
  obtain ⟨g, hg⟩ := r.exists_ghost
  obtain ⟨k, hk, q, hc⟩ := (hg.created (hi.trans hj.le)).disk p e he
  have heq := (hg.creates_unique h hc rfl rfl).1
  omega

theorem Creates.mem_succ (h : r.Creates j n e) : e ∈ ((r.state (j + 1)).slots n).disk.log := by
  obtain ⟨node, c, hh, -, he⟩ := h
  rwa [hh.disk_succ]

/-! ## The log of a leader -/

/-- What nodes know to be committed has been created. -/
theorem Ghost.committed_created (h : r.Ghost g) (hi : i ≤ r.length) {node : RaftNode}
    (hslot : (r.state i).slots n = .up node) :
    ∀ e ∈ node.log.log.take node.commitIndex, ∃ j < i, ∃ p, r.Creates j p e := by
  intro e he
  obtain ⟨t, ht⟩ := h.committed le_rfl hi hslot
  obtain ⟨Q, hQ, hlog⟩ := (h.refines i hi).sound.invariant.committedBy_quorum ht
    fun hnil => by simp [hnil] at he
  obtain ⟨p, q, hp, -⟩ := QuorumSystem.exists_pair_of_majority cluster.card_members hQ
  have htake := hlog p hp
  rw [(h.disk hi p).log] at htake
  exact (h.created hi).disk p e (htake.subset he)

/-- **A leader only appends.** As long as a node leads a term, it never changes or removes an entry
of its log, and the entries that it adds are those that it creates, of its term. -/
theorem leader_append_only (r : cluster.Run) (hij : i ≤ j) (hj : j ≤ r.length)
    {node node' : RaftNode} (hslot : (r.state i).slots n = .up node)
    (hslot' : (r.state j).slots n = .up node') (hl : node.leader.isSome)
    (hl' : node'.leader.isSome) (ht : node'.term = node.term) :
    ∃ new, node'.log.log = node.log.log ++ new ∧ ∀ e ∈ new, e.term = node.term ∧
      ∃ k, i ≤ k ∧ k < j ∧ r.Creates k n e := by
  obtain ⟨g, h⟩ := r.exists_ghost
  obtain ⟨leader, hl⟩ := Option.isSome_iff_exists.1 hl
  obtain ⟨leader', hl'⟩ := Option.isSome_iff_exists.1 hl'
  obtain ⟨-, hrun⟩ := h.running (hij.trans hj) hslot hl
  obtain ⟨-, hrun'⟩ := h.running hj hslot' hl'
  have hlead := (hrun.leader hl).lead
  have hlead' := (hrun'.leader hl').lead
  obtain ⟨new, hnew, hterm⟩ := (h.grows hij hj).leader hlead
  rw [← ht] at hnew
  have hlog : node'.log.log = node.log.log ++ new :=
    (Prod.mk.inj (Option.some.inj (hlead'.symm.trans hnew))).2
  refine ⟨new, hlog, fun e he => ?_⟩
  have het := hterm e he
  refine ⟨het, ?_⟩
  -- the entry was created by the leader of its term, and not before it was added
  have hdisk : e ∈ ((r.state j).slots n).disk.log := by
    rw [hslot', Slot.disk, RaftNode.disk, hrun'.invariant.logSynced.durable, hlog]
    exact List.mem_append_right _ he
  obtain ⟨k, hk, p, hcreates⟩ := (h.created hj).disk n e hdisk
  obtain ⟨L, hL, hlen⟩ := h.leader_of_creates hcreates
  have hkj : k + 1 ≤ j := hk
  obtain ⟨X, hX, -⟩ := (h.grows hkj hj).leader hL
  rw [het, ← ht, hlead'] at hX
  obtain ⟨rfl, hlog'⟩ := Prod.mk.inj (Option.some.inj hX)
  refine ⟨k, Nat.le_of_not_lt fun hki => ?_, hk, hcreates⟩
  obtain ⟨Y, hY, -⟩ := (h.grows (show k + 1 ≤ i from hki) (hij.trans hj)).leader hL
  rw [het, hlead] at hY
  have hlog₀ := (Prod.mk.inj (Option.some.inj hY)).2
  -- it stands behind the log that the leader had
  obtain ⟨m, hm⟩ := List.mem_iff_getElem?.1 he
  have hplace : node'.log.log[node.log.log.length + m]? = some e := by
    rw [hlog, List.getElem?_append_right (by omega), Nat.add_sub_cancel_left, hm]
  have hindex := hrun'.invariant.log.index hplace
  have hlength := congrArg List.length hlog₀
  rw [List.length_append] at hlength
  omega

/-- Node 1 is elected in term 1 and is given a command. -/
def proposedActions : List Action :=
  electedActions.take 5 ++ [.call 1 (.propose ⟨.put, [107], [118], none⟩) {}]

theorem proposedActions_possible :
    (proposedActions.foldlM (World.next serverCluster) World.init).isSome := by
  decide +kernel

def proposedRun : serverCluster.Run := .ofActions proposedActions proposedActions_possible

theorem leader_append_only_proposed : ∃ k, 5 ≤ k ∧ k < 6 ∧
    proposedRun.Creates k 1 ⟨2, 1, ⟨.put, [107], [118], none⟩⟩ := by
  have hbefore : ∃ node, (proposedRun.state 5).slots 1 = .up node ∧ node.leader.isSome ∧
      node.term = 1 ∧ node.log.log = [⟨1, 1, {}⟩] := ⟨_, rfl, rfl, rfl, rfl⟩
  have hafter : ∃ node, (proposedRun.state 6).slots 1 = .up node ∧ node.leader.isSome ∧
      node.term = 1 ∧ node.log.log = [⟨1, 1, {}⟩, ⟨2, 1, ⟨.put, [107], [118], none⟩⟩] :=
    ⟨_, rfl, rfl, rfl, rfl⟩
  obtain ⟨node, hslot, hl, ht, hlog⟩ := hbefore
  obtain ⟨node', hslot', hl', ht', hlog'⟩ := hafter
  obtain ⟨new, hnew, hcreated⟩ := leader_append_only proposedRun (i := 5) (j := 6) (by decide)
    le_rfl hslot hslot' hl hl' (ht'.trans ht.symm)
  rw [hlog, hlog'] at hnew
  obtain rfl : new = [⟨2, 1, ⟨.put, [107], [118], none⟩⟩] := (List.cons.inj hnew).2.symm
  exact (hcreated _ (List.mem_singleton_self _)).2

end DistributedKV.Cluster.Run
