import DistributedKV.Cluster.Frames
import DistributedKV.Raft.MachineRun
import DistributedKV.Raft.NodeMessages

/-!
# Numbers along a run

Every number that a node of a cluster records or sends fits into 64 bits, so no arithmetic of its
handlers goes wrong (`Cluster.Run.machine_exact`), except that of the read barrier that gives out
the last id.
-/

namespace DistributedKV

open RaftNodeResult

namespace RaftNode

variable {node : RaftNode}

/-- A vote request is answered in the term that the node is in after it. -/
theorem onRequestVote_replyTerm (h : node.metadata.Synced) {peerId : ℕ} {request : RequestVote}
    {m : OutboundRaftMessage} (hm : m ∈ (node.onRequestVote peerId request).2.messages)
    {reply : RequestVoteReply} (hreply : m.message = .requestVoteReply reply) :
    reply.term = (node.onRequestVote peerId request).1.term := by
  rw [onRequestVote] at hm ⊢
  split_ifs at hm ⊢
  · cases hm
  · cases hm
  · cases hm
  have hend := handleRequestVote_rule node.log request (A := fun _ => True) h trivial
    (fun _ => trivial) fun _ _ _ => trivial
  dsimp only at hm ⊢
  revert hend hm
  generalize handleRequestVote node.metadata node.log request = r
  rintro hm (⟨m', -, -⟩ | ⟨m', -, hn, -⟩ | ⟨m', -, -⟩)
  · obtain rfl := List.mem_singleton.1 hm
    cases hreply
    dsimp only
    split_ifs <;> rfl
  · obtain rfl := List.mem_singleton.1 hm
    cases hreply
    have hterm : request.term = m'.state.currentTerm := by rw [hn]
    dsimp only
    split_ifs <;> exact hterm
  · cases hm

/-! ## Read ids -/

/-- The ids of the waiting reads are 64-bit numbers, as the counter is. -/
structure IdWords (node : RaftNode) : Prop where
  next : node.nextReadId < 2 ^ 64
  waiting : ∀ id ∈ OrderedMap.keys node.readRounds, id < 2 ^ 64

theorem IdWords.withFaults (h : node.IdWords) (faults : Faults) : (node.withFaults faults).IdWords :=
  ⟨h.next, h.waiting⟩

theorem CallFacts.started_lt {c : NodeCall} {r : RaftNode × RaftNodeResult} (h : node.CallFacts c r)
    (hids : node.IdWords) {id : ℕ} (hid : startedReadId r.2 = some id) : id < 2 ^ 64 := by
  obtain ⟨rfl, -⟩ := h.started hid
  exact hids.next

theorem CallFacts.idWords {c : NodeCall} {r : RaftNode × RaftNodeResult} (h : node.CallFacts c r)
    (hids : node.IdWords) : r.1.IdWords where
  next := by
    rw [h.nextReadId]
    cases startedReadId r.2 with
    | none => exact hids.next
    | some id => exact Nat.mod_lt _ (Nat.two_pow_pos 64)
  waiting id hid := by
    obtain ⟨o, ho⟩ := OrderedMap.mem_keys_iff.1 hid
    rcases (h.rounds ho).1 with hold | hnew
    · exact hids.waiting id hold
    · exact h.started_lt hids hnew

/-- The context of a request that a call sends is a 64-bit number. -/
theorem CallFacts.readContext_lt {c : NodeCall} {r : RaftNode × RaftNodeResult}
    (h : node.CallFacts c r) (hids : node.IdWords) {m : OutboundRaftMessage} (hm : m ∈ r.2.messages)
    {request : AppendEntries} (heq : m.message = .appendEntries request) :
    request.readContext < 2 ^ 64 := by
  rcases h.probes m hm request heq with h0 | hold | hnew
  · rw [h0]
    exact Nat.two_pow_pos 64
  · exact hids.waiting _ hold
  · exact h.started_lt hids hnew

end RaftNode

/-! ## What the abstract state bounds -/

variable {cluster : Cluster} {s : Abstract} {l : List LogEntry} {n : ℕ}

/-- The numbers of a log are 64-bit numbers. -/
structure LogWords (l : List LogEntry) : Prop where
  length : l.length < 2 ^ 64
  entries : ∀ e ∈ l, e.InRange

theorem LogWords.termAt (h : LogWords l) (k : ℕ) : PersistentLog.termAt l k < 2 ^ 64 := by
  rw [PersistentLog.termAt]
  split_ifs
  · exact Nat.two_pow_pos 64
  · cases he : l[k - 1]? with
    | none => exact Nat.two_pow_pos 64
    | some e => exact (h.entries e (List.mem_of_getElem? he)).2

theorem LogWords.lastTermOf (h : LogWords l) : PersistentLog.lastTermOf l < 2 ^ 64 := by
  rw [PersistentLog.lastTermOf]
  cases he : l.getLast? with
  | none => exact Nat.two_pow_pos 64
  | some e => exact (h.entries e (List.mem_of_getLast? he)).2

/-- A backed log of terms of 64 bits. -/
theorem Abstract.Sound.logWords (h : s.Sound cluster)
    (hb : Replication.Backed LogEntry.term s l) (ht : ∀ e ∈ l, e.term < 2 ^ 64) : LogWords l where
  length := by
    have hlen := length_lt_of_placed fun he => h.placed hb he
    rw [uint64Max] at hlen
    omega
  entries e he := by
    obtain ⟨k, hk⟩ := List.mem_iff_getElem?.1 he
    have hplaced := (h.placed hb hk).lt
    rw [uint64Max] at hplaced
    exact ⟨by omega, ht e he⟩

/-- A part of a leader's log. -/
theorem Requested.inRange {request : AppendEntries} (h : Requested s request l) (hl : LogWords l)
    (hterm : request.term < 2 ^ 64) (hid : request.leaderId < 2 ^ 64)
    (hcontext : request.readContext < 2 ^ 64) : request.InRange where
  term := hterm
  leaderId := hid
  prevLogIndex := h.prev_le.trans_lt hl.length
  prevLogTerm := h.prevTerm ▸ hl.termAt _
  leaderCommit := h.commit_le.trans_lt hl.length
  readContext := hcontext
  entries e he := hl.entries e (List.mem_of_mem_drop (h.entries.subset he))

/-! ## Slots -/

/-- A process whose calls were all given 64-bit numbers, or what it left behind. -/
def Lived (cluster : Cluster) (n : ℕ) : Slot → Prop
  | .down disk => disk = {} ∨ ∃ node, Machine.Live n (cluster.peerIds n) node ∧ node.disk = disk
  | .up node => Machine.Live n (cluster.peerIds n) node

theorem Lived.of_live {node : RaftNode} (h : Machine.Live n (cluster.peerIds n) node) :
    Lived cluster n (.down node.disk) := Or.inr ⟨node, h, rfl⟩

theorem Lived.restart {disk : Disk} {node : RaftNode} (h : Lived cluster n (.down disk))
    (ho : RaftNode.openFrom n (cluster.peerIds n) disk = some node) :
    Lived cluster n (.up node) := by
  rcases h with rfl | ⟨node₀, hlive, rfl⟩
  · exact ⟨node, ho, .refl⟩
  · exact hlive.steps (.single (.reopened ho))

theorem Lived.term_lt {slot : Slot} (h : Lived cluster n slot) :
    slot.disk.metadata.currentTerm < 2 ^ 64 := by
  cases slot with
  | down disk =>
    rcases h with rfl | ⟨node, hlive, rfl⟩
    · exact Nat.two_pow_pos 64
    · exact hlive.words.terms.lt
  | up node => exact Machine.Words.terms (Machine.Live.words h) |>.lt

namespace Cluster.Run

variable {r : cluster.Run} {g : ℕ → Abstract} {i : ℕ} {node : RaftNode} {c : NodeCall}

theorem idWords (r : cluster.Run) : ∀ i ≤ r.length, ∀ {n node},
    (r.state i).slots n = .up node → node.IdWords := by
  obtain ⟨g, h⟩ := r.exists_ghost
  refine r.node_invariant (fun faults hids => hids.withFaults faults) (fun ho => ?_)
    fun hh hids => ((h.handles hh).2.1.callFacts _).idWords hids
  obtain rfl := RaftNode.openFrom_eq ho
  exact ⟨Nat.one_lt_two_pow (by decide), fun id hid => by cases hid⟩

theorem Handles.idWords (hh : r.Handles i n node c) : node.IdWords := by
  obtain ⟨hi, node₁, input, faults, -, hslot, -, rfl⟩ := hh
  exact (r.idWords i hi.le hslot).withFaults faults

/-- The numbers that the processes and the disks hold and that have been sent. -/
structure Counted (r : cluster.Run) (i : ℕ) : Prop where
  slot : ∀ n, Lived cluster n ((r.state i).slots n)
  sent : ∀ x ∈ (r.state i).sent, x.message.InRange ∧ ∀ request ∈ x.repliedTo, request.InRange

theorem Ghost.term_lt (h : r.Ghost g) (hi : i ≤ r.length)
    (hslot : ∀ n, Lived cluster n ((r.state i).slots n)) (n : ℕ) : (g i).term n < 2 ^ 64 := by
  rw [(h.disk hi n).recorded.term]
  exact (hslot n).term_lt

/-- What a node is given is in range if what has been sent is. -/
theorem Counted.inRange (hr : r.Counted i) {input : Input}
    (hadm : (r.state i).admits n input = true) (hc : input.call = some c) : c.InRange := by
  cases input with
  | deliver x =>
    simp only [World.admits, decide_eq_true_eq] at hadm
    obtain ⟨hm, hreply⟩ := hr.sent x hadm.1
    obtain ⟨sender, receiver, message, repliedTo⟩ := x
    rw [Input.call] at hc
    cases message with
    | requestVote | requestVoteReply | appendEntries =>
      obtain rfl := Option.some.inj hc
      exact hm
    | appendEntriesReply reply =>
      obtain ⟨request, hrequest, rfl⟩ := Option.map_eq_some_iff.1 hc
      exact ⟨hreply request hrequest, hm⟩
  | electionTimeout | heartbeatTimeout | propose | readBarrier =>
    obtain rfl := Option.some.inj hc
    trivial

theorem Counted.handles_inRange (hr : r.Counted i) (hh : r.Handles i n node c) : c.InRange := by
  obtain ⟨hi, node₀, input, faults, ha, -, hc, -⟩ := hh
  exact hr.inRange (World.admits_of_next (r.next_state i hi) ha) hc

theorem Counted.handles_live (hr : r.Counted i) (hh : r.Handles i n node c) :
    Machine.Live n (cluster.peerIds n) (node.call c).1 := by
  have hrange := hr.handles_inRange hh
  obtain ⟨hi, node₀, input, faults, ha, hslot, hc, rfl⟩ := hh
  have hlive := hr.slot n
  rw [hslot] at hlive
  exact Machine.Live.called hlive faults hrange

/-- The processes and the disks after a step. -/
theorem Counted.slot_succ (hr : r.Counted i) (hi : i < r.length) (n : ℕ) :
    Lived cluster n ((r.state (i + 1)).slots n) := by
  have hstep := World.step_of_next (r.next_state i hi)
  generalize r.state (i + 1) = w at hstep
  generalize r.action i = action at hstep
  have hset : ∀ {p : ℕ} {slot : Slot}, Lived cluster p slot →
      Lived cluster n (((r.state i).setSlot p slot).slots n) := by
    intro p slot hslot
    by_cases hp : n = p
    · subst hp
      rwa [World.setSlot_self]
    · rw [World.setSlot_of_ne _ hp]
      exact hr.slot n
  have hup : ∀ {p : ℕ} {node : RaftNode}, (r.state i).slots p = .up node →
      Machine.Live p (cluster.peerIds p) node := fun {p} {node} hslot => by
    have hlived := hr.slot p
    rwa [hslot] at hlived
  cases hstep with
  | @call p input faults node c hslot hc ha =>
    have hlived : Lived cluster p (.up ((node.withFaults faults).call c).1) :=
      (hup hslot).called faults (hr.inRange ha hc)
    exact hset hlived
  | crash faults hslot hc ha => exact hset (.of_live ((hup hslot).called faults (hr.inRange ha hc)))
  | halt hslot => exact hset (.of_live (hup hslot))
  | @restart p disk node hslot _ ho =>
    have hlived := hr.slot p
    rw [hslot] at hlived
    exact hset (hlived.restart ho)

/-- The request that a reply echoes is one that has been sent. -/
theorem Counted.repliedTo_inRange (hr : r.Counted i) {input : Input}
    (hadm : (r.state i).admits n input = true) {request : AppendEntries}
    (hreq : input.repliedTo = some request) : request.InRange := by
  cases input with
  | deliver x =>
    simp only [World.admits, decide_eq_true_eq] at hadm
    have hx := (hr.sent x hadm.1).1
    rw [Input.repliedTo] at hreq
    cases hm : x.message with
    | appendEntries request' =>
      rw [hm] at hx hreq
      obtain rfl := Option.some.inj hreq
      exact hx
    | requestVote | requestVoteReply | appendEntriesReply =>
      rw [hm] at hreq
      cases hreq
  | electionTimeout | heartbeatTimeout | propose | readBarrier => cases hreq

/-- The numbers of a message that has just been sent. -/
theorem Ghost.sent_inRange (h : r.Ghost g) (hids : ∀ n ∈ cluster.members, n < 2 ^ 64)
    (hi : i < r.length) (hr : r.Counted i) {x : Envelope} (hmem : x ∈ (r.state (i + 1)).sent)
    (hnew : x ∉ (r.state i).sent) : x.message.InRange := by
  have hterm := h.term_lt hi (hr.slot_succ hi)
  have hsound := (h.refines (i + 1) hi).sound
  have hok := (h.refines (i + 1) hi).message x hmem
  have hsender : x.sender < 2 ^ 64 := hids _ (h.sender_mem hi hmem)
  obtain ⟨node, c, input, hh, hadm, hc, m, hm, heq⟩ := (sent_succ hi hmem).resolve_left hnew
  have hmessage : x.message = m.message := by rw [heq, envelope]
  rw [MessageOk] at hok
  cases hx : x.message with
  | requestVote request =>
    rw [hx] at hok
    obtain ⟨hid, l, hl, hindex, hlast⟩ := hok
    obtain ⟨hvote, hlt, hb⟩ := hsound.invariant.candidacy hl
    have ht := (hsound.invariant.vote_le hvote).trans_lt (hterm _)
    have hwords := hsound.logWords hb fun e he => (hlt e he).trans ht
    exact ⟨ht, hid ▸ hsender, hindex ▸ hwords.length, hlast ▸ hwords.lastTermOf⟩
  | requestVoteReply reply =>
    rw [hx] at hmessage
    cases RaftNode.call_addressed node c m hm with
    | requestVote | appendEntries | appendEntriesReply => cases hmessage
    | requestVoteReply _ _ hcall =>
      subst hcall
      have hs : node.stopped = false := by
        by_contra hs
        rw [RaftNode.call_of_stopped (by simpa using hs)] at hm
        cases hm
      have hsynced := ((h.handles hh).2.1.running hs).invariant.metadata
      rw [RaftMessage.InRange, RaftNode.onRequestVote_replyTerm hsynced hm hmessage.symm]
      exact (hr.handles_live hh).words.terms.term_lt
  | appendEntries request =>
    rw [hx] at hok
    obtain ⟨hid, L, hreq⟩ := hok
    have ht := (hsound.invariant.leader_le hreq.leader).trans_lt (hterm _)
    have hwords := hsound.logWords (hsound.invariant.leader_backed hreq.leader) fun e he =>
      (hsound.invariant.leader_term hreq.leader e he).trans_lt ht
    exact hreq.inRange hwords ht (hid ▸ hsender) (((h.handles hh).2.1.callFacts c).readContext_lt
      hh.idWords hm (hmessage.symm.trans hx))
  | appendEntriesReply reply =>
    obtain ⟨envelopes, hsent, hfresh⟩ := (h.moves i hi).sent
    rw [hsent] at hmem
    have hlast := hfresh x ((List.mem_append.1 hmem).resolve_left hnew)
    rw [Fresh, hx] at hlast
    rw [RaftMessage.InRange, hlast.1]
    exact hterm _

/-- **Everything fits into 64 bits**: what the processes and the disks hold, and what is sent. -/
theorem Ghost.counted (h : r.Ghost g) (hids : ∀ n ∈ cluster.members, n < 2 ^ 64) :
    ∀ i ≤ r.length, r.Counted i := by
  intro i hi
  induction i with
  | zero =>
    have hinit : ∀ n, (r.state 0).slots n = .down {} := fun n => by rw [r.state_zero]; rfl
    refine ⟨fun n => hinit n ▸ Or.inl rfl, fun x hx => ?_⟩
    rw [r.state_zero] at hx
    cases hx
  | succ i ih =>
    have hr := ih (by omega)
    refine ⟨hr.slot_succ hi, fun x hx => ?_⟩
    by_cases hold : x ∈ (r.state i).sent
    · exact hr.sent x hold
    · refine ⟨h.sent_inRange hids hi hr hx hold, fun request hrequest => ?_⟩
      obtain ⟨node, c, input, hh, hadm, hc, m, hm, heq⟩ := (sent_succ hi hx).resolve_left hold
      rw [heq, envelope] at hrequest
      dsimp only at hrequest
      split at hrequest
      · exact hr.repliedTo_inRange hadm hrequest
      · cases hrequest

/-- A node that runs has room. -/
theorem Ghost.room (h : r.Ghost g) (hids : ∀ n ∈ cluster.members, n < 2 ^ 64)
    (hh : r.Handles i n node c) (hs : node.stopped = false) : Machine.Room node := by
  obtain ⟨-, hnode, -⟩ := h.handles hh
  have hnext : node.nextReadId < 2 ^ 64 := hh.idWords.next
  obtain ⟨hi, node₀, input, faults, -, hslot, -, rfl⟩ := hh
  have hlive := (h.counted hids i hi.le).slot n
  rw [hslot] at hlive
  have hwords := Machine.Live.words hlive
  have hsound := (h.refines i hi.le).sound
  have hlen := length_lt_of_placed fun he => hsound.placed (hsound.invariant.log_backed n) he
  have hlog := (hnode.running hs).invariant.logSynced.durable
  rw [hnode.disk.log, RaftNode.disk, hlog, PersistentLog.length_log, uint64Max] at hlen
  have hcommit := hnode.commit_le
  rw [RaftNode.lastIndex] at hcommit
  exact
    { term := hwords.terms.term_lt
      log := by omega
      commitIndex := by omega
      peers := fun leader hl => hwords.peers hl
      nextReadId := hnext }

/-- **The arithmetic of the program is that of the model.** In a run of a cluster with ids of 64
bits, every number that is sent fits into 64 bits, and no handler computes a number that does not,
except the read barrier that gives out the last id and takes the counter to zero. -/
theorem machine_exact (r : cluster.Run) (hids : ∀ n ∈ cluster.members, n < 2 ^ 64) :
    (∀ i ≤ r.length, ∀ x ∈ (r.state i).sent,
      x.message.InRange ∧ ∀ request ∈ x.repliedTo, request.InRange) ∧
    ∀ i n node c, r.Handles i n node c → c.InRange ∧
      (startedReadId (node.call c).2 ≠ some uint64Max →
        Machine.call node c = .ok (node.call c)) ∧
      (startedReadId (node.call c).2 = some uint64Max →
        Machine.call node c = .error .wrap ∧ (node.call c).1.nextReadId = 0) := by
  obtain ⟨g, h⟩ := r.exists_ghost
  refine ⟨fun i hi => (h.counted hids i hi).sent, fun i n node c hh => ?_⟩
  have hc := (h.counted hids i hh.1.le).handles_inRange hh
  refine ⟨hc, fun hid => ?_, fun hid => ?_⟩
  · cases hs : node.stopped with
    | true => exact Machine.call_of_stopped hs c
    | false => exact Machine.call_eq (h.room hids hh hs) hc hid
  · have hs : node.stopped = false := by
      by_contra hs
      rw [RaftNode.call_of_stopped (by simpa using hs)] at hid
      cases hid
    obtain ⟨-, hnode, -⟩ := h.handles hh
    obtain ⟨rfl, -⟩ := Machine.issues_of_call (hnode.running hs).invariant hs hid
    exact Machine.readBarrier_last hid

theorem machine_exact_elected : ∃ node, electedRun.Handles 7 2 node .electionTimeout ∧
    Machine.call node .electionTimeout = .ok (node.call .electionTimeout) := by
  obtain ⟨node, hslot, hnone⟩ : ∃ node, (electedRun.state 7).slots 2 = .up node ∧
      startedReadId ((node.withFaults {}).call .electionTimeout).2 = none := ⟨_, rfl, rfl⟩
  have hh : electedRun.Handles 7 2 (node.withFaults {}) .electionTimeout :=
    ⟨by decide, node, .electionTimeout, {}, rfl, hslot, rfl, rfl⟩
  refine ⟨_, hh, ((machine_exact electedRun (by decide)).2 7 2 _ _ hh).2.1 ?_⟩
  simp [hnone]

end Cluster.Run

end DistributedKV
