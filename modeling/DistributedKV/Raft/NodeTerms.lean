import DistributedKV.Raft.NodeReach

/-!
# Adopting later terms

A message of a configured peer that carries a later term brings the receiver into that term, unless
it stops. The one exception is a vote reply to a node that still holds on to a candidacy or a
leadership which its metadata has moved away from: `handle_vote_reply` notices that first, steps
down and returns before it has looked at the reply's term.
-/

namespace DistributedKV

theorem PersistentMetadata.voteFor_term (store : PersistentMetadata) (candidate : ℕ) :
    (store.voteFor candidate).1.state.currentTerm = store.state.currentTerm := by
  unfold voteFor persist
  split_ifs
  · rfl
  · rfl
  · rfl
  · rfl
  · rfl
  · cases nextOutcome store.outcomes <;> rfl

/-- A vote request of a later term is answered in that term. -/
theorem handleRequestVote_term {metadata : PersistentMetadata} (log : PersistentLog)
    {request : RequestVote} (hs : metadata.Synced) (ht : metadata.state.currentTerm < request.term)
    {reply : RequestVoteReply} (hr : (handleRequestVote metadata log request).2 = .ok reply) :
    (handleRequestVote metadata log request).1.state.currentTerm = request.term := by
  unfold handleRequestVote at hr ⊢
  rcases PersistentMetadata.advanceTerm_cases hs request.term with ⟨h, -⟩ | ⟨h, -⟩ | ⟨-, hu⟩
  · omega
  · omega
  · revert hr hu
    generalize metadata.advanceTerm request.term = r
    rintro hr (⟨m, -, hn⟩ | ⟨m, -, -⟩)
    · have hm : m.state.currentTerm = request.term := by rw [hn]
      have hvote := m.voteFor_term request.candidateId
      dsimp only at hr ⊢
      split_ifs
      · exact hm
      · exact hm
      · revert hvote
        generalize m.voteFor request.candidateId = r
        obtain ⟨m', result⟩ := r
        intro hvote
        cases result <;> exact hvote.trans hm
    · cases hr

namespace RaftNode

variable {node : RaftNode} {peerId : ℕ}

/-- The call delivers a message of a configured peer, which the message names as its sender if it
names one, and the message carries the term `t`. -/
def Carries (node : RaftNode) (t : ℕ) : NodeCall → Prop
  | .requestVote peerId request =>
    node.isPeer peerId = true ∧ request.candidateId = peerId ∧ request.term = t
  | .voteReply peerId reply => node.isPeer peerId = true ∧ reply.term = t
  | .appendEntries peerId request =>
    node.isPeer peerId = true ∧ request.leaderId = peerId ∧ request.term = t
  | .appendReply peerId _ reply => node.isPeer peerId = true ∧ reply.term = t
  | _ => False

/-- The node has not noticed yet that its candidacy or leadership is over. -/
def outdated (node : RaftNode) : Bool :=
  node.election.cachedRole ≠ .follower ∧ node.role = .follower

/-- The call is a vote reply of a later term to a node whose candidacy or leadership is over. -/
def Overlooks (node : RaftNode) : NodeCall → Prop
  | .voteReply _ reply => node.term < reply.term ∧ node.outdated = true
  | _ => False

/-! ## The handlers -/

theorem onRequestVote_term (h : node.Invariant) (hs : node.stopped = false)
    (hp : node.isPeer peerId = true) {request : RequestVote} (hc : request.candidateId = peerId)
    (ht : node.term < request.term) (hs' : (node.onRequestVote peerId request).1.stopped = false) :
    (node.onRequestVote peerId request).1.term = request.term := by
  rw [onRequestVote, if_neg (by simp [hs]), if_neg (by simp [hp]), if_neg (by simp [hc])] at hs' ⊢
  have hterm : ∀ {reply}, (handleRequestVote node.metadata node.log request).2 = .ok reply →
      (handleRequestVote node.metadata node.log request).1.state.currentTerm = request.term :=
    fun hr => handleRequestVote_term node.log h.metadata ht hr
  revert hs' hterm
  generalize handleRequestVote node.metadata node.log request = r
  obtain ⟨m, e | reply⟩ := r
  · intro hs'
    cases hs'
  · intro _ hterm
    dsimp only
    split_ifs
    · exact hterm rfl
    · exact hterm rfl

/-- The peers of a node are those of its election object. -/
theorem Invariant.peerIndex_ne_none (h : node.Invariant) (hp : node.isPeer peerId = true) :
    node.election.peerIndex peerId ≠ none := by
  simp only [isPeer, decide_eq_true_eq] at hp
  rw [RaftElection.peerIndex, h.peerIds]
  rcases hp with rfl | rfl
  · rw [if_neg h.peerIds_ne.symm, if_pos rfl]
    simp
  · rw [if_pos rfl]
    simp

theorem onVoteReply_term (h : node.Invariant) (hs : node.stopped = false)
    (hp : node.isPeer peerId = true) {reply : RequestVoteReply} (ht : node.term < reply.term)
    (hs' : (node.onVoteReply peerId reply).1.stopped = false) :
    (node.onVoteReply peerId reply).1.term = if node.outdated then node.term else reply.term := by
  obtain ⟨i, hi⟩ := Option.ne_none_iff_exists'.1 (h.peerIndex_ne_none hp)
  have hlater : node.metadata.state.currentTerm < reply.term := ht
  rw [onVoteReply, if_neg (by simp [hs]), if_neg (by simp [hp]), RaftElection.handleVoteReply,
    if_neg (by simp [h.usable])] at hs' ⊢
  rcases RaftElection.refreshRoleFromMetadata_cases node.election node.metadata with
    ⟨hr, hrole⟩ | ⟨hr, hcached, hrole⟩
  · rw [hr] at hs' ⊢
    have hout : node.outdated = false := by
      rw [outdated, decide_eq_false]
      exact fun hout => hout.1 (hrole.symm.trans hout.2)
    simp only [hout, Bool.false_eq_true, if_false]
    simp only [hi, if_pos hlater] at hs' ⊢
    rcases PersistentMetadata.advanceTerm_cases h.metadata reply.term with
      ⟨hlt, -⟩ | ⟨heq, -⟩ | ⟨-, hup⟩
    · exact absurd ht (not_lt.2 hlt.le)
    · exact absurd ht (not_lt.2 heq.le)
    · revert hs' hup
      generalize node.metadata.advanceTerm reply.term = r
      rintro hs' (⟨m, -, hn⟩ | ⟨m, -, -⟩)
      · exact congrArg RaftMetadata.currentTerm hn
      · cases hs'
  · rw [hr, if_pos (by simpa [outdated] using ⟨hcached, hrole⟩)]
    rfl

/-- The end of an accepted append request keeps the term. -/
theorem term_applyReady (node : RaftNode) (actions : RaftNodeActions)
    (f : RaftNodeActions → RaftNodeActions) :
    (match node.applyReady actions with
      | (node, none) => node.stop .inconsistentState
      | (node, some actions) => (node, .ok (f actions))).1.term = node.term := by
  rw [applyReady]
  rcases applyCommitted node.log node.state node.commitIndex with ⟨state, e | applied⟩ <;> rfl

theorem onAppendEntries_term (h : node.Invariant) (hs : node.stopped = false)
    (hp : node.isPeer peerId = true) {request : AppendEntries} (hc : request.leaderId = peerId)
    (ht : node.term < request.term)
    (hs' : (node.onAppendEntries peerId request).1.stopped = false) :
    (node.onAppendEntries peerId request).1.term = request.term := by
  rw [onAppendEntries, if_neg (by simp [hs]), if_neg (by simp [hp]), if_neg (by simp [hc])] at hs' ⊢
  have hend := handleAppendEntries_rule node.log node.commitIndex request
    (A := fun m => node.metadata.state.Succeeds m) h.metadata (.refl _) (fun ht => .enter ht)
  have hterm : (handleAppendEntries node.metadata node.log node.commitIndex request).result ≠
      .error .persistenceError →
      (handleAppendEntries node.metadata node.log node.commitIndex
        request).metadata.state.currentTerm = request.term := by
    revert hend
    generalize handleAppendEntries node.metadata node.log node.commitIndex request = r
    rintro (⟨m, -, -⟩ | ⟨hstale⟩ | ⟨m, -, -, hm, -⟩ | ⟨m, -, -, hm, -, -⟩ |
      ⟨m, -, -, hm, -, -, -, log, e, -⟩ | ⟨m, -, -, hm, -, -, -, log, -⟩)
    · exact fun hne => absurd rfl hne
    · rw [term] at ht
      omega
    all_goals exact fun _ => hm
  revert hs' hterm
  generalize handleAppendEntries node.metadata node.log node.commitIndex request = r
  obtain ⟨m, log, c, e | reply⟩ := r
  · intro hs' hterm
    cases e with
    | invalidRequest =>
      dsimp only
      split_ifs
      · exact hterm (by simp)
      · exact hterm (by simp)
    | persistenceError | committedConflict => cases hs'
  · intro hs' hterm
    have hm := hterm (by simp)
    dsimp only
    split_ifs
    · exact (term_applyReady _ _ _).trans hm
    · exact (term_applyReady _ _ _).trans hm
    · exact (term_applyReady _ _ _).trans hm
    · exact (term_applyReady _ _ _).trans hm
    all_goals exact hm

theorem onAppendReply_term (h : node.Invariant)
    (hown : ∀ {leader}, node.leader = some leader → OwnPeers node.peerIds leader)
    (hs : node.stopped = false) (hp : node.isPeer peerId = true) (sentRequest : AppendEntries)
    {reply : AppendEntriesReply} (ht : node.term < reply.term)
    (hs' : (node.onAppendReply peerId sentRequest reply).1.stopped = false) :
    (node.onAppendReply peerId sentRequest reply).1.term = reply.term := by
  rw [onAppendReply, if_neg (by simp [hs]), if_neg (by simp [hp])] at hs' ⊢
  have hadvance := PersistentMetadata.advanceTerm_cases h.metadata reply.term
  cases hl : node.leader with
  | none =>
    rw [hl] at hs'
    simp only [if_pos ht] at hs' ⊢
    rcases hadvance with ⟨hlt, -⟩ | ⟨heq, -⟩ | ⟨-, hup⟩
    · exact absurd ht (not_lt.2 hlt.le)
    · exact absurd ht (not_lt.2 heq.le)
    · revert hs' hup
      generalize node.metadata.advanceTerm reply.term = r
      rintro hs' (⟨m, -, hn⟩ | ⟨m, -, -⟩)
      · exact congrArg RaftMetadata.currentTerm hn
      · cases hs'
  | some leader =>
    obtain ⟨-, -, hterm, -, -⟩ := h.leader_facts hl
    have hactive : leader.active node.election node.metadata = true := h.active hl
    obtain ⟨i, hi⟩ : ∃ i, leader.findPeer peerId = some i := by
      simp only [isPeer, decide_eq_true_eq] at hp
      rw [RaftLeaderReplication.findPeer, hown hl 0, hown hl 1]
      rcases hp with rfl | rfl
      · exact ⟨0, if_pos rfl⟩
      · exact ⟨1, by rw [if_neg h.peerIds_ne, if_pos rfl]⟩
    rw [hl] at hs'
    simp only [RaftLeaderReplication.handleReply, hi, hactive, Bool.true_eq_false, if_false,
      if_pos (hterm.trans_lt ht)] at hs' ⊢
    rcases hadvance with ⟨hlt, -⟩ | ⟨heq, -⟩ | ⟨-, hup⟩
    · exact absurd ht (not_lt.2 hlt.le)
    · exact absurd ht (not_lt.2 heq.le)
    · revert hs' hup
      generalize node.metadata.advanceTerm reply.term = r
      rintro hs' (⟨m, -, hn⟩ | ⟨m, -, -⟩)
      · exact congrArg RaftMetadata.currentTerm hn
      · cases hs'

/-! ## Any call -/

/-- A call that carries a later term leads to that term, unless it overlooks it. -/
theorem call_term (h : node.Invariant)
    (hown : ∀ {leader}, node.leader = some leader → OwnPeers node.peerIds leader)
    (hs : node.stopped = false) {c : NodeCall} {t : ℕ} (hc : node.Carries t c)
    (ht : node.term < t) (hs' : (node.call c).1.stopped = false) :
    t ≤ (node.call c).1.term ↔ ¬ node.Overlooks c := by
  cases c with
  | requestVote peerId request =>
    obtain ⟨hp, hsender, rfl⟩ := hc
    exact iff_of_true (onRequestVote_term h hs hp hsender ht hs').ge id
  | voteReply peerId reply =>
    obtain ⟨hp, rfl⟩ := hc
    have hterm := onVoteReply_term h hs hp ht hs'
    rw [call, hterm, Overlooks]
    cases hout : node.outdated with
    | true => simp [ht]
    | false => simp
  | appendEntries peerId request =>
    obtain ⟨hp, hsender, rfl⟩ := hc
    exact iff_of_true (onAppendEntries_term h hs hp hsender ht hs').ge id
  | appendReply peerId sentRequest reply =>
    obtain ⟨hp, rfl⟩ := hc
    exact iff_of_true (onAppendReply_term h hown hs hp sentRequest ht hs').ge id
  | electionTimeout | heartbeatTimeout | propose | readBarrier => cases hc

/-- **Later terms are adopted, except by a node that is still to notice that its candidacy or
leadership is over**: a message from a configured peer that does not stop a reachable node leaves
it with the message's term on disk, or a later one, exactly when the message is no vote reply of a
later term to such a node. -/
theorem adopts_iff {selfId : ℕ} {peerIds : Fin 2 → ℕ} (h : Reachable selfId peerIds node)
    (faults : Faults) {c : NodeCall} {t : ℕ} (hc : node.Carries t c)
    (hs : ((node.withFaults faults).call c).1.stopped = false) :
    t ≤ ((node.withFaults faults).call c).1.disk.metadata.currentTerm ↔ ¬ node.Overlooks c := by
  have hbefore : (node.withFaults faults).stopped = false := stopped_of_call hs
  have hreached := h.reached.withFaults faults
  have hinv := hreached.invariant hbefore
  obtain ⟨hafter, hadv⟩ := call_continues hinv hbefore c hs
  rw [disk, hafter.metadata.durable]
  rcases Nat.lt_or_ge node.term t with ht | ht
  · exact call_term hinv hreached.peers hbefore hc ht hs
  · refine iff_of_true (ht.trans hadv.term_le) fun hover => ?_
    cases c with
    | voteReply peerId reply =>
      obtain ⟨-, rfl⟩ := hc
      exact absurd hover.1 (not_lt.2 ht)
    | electionTimeout | heartbeatTimeout | requestVote | appendEntries | appendReply | propose
      | readBarrier => exact hover

/-- A node that stood for election in term 1 until a vote request took it to term 2. -/
def formerCandidate : RaftNode :=
  (((RaftNode.openFrom 1 (fun i => i + 2) {}).get rfl).run
    [.electionTimeout, .requestVote 2 ⟨2, 2, 0, 0⟩])

theorem formerCandidate_reachable : Reachable 1 (fun i => i + 2) formerCandidate := by
  have hopen : Reachable 1 (fun i => i + 2) ((openFrom 1 (fun i => i + 2) {}).get rfl) :=
    .opened (Option.some_get rfl).symm
  exact .called (.called hopen {} .electionTimeout) {} (.requestVote 2 ⟨2, 2, 0, 0⟩)

theorem adopts_formerCandidate :
    (5 ≤ ((formerCandidate.withFaults {}).call
        (.voteReply 3 ⟨5, false⟩)).1.disk.metadata.currentTerm ↔
      ¬ formerCandidate.Overlooks (.voteReply 3 ⟨5, false⟩)) ∧
    (5 ≤ ((formerCandidate.withFaults {}).call
        (.requestVote 3 ⟨5, 3, 0, 0⟩)).1.disk.metadata.currentTerm ↔
      ¬ formerCandidate.Overlooks (.requestVote 3 ⟨5, 3, 0, 0⟩)) :=
  ⟨adopts_iff formerCandidate_reachable {} ⟨rfl, rfl⟩ rfl,
    adopts_iff formerCandidate_reachable {} ⟨rfl, rfl, rfl⟩ rfl⟩

/-- The vote reply that ends a candidacy that is already over is not read for its term. -/
theorem not_adopts : ¬ ∀ (node : RaftNode) (faults : Faults) (c : NodeCall) (t : ℕ),
    Reachable 1 (fun i => i + 2) node → node.Carries t c →
      ((node.withFaults faults).call c).1.stopped = false →
        t ≤ ((node.withFaults faults).call c).1.disk.metadata.currentTerm := by
  intro h
  have h5 := h formerCandidate {} (.voteReply 3 ⟨5, false⟩) 5
    formerCandidate_reachable ⟨rfl, rfl⟩ rfl
  exact absurd h5 (by decide)

end RaftNode

end DistributedKV
