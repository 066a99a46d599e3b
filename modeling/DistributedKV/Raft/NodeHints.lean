import DistributedKV.Raft.NodeReads

/-!
# The known leader across a call

A node names a leader when it has become one, or when it handles a request of the leader of its
term; with its term it forgets whom it named. And a node sends requests only in a term in which it
is a leader itself.
-/

namespace DistributedKV

/-- A request among messages is one of the term `t`. -/
def OfTerm (t : ℕ) (m : OutboundRaftMessage) : Prop :=
  ∀ request, m.message = .appendEntries request → request.term = t

/-- A leader of the term `t` whose pending requests are of this term. -/
structure LeadsTerm (t : ℕ) (leader : RaftLeaderReplication) : Prop where
  term : leader.term = t
  pending : ∀ i request, (leader.peers i).pending = some request → request.term = t

theorem LeadsTerm.setPeer {t : ℕ} {leader : RaftLeaderReplication} (h : LeadsTerm t leader)
    (i : Fin 2) {peer : PeerState}
    (hp : ∀ request, peer.pending = some request → request.term = t) :
    LeadsTerm t (leader.setPeer i peer) where
  term := h.term
  pending j request hr := by
    by_cases hj : j = i
    · subst hj
      rw [RaftLeaderReplication.setPeer_self] at hr
      exact hp request hr
    · rw [RaftLeaderReplication.setPeer_of_ne hj] at hr
      exact h.pending j request hr

theorem LeadsTerm.makeRequest {t : ℕ} {leader leader' : RaftLeaderReplication}
    {election : RaftElection} {metadata : PersistentMetadata} {log : PersistentLog} {c peerId k : ℕ}
    {request : AppendEntries} (h : LeadsTerm t leader)
    (hmake : leader.MakeRequestEnd election metadata log c peerId k (leader', .ok request)) :
    LeadsTerm t leader' ∧ OfTerm t ⟨peerId, .appendEntries request⟩ := by
  have hsent : request.term = t → OfTerm t ⟨peerId, .appendEntries request⟩ := by
    rintro ht request' heq
    obtain rfl := RaftMessage.appendEntries.inj heq
    exact ht
  cases hmake with
  | pending i _ _ hp => exact ⟨h, hsent (h.pending i _ hp)⟩
  | fresh i _ _ j _ _ =>
    refine ⟨h.setPeer i fun request hr => ?_, hsent h.term⟩
    obtain rfl := Option.some.inj hr
    exact h.term

namespace RaftNode

open RaftNodeResult

variable {node node' : RaftNode} {c : NodeCall} {t : ℕ} {k : Option ℕ}

/-- Where the known leader of a node after a call comes from: the node knew it in the same term,
it is the node itself, which leads, or it has sent the request of the call. -/
def HintFrom (node : RaftNode) (c : NodeCall) (node' : RaftNode) : Prop :=
  ∀ l, node'.knownLeader = some l →
    (node.knownLeader = some l ∧ node'.term = node.term) ∨
    (l = node.selfId ∧ node'.leader.isSome) ∨
    ∃ request, c = .appendEntries l request ∧ request.leaderId = l ∧ request.term = node'.term

/-- What a call does to the known leader, and in which term it sends requests. -/
structure HintFacts (node : RaftNode) (c : NodeCall) (r : RaftNode × RaftNodeResult) : Prop where
  hint : node.HintFrom c r.1
  sends : ∀ m ∈ messages r.2, ∀ request, m.message = .appendEntries request →
    r.1.leader.isSome ∧ request.term = r.1.term

theorem HintFrom.of_none (h : node'.knownLeader = none) : node.HintFrom c node' :=
  fun _ hl => by simp [h] at hl

theorem HintFrom.of_eq (h : node'.knownLeader = node.knownLeader) (ht : node'.term = node.term) :
    node.HintFrom c node' := fun _ hl => Or.inl ⟨h ▸ hl, ht⟩

theorem HintFacts.of_stop (e : RaftNodeError) : HintFacts node c (node'.stop e) :=
  ⟨.of_none rfl, fun m hm => by cases hm⟩

theorem HintFacts.of_error (e : RaftNodeError) (h : node.HintFrom c node') :
    HintFacts node c (node', .error e) := ⟨h, fun m hm => by cases hm⟩

/-- A call that sends no requests. -/
theorem HintFacts.of_silent {actions : RaftNodeActions} (h : node.HintFrom c node')
    (hm : ∀ m ∈ actions.messages, ∀ request, m.message ≠ .appendEntries request) :
    HintFacts node c (node', .ok actions) :=
  ⟨h, fun m hmem request hr => absurd hr (hm m hmem request)⟩

/-- The record after a vote, as far as the known leader goes. -/
theorem HintFrom.of_metadata {m : PersistentMetadata} (h : node.term ≤ m.state.currentTerm) :
    node.HintFrom c (if node.term < m.state.currentTerm then
      { node with metadata := m }.dropLeadership else { node with metadata := m }) := by
  split_ifs with hlt
  · exact .of_none rfl
  · exact .of_eq rfl (le_antisymm (not_lt.1 hlt) h)

/-! ## Nodes that lead -/

/-- A node that leads the term `t`, knows the leader `k` and has the messages to send. -/
structure Steady (t : ℕ) (k : Option ℕ) (node : RaftNode) (messages : List OutboundRaftMessage) :
    Prop where
  term : node.term = t
  knownLeader : node.knownLeader = k
  leader : ∃ leader, node.leader = some leader ∧ LeadsTerm t leader
  reads : ∀ id probe, (id, some probe) ∈ node.readRounds → probe.term = t
  messages : ∀ m ∈ messages, OfTerm t m

theorem Steady.hintFacts {actions : RaftNodeActions} (h : Steady t k node' actions.messages)
    (hk : k = node.knownLeader ∨ k = some node.selfId) (ht : t = node.term) :
    HintFacts node c (node', .ok actions) := by
  obtain ⟨leader, hl, -⟩ := h.leader
  refine ⟨fun l hknown => ?_, fun m hm request hr => ⟨?_, ?_⟩⟩
  · rw [h.knownLeader] at hknown
    rcases hk with hk | hk
    · exact Or.inl ⟨hk ▸ hknown, h.term.trans ht⟩
    · rw [hk] at hknown
      exact Or.inr (Or.inl ⟨(Option.some.inj hknown).symm, by simp [hl]⟩)
  · simp [hl]
  · rw [h.messages m hm request hr, h.term]

/-- Every success of a helper leaves a node that leads. -/
def SteadyEnd (t : ℕ) (k : Option ℕ) (r : RaftNode × Option RaftNodeActions) : Prop :=
  ∀ actions, r.2 = some actions → Steady t k r.1 actions.messages

theorem Steady.queueAppends {actions : RaftNodeActions} (h : Steady t k node actions.messages)
    (peerIds : List ℕ) : SteadyEnd t k (node.queueAppends peerIds actions) := by
  obtain ⟨leader, hl, hleads⟩ := h.leader
  have hend := queueAppends_rule hl hleads (M := OfTerm t) (B := True) peerIds
    (fun h _ hmake => h.makeRequest hmake) (fun _ _ _ => trivial) actions
  revert hend
  generalize node.queueAppends peerIds actions = r
  rintro (⟨l, -, -⟩ | ⟨l, hP, messages, hM⟩) actions' ha
  · cases ha
  · obtain rfl := Option.some.inj ha
    exact ⟨h.term, h.knownLeader, ⟨l, rfl, hP⟩, h.reads,
      fun m hm => (List.mem_append.1 hm).elim (h.messages m) (hM m)⟩

theorem Steady.queueAppend {actions : RaftNodeActions} (h : Steady t k node actions.messages)
    (peerId : ℕ) : SteadyEnd t k (node.queueAppend peerId actions) := by
  rw [← queueAppends_singleton]
  exact h.queueAppends _

/-- A message that goes to every peer. -/
theorem ofTerm_of_broadcast {request : AppendEntries} (h : request.term = t) :
    ∀ m ∈ node.broadcast (.appendEntries request), OfTerm t m := by
  rintro m hm request' hr
  obtain ⟨p, -, rfl⟩ := List.mem_map.1 hm
  obtain rfl := RaftMessage.appendEntries.inj hr
  exact h

theorem Steady.startWaitingReads {actions : RaftNodeActions}
    (h : Steady t k node actions.messages) :
    Steady t k (node.startWaitingReads actions).1 (node.startWaitingReads actions).2.messages := by
  rw [RaftNode.startWaitingReads]
  split_ifs
  · exact h
  · refine ⟨h.term, h.knownLeader, h.leader, fun id probe hm => ?_, fun m hm => ?_⟩
    · obtain ⟨⟨id', o⟩, hmem, heq⟩ := List.mem_map.1 hm
      simp only [Prod.mk.injEq, Option.some.injEq] at heq
      obtain ⟨rfl, rfl⟩ := heq
      cases o with
      | none => exact h.term
      | some probe => exact h.reads _ _ hmem
    · rcases List.mem_append.1 hm with hm | hm
      · exact h.messages m hm
      · obtain ⟨⟨id, o⟩, hmem, hm⟩ := List.mem_flatMap.1 hm
        cases o with
        | none => exact ofTerm_of_broadcast h.term m hm
        | some probe => cases hm

theorem Steady.applyReady {actions : RaftNodeActions} (h : Steady t k node actions.messages) :
    SteadyEnd t k (node.applyReady actions) := by
  obtain ⟨state, h1, h2⟩ := node.applyReady_shape actions
  intro actions' ha
  obtain ⟨applied, rfl⟩ := h2 actions' ha
  rw [h1]
  exact ⟨h.term, h.knownLeader, h.leader, h.reads, h.messages⟩

theorem Steady.followUp (h : Steady t k node []) (peerId : ℕ) (outcome : AppendReplyOutcome) :
    SteadyEnd t k (node.followUp peerId outcome) := by
  have hsame : SteadyEnd t k (node, some {}) := fun _ ha => by
    obtain rfl := Option.some.inj ha
    exact h
  have hqueue : SteadyEnd t k (node.queueAppend peerId {}) := Steady.queueAppend h peerId
  cases outcome with
  | retry => exact hqueue
  | ignored | steppedDown | inconsistentFollower | persistenceError => exact hsame
  | recorded =>
    rw [RaftNode.followUp]
    split
    · exact fun _ ha => by cases ha
    · split_ifs
      · exact hqueue
      · exact hsame
  | committed =>
    have happ : SteadyEnd t k (node.applyReady {}) := Steady.applyReady h
    rw [RaftNode.followUp]
    revert happ
    rcases node.applyReady {} with ⟨node₁, _ | actions₁⟩
    · exact fun _ _ ha => by cases ha
    · intro happ
      have hq := (happ _ rfl).queueAppends node₁.peers
      dsimp only at hq ⊢
      revert hq
      rcases node₁.queueAppends node₁.peers actions₁ with ⟨node₂, _ | actions₂⟩
      · exact fun _ _ ha => by cases ha
      · intro hq actions ha
        obtain rfl := Option.some.inj ha
        exact (hq _ rfl).startWaitingReads

theorem Steady.completeRead {actions : RaftNodeActions} (h : Steady t k node' actions.messages)
    (hk : k = node.knownLeader ∨ k = some node.selfId) (ht : t = node.term)
    (sentRequest : AppendEntries) (reply : AppendEntriesReply) :
    HintFacts node c (node'.completeRead sentRequest reply actions) := by
  have hsame : HintFacts node c (node', .ok actions) := h.hintFacts hk ht
  rw [RaftNode.completeRead]
  split_ifs
  · split
    · dsimp only
      split_ifs
      · exact .of_stop _
      · refine Steady.hintFacts (t := t) (k := k) ⟨h.term, h.knownLeader, h.leader,
          fun id probe hm => ?_, h.messages⟩ hk ht
        exact h.reads id probe (OrderedMap.mem_erase.1 hm).1
      · exact hsame
    · exact hsame
  · exact hsame

/-- The end of a handler that sends requests to the peers. -/
theorem HintFacts.of_queueAppends {actions : RaftNodeActions}
    (h : Steady t k node' actions.messages)
    (hk : k = node.knownLeader ∨ k = some node.selfId) (ht : t = node.term) (peerIds : List ℕ) :
    HintFacts node c (match node'.queueAppends peerIds actions with
      | (node, none) => node.stop .inconsistentState
      | (node, some actions) => (node, .ok actions)) := by
  have hq := h.queueAppends peerIds
  revert hq
  rcases node'.queueAppends peerIds actions with ⟨node'', _ | actions'⟩
  · exact fun _ => .of_stop _
  · exact fun hq => (hq _ rfl).hintFacts hk ht

/-! ## The handlers -/

theorem onElectionTimeout_hint (h : node.Invariant) (hs : node.stopped = false) :
    HintFacts node .electionTimeout node.onElectionTimeout := by
  have hend := RaftElection.startElection_rule node.log (A := fun _ => True) h.usable h.metadata
    trivial trivial trivial
  rw [onElectionTimeout, if_neg (by simp [hs])]
  revert hend
  generalize node.election.startElection node.metadata node.log = r
  rintro (⟨-⟩ | ⟨e, -⟩ | ⟨m, -, -, e, -⟩ | ⟨m, -, -, -, -⟩)
  · exact .of_silent (.of_eq rfl rfl) (by simp)
  · exact .of_stop _
  · exact .of_stop _
  · refine .of_silent (.of_none rfl) fun m hm request hr => ?_
    obtain ⟨p, -, rfl⟩ := List.mem_map.1 hm
    cases hr

/-- A node with a replication object is steady before it sends anything. -/
theorem steady_of_leader {leader : RaftLeaderReplication} (hl : node.leader = some leader)
    (hleads : LeadsTerm node.term leader)
    (hreads : ∀ id probe, (id, some probe) ∈ node.readRounds → probe.term = node.term) :
    Steady node.term node.knownLeader node [] :=
  ⟨rfl, rfl, ⟨leader, hl, hleads⟩, hreads, fun _ hm => by cases hm⟩

theorem onHeartbeatTimeout_hint (h : node.Invariant) (hs : node.stopped = false)
    (hleads : ∀ {leader}, node.leader = some leader → LeadsTerm node.term leader)
    (hreads : ∀ id probe, (id, some probe) ∈ node.readRounds → probe.term = node.term) :
    HintFacts node .heartbeatTimeout node.onHeartbeatTimeout := by
  rw [onHeartbeatTimeout, if_neg (by simp [hs])]
  cases hl : node.leader with
  | none => exact .of_silent (.of_eq rfl rfl) (by simp)
  | some leader =>
    simp only [h.active hl, Bool.true_eq_false, if_false]
    have hsteady := steady_of_leader hl (hleads hl) hreads
    have hq : SteadyEnd node.term node.knownLeader
        (node.queueAppends node.peers { scheduleHeartbeat := true }) :=
      Steady.queueAppends hsteady _
    revert hq
    rcases node.queueAppends node.peers { scheduleHeartbeat := true } with ⟨node', _ | actions⟩
    · exact fun _ => .of_stop _
    · intro hq
      have hnode := hq _ rfl
      refine Steady.hintFacts (t := node.term) (k := node.knownLeader) ⟨hnode.term,
        hnode.knownLeader, hnode.leader, hnode.reads, fun m hm => ?_⟩ (Or.inl rfl) rfl
      rcases List.mem_append.1 hm with hm | hm
      · exact hnode.messages m hm
      · obtain ⟨⟨id, o⟩, hmem, hm⟩ := List.mem_flatMap.1 hm
        cases o with
        | none => cases hm
        | some probe => exact ofTerm_of_broadcast (hnode.reads id probe hmem) m hm

theorem onRequestVote_hint (h : node.Invariant) (hs : node.stopped = false) (peerId : ℕ)
    (request : RequestVote) :
    HintFacts node (.requestVote peerId request) (node.onRequestVote peerId request) := by
  rw [onRequestVote, if_neg (by simp [hs])]
  split_ifs
  · exact .of_error _ (.of_eq rfl rfl)
  · exact .of_error _ (.of_eq rfl rfl)
  have hend := handleRequestVote_rule node.log request
    (A := fun m => node.metadata.state.Succeeds m) h.metadata (.refl _) (fun ht => .enter ht)
    (fun h0 _ hA => hA.castVote h0)
  dsimp only
  revert hend
  generalize handleRequestVote node.metadata node.log request = r
  rintro (⟨m, -, hA⟩ | ⟨m, -, -, hA⟩ | ⟨m, -, -⟩)
  · exact .of_silent (.of_metadata hA.term_le) (by simp)
  · exact .of_silent (.of_metadata hA.term_le) (by simp)
  · exact .of_stop _

theorem onVoteReply_hint (h : node.Invariant) (hs : node.stopped = false) (peerId : ℕ)
    (reply : RequestVoteReply) :
    HintFacts node (.voteReply peerId reply) (node.onVoteReply peerId reply) := by
  rw [onVoteReply, if_neg (by simp [hs])]
  split_ifs
  · exact .of_error _ (.of_eq rfl rfl)
  have hend := RaftElection.handleVoteReply_rule peerId reply (A := fun _ => True) h.usable
    h.metadata trivial h.votes fun _ => trivial
  revert hend
  generalize node.election.handleVoteReply node.metadata peerId reply = r
  rintro (⟨-⟩ | ⟨m, -, -⟩ | ⟨e, -, m, -, -⟩ | ⟨replied, -⟩ | ⟨replied, votes, hcand, -, -, -⟩)
  · exact .of_silent (.of_eq rfl rfl) (by simp)
  · exact .of_silent (.of_none rfl) (by simp)
  · exact .of_stop _
  · exact .of_silent (.of_eq rfl rfl) (by simp)
  · have hreads : node.readRounds = [] := h.reads (h.leader_none (by
      change node.election.role node.metadata ≠ .leader
      simp [hcand]))
    generalize ({ node.election with replied, grantedVotes := votes, cachedRole := .leader } :
      RaftElection) = election
    dsimp only
    split
    · exact .of_stop _
    · next leader hcreate =>
      have hl := RaftLeaderReplication.create_eq_some hcreate
      have hleads : LeadsTerm node.term leader := by
        rw [hl]
        exact ⟨rfl, fun i request hr => by cases hr⟩
      have happ := leader.appendCommand_rule election node.metadata h.logSynced {}
      revert happ
      generalize leader.appendCommand election node.metadata node.log {} = r
      rintro (⟨e, -, -⟩ | ⟨log', -, -, -⟩ | ⟨log', -, -, -, -⟩)
      · exact .of_stop _
      · exact .of_stop _
      · refine .of_queueAppends (t := node.term) (k := some node.selfId) ?_ (Or.inr rfl) rfl _
        exact ⟨rfl, rfl, ⟨leader, rfl, hleads⟩, by simp [hreads], by simp⟩

/-- The end of a handler that applies what has become committed and sends one message. -/
theorem HintFacts.of_applyReady {actions : RaftNodeActions} {m : OutboundRaftMessage}
    (h : ∀ state, node.HintFrom c { node' with state }) (hactions : actions.messages = [])
    (hm : ∀ request, m.message ≠ .appendEntries request) :
    HintFacts node c (match node'.applyReady actions with
      | (node, none) => node.stop .inconsistentState
      | (node, some actions) =>
        (node, .ok { actions with messages := actions.messages ++ [m] })) := by
  obtain ⟨state, h1, h2⟩ := node'.applyReady_shape actions
  revert h1 h2
  rcases node'.applyReady actions with ⟨node'', _ | actions'⟩
  · exact fun _ _ => .of_stop _
  · rintro rfl h2
    obtain ⟨applied, rfl⟩ := h2 actions' rfl
    refine .of_silent (h state) fun m' hm' => ?_
    rw [hactions] at hm'
    rw [List.mem_singleton.1 hm']
    exact hm

theorem onAppendEntries_hint (h : node.Invariant) (hs : node.stopped = false) (peerId : ℕ)
    (request : AppendEntries) :
    HintFacts node (.appendEntries peerId request) (node.onAppendEntries peerId request) := by
  rw [onAppendEntries, if_neg (by simp [hs])]
  split_ifs with hp hc
  · exact .of_error _ (.of_eq rfl rfl)
  · exact .of_error _ (.of_eq rfl rfl)
  rw [not_not] at hc
  have hend := handleAppendEntries_rule node.log node.commitIndex request
    (A := fun m => node.metadata.state.Succeeds m) h.metadata (.refl _) (fun ht => .enter ht)
  -- the sender leads the term of the request
  have hfollow : ∀ {x : RaftNode}, x.knownLeader = some peerId → x.term = request.term →
      node.HintFrom (.appendEntries peerId request) x := by
    intro x hknown ht l hl
    rw [hknown] at hl
    obtain rfl := Option.some.inj hl
    exact Or.inr (Or.inr ⟨request, rfl, hc, ht.symm⟩)
  have hnone : ∀ {x : RaftNode}, x.knownLeader = none →
      node.HintFrom (.appendEntries peerId request) x := fun hx => .of_none hx
  have hsame : ∀ {x : RaftNode}, ¬ node.term < x.term → node.term ≤ x.term →
      x.knownLeader = node.knownLeader → node.HintFrom (.appendEntries peerId request) x :=
    fun hlt hle hx => .of_eq hx (le_antisymm (not_lt.1 hlt) hle)
  dsimp only
  revert hend
  generalize handleAppendEntries node.metadata node.log node.commitIndex request = r
  rintro (⟨m, -, -⟩ | ⟨hstale⟩ | ⟨m, -, hA, -, -⟩ | ⟨m, -, hA, ht, h0, -⟩ |
    ⟨m, -, hA, ht, h0, -, -, log, e, -⟩ | ⟨m, -, hA, ht, h0, -, -, log, -⟩)
  · exact .of_stop _
  · have hf : ¬ (request.term ≠ 0 ∧ request.term = node.metadata.state.currentTerm) := by omega
    simp only [hf, decide_false, Bool.false_eq_true, if_false]
    rw [if_neg (lt_irrefl _)]
    exact .of_silent (.of_eq rfl rfl) (by simp)
  · refine .of_error _ ?_
    split_ifs with hlt
    · exact hnone rfl
    · exact hsame hlt hA.term_le rfl
  · simp only [ne_eq, h0, not_false_eq_true, true_and, decide_true, if_true, Bool.false_eq_true,
      if_false]
    refine .of_silent (hfollow rfl ?_) (by simp)
    split_ifs
    · exact ht
    · exact ht
  · cases e with
    | invalidRequest =>
      refine .of_error _ ?_
      dsimp only
      split_ifs with hlt
      · exact hnone rfl
      · exact hsame hlt hA.term_le rfl
    | committedConflict | persistenceError => exact .of_stop _
  · simp only [ne_eq, h0, not_false_eq_true, true_and, decide_true, if_true]
    refine .of_applyReady (fun state => hfollow rfl ?_) rfl (by simp)
    split_ifs
    · exact ht
    · exact ht

theorem onAppendReply_hint (h : node.Invariant) (hs : node.stopped = false)
    (hleads : ∀ {leader}, node.leader = some leader → LeadsTerm node.term leader)
    (hreads : ∀ id probe, (id, some probe) ∈ node.readRounds → probe.term = node.term)
    (peerId : ℕ) (sentRequest : AppendEntries) (reply : AppendEntriesReply) :
    HintFacts node (.appendReply peerId sentRequest reply)
      (node.onAppendReply peerId sentRequest reply) := by
  rw [onAppendReply, if_neg (by simp [hs])]
  by_cases hpeer : node.isPeer peerId = false
  · rw [if_pos hpeer]
    exact .of_error _ (.of_eq rfl rfl)
  rw [if_neg hpeer]
  cases hl : node.leader with
  | none =>
    dsimp only
    split_ifs
    · rcases node.metadata.advanceTerm reply.term with ⟨m, result⟩
      cases result with
      | persisted => exact .of_silent (.of_none rfl) (by simp)
      | unchanged | staleTerm | voteConflict | invalidTerm | ioError => exact .of_stop _
    · exact .of_silent (.of_eq rfl rfl) (by simp)
  | some leader =>
    have hend := leader.handleReply_rule node.election node.log node.commitIndex peerId sentRequest
      reply (A := fun _ => True) h.metadata trivial fun _ _ => trivial
    have hown := hleads hl
    have hfollow : ∀ {l : RaftLeaderReplication} {i : ℕ} (outcome : AppendReplyOutcome),
        LeadsTerm node.term l → HintFacts node (.appendReply peerId sentRequest reply)
          (match followUp { node with leader := some l, commitIndex := i } peerId outcome with
            | (node, none) => node.stop .inconsistentState
            | (node, some actions) => node.completeRead sentRequest reply actions) := by
      intro l i outcome hl
      have hsteady : Steady node.term node.knownLeader
          { node with leader := some l, commitIndex := i } [] :=
        ⟨rfl, rfl, ⟨l, rfl, hl⟩, hreads, by simp⟩
      have hf := hsteady.followUp peerId outcome
      revert hf
      generalize followUp { node with leader := some l, commitIndex := i } peerId outcome = r
      rcases r with ⟨node', _ | actions⟩
      · exact fun _ => .of_stop _
      · exact fun hf => (hf _ rfl).completeRead (Or.inl rfl) rfl _ _
    have hset : ∀ {i : Fin 2} {peer : PeerState},
        (∀ request, peer.pending = some request → request.term = node.term) →
          LeadsTerm node.term (leader.setPeer i peer) := fun hp => hown.setPeer _ hp
    dsimp only
    revert hend
    generalize leader.handleReply node.election node.metadata node.log node.commitIndex peerId
      sentRequest reply = r
    rintro (⟨-⟩ | ⟨m, -, -, -, -⟩ | ⟨m, -, -⟩ | ⟨i, -, -, -, -, -⟩ | ⟨i, -, -, -, -, k, -, -⟩ |
      ⟨i, -, -, -, -, l, rfl⟩ | ⟨i, -, -, -, -, l, rfl, c, -⟩)
    · exact hfollow .ignored hown
    · exact .of_silent (.of_none rfl) (by simp)
    · exact .of_stop _
    · exact .of_stop _
    · exact hfollow .retry (hset (by simp))
    · exact hfollow .recorded (hset (by simp [RaftLeaderReplication.accepted]))
    · exact hfollow .committed (hset (by simp [RaftLeaderReplication.accepted]))

theorem appendAsLeader_hint (h : node.Invariant) (hs : node.stopped = false)
    (hleads : ∀ {leader}, node.leader = some leader → LeadsTerm node.term leader)
    (hreads : ∀ id probe, (id, some probe) ∈ node.readRounds → probe.term = node.term)
    (command : Command) : HintFacts node c (node.appendAsLeader command) := by
  rw [appendAsLeader, if_neg (by simp [hs])]
  cases hl : node.leader with
  | none => exact .of_error _ (.of_eq rfl rfl)
  | some leader =>
    dsimp only
    rw [if_neg (by simp [h.active hl])]
    have happ := leader.appendCommand_rule node.election node.metadata h.logSynced command
    revert happ
    generalize leader.appendCommand node.election node.metadata node.log command = r
    rintro (⟨e, -, -⟩ | ⟨log', -, -, -⟩ | ⟨log', -, -, -, -⟩)
    · cases e with
      | invalidCommand => exact .of_error _ (.of_eq rfl rfl)
      | notLeader | unknownPeer | invalidBatchSize | indexExhausted | persistenceError
        | inconsistentState => exact .of_stop _
    · exact .of_stop _
    · refine .of_queueAppends (t := node.term) (k := node.knownLeader) ?_ (Or.inl rfl) rfl _
      exact ⟨rfl, rfl, ⟨leader, rfl, hleads hl⟩, hreads, by simp⟩

theorem propose_hint (h : node.Invariant) (hs : node.stopped = false)
    (hleads : ∀ {leader}, node.leader = some leader → LeadsTerm node.term leader)
    (hreads : ∀ id probe, (id, some probe) ∈ node.readRounds → probe.term = node.term)
    (command : Command) : HintFacts node c (node.propose command) := by
  rw [propose, if_neg (by simp [hs])]
  cases hl : node.leader with
  | none => exact .of_error _ (.of_eq rfl rfl)
  | some leader =>
    dsimp only
    rw [if_neg (by simp [h.active hl])]
    split_ifs
    · exact .of_error _ (.of_eq rfl rfl)
    · exact appendAsLeader_hint h hs hleads hreads command

theorem readBarrier_hint (h : node.Invariant) (hs : node.stopped = false)
    (hleads : ∀ {leader}, node.leader = some leader → LeadsTerm node.term leader)
    (hreads : ∀ id probe, (id, some probe) ∈ node.readRounds → probe.term = node.term) :
    HintFacts node c node.readBarrier := by
  rw [readBarrier, if_neg (by simp [hs])]
  cases hl : node.leader with
  | none => exact .of_error _ (.of_eq rfl rfl)
  | some leader =>
    dsimp only
    rw [if_neg (by simp [h.active hl])]
    split_ifs
    · exact .of_stop _
    · have hsteady : Steady node.term node.knownLeader { node with
          nextReadId := (node.nextReadId + 1) % 2 ^ 64
          readRounds := OrderedMap.emplace node.nextReadId none node.readRounds } [] := by
        refine ⟨rfl, rfl, ⟨leader, hl, hleads hl⟩, fun id probe hm => ?_, by simp⟩
        rcases OrderedMap.mem_emplace hm with hm | hm
        · cases hm
        · exact hreads id probe hm
      rw [← hl]
      exact Steady.hintFacts (Steady.startWaitingReads hsteady) (Or.inl rfl) rfl

/-- **The known leader across a call**, for a node whose requests are of its term. -/
theorem call_hint (h : node.Invariant) (hs : node.stopped = false)
    (hleads : ∀ {leader}, node.leader = some leader → LeadsTerm node.term leader)
    (hreads : ∀ id probe, (id, some probe) ∈ node.readRounds → probe.term = node.term)
    (c : NodeCall) : HintFacts node c (node.call c) := by
  cases c with
  | electionTimeout => exact onElectionTimeout_hint h hs
  | heartbeatTimeout => exact onHeartbeatTimeout_hint h hs hleads hreads
  | requestVote peerId request => exact onRequestVote_hint h hs peerId request
  | voteReply peerId reply => exact onVoteReply_hint h hs peerId reply
  | appendEntries peerId request => exact onAppendEntries_hint h hs peerId request
  | appendReply peerId sentRequest reply =>
    exact onAppendReply_hint h hs hleads hreads peerId sentRequest reply
  | propose command => exact propose_hint h hs hleads hreads command
  | readBarrier => exact readBarrier_hint h hs hleads hreads

end RaftNode

end DistributedKV
