import DistributedKV.Raft.NodeRank

/-!
# Reads that a leader keeps track of

A read that has been started is kept until a peer answers its probe or the node stops leading. It
has no probe as long as no entry of the current term is committed, and the call that commits the
first one sends the probe to both peers. A leader whose peers' progress is in bounds never fails to
build a request, so neither this call nor a heartbeat stops it.
-/

namespace DistributedKV

namespace RaftNode

open RaftNodeResult

variable {node node' : RaftNode} {c : NodeCall}

/-- An entry of the term is committed. -/
def hasCommitted (node : RaftNode) (t : ℕ) : Bool :=
  (node.log.log.take node.commitIndex).any fun e => e.term = t

/-- The waiting reads of a node: each has an id of its own, and one without a probe waits for an
entry of the current term to be committed. -/
structure Tracking (node : RaftNode) : Prop where
  sorted : OrderedMap.Sorted node.readRounds
  nonzero : 0 ∉ OrderedMap.keys node.readRounds
  waiting : ∀ {id}, (id, none) ∈ node.readRounds → node.currentTermCommitted = false

theorem Tracking.withFaults {node : RaftNode} (h : node.Tracking) (faults : Faults) :
    (node.withFaults faults).Tracking :=
  ⟨h.sorted, h.nonzero, h.waiting⟩

/-- What a call does to the reads that a node keeps track of. -/
structure TrackFacts (node : RaftNode) (r : RaftNode × RaftNodeResult) : Prop where
  tracking : r.1.Tracking
  kept : r.1.leader.isSome → ∀ {id}, id ∈ OrderedMap.keys node.readRounds →
    id ∈ OrderedMap.keys r.1.readRounds ∨ ∃ x ∈ readyReads r.2, x.id = id
  started : ∀ {id}, startedReadId r.2 = some id → id ∈ OrderedMap.keys r.1.readRounds
  probed : ∀ {id}, (id, none) ∈ node.readRounds → r.1.leader.isSome →
    r.1.currentTermCommitted = true → (id, some (r.1.readProbe id)) ∈ r.1.readRounds ∧
      ∀ p ∈ node.peers, ⟨p, .appendEntries (r.1.readProbe id)⟩ ∈ messages r.2
  committed : node.leader.isSome → r.1.term = node.term → r.1.leader.isSome ∨
    r.1.log.log.take r.1.commitIndex = node.log.log.take node.commitIndex

/-! ## The current term -/

theorem currentTermCommitted_congr (hc : node'.commitIndex = node.commitIndex)
    (hs : node'.state = node.state) (ht : node'.term = node.term)
    (hl : node'.log.entryAt node.commitIndex = node.log.entryAt node.commitIndex) :
    node'.currentTermCommitted = node.currentTermCommitted := by
  rw [currentTermCommitted, currentTermCommitted, lastApplied, lastApplied, hc, hs, ht, hl]

/-- The last committed entry has the largest term. -/
theorem Invariant.currentTermCommitted (h : node.Invariant) :
    node.currentTermCommitted = node.hasCommitted node.term := by
  have happlied : ¬ node.lastApplied < node.commitIndex := by
    rw [h.lastApplied]
    exact lt_irrefl _
  have hle := h.commit_le
  rw [RaftNode.currentTermCommitted, hasCommitted]
  rw [lastIndex, ← PersistentLog.length_log] at hle
  cases hc : node.commitIndex with
  | zero => simp
  | succ k =>
    rw [hc] at hle happlied
    have hx : node.log.log[k]? = some node.log.log[k] := List.getElem?_eq_getElem hle
    rw [if_neg (by simpa using happlied), PersistentLog.entryAt_succ, hx]
    have hlog := h.log.take (k + 1)
    have hlen : (node.log.log.take (k + 1)).length = k + 1 := List.length_take_of_le hle
    have hlast : (node.log.log.take (k + 1))[k]? = some node.log.log[k] := by
      rw [List.getElem?_take_of_lt (Nat.lt_succ_self k), hx]
    rw [Bool.eq_iff_iff, List.any_eq_true]
    simp only [decide_eq_true_eq]
    constructor
    · exact fun ht => ⟨_, List.mem_of_getElem? hlast, ht⟩
    · rintro ⟨e, he, ht⟩
      have hge := hlog.term_le_last hlen hlast e he
      have hmax := hlog.term_le _ (List.mem_of_getElem? hlast)
      omega

/-! ## Calls that do not concern reads -/

/-- The node gives up its leadership, and with it the reads. -/
theorem TrackFacts.of_dropped {result : RaftNodeResult} (hl : node'.leader = none)
    (hr : node'.readRounds = []) (hid : startedReadId result = none)
    (hcommit : node.leader.isSome → node'.term = node.term →
      node'.log.log.take node'.commitIndex = node.log.log.take node.commitIndex) :
    TrackFacts node (node', result) where
  tracking := ⟨by rw [hr]; exact .nil, by simp [hr], fun hm => by simp [hr] at hm⟩
  kept h := by simp [hl] at h
  started h := by simp [hid] at h
  probed _ h := by simp [hl] at h
  committed h ht := Or.inr (hcommit h ht)

theorem TrackFacts.of_stop (hcommit : node.leader.isSome → node'.term = node.term →
      node'.log.log.take node'.commitIndex = node.log.log.take node.commitIndex)
    (e : RaftNodeError) : TrackFacts node (node'.stop e) :=
  .of_dropped rfl rfl rfl hcommit

/-- The node keeps its reads, and no entry of the current term becomes committed. -/
theorem TrackFacts.of_kept {result : RaftNodeResult} (h : node.Tracking)
    (hr : node'.readRounds = node.readRounds)
    (hc : node'.currentTermCommitted = node.currentTermCommitted)
    (hid : startedReadId result = none)
    (hcommit : node.leader.isSome → node'.leader.isSome ∨
      node'.log.log.take node'.commitIndex = node.log.log.take node.commitIndex) :
    TrackFacts node (node', result) where
  tracking := ⟨by rw [hr]; exact h.sorted, by rw [hr]; exact h.nonzero, fun hm => by
    rw [hr] at hm
    rw [hc]
    exact h.waiting hm⟩
  kept _ {id} hm := Or.inl (hr ▸ hm)
  started h := by simp [hid] at h
  probed hm _ ht := by simp [hc, h.waiting hm] at ht
  committed h _ := hcommit h

/-- A node that has no reads, and none after the call either. -/
theorem TrackFacts.of_none {result : RaftNodeResult} (hl : node.leader = none)
    (hr : node.readRounds = []) (hr' : node'.readRounds = []) (hid : startedReadId result = none) :
    TrackFacts node (node', result) where
  tracking := ⟨by rw [hr']; exact .nil, by simp [hr'], fun hm => by simp [hr'] at hm⟩
  kept _ {id} h := by
    rw [hr] at h
    cases h
  started h := by
    dsimp only at h
    rw [hid] at h
    cases h
  probed hm _ _ := by simp [hr] at hm
  committed h _ := by simp [hl] at h

theorem onElectionTimeout_tracks (h : node.Invariant) (hs : node.stopped = false)
    (ht : node.Tracking) : TrackFacts node node.onElectionTimeout := by
  have hend := RaftElection.startElection_rule node.log (A := fun _ => True) h.usable h.metadata
    trivial trivial trivial
  rw [onElectionTimeout, if_neg (by simp [hs])]
  revert hend
  generalize node.election.startElection node.metadata node.log = r
  rintro (⟨-⟩ | ⟨e, he⟩ | ⟨m, -, -, e, he⟩ | ⟨m, -, -, -, -⟩)
  · exact .of_kept ht rfl rfl rfl fun _ => Or.inr rfl
  · refine .of_stop ?_ _
    exact fun _ _ => rfl
  · refine .of_stop ?_ _
    exact fun _ _ => rfl
  · exact .of_dropped rfl rfl rfl fun _ _ => rfl

theorem onRequestVote_tracks (h : node.Invariant) (hs : node.stopped = false)
    (ht : node.Tracking) (peerId : ℕ) (request : RequestVote) :
    TrackFacts node (node.onRequestVote peerId request) := by
  have hsame : ∀ {e : RaftNodeError}, TrackFacts node (node, .error e) :=
    .of_kept ht rfl rfl rfl fun _ => Or.inr rfl
  rw [onRequestVote, if_neg (by simp [hs])]
  split_ifs with hp hc
  · exact hsame
  · exact hsame
  have hend := handleRequestVote_rule node.log request
    (A := fun m => node.term ≤ m.currentTerm) h.metadata le_rfl (fun ht => ht.le)
    fun _ _ hA => hA
  have hdone : ∀ {m : PersistentMetadata} {actions : RaftNodeActions},
      node.term ≤ m.state.currentTerm → actions.startedReadId = none → TrackFacts node
        (if node.term < m.state.currentTerm then { node with metadata := m }.dropLeadership
          else { node with metadata := m }, .ok actions) := by
    intro m actions hm hid
    split_ifs with hlt
    · exact .of_dropped rfl rfl hid fun _ _ => rfl
    · refine .of_kept ht rfl ?_ hid fun _ => Or.inr rfl
      exact currentTermCommitted_congr rfl rfl (Nat.le_antisymm (not_lt.1 hlt) hm) rfl
  dsimp only
  revert hend
  generalize handleRequestVote node.metadata node.log request = r
  rintro (⟨m, -, hA⟩ | ⟨m, -, -, hA⟩ | ⟨m, hA, -⟩)
  · exact hdone hA rfl
  · exact hdone hA rfl
  · refine .of_stop ?_ _
    exact fun _ _ => rfl

/-- The end of a handler that sends requests to the peers, without any reads. -/
theorem TrackFacts.of_queueAppends {leader : RaftLeaderReplication} (hl : node.leader = none)
    (hnil : node.readRounds = []) (hx : node'.leader = some leader) (hr : node'.readRounds = []) :
    TrackFacts node (match node'.queueAppends node'.peers { scheduleHeartbeat := true } with
      | (node, none) => node.stop .inconsistentState
      | (node, some actions) => (node, .ok actions)) := by
  have hend := queueAppends_rule (P := fun _ => True) (M := fun _ => True) (B := True) hx
    trivial node'.peers (fun _ _ _ => ⟨trivial, trivial⟩) (fun _ _ _ => trivial)
    { scheduleHeartbeat := true }
  revert hend
  generalize node'.queueAppends node'.peers { scheduleHeartbeat := true } = r
  rintro (⟨l, -, -⟩ | ⟨l, -, messages, -⟩)
  · exact .of_none hl hnil rfl rfl
  · exact .of_none hl hnil hr rfl

/-- A candidate that wins has no reads. -/
theorem onVoteReply_tracks (h : node.Invariant) (hs : node.stopped = false) (ht : node.Tracking)
    (peerId : ℕ) (reply : RequestVoteReply) :
    TrackFacts node (node.onVoteReply peerId reply) := by
  rw [onVoteReply, if_neg (by simp [hs])]
  split_ifs with hp
  · exact .of_kept ht rfl rfl rfl fun _ => Or.inr rfl
  have hend := RaftElection.handleVoteReply_rule peerId reply (A := fun _ => True) h.usable
    h.metadata trivial h.votes fun _ => trivial
  revert hend
  generalize node.election.handleVoteReply node.metadata peerId reply = r
  rintro (⟨-⟩ | ⟨m, -, -⟩ | ⟨e, he, m, -, -⟩ | ⟨replied, hr⟩ | ⟨replied, votes, hr, -, -, -⟩)
  · exact .of_kept ht rfl rfl rfl fun _ => Or.inr rfl
  · exact .of_dropped rfl rfl rfl fun _ _ => rfl
  · refine .of_stop ?_ _
    exact fun _ _ => rfl
  · exact .of_kept ht rfl rfl rfl fun _ => Or.inr rfl
  · have hl : node.leader = none := h.leader_none (by rw [role, hr]; simp)
    have hnil := h.reads hl
    dsimp only
    split
    · exact .of_none hl hnil rfl rfl
    · next leader hcreate =>
      generalize leader.appendCommand _ node.metadata node.log {} = r
      rcases r with ⟨leader', log', e | index⟩
      · exact .of_none hl hnil rfl rfl
      · exact .of_queueAppends hl hnil rfl hnil

/-- The end of an accepted append request, without any reads. -/
theorem TrackFacts.of_applyReady {actions : RaftNodeActions} {message : OutboundRaftMessage}
    (hid : actions.startedReadId = none) (hl : node'.leader = none) (hr : node'.readRounds = [])
    (hterm : node.leader.isSome → node'.term = node.term →
      node'.log.log.take node'.commitIndex = node.log.log.take node.commitIndex) :
    TrackFacts node (match node'.applyReady actions with
      | (node, none) => node.stop .inconsistentState
      | (node, some actions) =>
        (node, .ok { actions with messages := actions.messages ++ [message] })) := by
  obtain ⟨state, h1, h2⟩ := node'.applyReady_shape actions
  revert h1 h2
  rcases node'.applyReady actions with ⟨x, _ | actions'⟩
  · rintro rfl -
    refine .of_stop ?_ _
    exact hterm
  · rintro rfl h2
    obtain ⟨applied, rfl⟩ := h2 actions' rfl
    exact .of_dropped hl hr hid hterm

theorem onAppendEntries_tracks (h : node.Invariant) (hs : node.stopped = false)
    (ht : node.Tracking) (peerId : ℕ) (request : AppendEntries)
    (hother : node.leader.isSome → node.isPeer peerId = true → request.leaderId = peerId →
      request.term ≠ node.term) : TrackFacts node (node.onAppendEntries peerId request) := by
  have hsame : ∀ {e : RaftNodeError}, TrackFacts node (node, .error e) :=
    .of_kept ht rfl rfl rfl fun _ => Or.inr rfl
  rw [onAppendEntries, if_neg (by simp [hs])]
  split_ifs with hpeer hlead
  · exact hsame
  · exact hsame
  rw [Bool.not_eq_false] at hpeer
  rw [not_not] at hlead
  have hend := handleAppendEntries_rule node.log node.commitIndex request
    (A := fun m => node.metadata.state.Succeeds m) h.metadata (.refl _) fun ht => .enter ht
  have hinvalid : ∀ {m : PersistentMetadata} {log : PersistentLog}, log.log = node.log.log →
      node.metadata.state.Succeeds m.state →
      TrackFacts node (if node.term < m.state.currentTerm
        then { node with metadata := m, log }.dropLeadership
        else { node with metadata := m, log }, .error .invalidRequest) := by
    intro m log hlog hA
    split_ifs with hlt
    · refine .of_dropped rfl rfl rfl fun _ _ => ?_
      exact congrArg (List.take node.commitIndex) hlog
    · refine .of_kept ht rfl ?_ rfl fun _ => Or.inr (congrArg (List.take node.commitIndex) hlog)
      exact currentTermCommitted_congr rfl rfl (Nat.le_antisymm (not_lt.1 hlt) hA.term_le)
        (PersistentLog.entryAt_of_log_eq hlog _)
  -- a leader never sees a request of its own term
  have hterm : ∀ {m : PersistentMetadata} {x : RaftNode}, m.state.currentTerm = request.term →
      x.term = m.state.currentTerm → node.leader.isSome → x.term = node.term →
      x.log.log.take x.commitIndex = node.log.log.take node.commitIndex := by
    intro m x hm hx hl heq
    exact absurd (by rw [← hm, ← hx, heq]) (hother hl hpeer hlead)
  dsimp only
  revert hend
  generalize handleAppendEntries node.metadata node.log node.commitIndex request = r
  rintro (⟨m, hm, -⟩ | ⟨hstale⟩ | ⟨m, -, hA, -, -⟩ | ⟨m, -, hA, hmt, h0, -⟩ |
    ⟨m, -, hA, hmt, h0, hv, hp, log, e, hloop⟩ | ⟨m, -, -, hmt, h0, -, -, log, -⟩)
  · dsimp only
    split_ifs
    all_goals
      refine .of_stop ?_ _
      exact fun _ _ => rfl
  · have hf : ¬ (request.term ≠ 0 ∧ request.term = node.metadata.state.currentTerm) := by omega
    simp only [hf, decide_false, Bool.false_eq_true, if_false]
    rw [if_neg (lt_irrefl _)]
    exact .of_kept ht rfl rfl rfl fun _ => Or.inr rfl
  · exact hinvalid rfl hA
  · simp only [ne_eq, h0, not_false_eq_true, true_and, decide_true, if_true, Bool.false_eq_true,
      if_false]
    split_ifs
    all_goals exact .of_dropped rfl rfl rfl fun _ _ => rfl
  · cases e with
    | invalidRequest =>
      exact hinvalid (appendLoop_invalidRequest h (hA.term_le.trans hmt.le) hv hp hloop) hA
    | committedConflict | persistenceError =>
      dsimp only
      split_ifs
      all_goals
        refine .of_stop ?_ _
        exact hterm hmt rfl
  · simp only [ne_eq, h0, not_false_eq_true, true_and, decide_true, if_true]
    split_ifs
    · exact .of_applyReady rfl rfl rfl (hterm hmt rfl)
    · exact .of_applyReady rfl rfl rfl (hterm hmt rfl)

/-! ## Sending to the peers -/

/-- What a leader that can go on sending knows of its peers. -/
structure LeaderBounds (node : RaftNode) (leader : RaftLeaderReplication) : Prop where
  id : ∀ i, (leader.peers i).id = node.peerIds i
  peer : ∀ i, PeerBounds node.lastIndex (leader.peers i)
  plain : PlainPending leader

variable {leader : RaftLeaderReplication}

theorem LeaderBounds.setPeer (h : LeaderBounds node leader) {i : Fin 2} {peer : PeerState}
    (hid : peer.id = (leader.peers i).id) (hb : PeerBounds node.lastIndex peer)
    (hp : ∀ {request}, peer.pending = some request → request.readContext = 0) :
    LeaderBounds node (leader.setPeer i peer) := by
  refine ⟨fun j => ?_, fun j => ?_, fun j request hr => ?_⟩
  all_goals by_cases hj : j = i
  · rw [hj, RaftLeaderReplication.setPeer_self, hid, h.id]
  · rw [RaftLeaderReplication.setPeer_of_ne hj, h.id]
  · rwa [hj, RaftLeaderReplication.setPeer_self]
  · rw [RaftLeaderReplication.setPeer_of_ne hj]
    exact h.peer j
  · rw [hj, RaftLeaderReplication.setPeer_self] at hr
    exact hp hr
  · rw [RaftLeaderReplication.setPeer_of_ne hj] at hr
    exact h.plain j request hr

theorem LeaderBounds.makeRequest (h : LeaderBounds node leader) {leader' : RaftLeaderReplication}
    {peerId : ℕ} {request : AppendEntries}
    (hmake : leader.MakeRequestEnd node.election node.metadata node.log node.commitIndex peerId 4
      (leader', .ok request)) : LeaderBounds node leader' := by
  cases hmake with
  | pending => exact h
  | fresh i hi hp k hk hl =>
    refine h.setPeer (by rfl) ⟨(h.peer i).match_lt, (h.peer i).next_le, fun hr => ?_⟩ fun hr => ?_
    · obtain rfl := Option.some.inj hr
      refine ⟨hk.symm, ?_⟩
      simp only [RaftLeaderReplication.requestFrom, List.length_take, List.length_drop,
        PersistentLog.length_log, lastIndex]
      omega
    · obtain rfl := Option.some.inj hr
      rfl

/-- **Sending succeeds** on a leader whose peers' progress is in bounds. -/
theorem queueAppends_succeeds (h : node.Invariant) (hl : node.leader = some leader)
    (hb : LeaderBounds node leader) {peerIds : List ℕ} (hp : peerIds ⊆ node.peers)
    (actions : RaftNodeActions) :
    ∃ leader' messages, LeaderBounds node leader' ∧ node.queueAppends peerIds actions =
      ({ node with leader := some leader' },
        some { actions with messages := actions.messages ++ messages }) := by
  have hend := queueAppends_rule
    (P := fun l => SameLeadership leader l ∧ LeaderBounds node l) (M := fun _ => True) (B := False)
    hl ⟨⟨rfl, rfl, rfl⟩, hb⟩ peerIds
    (fun hP _ hmake => ⟨⟨(sameLeadership_of_makeRequest hP.1 hmake).1, hP.2.makeRequest hmake⟩,
      trivial⟩) ?_ actions
  · revert hend
    generalize node.queueAppends peerIds actions = r
    rintro (⟨l, -, hb⟩ | ⟨l, hP, messages, -⟩)
    · exact hb.elim
    · exact ⟨l, messages, hP.2, rfl⟩
  · intro l peerId e hP hmem hmake
    rcases hmake.why rfl with hfind | hact | h4 | hcommit | ⟨i, -, hnext⟩
    · have hid := hP.2.id
      unfold RaftLeaderReplication.findPeer at hfind
      rw [hid, hid] at hfind
      have hpeer := hp hmem
      simp only [peers, List.mem_cons, List.not_mem_nil, or_false] at hpeer
      split_ifs at hfind
      omega
    · have hactive := (h.setLeader hl hP.1.1 hP.1.2.1 hP.1.2.2).active rfl
      rw [leaderActive] at hactive
      rw [hact] at hactive
      cases hactive
    · exact absurd h4 (by decide)
    · exact absurd h.commit_le (not_le.2 hcommit)
    · have hbounds := hP.2.peer i
      have hlt := hbounds.match_lt
      have hle := hbounds.next_le
      rw [lastIndex] at hle
      omega

/-! ## Calls on a leader -/

theorem onHeartbeatTimeout_tracks (h : node.Invariant) (hs : node.stopped = false)
    (ht : node.Tracking) (hb : ∀ {leader}, node.leader = some leader → LeaderBounds node leader) :
    TrackFacts node node.onHeartbeatTimeout := by
  rw [onHeartbeatTimeout, if_neg (by simp [hs])]
  cases hl : node.leader with
  | none => exact .of_kept ht rfl rfl rfl fun _ => Or.inr rfl
  | some leader =>
    obtain ⟨leader', messages, -, hq⟩ := queueAppends_succeeds h hl (hb hl) (List.Subset.refl _)
      { scheduleHeartbeat := true }
    simp only [h.active hl, Bool.true_eq_false, if_false, hq]
    exact .of_kept ht rfl rfl rfl fun _ => Or.inr rfl

/-- **A heartbeat** sends every probe to both peers. -/
theorem onHeartbeatTimeout_probes (h : node.Invariant) (hs : node.stopped = false)
    (hl : node.leader = some leader) (hb : LeaderBounds node leader) {id : ℕ}
    {probe : AppendEntries} (hp : (id, some probe) ∈ node.readRounds) {p : ℕ}
    (hpeer : p ∈ node.peers) :
    ⟨p, .appendEntries probe⟩ ∈ messages node.onHeartbeatTimeout.2 := by
  obtain ⟨leader', sent, -, hq⟩ := queueAppends_succeeds h hl hb (List.Subset.refl _)
    { scheduleHeartbeat := true }
  rw [onHeartbeatTimeout, if_neg (by simp [hs]), hl]
  simp only [h.active hl, Bool.true_eq_false, if_false, hq]
  refine List.mem_append_right _ (List.mem_flatMap.2 ⟨_, hp, ?_⟩)
  exact List.mem_map.2 ⟨p, hpeer, rfl⟩

theorem propose_tracks (h : node.Invariant) (hs : node.stopped = false) (ht : node.Tracking)
    (command : Command) : TrackFacts node (node.propose command) := by
  have hsame : ∀ {e : RaftNodeError}, TrackFacts node (node, .error e) :=
    .of_kept ht rfl rfl rfl fun _ => Or.inr rfl
  rw [propose, if_neg (by simp [hs])]
  cases hl : node.leader with
  | none => exact hsame
  | some leader =>
    dsimp only
    rw [if_neg (by simp [h.active hl])]
    split_ifs
    · exact hsame
    rw [appendAsLeader, if_neg (by simp [hs]), hl]
    dsimp only
    rw [if_neg (by simp [h.active hl])]
    have happ := leader.appendCommand_rule node.election node.metadata h.logSynced command
    revert happ
    generalize leader.appendCommand node.election node.metadata node.log command = r
    rintro (⟨e, -, -⟩ | ⟨log', -, -, hf⟩ | ⟨log', -, -, -, hlog⟩)
    · cases e with
      | invalidCommand => exact .of_kept ht rfl rfl rfl fun _ => Or.inl rfl
      | notLeader | unknownPeer | invalidBatchSize | indexExhausted | persistenceError
        | inconsistentState =>
        refine .of_stop ?_ _
        exact fun _ _ => rfl
    · refine .of_stop ?_ _
      exact fun _ _ => congrArg (List.take node.commitIndex) hf.log
    · have htake : log'.log.take node.commitIndex = node.log.log.take node.commitIndex :=
        h.take_append hlog
      have hentry : log'.entryAt node.commitIndex = node.log.entryAt node.commitIndex := by
        have hle := h.commit_le
        rw [lastIndex, ← PersistentLog.length_log] at hle
        cases hc : node.commitIndex with
        | zero => simp
        | succ k =>
          rw [PersistentLog.entryAt_succ, PersistentLog.entryAt_succ, hlog,
            List.getElem?_append_left (by omega)]
      have hend : QueueEnd { node with leader := some leader, log := log' } (fun _ => True)
          (fun _ => True) True { proposedIndex := some (node.log.lastIndex + 1) } _ :=
        queueAppends_rule rfl trivial node.peers (fun _ _ _ => ⟨trivial, trivial⟩)
          (fun _ _ _ => trivial) _
      dsimp only
      revert hend
      have hpeers : peers { node with leader := some leader, log := log' } = node.peers := rfl
      rw [hpeers]
      generalize queueAppends { node with leader := some leader, log := log' } node.peers
        { proposedIndex := some (node.log.lastIndex + 1) } = r
      rintro (⟨l, -, -⟩ | ⟨l, -, sent, -⟩)
      · refine .of_stop ?_ _
        exact fun _ _ => htake
      · refine .of_kept ht rfl ?_ rfl fun _ => Or.inl rfl
        exact currentTermCommitted_congr rfl rfl rfl hentry

/-! ## Starting reads -/

/-- What starting the waiting reads does to a node that keeps track of its reads. -/
theorem startWaitingReads_tracks (hsorted : OrderedMap.Sorted node.readRounds)
    (hnonzero : 0 ∉ OrderedMap.keys node.readRounds) (actions : RaftNodeActions) :
    ∃ rounds sent, node.startWaitingReads actions = ({ node with readRounds := rounds },
        { actions with messages := actions.messages ++ sent }) ∧
      Tracking { node with readRounds := rounds } ∧
      OrderedMap.keys rounds = OrderedMap.keys node.readRounds ∧
      (node.currentTermCommitted = true → ∀ {id}, (id, none) ∈ node.readRounds →
        (id, some (node.readProbe id)) ∈ rounds ∧
          ∀ p ∈ node.peers, ⟨p, .appendEntries (node.readProbe id)⟩ ∈ sent) := by
  rw [startWaitingReads]
  split_ifs with hc
  · refine ⟨node.readRounds, [], by simp, ⟨hsorted, hnonzero, fun _ => hc⟩, rfl, fun ht => ?_⟩
    simp [hc] at ht
  · have hkeys : OrderedMap.keys (node.readRounds.map fun p =>
        (p.1, some (p.2.getD (node.readProbe p.1)))) = OrderedMap.keys node.readRounds := by
      rw [OrderedMap.keys, OrderedMap.keys, List.map_map]
      rfl
    refine ⟨_, _, rfl, ⟨?_, ?_, fun hm => ?_⟩, hkeys, fun _ id hm => ⟨?_, fun p hp => ?_⟩⟩
    · rwa [OrderedMap.Sorted, hkeys]
    · rwa [hkeys]
    · obtain ⟨q, -, hq⟩ := List.mem_map.1 hm
      cases hq
    · exact List.mem_map.2 ⟨_, hm, rfl⟩
    · exact List.mem_flatMap.2 ⟨_, hm, List.mem_map.2 ⟨p, hp, rfl⟩⟩

theorem readBarrier_tracks (h : node.Invariant) (hs : node.stopped = false)
    (ht : node.Tracking) : TrackFacts node node.readBarrier := by
  have hsame : ∀ {e : RaftNodeError}, TrackFacts node (node, .error e) :=
    .of_kept ht rfl rfl rfl fun _ => Or.inr rfl
  rw [readBarrier, if_neg (by simp [hs])]
  cases hl : node.leader with
  | none => exact hsame
  | some leader =>
    dsimp only
    rw [if_neg (by simp [h.active hl])]
    split_ifs with h0
    · refine .of_stop ?_ _
      exact fun _ _ => rfl
    · have hzero : 0 ∉ OrderedMap.keys
          (OrderedMap.emplace node.nextReadId none node.readRounds) := fun hm =>
        (OrderedMap.mem_keys_emplace.1 hm).elim (fun he => h0 he.symm) ht.nonzero
      obtain ⟨rounds, sent, hstart, htrack, hkeys, -⟩ := @startWaitingReads_tracks { node with
        nextReadId := (node.nextReadId + 1) % 2 ^ 64
        readRounds := OrderedMap.emplace node.nextReadId none node.readRounds }
        (ht.sorted.emplace _ _) hzero { startedReadId := some node.nextReadId }
      rw [← hl, hstart]
      have hmem : ∀ {id}, id ∈ OrderedMap.keys rounds ↔
          id = node.nextReadId ∨ id ∈ OrderedMap.keys node.readRounds := by
        intro id
        rw [hkeys, OrderedMap.mem_keys_emplace]
      refine ⟨htrack, fun _ id hid => Or.inl (hmem.2 (Or.inr hid)), fun {id} hid => ?_,
        fun {id} hid _ hcur => ?_, fun _ _ => Or.inr rfl⟩
      · obtain rfl := Option.some.inj hid
        exact hmem.2 (Or.inl rfl)
      · have hold := ht.waiting hid
        have hsame : RaftNode.currentTermCommitted node = true := hcur
        rw [hold] at hsame
        cases hsame

/-! ## Replies to requests -/

/-- Without a commit, following up changes the replication object only. -/
theorem followUp_kept {outcome : AppendReplyOutcome} (ho : outcome ≠ .committed)
    (hl : node.leader = some leader) (peerId : ℕ) :
    ∃ l, (node.followUp peerId outcome).1 = { node with leader := some l } ∧
      ∀ {actions}, (node.followUp peerId outcome).2 = some actions →
        actions.startedReadId = none := by
  have hself : { node with leader := some leader } = node := by rw [← hl]
  have hone : ∃ l, (node.queueAppend peerId {}).1 = { node with leader := some l } ∧
      ∀ {actions}, (node.queueAppend peerId {}).2 = some actions →
        actions.startedReadId = none := by
    have hend : QueueEnd node (fun _ => True) (fun _ => True) True {}
        (node.queueAppend peerId {}) :=
      queueAppend_rule hl trivial (fun _ => ⟨trivial, trivial⟩) (fun _ => trivial) {}
    revert hend
    generalize node.queueAppend peerId {} = r
    rintro (⟨l, -, -⟩ | ⟨l, -, sent, -⟩)
    · exact ⟨l, rfl, fun h => by cases h⟩
    · refine ⟨l, rfl, fun h => ?_⟩
      obtain rfl := Option.some.inj h
      rfl
  have hnone : ∃ l, node = { node with leader := some l } ∧
      ∀ {actions}, some ({} : RaftNodeActions) = some actions → actions.startedReadId = none := by
    refine ⟨leader, hself.symm, fun h => ?_⟩
    obtain rfl := Option.some.inj h
    rfl
  cases outcome with
  | committed => exact absurd rfl ho
  | ignored | steppedDown | inconsistentFollower | persistenceError => exact hnone
  | retry => exact hone
  | recorded =>
    rw [followUp]
    split
    · exact ⟨leader, hself.symm, fun h => by cases h⟩
    · split_ifs
      · exact hone
      · exact hnone

/-- The end of `on_append_reply`, where no entry has become committed. -/
theorem completeRead_tracks {actions : RaftNodeActions} (ht : node.Tracking)
    (hl : node'.leader.isSome) (hr : node'.readRounds = node.readRounds)
    (hc : node'.currentTermCommitted = node.currentTermCommitted)
    (htake : node'.log.log.take node'.commitIndex = node.log.log.take node.commitIndex)
    (hid : actions.startedReadId = none) (sentRequest : AppendEntries)
    (reply : AppendEntriesReply) :
    TrackFacts node (node'.completeRead sentRequest reply actions) := by
  have hsame : TrackFacts node (node', .ok actions) := .of_kept ht hr hc hid fun _ => Or.inl hl
  rw [completeRead]
  split_ifs
  · split
    · dsimp only
      split_ifs
      · exact .of_stop (fun _ _ => htake) _
      · refine ⟨⟨?_, fun hm => ?_, fun hm => ?_⟩, fun _ id hm => ?_, fun h => ?_,
          fun hm _ hcur => ?_, fun _ _ => Or.inl hl⟩
        · rw [hr]
          exact ht.sorted.erase _
        · obtain ⟨o, ho⟩ := OrderedMap.mem_keys_iff.1 hm
          rw [hr] at ho
          exact ht.nonzero (OrderedMap.mem_keys_iff.2 ⟨o, (OrderedMap.mem_erase.1 ho).1⟩)
        · dsimp only at hm
          rw [hr] at hm
          exact hc.trans (ht.waiting (OrderedMap.mem_erase.1 hm).1)
        · by_cases he : id = sentRequest.readContext
          · exact Or.inr ⟨⟨sentRequest.readContext, _⟩,
              List.mem_append_right _ (List.mem_singleton.2 rfl), he.symm⟩
          · obtain ⟨o, ho⟩ := OrderedMap.mem_keys_iff.1 hm
            refine Or.inl (OrderedMap.mem_keys_iff.2 ⟨o, OrderedMap.mem_erase.2 ⟨?_, he⟩⟩)
            rwa [hr]
        · rw [RaftNodeResult.startedReadId, hid] at h
          cases h
        · have hsame : node'.currentTermCommitted = true := hcur
          rw [hc, ht.waiting hm] at hsame
          cases hsame
      · exact hsame
    · exact hsame
  · exact hsame

/-- The end of `on_append_reply`, where an entry has become committed: the node goes on leading,
and the reads that have waited get their probes. -/
theorem onAppendReply_tracks_committed (h : node.Invariant) (ht : node.Tracking)
    (hl : node.leader = some leader) {l : RaftLeaderReplication} (hsame : SameLeadership leader l)
    (hb : LeaderBounds node l) {c : ℕ} (hle : node.commitIndex ≤ c) (hc : c ≤ node.lastIndex)
    (peerId : ℕ) {sentRequest : AppendEntries} (hplain : sentRequest.readContext = 0)
    (reply : AppendEntriesReply) :
    TrackFacts node (match followUp { node with leader := some l, commitIndex := c } peerId
        .committed with
      | (node, none) => node.stop .inconsistentState
      | (node, some actions) => node.completeRead sentRequest reply actions) := by
  have hinv := (h.setLeader hl hsame.1 hsame.2.1 hsame.2.2).commit hc
  obtain ⟨applied, happ, -⟩ := @applyReady_eq { node with leader := some l, commitIndex := c }
    node.term node.commitIndex h.log h.applied hle hc {}
  rw [followUp, happ]
  dsimp only
  obtain ⟨l', sent, -, hq⟩ := queueAppends_succeeds hinv rfl ⟨hb.id, hb.peer, hb.plain⟩
    (List.Subset.refl _) { applied }
  dsimp only at hq
  rw [hq]
  dsimp only
  obtain ⟨rounds, sent', hstart, htrack, hkeys, hprobes⟩ := @startWaitingReads_tracks { node with
    leader := some l'
    commitIndex := c
    state := .replay (node.log.log.take c) } ht.sorted ht.nonzero
    { applied, messages := [] ++ sent }
  rw [hstart]
  dsimp only
  rw [completeRead, if_neg fun hr => hr.1 hplain]
  refine ⟨htrack, fun _ id hid => Or.inl ?_, fun hid => (by cases hid), fun {id} hm _ hcur => ?_,
    fun _ _ => Or.inl rfl⟩
  · rw [hkeys]
    exact hid
  · obtain ⟨hround, hsent⟩ := hprobes hcur hm
    exact ⟨hround, fun p hp => List.mem_append_right _ (hsent p hp)⟩

theorem onAppendReply_tracks (h : node.Invariant) (hs : node.stopped = false) (ht : node.Tracking)
    (hb : ∀ {leader}, node.leader = some leader → LeaderBounds node leader) (peerId : ℕ)
    (sentRequest : AppendEntries) (reply : AppendEntriesReply) :
    TrackFacts node (node.onAppendReply peerId sentRequest reply) := by
  rw [onAppendReply, if_neg (by simp [hs])]
  by_cases hpeer : node.isPeer peerId = false
  · rw [if_pos hpeer]
    exact .of_kept ht rfl rfl rfl fun _ => Or.inr rfl
  rw [if_neg hpeer]
  cases hl : node.leader with
  | none =>
    have hnil := h.reads hl
    dsimp only
    split_ifs
    · rcases node.metadata.advanceTerm reply.term with ⟨m, result⟩
      cases result with
      | persisted => exact .of_none hl hnil rfl rfl
      | staleTerm | unchanged | voteConflict | invalidTerm | ioError =>
        exact .of_none hl hnil rfl rfl
    · exact .of_kept ht rfl rfl rfl fun _ => Or.inr rfl
  | some leader =>
    have hend := leader.handleReply_rule node.election node.log node.commitIndex peerId sentRequest
      reply (A := fun _ => True) h.metadata trivial fun _ _ => trivial
    have hfollow : ∀ {l : RaftLeaderReplication} (outcome : AppendReplyOutcome),
        outcome ≠ .committed → TrackFacts node (match followUp { node with leader := some l } peerId
            outcome with
          | (node, none) => node.stop .inconsistentState
          | (node, some actions) => node.completeRead sentRequest reply actions) := by
      intro l outcome ho
      obtain ⟨l', hnode, hactions⟩ := followUp_kept ho
        (rfl : ({ node with leader := some l } : RaftNode).leader = _) peerId
      revert hnode hactions
      generalize followUp { node with leader := some l } peerId outcome = r
      rcases r with ⟨x, _ | actions⟩
      · rintro rfl -
        refine .of_stop ?_ _
        exact fun _ _ => rfl
      · rintro rfl hactions
        exact @completeRead_tracks node { node with leader := some l' } actions ht rfl rfl rfl rfl
          (hactions rfl) sentRequest reply
    dsimp only
    revert hend
    generalize leader.handleReply node.election node.metadata node.log node.commitIndex peerId
      sentRequest reply = r
    rintro (⟨-⟩ | ⟨m, hm, hn, hterm, -⟩ | ⟨m, hn, -⟩ | ⟨i, -, -, -, -, -⟩ |
      ⟨i, -, -, -, -, k, -, -⟩ | ⟨i, -, -, -, -, l, -⟩ | ⟨i, -, -, -, hp, l, hset, c, hc⟩)
    · exact hfollow .ignored (by simp)
    · exact .of_dropped rfl rfl rfl fun _ _ => rfl
    · refine .of_stop ?_ _
      exact fun _ _ => rfl
    · refine .of_stop ?_ _
      exact fun _ _ => rfl
    · exact hfollow .retry (by simp)
    · exact hfollow .recorded (by simp)
    · obtain ⟨k, e, rfl, hle, he, -⟩ := RaftLeaderReplication.advanceCommitIndex_eq_some hc
      have hk := (List.getElem?_eq_some_iff.1 he).1
      rw [PersistentLog.length_log] at hk
      obtain ⟨hprev, hlast⟩ := ((hb hl).peer i).pending hp
      have hmatch := ((hb hl).peer i).match_lt
      have hnext := ((hb hl).peer i).next_le
      have hbounds : LeaderBounds node l := by
        rw [hset]
        refine (hb hl).setPeer (by rfl) ⟨Nat.lt_succ_self _, ?_, fun hr => by cases hr⟩
          fun hr => by cases hr
        dsimp only [RaftLeaderReplication.accepted]
        omega
      refine onAppendReply_tracks_committed h ht hl ?_ hbounds (hle.trans (Nat.le_succ k)) hk peerId
        ((hb hl).plain i _ hp) reply
      rw [hset]
      exact ⟨rfl, rfl, rfl⟩

/-- **The reply to a probe** completes its read and no other. -/
theorem onAppendReply_probe (h : node.Invariant) (hs : node.stopped = false) (ht : node.Tracking)
    (hl : node.leader = some leader) (hb : LeaderBounds node leader) {id peerId : ℕ}
    {probe : AppendEntries} (hp : (id, some probe) ∈ node.readRounds)
    (hid : probe.readContext = id) (hcommit : probe.leaderCommit ≤ node.commitIndex)
    (hpeer : peerId ∈ node.peers) {reply : AppendEntriesReply} (hsuccess : reply.success = true)
    (hterm : reply.term = node.term) :
    readyReads (node.onAppendReply peerId probe reply).2 = [⟨id, probe.leaderCommit⟩] := by
  subst hid
  have hne : probe.readContext ≠ 0 := fun h0 =>
    ht.nonzero (OrderedMap.mem_keys_iff.2 ⟨_, h0 ▸ hp⟩)
  have hisPeer : node.isPeer peerId = true := by
    simpa [isPeer, peers] using hpeer
  obtain ⟨-, -, hlterm, -, -⟩ := h.leader_facts hl
  -- the replication object does not know the probe
  have hreply : leader.handleReply node.election node.metadata node.log node.commitIndex
    peerId probe
      reply = ⟨leader, node.metadata, node.commitIndex, .ignored⟩ := by
    rw [RaftLeaderReplication.handleReply]
    cases hi : leader.findPeer peerId with
    | none => rfl
    | some i =>
      have hpending : (leader.peers i).pending ≠ some probe := fun hpr => hne (hb.plain i _ hpr)
      dsimp only
      rw [if_pos (Or.inr hpending)]
      split_ifs with hact hlt
      · rfl
      · omega
      · rfl
  have hfind := ht.sorted.find_eq_some_iff.2 hp
  have happlied : ¬ node.lastApplied < probe.leaderCommit := by
    rw [h.lastApplied]
    exact not_lt.2 hcommit
  rw [onAppendReply, if_neg (by simp [hs]), if_neg (by simp [hisPeer]), hl]
  dsimp only
  rw [hreply]
  dsimp only [followUp]
  rw [completeRead, if_pos ⟨hne, hterm, hsuccess⟩]
  dsimp only
  rw [hfind]
  dsimp only
  rw [if_pos rfl, if_neg]
  · rfl
  · exact happlied

/-! ## Every call -/

theorem call_tracks (h : node.Invariant) (hs : node.stopped = false) (ht : node.Tracking)
    (hb : ∀ {leader}, node.leader = some leader → LeaderBounds node leader) {c : NodeCall}
    (hother : ∀ {peerId request}, c = .appendEntries peerId request → node.leader.isSome →
      node.isPeer peerId = true → request.leaderId = peerId → request.term ≠ node.term) :
    TrackFacts node (node.call c) := by
  cases c with
  | electionTimeout => exact onElectionTimeout_tracks h hs ht
  | heartbeatTimeout => exact onHeartbeatTimeout_tracks h hs ht hb
  | requestVote peerId request => exact onRequestVote_tracks h hs ht peerId request
  | voteReply peerId reply => exact onVoteReply_tracks h hs ht peerId reply
  | appendEntries peerId request => exact onAppendEntries_tracks h hs ht peerId request (hother rfl)
  | appendReply peerId sentRequest reply =>
    exact onAppendReply_tracks h hs ht hb peerId sentRequest reply
  | propose command => exact propose_tracks h hs ht command
  | readBarrier => exact readBarrier_tracks h hs ht

end RaftNode

end DistributedKV
