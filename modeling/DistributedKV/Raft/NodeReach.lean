import DistributedKV.Raft.NodeRun

/-!
# Reachable nodes

A node that was opened on an empty data directory and then got calls of any kind, with any
arguments and any failures of its writes, and was reopened from what its disk held at any time
between two calls; a process that dies in a call is one whose writes fail from there on. The disk
stays one that can be opened (`Reachable.disk`), so every reachable node that has not stopped keeps
its invariant.
-/

namespace DistributedKV

/-- What a disk holds at any time. -/
structure DiskInvariant (disk : Disk) : Prop where
  log : LogInvariant disk.log disk.metadata.currentTerm
  vote : disk.metadata.votedFor.isSome → disk.metadata.currentTerm ≠ 0

theorem DiskInvariant.empty : DiskInvariant {} := ⟨.nil _, by simp⟩

/-- The peers of a replication object are those of its node. -/
def OwnPeers (ids : Fin 2 → ℕ) (leader : RaftLeaderReplication) : Prop :=
  ∀ i, (leader.peers i).id = ids i

theorem OwnPeers.setPeer {ids : Fin 2 → ℕ} {leader : RaftLeaderReplication}
    (h : OwnPeers ids leader) (i : Fin 2) {peer : PeerState}
    (hp : peer.id = (leader.peers i).id) : OwnPeers ids (leader.setPeer i peer) := by
  intro j
  by_cases hj : j = i
  · subst hj
    rw [RaftLeaderReplication.setPeer_self, hp, h j]
  · rw [RaftLeaderReplication.setPeer_of_ne hj, h j]

namespace RaftNode

/-- The states of a node with any calls, failures and restarts. -/
inductive Reachable (selfId : ℕ) (peerIds : Fin 2 → ℕ) : RaftNode → Prop
  | opened {node : RaftNode} (h : openFrom selfId peerIds {} = some node) :
      Reachable selfId peerIds node
  | called {node : RaftNode} (h : Reachable selfId peerIds node) (faults : Faults) (c : NodeCall) :
      Reachable selfId peerIds ((node.withFaults faults).call c).1
  | reopened {node node' : RaftNode} (h : Reachable selfId peerIds node)
      (ho : openFrom selfId peerIds node.disk = some node') : Reachable selfId peerIds node'

variable {node node' : RaftNode}

/-- What a call leaves, besides the invariant. -/
structure Keeps (node' : RaftNode) : Prop where
  disk : node'.stopped = true → DiskInvariant node'.disk
  peers : ∀ {leader}, node'.leader = some leader → OwnPeers node'.peerIds leader

theorem keeps_stop (h : DiskInvariant node'.disk) (e : RaftNodeError) : Keeps (node'.stop e).1 where
  disk _ := h
  peers hl := by cases hl

theorem keeps_running (hs : node'.stopped = false)
    (hp : ∀ {leader}, node'.leader = some leader → OwnPeers node'.peerIds leader) :
    Keeps node' where
  disk h := by simp [hs] at h
  peers := hp

theorem keeps_none (hs : node'.stopped = false) (hl : node'.leader = none) : Keeps node' :=
  keeps_running hs fun h => by simp [hl] at h

/-- A disk whose record has moved on from that of a node, and whose log is still the node's. -/
theorem Invariant.diskInvariant (h : node.Invariant) {disk : Disk}
    (hm : node.metadata.state.Succeeds disk.metadata) (hl : disk.log = node.log.log) :
    DiskInvariant disk where
  log := by
    rw [hl]
    exact h.log.mono hm.term_le
  vote := hm.vote_term h.vote_term

theorem Invariant.disk (h : node.Invariant) : DiskInvariant node.disk :=
  h.diskInvariant (by rw [RaftNode.disk, h.metadata.durable]; exact .refl _) h.logSynced.durable

/-- Building a request keeps the ids of the peers. -/
theorem ownPeers_of_makeRequest {ids : Fin 2 → ℕ} {leader leader' : RaftLeaderReplication}
    {election : RaftElection} {metadata : PersistentMetadata} {log : PersistentLog}
    {c peerId k : ℕ} {request : AppendEntries} (h : OwnPeers ids leader)
    (hmake : leader.MakeRequestEnd election metadata log c peerId k (leader', .ok request)) :
    OwnPeers ids leader' ∧ True := by
  cases hmake with
  | pending => exact ⟨h, trivial⟩
  | fresh => exact ⟨h.setPeer _ rfl, trivial⟩

/-- The end of a handler that sends requests to the peers. -/
theorem keeps_queueAppends {leader : RaftLeaderReplication} (hs : node'.stopped = false)
    (hl : node'.leader = some leader) (hp : OwnPeers node'.peerIds leader)
    (hd : DiskInvariant node'.disk) (peerIds : List ℕ) (actions : RaftNodeActions)
    (f : RaftNode → RaftNodeActions → RaftNodeResult) :
    Keeps (match node'.queueAppends peerIds actions with
      | (node, none) => node.stop .inconsistentState
      | (node, some actions) => (node, f node actions)).1 := by
  have hend := queueAppends_rule hl hp (M := fun _ => True) (B := True) peerIds
    (fun h _ hmake => ownPeers_of_makeRequest h hmake) (fun _ _ _ => trivial) actions
  revert hend
  generalize node'.queueAppends peerIds actions = r
  rintro (⟨l, hP, -⟩ | ⟨l, hP, messages, -⟩)
  · exact keeps_stop hd _
  · exact keeps_running hs fun he => by
      obtain rfl := Option.some.inj he
      exact hP

/-- The end of a handler that applies what has become committed, on a node without leadership. -/
theorem keeps_applyReady (hs : node'.stopped = false) (hl : node'.leader = none)
    (hd : DiskInvariant node'.disk) (actions : RaftNodeActions)
    (f : RaftNodeActions → RaftNodeActions) :
    Keeps (match node'.applyReady actions with
      | (node, none) => node.stop .inconsistentState
      | (node, some actions) => (node, .ok (f actions))).1 := by
  rw [applyReady]
  rcases applyCommitted node'.log node'.state node'.commitIndex with ⟨state, e | applied⟩
  · refine keeps_stop ?_ _
    exact hd
  · exact keeps_none hs hl

/-! ## The handlers -/

theorem onElectionTimeout_keeps (h : node.Invariant) (hs : node.stopped = false)
    (hp : ∀ {leader}, node.leader = some leader → OwnPeers node.peerIds leader) :
    Keeps node.onElectionTimeout.1 := by
  have hend := RaftElection.startElection_rule node.log
    (A := fun m => node.metadata.state.Succeeds m) h.usable h.metadata (.refl _)
    (.enter (Nat.lt_succ_self _)) (RaftMetadata.Succeeds.castVote (.enter (Nat.lt_succ_self _))
      (Nat.succ_ne_zero _))
  rw [onElectionTimeout, if_neg (by simp [hs])]
  revert hend
  generalize node.election.startElection node.metadata node.log = r
  rintro (⟨-⟩ | ⟨e, -⟩ | ⟨m, -, hA, e, -⟩ | ⟨m, -, -, -, -⟩)
  · exact keeps_running hs hp
  · refine keeps_stop ?_ _
    exact h.disk
  · refine keeps_stop ?_ _
    exact h.diskInvariant hA h.logSynced.durable
  · exact keeps_none hs rfl

theorem onHeartbeatTimeout_keeps (h : node.Invariant) (hs : node.stopped = false)
    (hp : ∀ {leader}, node.leader = some leader → OwnPeers node.peerIds leader) :
    Keeps node.onHeartbeatTimeout.1 := by
  rw [onHeartbeatTimeout, if_neg (by simp [hs])]
  cases hl : node.leader with
  | none => exact keeps_none hs hl
  | some leader =>
    simp only [h.active hl, Bool.true_eq_false, if_false]
    exact keeps_queueAppends hs hl (hp hl) h.disk _ _ _

theorem onRequestVote_keeps (h : node.Invariant) (hs : node.stopped = false)
    (hp : ∀ {leader}, node.leader = some leader → OwnPeers node.peerIds leader) (peerId : ℕ)
    (request : RequestVote) : Keeps (node.onRequestVote peerId request).1 := by
  rw [onRequestVote, if_neg (by simp [hs])]
  split_ifs
  · exact keeps_running hs hp
  · exact keeps_running hs hp
  have hend := handleRequestVote_rule node.log request
    (A := fun m => node.metadata.state.Succeeds m) h.metadata (.refl _) (fun ht => .enter ht)
    (fun h0 _ hA => hA.castVote h0)
  dsimp only
  revert hend
  generalize handleRequestVote node.metadata node.log request = r
  have hdone : ∀ {m : PersistentMetadata}, Keeps (if node.term < m.state.currentTerm then
      { node with metadata := m }.dropLeadership else { node with metadata := m }) := by
    intro m
    split_ifs
    · exact keeps_none hs rfl
    · exact keeps_running hs hp
  rintro (⟨m, -, -⟩ | ⟨m, -, -, -⟩ | ⟨m, -, hA⟩)
  · exact hdone
  · exact hdone
  · refine keeps_stop ?_ _
    exact h.diskInvariant hA h.logSynced.durable

/-- A log that a leader has appended an entry to, as far as the disk goes. -/
theorem diskInvariant_of_append (h : node.Invariant) {log : PersistentLog} {e : LogEntry}
    (hi : e.index = node.log.lastIndex + 1) (he : e.Encodable) (ht : e.term = node.term)
    (hd : log.durable = node.log.log ∨ log.durable = node.log.log ++ [e]) :
    DiskInvariant ⟨node.metadata.durable, log.durable⟩ := by
  rw [h.metadata.durable]
  refine ⟨?_, h.vote_term⟩
  rcases hd with hd | hd
  · rw [hd]
    exact h.log
  · rw [hd]
    refine h.log.concat ?_ he (fun e' he' => ht ▸ h.log.term_le e' he') ht.le
    rw [hi, PersistentLog.length_log]

theorem onVoteReply_keeps (h : node.Invariant) (hs : node.stopped = false)
    (hp : ∀ {leader}, node.leader = some leader → OwnPeers node.peerIds leader) (peerId : ℕ)
    (reply : RequestVoteReply) : Keeps (node.onVoteReply peerId reply).1 := by
  rw [onVoteReply, if_neg (by simp [hs])]
  split_ifs
  · exact keeps_running hs hp
  have hend := RaftElection.handleVoteReply_rule peerId reply
    (A := fun m => node.metadata.state.Succeeds m) h.usable h.metadata (.refl _) h.votes
    (fun ht => .enter ht)
  revert hend
  generalize node.election.handleVoteReply node.metadata peerId reply = r
  rintro (⟨-⟩ | ⟨m, -, -⟩ | ⟨e, -, m, -, hA⟩ | ⟨replied, -⟩ | ⟨replied, votes, -, -, -, -⟩)
  · exact keeps_running hs hp
  · exact keeps_none hs rfl
  · refine keeps_stop ?_ _
    exact h.diskInvariant hA h.logSynced.durable
  · exact keeps_running hs hp
  · have hpeers : ({ node.election with replied, grantedVotes := votes, cachedRole := .leader } :
        RaftElection).peerIds = node.peerIds := h.peerIds
    revert hpeers
    generalize ({ node.election with replied, grantedVotes := votes, cachedRole := .leader } :
      RaftElection) = election
    intro hpeers
    dsimp only
    split
    · refine keeps_stop ?_ _
      exact h.disk
    · next leader hcreate =>
      have hl := RaftLeaderReplication.create_eq_some hcreate
      have hown : OwnPeers node.peerIds leader := by
        intro i
        rw [hl, ← hpeers]
      have hterm : leader.term = node.term := by
        rw [hl]
        rfl
      have happ := leader.appendCommand_rule election node.metadata h.logSynced {}
      revert happ
      generalize leader.appendCommand election node.metadata node.log {} = r
      rintro (⟨e, -, -⟩ | ⟨log', -, he, hf⟩ | ⟨log', hs', -, he, hlog⟩)
      · refine keeps_stop ?_ _
        exact h.disk
      · refine keeps_stop ?_ _
        exact diskInvariant_of_append h rfl he hterm hf.durable
      · dsimp only
        refine @keeps_queueAppends _ leader ?_ ?_ ?_ ?_ _ _ (fun _ actions => .ok actions)
        · exact hs
        · rfl
        · exact hown
        · exact diskInvariant_of_append h rfl he hterm (Or.inr (hs'.durable.trans hlog))

theorem onAppendEntries_keeps (h : node.Invariant) (hs : node.stopped = false)
    (hp : ∀ {leader}, node.leader = some leader → OwnPeers node.peerIds leader) (peerId : ℕ)
    (request : AppendEntries) : Keeps (node.onAppendEntries peerId request).1 := by
  rw [onAppendEntries, if_neg (by simp [hs])]
  split_ifs
  · exact keeps_running hs hp
  · exact keeps_running hs hp
  have hend := handleAppendEntries_rule node.log node.commitIndex request
    (A := fun m => node.metadata.state.Succeeds m) h.metadata (.refl _) (fun ht => .enter ht)
  -- the disk after a loop in the request's term
  have hloopDisk : ∀ {m : PersistentMetadata} {log : PersistentLog} {k : ℕ} {es : List LogEntry},
      m.Synced → node.metadata.state.Succeeds m.state → m.state.currentTerm = request.term →
      Splice node.log.log node.commitIndex request.term
        (request.prevLogIndex + request.entries.length) k es log.durable →
      DiskInvariant ⟨m.durable, log.durable⟩ := by
    intro m log k es hm hA ht hsplice
    rw [hm.durable]
    exact ⟨ht ▸ hsplice.wellFormed, hA.vote_term h.vote_term⟩
  dsimp only
  revert hend
  generalize handleAppendEntries node.metadata node.log node.commitIndex request = r
  -- what is left of the node without a stop, with and without its leadership
  have hnone : ∀ {x : RaftNode}, x.stopped = node.stopped → x.leader = none → Keeps x :=
    fun hx hl => keeps_none (hx.trans hs) hl
  have hsame : ∀ {x : RaftNode}, x.stopped = node.stopped → x.leader = node.leader →
      x.peerIds = node.peerIds → Keeps x := by
    intro x hx hl hids
    refine keeps_running (hx.trans hs) fun he => ?_
    rw [hids]
    exact hp (hl ▸ he)
  rintro (⟨m, -, hA⟩ | ⟨hstale⟩ | ⟨m, -, -, -, -⟩ | ⟨m, -, -, -, h0, -⟩ |
    ⟨m, hm, hA, ht, h0, hv, hprev, log, e, hloop⟩ | ⟨m, hm, hA, ht, h0, hv, hprev, log, hloop⟩)
  · dsimp only
    split_ifs
    all_goals
      refine keeps_stop ?_ _
      exact h.diskInvariant hA h.logSynced.durable
  · have hf : ¬ (request.term ≠ 0 ∧ request.term = node.metadata.state.currentTerm) := by omega
    simp only [hf, decide_false, Bool.false_eq_true, if_false]
    rw [if_neg (lt_irrefl _)]
    exact hsame rfl rfl rfl
  · dsimp only
    split_ifs
    · exact hnone rfl rfl
    · exact hsame rfl rfl rfl
  · simp only [ne_eq, h0, not_false_eq_true, true_and, decide_true, if_true, Bool.false_eq_true,
      if_false]
    split_ifs
    · exact hnone rfl rfl
    · exact hnone rfl rfl
  all_goals
    have hsplice := appendLoop_splice h (ht ▸ hA.term_le) hv hprev
    rw [hloop] at hsplice
  · cases e with
    | invalidRequest =>
      dsimp only
      split_ifs
      · exact hnone rfl rfl
      · exact hsame rfl rfl rfl
    | committedConflict =>
      cases hsplice with
      | committedConflict _ _ _ _ _ hs' hk =>
        dsimp only
        split_ifs
        all_goals
          refine keeps_stop ?_ _
          exact hloopDisk hm hA ht (hs'.durable ▸ hk)
    | persistenceError =>
      cases hsplice with
      | persistenceError _ _ hd =>
        obtain ⟨k, es, hk⟩ := hd
        dsimp only
        split_ifs
        all_goals
          refine keeps_stop ?_ _
          exact hloopDisk hm hA ht hk
  · cases hsplice with
    | ok _ k hs' hk =>
      have hdisk := hloopDisk hm hA ht (hs'.durable ▸ hk)
      simp only [ne_eq, h0, not_false_eq_true, true_and, decide_true, if_true]
      split_ifs
      all_goals
        refine keeps_applyReady ?_ ?_ ?_ _ _
        · exact hs
        · rfl
        · exact hdisk

/-! ## Replies to requests -/

/-- A leader on the disk of `node` that has not stopped and has its own peers. -/
structure LeadsOn (disk : Disk) (node' : RaftNode) : Prop where
  stopped : node'.stopped = false
  disk : node'.disk = disk
  leader : ∃ leader, node'.leader = some leader ∧ OwnPeers node'.peerIds leader

theorem LeadsOn.keeps {disk : Disk} (h : LeadsOn disk node') : Keeps node' := by
  obtain ⟨leader, hl, hown⟩ := h.leader
  refine keeps_running h.stopped fun he => ?_
  rw [hl] at he
  obtain rfl := Option.some.inj he
  exact hown

theorem LeadsOn.queueAppends {disk : Disk} (h : LeadsOn disk node') (peerIds : List ℕ)
    (actions : RaftNodeActions) : LeadsOn disk (node'.queueAppends peerIds actions).1 := by
  obtain ⟨leader, hl, hown⟩ := h.leader
  have hend := queueAppends_rule hl hown (M := fun _ => True) (B := True) peerIds
    (fun h _ hmake => ownPeers_of_makeRequest h hmake) (fun _ _ _ => trivial) actions
  revert hend
  generalize node'.queueAppends peerIds actions = r
  rintro (⟨l, hP, -⟩ | ⟨l, hP, messages, -⟩)
  · exact ⟨h.stopped, h.disk, l, rfl, hP⟩
  · exact ⟨h.stopped, h.disk, l, rfl, hP⟩

theorem LeadsOn.queueAppend {disk : Disk} (h : LeadsOn disk node') (peerId : ℕ)
    (actions : RaftNodeActions) : LeadsOn disk (node'.queueAppend peerId actions).1 := by
  rw [← queueAppends_singleton]
  exact h.queueAppends _ _

theorem LeadsOn.followUp {disk : Disk} (h : LeadsOn disk node') (peerId : ℕ)
    (outcome : AppendReplyOutcome) : LeadsOn disk (node'.followUp peerId outcome).1 := by
  cases outcome with
  | retry => exact h.queueAppend _ _
  | recorded =>
    rw [RaftNode.followUp]
    split
    · exact h
    · split_ifs
      · exact h.queueAppend _ _
      · exact h
  | ignored | steppedDown | inconsistentFollower | persistenceError => exact h
  | committed =>
    rw [RaftNode.followUp, applyReady]
    rcases applyCommitted node'.log node'.state node'.commitIndex with ⟨state, e | applied⟩
    · exact ⟨h.stopped, h.disk, h.leader⟩
    · have happ : LeadsOn disk { node' with state } := ⟨h.stopped, h.disk, h.leader⟩
      have hq := happ.queueAppends node'.peers { applied }
      dsimp only [peers] at hq ⊢
      revert hq
      generalize RaftNode.queueAppends { node' with state } [node'.peerIds 0, node'.peerIds 1]
        { applied } = r
      obtain ⟨node'', actions⟩ := r
      intro hq
      cases actions with
      | none => exact hq
      | some actions =>
        obtain ⟨rounds, hr⟩ := startWaitingReads_fst node'' actions
        dsimp only
        rw [hr]
        exact ⟨hq.stopped, hq.disk, hq.leader⟩

theorem LeadsOn.completeRead {disk : Disk} (hd : DiskInvariant disk) (h : LeadsOn disk node')
    (sentRequest : AppendEntries) (reply : AppendEntriesReply) (actions : RaftNodeActions) :
    Keeps (node'.completeRead sentRequest reply actions).1 := by
  rw [RaftNode.completeRead]
  split_ifs
  · split
    · dsimp only
      split_ifs
      · exact keeps_stop (h.disk ▸ hd) _
      · exact keeps_running h.stopped h.keeps.peers
      · exact h.keeps
    · exact h.keeps
  · exact h.keeps

theorem onAppendReply_keeps (h : node.Invariant) (hs : node.stopped = false)
    (hp : ∀ {leader}, node.leader = some leader → OwnPeers node.peerIds leader) (peerId : ℕ)
    (sentRequest : AppendEntries) (reply : AppendEntriesReply) :
    Keeps (node.onAppendReply peerId sentRequest reply).1 := by
  rw [onAppendReply, if_neg (by simp [hs])]
  by_cases hpeer : node.isPeer peerId = false
  · rw [if_pos hpeer]
    exact keeps_running hs hp
  rw [if_neg hpeer]
  cases hl : node.leader with
  | none =>
    dsimp only
    split_ifs with ht
    · rcases PersistentMetadata.advanceTerm_cases h.metadata reply.term with
        ⟨hlt, -⟩ | ⟨heq, -⟩ | ⟨-, hup⟩
      · exact absurd ht (not_lt.2 hlt.le)
      · exact absurd ht (not_lt.2 heq.le)
      · revert hup
        generalize node.metadata.advanceTerm reply.term = r
        rintro (⟨m, -, -⟩ | ⟨m, -, hd⟩)
        · exact keeps_none hs rfl
        · refine keeps_stop ?_ _
          refine h.diskInvariant ?_ h.logSynced.durable
          change node.metadata.state.Succeeds m.durable
          rcases hd with hd | hd
          · rw [hd]
            exact .refl _
          · rw [hd]
            exact .enter ht
    · exact keeps_none hs hl
  | some leader =>
    obtain ⟨-, -, hterm, -, -⟩ := h.leader_facts hl
    have hend := leader.handleReply_rule node.election node.log node.commitIndex peerId sentRequest
      reply (A := fun m => node.metadata.state.Succeeds m) h.metadata (.refl _)
      fun _ ht => .enter (hterm.symm.trans_lt ht)
    have hfollow : ∀ {l : RaftLeaderReplication} {c : ℕ} (outcome : AppendReplyOutcome),
        OwnPeers node.peerIds l → Keeps
          (match RaftNode.followUp { node with leader := some l, commitIndex := c }
              peerId outcome with
            | (node, none) => node.stop .inconsistentState
            | (node, some actions) => node.completeRead sentRequest reply actions).1 := by
      intro l c outcome hown
      have hleads : LeadsOn node.disk { node with leader := some l, commitIndex := c } :=
        ⟨hs, rfl, l, rfl, hown⟩
      have hf := hleads.followUp peerId outcome
      revert hf
      generalize RaftNode.followUp { node with leader := some l, commitIndex := c }
        peerId outcome = r
      rcases r with ⟨node', _ | actions⟩
      · intro hf
        exact keeps_stop (hf.disk ▸ h.disk) _
      · intro hf
        exact hf.completeRead h.disk _ _ _
    have hown := hp hl
    dsimp only
    revert hend
    generalize leader.handleReply node.election node.metadata node.log node.commitIndex peerId
      sentRequest reply = r
    rintro (⟨-⟩ | ⟨m, -, -, -, -⟩ | ⟨m, -, hA⟩ | ⟨i, -, -, -, -, -⟩ | ⟨i, -, -, -, -, k, -, -⟩ |
      ⟨i, -, -, -, -, l, rfl⟩ | ⟨i, -, -, -, -, l, rfl, c, -⟩)
    · exact hfollow .ignored hown
    · exact keeps_none hs rfl
    · refine keeps_stop ?_ _
      exact h.diskInvariant hA h.logSynced.durable
    · refine keeps_stop ?_ _
      exact h.disk
    · exact hfollow .retry (hown.setPeer i rfl)
    · exact hfollow .recorded (hown.setPeer i rfl)
    · exact hfollow .committed (hown.setPeer i rfl)

/-! ## Proposals and reads -/

theorem appendAsLeader_keeps (h : node.Invariant) (hs : node.stopped = false)
    (hp : ∀ {leader}, node.leader = some leader → OwnPeers node.peerIds leader)
    (command : Command) : Keeps (node.appendAsLeader command).1 := by
  rw [appendAsLeader, if_neg (by simp [hs])]
  cases hl : node.leader with
  | none => exact keeps_none hs hl
  | some leader =>
    obtain ⟨-, -, hterm, -, -⟩ := h.leader_facts hl
    dsimp only
    rw [if_neg (by simp [h.active hl])]
    have happ := leader.appendCommand_rule node.election node.metadata h.logSynced command
    revert happ
    generalize leader.appendCommand node.election node.metadata node.log command = r
    rintro (⟨e, -, -⟩ | ⟨log', -, he, hf⟩ | ⟨log', hs', -, he, hlog⟩)
    · cases e with
      | invalidCommand => exact keeps_running hs fun he => hp (hl ▸ he)
      | notLeader | unknownPeer | invalidBatchSize | indexExhausted | persistenceError
        | inconsistentState =>
        refine keeps_stop ?_ _
        exact h.disk
    · refine keeps_stop ?_ _
      exact diskInvariant_of_append h rfl he hterm hf.durable
    · dsimp only
      refine @keeps_queueAppends _ leader ?_ ?_ ?_ ?_ _ _ (fun _ actions => .ok actions)
      · exact hs
      · rfl
      · exact hp hl
      · exact diskInvariant_of_append h rfl he hterm (Or.inr (hs'.durable.trans hlog))

theorem propose_keeps (h : node.Invariant) (hs : node.stopped = false)
    (hp : ∀ {leader}, node.leader = some leader → OwnPeers node.peerIds leader)
    (command : Command) : Keeps (node.propose command).1 := by
  rw [propose, if_neg (by simp [hs])]
  cases hl : node.leader with
  | none => exact keeps_none hs hl
  | some leader =>
    dsimp only
    rw [if_neg (by simp [h.active hl])]
    split_ifs
    · exact keeps_running hs hp
    · exact appendAsLeader_keeps h hs hp command

theorem readBarrier_keeps (h : node.Invariant) (hs : node.stopped = false)
    (hp : ∀ {leader}, node.leader = some leader → OwnPeers node.peerIds leader) :
    Keeps node.readBarrier.1 := by
  rw [readBarrier, if_neg (by simp [hs])]
  cases hl : node.leader with
  | none => exact keeps_none hs hl
  | some leader =>
    dsimp only
    rw [if_neg (by simp [h.active hl])]
    split_ifs
    · refine keeps_stop ?_ _
      exact h.disk
    · obtain ⟨rounds, hr⟩ := startWaitingReads_fst { node with
        nextReadId := (node.nextReadId + 1) % 2 ^ 64
        readRounds := OrderedMap.emplace node.nextReadId none node.readRounds }
        { startedReadId := some node.nextReadId }
      rw [← hl]
      rw [hr]
      exact keeps_running hs hp

theorem call_keeps (h : node.Invariant) (hs : node.stopped = false)
    (hp : ∀ {leader}, node.leader = some leader → OwnPeers node.peerIds leader) (c : NodeCall) :
    Keeps (node.call c).1 := by
  cases c with
  | electionTimeout => exact onElectionTimeout_keeps h hs hp
  | heartbeatTimeout => exact onHeartbeatTimeout_keeps h hs hp
  | requestVote peerId request => exact onRequestVote_keeps h hs hp peerId request
  | voteReply peerId reply => exact onVoteReply_keeps h hs hp peerId reply
  | appendEntries peerId request => exact onAppendEntries_keeps h hs hp peerId request
  | appendReply peerId sentRequest reply =>
    exact onAppendReply_keeps h hs hp peerId sentRequest reply
  | propose command => exact propose_keeps h hs hp command
  | readBarrier => exact readBarrier_keeps h hs hp

/-! ## Reachable nodes -/

/-- **What holds of every reachable node**: its disk can be opened, and unless it has stopped it
keeps its invariant and its replication object serves its own peers. -/
structure Reached (node : RaftNode) : Prop where
  disk : DiskInvariant node.disk
  invariant : node.stopped = false → node.Invariant
  peers : ∀ {leader}, node.leader = some leader → OwnPeers node.peerIds leader

theorem Reached.withFaults (h : Reached node) (faults : Faults) :
    Reached (node.withFaults faults) where
  disk := h.disk
  invariant hs := (h.invariant hs).withFaults faults
  peers := h.peers

theorem Reached.of_openFrom {selfId : ℕ} {peerIds : Fin 2 → ℕ} {disk : Disk}
    (hd : DiskInvariant disk) (ho : openFrom selfId peerIds disk = some node) : Reached node := by
  obtain ⟨hinv, -⟩ := openFrom_invariant ho hd.log hd.vote
  refine ⟨hinv.disk, fun _ => hinv, fun hl => ?_⟩
  obtain rfl := openFrom_eq ho
  cases hl

theorem Reached.call (h : Reached node) (c : NodeCall) : Reached (node.call c).1 := by
  cases hs : node.stopped with
  | true =>
    rw [call_of_stopped hs]
    exact h
  | false =>
    have hinv := h.invariant hs
    have hkeeps := call_keeps hinv hs h.peers c
    refine ⟨?_, fun hs' => (call_continues hinv hs c hs').1, hkeeps.peers⟩
    cases hs' : (node.call c).1.stopped with
    | true => exact hkeeps.disk hs'
    | false => exact (call_continues hinv hs c hs').1.disk

theorem Reachable.reached {selfId : ℕ} {peerIds : Fin 2 → ℕ} (h : Reachable selfId peerIds node) :
    Reached node := by
  induction h with
  | opened ho => exact .of_openFrom .empty ho
  | called _ faults c ih => exact (ih.withFaults faults).call c
  | reopened _ ho ih => exact .of_openFrom ih.disk ho

end RaftNode

end DistributedKV
