import DistributedKV.Raft.NodeCall

/-!
# Calls in any order

Every handler, called with any arguments on a node that keeps its invariant, stops the node or
restores the invariant and advances (`Continues`). By induction this holds along every list of
calls on a node opened on an empty data directory.
-/

namespace DistributedKV

/-- What may become of a durable record: the term does not fall, a vote stays within its term,
and there is no vote in term zero. -/
structure RaftMetadata.Succeeds (old new : RaftMetadata) : Prop where
  term_le : old.currentTerm ≤ new.currentTerm
  vote : new.currentTerm = old.currentTerm → ∀ {c}, old.votedFor = some c → new.votedFor = some c
  vote_term : (old.votedFor.isSome → old.currentTerm ≠ 0) → new.votedFor.isSome →
    new.currentTerm ≠ 0

namespace RaftMetadata.Succeeds

theorem refl (m : RaftMetadata) : m.Succeeds m := ⟨le_rfl, fun _ _ h => h, fun h => h⟩

theorem enter {m : RaftMetadata} {t : ℕ} (h : m.currentTerm < t) : m.Succeeds ⟨t, none⟩ :=
  ⟨h.le, fun h' => absurd h' h.ne', by simp⟩

/-- A vote in the term of a record that has none. -/
theorem castVote {m : RaftMetadata} {t c : ℕ} (h : m.Succeeds ⟨t, none⟩) (ht : t ≠ 0) :
    m.Succeeds ⟨t, some c⟩ :=
  ⟨h.term_le, fun he _ hv => absurd (h.vote he hv) (by simp), fun _ _ => ht⟩

end RaftMetadata.Succeeds

namespace RaftNode

/-- The call that led from `node` to `node'` stopped the node, or restored the invariant. -/
def Continues (node node' : RaftNode) : Prop :=
  node'.stopped = false → node'.Invariant ∧ Advances node node'

variable {node : RaftNode}

theorem continues_stop (node node' : RaftNode) (e : RaftNodeError) :
    Continues node (node'.stop e).1 := fun h => by simp [stop] at h

theorem continues_self (h : node.Invariant) : Continues node node :=
  fun _ => ⟨h, Advances.refl node⟩

theorem Invariant.withFaults (h : node.Invariant) (faults : Faults) :
    (node.withFaults faults).Invariant where
  toStoreInvariant := ⟨⟨h.metadata.ioFailed, h.metadata.durable⟩,
    ⟨h.logSynced.ioFailed, h.logSynced.durable⟩, h.log, h.commit_le, h.applied, h.vote_term⟩
  toElectionInvariant := ⟨h.selfId, h.peerIds, h.peerIds_ne, h.selfId_ne, h.usable, h.votes⟩
  toLeadershipInvariant := ⟨h.active, h.exists_leader, h.knownLeader, h.reads⟩

/-! ## Changes of one part of a node -/

theorem role_ne_leader_of_vote (h : node.metadata.state.votedFor ≠ some node.election.selfId) :
    node.role ≠ .leader := fun hr => h (role_eq_leader_iff.1 hr).2.2

theorem StoreInvariant.setMetadata (h : node.StoreInvariant) {m : PersistentMetadata}
    (hs : m.Synced) (hm : node.metadata.state.Succeeds m.state) :
    StoreInvariant { node with metadata := m } where
  metadata := hs
  logSynced := h.logSynced
  log := h.log.mono hm.term_le
  commit_le := h.commit_le
  applied := h.applied
  vote_term := hm.vote_term h.vote_term

/-- An entry of the current term at the end of the log. -/
theorem StoreInvariant.appendEntry (h : node.StoreInvariant) {log : PersistentLog} {e : LogEntry}
    (hs : log.Synced) (hlog : log.log = node.log.log ++ [e]) (hi : e.index = node.lastIndex + 1)
    (he : e.Encodable) (ht : e.term = node.term) : StoreInvariant { node with log } where
  metadata := h.metadata
  logSynced := hs
  log := by
    dsimp only
    rw [hlog]
    refine h.log.concat ?_ he (fun e' he' => ht ▸ h.log.term_le e' he') ht.le
    rw [hi, PersistentLog.length_log]
    rfl
  commit_le := by
    rw [lastIndex, ← PersistentLog.length_log, hlog, List.length_append, PersistentLog.length_log]
    exact h.commit_le.trans (Nat.le_add_right _ _)
  applied := by
    dsimp only
    rw [hlog, List.take_append_of_le_length (by rw [PersistentLog.length_log]; exact h.commit_le)]
    exact h.applied
  vote_term := h.vote_term

theorem StoreInvariant.take_append (h : node.StoreInvariant) {log : PersistentLog}
    {e : LogEntry} (hlog : log.log = node.log.log ++ [e]) :
    log.log.take node.commitIndex = node.log.log.take node.commitIndex := by
  rw [hlog, List.take_append_of_le_length (by rw [PersistentLog.length_log]; exact h.commit_le)]

theorem Advances.of_succeeds {node' : RaftNode}
    (hm : node.metadata.state.Succeeds node'.metadata.state)
    (hc : node.commitIndex ≤ node'.commitIndex)
    (hl : node'.log.log.take node.commitIndex = node.log.log.take node.commitIndex) :
    Advances node node' := ⟨hm.term_le, hc, hl, hm.vote⟩

/-- The election object of a node that has been reset. -/
theorem ElectionInvariant.becomeFollower (h : node.ElectionInvariant) :
    ElectionInvariant { node with election := node.election.becomeFollower } where
  selfId := h.selfId
  peerIds := h.peerIds
  peerIds_ne := h.peerIds_ne
  selfId_ne := h.selfId_ne
  usable := h.usable
  votes hc := by cases hc

/-- Replacing the replication object by one that differs in its peers only. -/
theorem Invariant.setLeader (h : node.Invariant) {leader leader' : RaftLeaderReplication}
    (hl : node.leader = some leader) (hs : leader'.selfId = leader.selfId)
    (ht : leader'.term = leader.term) (hst : leader'.stopped = leader.stopped) :
    Invariant { node with leader := some leader' } where
  toStoreInvariant := ⟨h.metadata, h.logSynced, h.log, h.commit_le, h.applied, h.vote_term⟩
  toElectionInvariant := ⟨h.selfId, h.peerIds, h.peerIds_ne, h.selfId_ne, h.usable, h.votes⟩
  active {l} he := by
    obtain rfl := Option.some.inj he
    rw [leaderActive_iff, hs, ht, hst]
    exact leaderActive_iff.1 (h.active hl)
  exists_leader _ := rfl
  knownLeader _ := h.knownLeader hl
  reads h := by cases h

/-- Changing the waiting reads of a leader. -/
theorem Invariant.setReadRounds (h : node.Invariant) {leader : RaftLeaderReplication}
    (hl : node.leader = some leader) (rounds : List (ℕ × Option AppendEntries)) (next : ℕ) :
    Invariant { node with readRounds := rounds, nextReadId := next } where
  toStoreInvariant := ⟨h.metadata, h.logSynced, h.log, h.commit_le, h.applied, h.vote_term⟩
  toElectionInvariant := ⟨h.selfId, h.peerIds, h.peerIds_ne, h.selfId_ne, h.usable, h.votes⟩
  active := h.active
  exists_leader := h.exists_leader
  knownLeader := h.knownLeader
  reads h := by simp [hl] at h

/-- A new record, of a later term or with a vote for another node; in a later term the leadership
is given up. -/
theorem Invariant.setMetadata (h : node.Invariant) {m : PersistentMetadata} (hs : m.Synced)
    (hm : m.state = node.metadata.state ∨
      m.state.votedFor ≠ some node.selfId ∧ node.metadata.state.Succeeds m.state) :
    Invariant (if node.term < m.state.currentTerm then { node with metadata := m }.dropLeadership
      else { node with metadata := m }) := by
  have hsucc : node.metadata.state.Succeeds m.state := by
    rcases hm with hm | hm
    · exact hm ▸ .refl _
    · exact hm.2
  have hstore := h.toStoreInvariant.setMetadata hs hsucc
  have helection : ElectionInvariant { node with metadata := m } :=
    ⟨h.selfId, h.peerIds, h.peerIds_ne, h.selfId_ne, h.usable, h.votes⟩
  have hrole : m.state.votedFor ≠ some node.selfId → role { node with metadata := m } ≠ .leader :=
    fun hv => role_ne_leader_of_vote (by rwa [← h.selfId] at hv)
  split_ifs with hlt
  · have hv : m.state.votedFor ≠ some node.selfId := by
      rcases hm with hm | hm
      · rw [hm] at hlt
        exact absurd hlt (lt_irrefl _)
      · exact hm.1
    exact ⟨⟨hstore.metadata, hstore.logSynced, hstore.log, hstore.commit_le, hstore.applied,
      hstore.vote_term⟩, ⟨h.selfId, h.peerIds, h.peerIds_ne, h.selfId_ne, h.usable, h.votes⟩,
      leadershipInvariant_of_none rfl rfl (hrole hv)⟩
  · rcases hm with hm | ⟨hv, -⟩
    · have hr : role { node with metadata := m } = node.role := by
        simp [role, RaftElection.role, RaftElection.stale, hm]
      refine ⟨hstore, helection, ⟨fun {l} hl => ?_, fun he => h.exists_leader (hr ▸ he),
        h.knownLeader, h.reads⟩⟩
      have := leaderActive_iff.1 (h.active hl)
      rw [leaderActive_iff, hr]
      simpa [term, hm] using this
    · have hnone : node.leader = none := by
        refine h.leader_none (role_ne_leader_of_vote fun hv' => hv ?_)
        rw [h.selfId] at hv'
        exact hsucc.vote (le_antisymm (not_lt.1 hlt) hsucc.term_le) hv'
      exact ⟨hstore, helection, leadershipInvariant_of_none hnone (h.reads hnone) (hrole hv)⟩

/-! ## Timeouts -/

theorem onElectionTimeout_continues (h : node.Invariant) (hs : node.stopped = false) :
    Continues node node.onElectionTimeout.1 := by
  have hend := RaftElection.startElection_rule node.log
    (A := fun m => node.metadata.state.Succeeds m) h.usable h.metadata (.refl _)
    (.enter (Nat.lt_succ_self _)) (RaftMetadata.Succeeds.castVote (.enter (Nat.lt_succ_self _))
      (Nat.succ_ne_zero _))
  rw [onElectionTimeout, if_neg (by simp [hs])]
  revert hend
  generalize node.election.startElection node.metadata node.log = r
  rintro (⟨-⟩ | ⟨e, -⟩ | ⟨m, -, -, e, -⟩ | ⟨m, hm, hr, hn, hA⟩)
  · exact continues_self h
  · exact continues_stop _ _ _
  · exact continues_stop _ _ _
  · refine fun _ => ⟨⟨?_, ⟨h.selfId, h.peerIds, h.peerIds_ne, h.selfId_ne, h.usable, fun _ => rfl⟩,
      leadershipInvariant_of_none rfl rfl ?_⟩, .of_succeeds hA le_rfl rfl⟩
    · have := h.toStoreInvariant.setMetadata hm hA
      exact ⟨this.metadata, this.logSynced, this.log, this.commit_le, this.applied,
        this.vote_term⟩
    · rw [Ne, role_eq_leader_iff]
      rintro ⟨hc, -⟩
      cases hc

/-- The same leadership: all but the peers' progress. -/
def SameLeadership (leader leader' : RaftLeaderReplication) : Prop :=
  leader'.selfId = leader.selfId ∧ leader'.term = leader.term ∧ leader'.stopped = leader.stopped

theorem sameLeadership_of_makeRequest {leader l l' : RaftLeaderReplication}
    {election : RaftElection} {metadata : PersistentMetadata} {log : PersistentLog}
    {c peerId k : ℕ} {request : AppendEntries} (h : SameLeadership leader l)
    (hmake : l.MakeRequestEnd election metadata log c peerId k (l', .ok request)) :
    SameLeadership leader l' ∧ True := by
  cases hmake <;> exact ⟨h, trivial⟩

theorem QueueEnd.invariant (h : node.Invariant) {leader : RaftLeaderReplication}
    (hl : node.leader = some leader) {actions : RaftNodeActions}
    {r : RaftNode × Option RaftNodeActions}
    (hr : node.QueueEnd (SameLeadership leader) (fun _ => True) True actions r) :
    ∃ leader', r.1 = { node with leader := some leader' } ∧
      Invariant { node with leader := some leader' } := by
  cases hr with
  | failed leader' hP => exact ⟨leader', rfl, h.setLeader hl hP.1 hP.2.1 hP.2.2⟩
  | queued leader' hP => exact ⟨leader', rfl, h.setLeader hl hP.1 hP.2.1 hP.2.2⟩

theorem queueAppend_invariant (h : node.Invariant) {leader : RaftLeaderReplication}
    (hl : node.leader = some leader) (peerId : ℕ) (actions : RaftNodeActions) :
    ∃ leader', (node.queueAppend peerId actions).1 = { node with leader := some leader' } ∧
      Invariant { node with leader := some leader' } :=
  (queueAppend_rule hl ⟨rfl, rfl, rfl⟩ (fun h => sameLeadership_of_makeRequest ⟨rfl, rfl, rfl⟩ h)
    (fun _ => trivial) actions).invariant h hl

theorem queueAppends_invariant (h : node.Invariant) {leader : RaftLeaderReplication}
    (hl : node.leader = some leader) (peerIds : List ℕ) (actions : RaftNodeActions) :
    ∃ leader', (node.queueAppends peerIds actions).1 = { node with leader := some leader' } ∧
      Invariant { node with leader := some leader' } :=
  (queueAppends_rule hl ⟨rfl, rfl, rfl⟩ _ (fun h _ => sameLeadership_of_makeRequest h)
    (fun _ _ _ => trivial) actions).invariant h hl

/-- The end of a handler that sends requests to the peers. -/
theorem continues_queueAppends {node' : RaftNode} (h : node'.Invariant)
    {leader : RaftLeaderReplication} (hl : node'.leader = some leader) (ha : Advances node node')
    (peerIds : List ℕ) (actions : RaftNodeActions) :
    Continues node (match node'.queueAppends peerIds actions with
      | (node, none) => node.stop .inconsistentState
      | (node, some actions) => (node, .ok actions)).1 := by
  obtain ⟨leader', hq, hinv⟩ := queueAppends_invariant h hl peerIds actions
  revert hq
  generalize node'.queueAppends peerIds actions = r
  obtain ⟨node'', actions⟩ := r
  rintro rfl
  cases actions with
  | none => exact continues_stop _ _ _
  | some actions => exact fun _ => ⟨hinv, ha.term_le, ha.commit_le, ha.committed, ha.vote⟩

theorem onHeartbeatTimeout_continues (h : node.Invariant) (hs : node.stopped = false) :
    Continues node node.onHeartbeatTimeout.1 := by
  rw [onHeartbeatTimeout, if_neg (by simp [hs])]
  cases hl : node.leader with
  | none => exact continues_self h
  | some leader =>
    obtain ⟨leader', hq, hinv⟩ :=
      queueAppends_invariant h hl node.peers { scheduleHeartbeat := true }
    simp only [h.active hl, Bool.true_eq_false, if_false]
    revert hq
    generalize node.queueAppends node.peers { scheduleHeartbeat := true } = r
    obtain ⟨node', actions⟩ := r
    rintro rfl
    cases actions with
    | none => exact continues_stop _ _ _
    | some actions => exact fun _ => ⟨hinv, .of_eq rfl rfl rfl⟩

/-! ## Votes -/

theorem isPeer_ne_self (h : node.Invariant) {peerId : ℕ} (hp : node.isPeer peerId = true) :
    peerId ≠ node.selfId := by
  simp only [isPeer, decide_eq_true_eq] at hp
  rcases hp with rfl | rfl <;> exact h.selfId_ne _

theorem onRequestVote_continues (h : node.Invariant) (hs : node.stopped = false) (peerId : ℕ)
    (request : RequestVote) : Continues node (node.onRequestVote peerId request).1 := by
  rw [onRequestVote, if_neg (by simp [hs])]
  split_ifs with hp hc
  · exact continues_self h
  · exact continues_self h
  · rw [Bool.not_eq_false] at hp
    rw [not_not] at hc
    have hne := isPeer_ne_self h hp
    have hsome : ∀ {c : ℕ}, c = peerId → some c ≠ some node.selfId := by
      rintro c rfl he
      exact hne (Option.some.inj he)
    have hend := handleRequestVote_rule node.log request
      (A := fun m => m = node.metadata.state ∨
        m.votedFor ≠ some node.selfId ∧ node.metadata.state.Succeeds m) h.metadata (Or.inl rfl)
      (fun ht => Or.inr ⟨by simp, .enter ht⟩) (fun h0 _ hA => Or.inr ⟨hsome hc, by
        rcases hA with hA | hA
        · refine .castVote ?_ h0
          rw [hA]
          exact .refl _
        · exact hA.2.castVote h0⟩)
    dsimp only
    revert hend
    generalize handleRequestVote node.metadata node.log request = r
    have hdone : ∀ {m : PersistentMetadata}, m.Synced → (m.state = node.metadata.state ∨
        m.state.votedFor ≠ some node.selfId ∧ node.metadata.state.Succeeds m.state) →
        Continues node (if node.term < m.state.currentTerm then
          { node with metadata := m }.dropLeadership else { node with metadata := m }) := by
      intro m hm hA _
      refine ⟨h.setMetadata hm hA, ?_⟩
      have hsucc : node.metadata.state.Succeeds m.state := by
        rcases hA with hA | hA
        · exact hA ▸ .refl _
        · exact hA.2
      split_ifs
      · exact .of_succeeds hsucc le_rfl rfl
      · exact .of_succeeds hsucc le_rfl rfl
    rintro (⟨m, hm, hA⟩ | ⟨m, hm, -, hA⟩ | ⟨m, -, -⟩)
    · exact hdone hm hA
    · exact hdone hm hA
    · exact continues_stop _ _ _

/-- A node in a later term, without leadership. -/
theorem Invariant.enterTerm (h : node.Invariant) {m : PersistentMetadata} {t : ℕ} (hm : m.Synced)
    (hn : m.state = ⟨t, none⟩) (ht : node.term < t) :
    Invariant { node with metadata := m }.dropLeadership := by
  have := h.setMetadata hm (Or.inr ⟨by simp [hn], by rw [hn]; exact .enter ht⟩)
  rwa [hn, if_pos ht] at this

/-- A candidate that wins its election and appends the first entry of its term. -/
theorem Invariant.becomeLeader (h : node.Invariant) {election : RaftElection}
    {leader : RaftLeaderReplication} {log : PersistentLog} {e : LogEntry}
    (hself : election.selfId = node.selfId) (hpeers : election.peerIds = node.peerIds)
    (hu : election.unusable = false) (hc : election.cachedRole = .leader)
    (hterm : node.term = election.electionTerm)
    (hvote : node.metadata.state.votedFor = some node.selfId)
    (hls : leader.selfId = node.selfId) (hlt : leader.term = node.term)
    (hlr : leader.stopped = false) (hs : log.Synced) (hlog : log.log = node.log.log ++ [e])
    (hi : e.index = node.lastIndex + 1) (he : e.Encodable) (ht : e.term = node.term) :
    Invariant { node with
      election, log, leader := some leader, knownLeader := some node.selfId } := by
  have hstore := h.toStoreInvariant.appendEntry hs hlog hi he ht
  have hrole : role { node with
      election, log, leader := some leader, knownLeader := some node.selfId } = .leader := by
    rw [role_eq_leader_iff]
    exact ⟨hc, hterm, by rw [hself, hvote]⟩
  refine ⟨⟨hstore.metadata, hstore.logSynced, hstore.log, hstore.commit_le, hstore.applied,
    hstore.vote_term⟩, ⟨hself, hpeers, h.peerIds_ne, h.selfId_ne, hu, fun h => ?_⟩,
    ⟨fun {l} hl => ?_, fun _ => rfl, fun _ => rfl, fun h => ?_⟩⟩
  · simp [hc] at h
  · obtain rfl := Option.some.inj hl
    exact leaderActive_iff.2 ⟨hlr, hrole, hlt.symm, by rw [hls]; exact hvote⟩
  · cases h

theorem onVoteReply_continues (h : node.Invariant) (hs : node.stopped = false) (peerId : ℕ)
    (reply : RequestVoteReply) : Continues node (node.onVoteReply peerId reply).1 := by
  rw [onVoteReply, if_neg (by simp [hs])]
  split_ifs with hp
  · exact continues_self h
  have hend := RaftElection.handleVoteReply_rule peerId reply
    (A := fun m => m = node.metadata.state ∨ node.term < m.currentTerm ∧ m.votedFor = none)
    h.usable h.metadata (Or.inl rfl) h.votes (fun ht => Or.inr ⟨ht, rfl⟩)
  revert hend
  generalize node.election.handleVoteReply node.metadata peerId reply = r
  rintro (⟨hr⟩ | ⟨m, hm, hA⟩ | ⟨e, -, m, -, -⟩ | ⟨replied, hr⟩ | ⟨replied, votes, hr, -, -, -⟩)
  · exact continues_self h
  · -- stepping down, with or without a new term
    have hsucc : node.metadata.state.Succeeds m.state := by
      rcases hA with hA | ⟨ht, hv⟩
      · exact hA ▸ .refl _
      · have : m.state = ⟨m.state.currentTerm, none⟩ := by rw [← hv]
        rw [this]
        exact .enter ht
    refine fun _ => ⟨⟨?_, ?_, leadershipInvariant_of_none rfl rfl ?_⟩,
      .of_succeeds hsucc le_rfl rfl⟩
    · have := h.toStoreInvariant.setMetadata hm hsucc
      exact ⟨this.metadata, this.logSynced, this.log, this.commit_le, this.applied,
        this.vote_term⟩
    · have := h.toElectionInvariant.becomeFollower
      exact ⟨this.selfId, this.peerIds, this.peerIds_ne, this.selfId_ne, this.usable, this.votes⟩
    · rw [Ne, role_eq_leader_iff]
      rintro ⟨hc, -⟩
      cases hc
  · exact continues_stop _ _ _
  · have hnone : node.leader = none := h.leader_none (by rw [role, hr]; simp)
    refine fun _ => ⟨⟨?_, ⟨h.selfId, h.peerIds, h.peerIds_ne, h.selfId_ne, h.usable, h.votes⟩,
      leadershipInvariant_of_none hnone (h.reads hnone) ?_⟩, .of_eq rfl rfl rfl⟩
    · exact ⟨h.metadata, h.logSynced, h.log, h.commit_le, h.applied, h.vote_term⟩
    · have : role { node with election := { node.election with replied } } = node.role := rfl
      rw [this, role, hr]
      simp
  · -- the election is won
    obtain ⟨-, hterm, hvote⟩ := RaftElection.facts_of_role (by rw [hr]; simp)
    rw [h.selfId] at hvote
    generalize he' : ({ node.election with replied, grantedVotes := votes, cachedRole := .leader } :
      RaftElection) = election
    obtain ⟨hself, hpeers, hu, hc, hte⟩ : election.selfId = node.selfId ∧
        election.peerIds = node.peerIds ∧ election.unusable = false ∧
        election.cachedRole = .leader ∧ node.term = election.electionTerm := by
      rw [← he']
      exact ⟨h.selfId, h.peerIds, h.usable, rfl, hterm⟩
    dsimp only
    split
    · exact continues_stop _ _ _
    · next leader hcreate =>
      have hl := RaftLeaderReplication.create_eq_some hcreate
      obtain ⟨hls, hlt, hlr⟩ : leader.selfId = node.selfId ∧ leader.term = node.term ∧
          leader.stopped = false := by
        rw [hl]
        exact ⟨hself, rfl, rfl⟩
      have happ := leader.appendCommand_rule election node.metadata h.logSynced {}
      revert happ
      generalize leader.appendCommand election node.metadata node.log {} = r
      rintro (⟨e, -, -⟩ | ⟨log', -, -, -⟩ | ⟨log', hs', -, he, hlog⟩)
      · exact continues_stop _ _ _
      · exact continues_stop _ _ _
      · have hinv := h.becomeLeader hself hpeers hu hc hte hvote hls hlt hlr hs' hlog rfl he hlt
        have hadvances : Advances node { node with
            election, log := log', leader := some leader, knownLeader := some node.selfId } :=
          ⟨le_rfl, le_rfl, h.take_append hlog, fun _ _ h => h⟩
        exact continues_queueAppends hinv rfl hadvances _ _

/-! ## Following -/

/-- What holds in the loop over the entries of a request, after those up to position `k`. -/
structure Splice (old : List LogEntry) (commitIndex T last k : ℕ) (entries log : List LogEntry) :
    Prop where
  wellFormed : LogInvariant log T
  committed : log.take commitIndex = old.take commitIndex
  commit_le : commitIndex ≤ log.length
  le : k ≤ log.length
  valid : validEntriesFrom T k (PersistentLog.termAt log k) entries = true
  last : k + entries.length = last

namespace Splice

variable {old log entries : List LogEntry} {commitIndex T last k : ℕ} {e x : LogEntry}

theorem skip (h : Splice old commitIndex T last k (e :: entries) log) (hx : log[k]? = some x)
    (ht : x.term = e.term) : Splice old commitIndex T last (k + 1) entries log where
  wellFormed := h.wellFormed
  committed := h.committed
  commit_le := h.commit_le
  le := (List.getElem?_eq_some_iff.1 hx).1
  valid := by
    rw [PersistentLog.termAt_succ hx, ht]
    exact (validEntriesFrom_cons h.valid).2.2.2.2
  last := by
    rw [← h.last, List.length_cons]
    omega

theorem truncate (h : Splice old commitIndex T last k (e :: entries) log) (hk : commitIndex ≤ k) :
    Splice old commitIndex T last k (e :: entries) (log.take k) where
  wellFormed := h.wellFormed.take k
  committed := by rw [List.take_take, min_eq_left hk, h.committed]
  commit_le := by
    rw [List.length_take]
    exact le_min hk (hk.trans h.le)
  le := by
    rw [List.length_take]
    exact le_min le_rfl h.le
  valid := by
    rw [PersistentLog.termAt_take le_rfl]
    exact h.valid
  last := h.last

theorem append (h : Splice old commitIndex T last k (e :: entries) log) (hk : log.length = k)
    (he : e.Encodable) : Splice old commitIndex T last (k + 1) entries (log ++ [e]) := by
  obtain ⟨hi, hle, hT, -, hrest⟩ := validEntriesFrom_cons h.valid
  have hlast : ∀ e' ∈ log, e'.term ≤ e.term := by
    intro e' he'
    cases k with
    | zero => simp [List.length_eq_zero_iff.1 hk] at he'
    | succ k =>
      have hx : log[k]? = some log[k] := List.getElem?_eq_getElem (by omega)
      rw [PersistentLog.termAt_succ hx] at hle
      exact (h.wellFormed.term_le_last hk hx e' he').trans hle
  refine ⟨h.wellFormed.concat (by rw [hi, hk]) he hlast hT, ?_, ?_, ?_, ?_, ?_⟩
  · rw [List.take_append_of_le_length h.commit_le, h.committed]
  · rw [List.length_append]
    exact h.commit_le.trans (Nat.le_add_right _ _)
  · simp [hk]
  · have hx : (log ++ [e])[k]? = some e := by simp [← hk]
    rwa [PersistentLog.termAt_succ hx]
  · rw [← h.last, List.length_cons]
    omega

end Splice

/-- A valid request continues the log from the entry that it names. -/
theorem splice_start (h : node.Invariant) {request : AppendEntries}
    (ht : node.term ≤ request.term) (hv : validEntries request = true)
    (hp : previousMismatch node.log request = false) :
    Splice node.log.log node.commitIndex request.term
      (request.prevLogIndex + request.entries.length) request.prevLogIndex request.entries
      node.log.log := by
  obtain ⟨hzero, -, hvalid⟩ := validEntries_fields hv
  obtain ⟨hle, hterm⟩ : request.prevLogIndex ≤ node.log.log.length ∧
      PersistentLog.termAt node.log.log request.prevLogIndex = request.prevLogTerm := by
    cases hk : request.prevLogIndex with
    | zero => exact ⟨Nat.zero_le _, (hzero.1 hk).symm⟩
    | succ k =>
      rw [previousMismatch, hk, PersistentLog.entryAt_succ] at hp
      cases hx : node.log.log[k]? with
      | none => simp [hx] at hp
      | some x =>
        have hxt : x.term = request.prevLogTerm := by simpa [hx] using hp
        exact ⟨(List.getElem?_eq_some_iff.1 hx).1, by rw [PersistentLog.termAt_succ hx, hxt]⟩
  refine ⟨h.log.mono ht, rfl, ?_, hle, by rwa [hterm], rfl⟩
  rw [PersistentLog.length_log]
  exact h.commit_le

/-- The loop on a valid request keeps the log's invariant and the committed entries. -/
theorem appendLoop_splice (h : node.Invariant) {request : AppendEntries}
    (ht : node.term ≤ request.term) (hv : validEntries request = true)
    (hp : previousMismatch node.log request = false) :
    AppendLoopEnd node.commitIndex (Splice node.log.log node.commitIndex request.term
      (request.prevLogIndex + request.entries.length))
      (appendLoop node.commitIndex node.log request.entries) :=
  appendLoop_rule (fun h => ⟨(validEntriesFrom_cons h.valid).1, h.le⟩)
    (fun h hx ht _ => h.skip hx ht) (fun h _ _ hk => h.truncate hk)
    (fun h hk he => h.append hk he) request.entries h.logSynced (splice_start h ht hv hp)

/-- The store part of a node in a request's term, in the loop over the request's entries. -/
theorem Splice.storeInvariant (h : node.Invariant) {m : PersistentMetadata} {log : PersistentLog}
    {last k : ℕ} {entries : List LogEntry} (hm : m.Synced)
    (hsucc : node.metadata.state.Succeeds m.state) (hs : log.Synced)
    (hsplice : Splice node.log.log node.commitIndex m.state.currentTerm last k entries log.log) :
    StoreInvariant { node with metadata := m, log } where
  metadata := hm
  logSynced := hs
  log := hsplice.wellFormed
  commit_le := by
    rw [lastIndex, ← PersistentLog.length_log]
    exact hsplice.commit_le
  applied := by
    dsimp only
    rw [hsplice.committed]
    exact h.applied
  vote_term := hsucc.vote_term h.vote_term

/-- The leadership part does not depend on the log. -/
theorem Invariant.setLog (h : node.Invariant) {log : PersistentLog}
    (hs : StoreInvariant { node with log }) : Invariant { node with log } where
  toStoreInvariant := hs
  toElectionInvariant := ⟨h.selfId, h.peerIds, h.peerIds_ne, h.selfId_ne, h.usable, h.votes⟩
  active := h.active
  exists_leader := h.exists_leader
  knownLeader := h.knownLeader
  reads := h.reads

/-- A node that follows the leader of its term. -/
theorem Invariant.observeLeader (hs : node.StoreInvariant) (he : node.ElectionInvariant) {t : ℕ}
    (h0 : t ≠ 0) (ht : node.term = t) (peerId : ℕ) :
    Invariant { { node with election := node.election.observeLeader node.metadata t }.dropLeadership
      with knownLeader := some peerId } := by
  have hobs : node.election.observeLeader node.metadata t = node.election.becomeFollower := by
    rw [RaftElection.observeLeader, if_pos ⟨h0, ht.symm⟩]
  rw [hobs]
  have hb := he.becomeFollower
  refine ⟨⟨hs.metadata, hs.logSynced, hs.log, hs.commit_le, hs.applied, hs.vote_term⟩,
    ⟨hb.selfId, hb.peerIds, hb.peerIds_ne, hb.selfId_ne, hb.usable, hb.votes⟩,
    leadershipInvariant_of_none rfl rfl ?_⟩
  rw [Ne, role_eq_leader_iff]
  rintro ⟨hc, -⟩
  cases hc

/-- Committing and applying more of the log. -/
theorem Invariant.commit (h : node.Invariant) {c : ℕ} (hc : c ≤ node.lastIndex) :
    Invariant { node with commitIndex := c, state := .replay (node.log.log.take c) } where
  toStoreInvariant := ⟨h.metadata, h.logSynced, h.log, hc, rfl, h.vote_term⟩
  toElectionInvariant := ⟨h.selfId, h.peerIds, h.peerIds_ne, h.selfId_ne, h.usable, h.votes⟩
  active := h.active
  exists_leader := h.exists_leader
  knownLeader := h.knownLeader
  reads := h.reads

/-- The end of a handler that applies what has become committed. -/
theorem continues_applyReady {node' : RaftNode} {c : ℕ}
    (hstate : node'.state = .replay (node'.log.log.take c)) (hc : c ≤ node'.commitIndex)
    (hinv : Invariant { node' with state := .replay (node'.log.log.take node'.commitIndex) })
    (ha : Advances node { node' with state := .replay (node'.log.log.take node'.commitIndex) })
    (actions : RaftNodeActions) (f : RaftNodeActions → RaftNodeActions) :
    Continues node (match node'.applyReady actions with
      | (node, none) => node.stop .inconsistentState
      | (node, some actions) => (node, .ok (f actions))).1 := by
  have hlog : LogInvariant node'.log.log node'.term := hinv.log
  have hle : node'.commitIndex ≤ node'.lastIndex := hinv.commit_le
  obtain ⟨applied, h, -⟩ := applyReady_eq hlog hstate hc hle actions
  rw [h]
  exact fun _ => ⟨hinv, ha⟩

theorem onAppendEntries_continues (h : node.Invariant) (hs : node.stopped = false) (peerId : ℕ)
    (request : AppendEntries) : Continues node (node.onAppendEntries peerId request).1 := by
  rw [onAppendEntries, if_neg (by simp [hs])]
  split_ifs with hp hl
  · exact continues_self h
  · exact continues_self h
  have hend := handleAppendEntries_rule node.log node.commitIndex request
    (A := fun m => m = node.metadata.state ∨
      m.votedFor ≠ some node.selfId ∧ node.metadata.state.Succeeds m) h.metadata (Or.inl rfl)
    (fun ht => Or.inr ⟨by simp, .enter ht⟩)
  have hsucc : ∀ {m : RaftMetadata}, (m = node.metadata.state ∨
      m.votedFor ≠ some node.selfId ∧ node.metadata.state.Succeeds m) →
      node.metadata.state.Succeeds m := by
    rintro m (rfl | hm)
    · exact .refl _
    · exact hm.2
  -- an `InvalidRequest`, with what the loop has done to the log by then
  have hinvalid : ∀ {m : PersistentMetadata} {log : PersistentLog}, m.Synced →
      (m.state = node.metadata.state ∨
        m.state.votedFor ≠ some node.selfId ∧ node.metadata.state.Succeeds m.state) →
      StoreInvariant { node with metadata := m, log } →
      log.log.take node.commitIndex = node.log.log.take node.commitIndex →
      Continues node (if node.term < m.state.currentTerm
        then { node with metadata := m, log }.dropLeadership
        else { node with metadata := m, log }) := by
    intro m log hm hA hstore htake _
    have hset := h.setMetadata hm hA
    split_ifs at hset ⊢
    · exact ⟨hset.setLog ⟨hstore.metadata, hstore.logSynced, hstore.log, hstore.commit_le,
        hstore.applied, hstore.vote_term⟩, .of_succeeds (hsucc hA) le_rfl htake⟩
    · exact ⟨hset.setLog hstore, .of_succeeds (hsucc hA) le_rfl htake⟩
  dsimp only
  revert hend
  generalize handleAppendEntries node.metadata node.log node.commitIndex request = r
  rintro (⟨m, -, -⟩ | ⟨hstale⟩ | ⟨m, hm, hA, ht, -⟩ | ⟨m, hm, hA, ht, h0, -⟩ |
    ⟨m, hm, hA, ht, h0, hv, hprev, log, e, hloop⟩ | ⟨m, hm, hA, ht, h0, hv, hprev, log, hloop⟩)
  · exact continues_stop _ _ _
  · have hf : ¬ (request.term ≠ 0 ∧ request.term = node.metadata.state.currentTerm) := by omega
    simp only [hf, decide_false, Bool.false_eq_true, if_false]
    rw [if_neg (lt_irrefl _)]
    exact continues_self h
  · exact hinvalid hm hA (h.toStoreInvariant.setMetadata hm (hsucc hA)) rfl
  · have hstore := h.toStoreInvariant.setMetadata hm (hsucc hA)
    have hinv := Invariant.observeLeader hstore
      ⟨h.selfId, h.peerIds, h.peerIds_ne, h.selfId_ne, h.usable, h.votes⟩ h0 ht peerId
    simp only [ne_eq, h0, not_false_eq_true, true_and, decide_true, if_true, Bool.false_eq_true,
      if_false]
    split_ifs
    · exact fun _ => ⟨hinv, .of_succeeds (hsucc hA) le_rfl rfl⟩
    · exact fun _ => ⟨hinv, .of_succeeds (hsucc hA) le_rfl rfl⟩
  all_goals
    have hsplice := appendLoop_splice h (ht ▸ (hsucc hA).term_le) hv hprev
    rw [hloop, ← ht] at hsplice
  · cases e with
    | invalidRequest =>
      cases hsplice with
      | invalidRequest _ _ _ _ _ hs' hk =>
        exact hinvalid hm hA (hk.storeInvariant h hm (hsucc hA) hs') hk.committed
    | committedConflict => exact continues_stop _ _ _
    | persistenceError => exact continues_stop _ _ _
  · cases hsplice with
    | ok _ k hs' hk =>
      have hstore := hk.storeInvariant h hm (hsucc hA) hs'
      have hlast := hk.last
      have hle := hk.le
      have hcommit := hstore.commit_le
      simp only [lastIndex, ← PersistentLog.length_log] at hcommit
      have hc : max node.commitIndex (min request.leaderCommit
          (request.prevLogIndex + request.entries.length)) ≤ log.lastIndex := by
        rw [← PersistentLog.length_log]
        simp only [List.length_nil] at hlast
        omega
      have hinv := (Invariant.observeLeader hstore
        ⟨h.selfId, h.peerIds, h.peerIds_ne, h.selfId_ne, h.usable, h.votes⟩ h0 ht peerId).commit hc
      simp only [ne_eq, h0, not_false_eq_true, true_and, decide_true, if_true]
      have ha : node.metadata.state.Succeeds m.state := hsucc hA
      split_ifs
      all_goals
        refine continues_applyReady (c := node.commitIndex) ?_ ?_ ?_ ?_ _ _
        · exact hstore.applied
        · exact le_max_left _ _
        · exact hinv
        · exact .of_succeeds ha (le_max_left _ _) hk.committed

/-! ## Replies to requests -/

/-- A leader that keeps the invariant and is ahead of `node`. -/
structure Leads (node node' : RaftNode) : Prop where
  invariant : node'.Invariant
  advances : Advances node node'
  leader : node'.leader.isSome

theorem Leads.setReadRounds {node' : RaftNode} (h : Leads node node')
    (rounds : List (ℕ × Option AppendEntries)) :
    Leads node { node' with readRounds := rounds } := by
  obtain ⟨leader, hl⟩ := Option.isSome_iff_exists.1 h.leader
  exact ⟨h.invariant.setReadRounds hl rounds node'.nextReadId,
    ⟨h.advances.term_le, h.advances.commit_le, h.advances.committed, h.advances.vote⟩, h.leader⟩

theorem startWaitingReads_fst (node : RaftNode) (actions : RaftNodeActions) :
    ∃ rounds, (node.startWaitingReads actions).1 = { node with readRounds := rounds } := by
  rw [startWaitingReads]
  split_ifs
  · exact ⟨node.readRounds, rfl⟩
  · exact ⟨_, rfl⟩

theorem completeRead_continues {node' : RaftNode} (h : Leads node node')
    (sentRequest : AppendEntries) (reply : AppendEntriesReply) (actions : RaftNodeActions) :
    Continues node (node'.completeRead sentRequest reply actions).1 := by
  have hsame : Continues node node' := fun _ => ⟨h.invariant, h.advances⟩
  rw [completeRead]
  split_ifs with hr
  · split
    · dsimp only
      split_ifs
      · exact continues_stop _ _ _
      · have := h.setReadRounds (OrderedMap.erase sentRequest.readContext node'.readRounds)
        exact fun _ => ⟨this.invariant, this.advances⟩
      · exact hsame
    · exact hsame
  · exact hsame

theorem Leads.queueAppend {node' : RaftNode} (h : Leads node node') (peerId : ℕ)
    (actions : RaftNodeActions) : Leads node (node'.queueAppend peerId actions).1 := by
  obtain ⟨leader, hl⟩ := Option.isSome_iff_exists.1 h.leader
  obtain ⟨leader', hq, hinv⟩ := queueAppend_invariant h.invariant hl peerId actions
  rw [hq]
  exact ⟨hinv, ⟨h.advances.term_le, h.advances.commit_le, h.advances.committed,
    h.advances.vote⟩, rfl⟩

theorem Leads.queueAppends {node' : RaftNode} (h : Leads node node') (peerIds : List ℕ)
    (actions : RaftNodeActions) : Leads node (node'.queueAppends peerIds actions).1 := by
  obtain ⟨leader, hl⟩ := Option.isSome_iff_exists.1 h.leader
  obtain ⟨leader', hq, hinv⟩ := queueAppends_invariant h.invariant hl peerIds actions
  rw [hq]
  exact ⟨hinv, ⟨h.advances.term_le, h.advances.commit_le, h.advances.committed,
    h.advances.vote⟩, rfl⟩

/-- The end of `on_append_reply`, from a node that leads once it has applied what is committed. -/
theorem followUp_continues {node' : RaftNode} {c : ℕ} {outcome : AppendReplyOutcome}
    (hstate : node'.state = .replay (node'.log.log.take c)) (hc : c ≤ node'.commitIndex)
    (hsame : outcome ≠ .committed → c = node'.commitIndex)
    (h : Leads node { node' with state := .replay (node'.log.log.take node'.commitIndex) })
    (peerId : ℕ) (sentRequest : AppendEntries) (reply : AppendEntriesReply) :
    Continues node (match node'.followUp peerId outcome with
      | (node, none) => node.stop .inconsistentState
      | (node, some actions) => node.completeRead sentRequest reply actions).1 := by
  suffices (node'.followUp peerId outcome).2 = none ∨
      Leads node (node'.followUp peerId outcome).1 by
    revert this
    generalize node'.followUp peerId outcome = r
    obtain ⟨node'', actions⟩ := r
    intro h
    cases actions with
    | none => exact continues_stop _ _ _
    | some actions =>
      rcases h with h | h
      · cases h
      · exact completeRead_continues h _ _ _
  by_cases ho : outcome = .committed
  · subst ho
    have hlog : LogInvariant node'.log.log node'.term := h.invariant.log
    have hle : node'.commitIndex ≤ node'.lastIndex := h.invariant.commit_le
    obtain ⟨applied, happ, -⟩ := applyReady_eq hlog hstate hc hle {}
    generalize { node' with state := .replay (node'.log.log.take node'.commitIndex) } = n at h happ
    rw [followUp, happ]
    dsimp only
    have hq := h.queueAppends n.peers { applied }
    revert hq
    generalize n.queueAppends n.peers { applied } = r
    obtain ⟨node'', actions⟩ := r
    intro hq
    cases actions with
    | none => exact Or.inl rfl
    | some actions =>
      obtain ⟨rounds, hr⟩ := startWaitingReads_fst node'' actions
      dsimp only
      rw [hr]
      exact Or.inr (hq.setReadRounds rounds)
  · have hreplay : .replay (node'.log.log.take node'.commitIndex) = node'.state := by
      rw [hstate, hsame ho]
    rw [hreplay] at h
    cases outcome with
    | retry => exact Or.inr (h.queueAppend _ _)
    | committed => exact absurd rfl ho
    | recorded =>
      rw [followUp]
      split
      · exact Or.inl rfl
      · split_ifs
        · exact Or.inr (h.queueAppend _ _)
        · exact Or.inr h
    | ignored | steppedDown | inconsistentFollower | persistenceError => exact Or.inr h

theorem onAppendReply_continues (h : node.Invariant) (hs : node.stopped = false) (peerId : ℕ)
    (sentRequest : AppendEntries) (reply : AppendEntriesReply) :
    Continues node (node.onAppendReply peerId sentRequest reply).1 := by
  rw [onAppendReply, if_neg (by simp [hs])]
  by_cases hp : node.isPeer peerId = false
  · rw [if_pos hp]
    exact continues_self h
  rw [if_neg hp]
  cases hl : node.leader with
  | none =>
    dsimp only
    split_ifs with ht
    · rcases PersistentMetadata.advanceTerm_cases h.metadata reply.term with
        ⟨hlt, -⟩ | ⟨heq, -⟩ | ⟨-, hup⟩
      · exact absurd ht (not_lt.2 hlt.le)
      · exact absurd ht (not_lt.2 heq.le)
      · revert hup
        generalize node.metadata.advanceTerm reply.term = r
        rintro (⟨m, hm, hn⟩ | ⟨m, -, -⟩)
        · exact fun _ => ⟨h.enterTerm hm hn ht, .of_succeeds (hn ▸ .enter ht) le_rfl rfl⟩
        · exact continues_stop _ _ _
    · exact continues_self h
  | some leader =>
    obtain ⟨-, -, hterm, -, -⟩ := h.leader_facts hl
    have hend := leader.handleReply_rule node.election node.log node.commitIndex peerId sentRequest
      reply (A := fun _ => True) h.metadata trivial fun _ _ => trivial
    -- the node goes on leading, with the progress of one peer changed
    have hfollow : ∀ {l : RaftLeaderReplication} {c : ℕ} (outcome : AppendReplyOutcome),
        SameLeadership leader l → node.commitIndex ≤ c → c ≤ node.lastIndex →
        (outcome ≠ .committed → node.commitIndex = c) → Continues node
          (match followUp { node with leader := some l, commitIndex := c } peerId outcome with
            | (node, none) => node.stop .inconsistentState
            | (node, some actions) => node.completeRead sentRequest reply actions).1 := by
      intro l c outcome hsame hle hc ho
      have hinv := (h.setLeader hl hsame.1 hsame.2.1 hsame.2.2).commit hc
      refine followUp_continues (c := node.commitIndex) ?_ ?_ ?_ ?_ _ _ _
      · exact h.applied
      · exact hle
      · exact ho
      · exact ⟨hinv, ⟨le_rfl, hle, rfl, fun _ _ h => h⟩, rfl⟩
    dsimp only
    revert hend
    generalize leader.handleReply node.election node.metadata node.log node.commitIndex peerId
      sentRequest reply = r
    rintro (⟨-⟩ | ⟨m, hm, hn, ht, -⟩ | ⟨m, -, -⟩ | ⟨i, -, -, -, -, -⟩ | ⟨i, -, -, -, -, k, -, -⟩ |
      ⟨i, -, -, -, -, l, rfl⟩ | ⟨i, -, -, -, -, l, rfl, c, hc⟩)
    · exact hfollow .ignored ⟨rfl, rfl, rfl⟩ le_rfl h.commit_le fun _ => rfl
    · rw [hterm] at ht
      exact fun _ => ⟨h.enterTerm hm hn ht, .of_succeeds (hn ▸ .enter ht) le_rfl rfl⟩
    · exact continues_stop _ _ _
    · exact continues_stop _ _ _
    · exact hfollow .retry ⟨rfl, rfl, rfl⟩ le_rfl h.commit_le fun _ => rfl
    · exact hfollow .recorded ⟨rfl, rfl, rfl⟩ le_rfl h.commit_le fun _ => rfl
    · obtain ⟨k, e, rfl, hle, he, -⟩ := RaftLeaderReplication.advanceCommitIndex_eq_some hc
      have hk := (List.getElem?_eq_some_iff.1 he).1
      rw [PersistentLog.length_log] at hk
      exact hfollow .committed ⟨rfl, rfl, rfl⟩ (hle.trans (Nat.le_succ k)) hk
        fun hne => absurd rfl hne

theorem appendAsLeader_continues (h : node.Invariant) (hs : node.stopped = false)
    (command : Command) : Continues node (node.appendAsLeader command).1 := by
  rw [appendAsLeader, if_neg (by simp [hs])]
  cases hl : node.leader with
  | none => exact continues_self h
  | some leader =>
    obtain ⟨hst, -, hterm, -, -⟩ := h.leader_facts hl
    dsimp only
    rw [if_neg (by simp [h.active hl])]
    have happ := leader.appendCommand_rule node.election node.metadata h.logSynced command
    revert happ
    generalize leader.appendCommand node.election node.metadata node.log command = r
    rintro (⟨e, -, -⟩ | ⟨log', -, -, -⟩ | ⟨log', hs', -, he, hlog⟩)
    · have hself : Continues node { node with leader := some leader } :=
        fun _ => ⟨h.setLeader hl rfl rfl rfl, .of_eq rfl rfl rfl⟩
      cases e with
      | invalidCommand => exact hself
      | notLeader | unknownPeer | invalidBatchSize | indexExhausted | persistenceError
        | inconsistentState => exact continues_stop _ _ _
    · exact continues_stop _ _ _
    · have hstore := h.toStoreInvariant.appendEntry hs' hlog rfl he hterm
      have hinv := (h.setLog hstore).setLeader hl rfl rfl rfl
      have hadvances : Advances node { node with log := log', leader := some leader } :=
        ⟨le_rfl, le_rfl, h.take_append hlog, fun _ _ h => h⟩
      exact continues_queueAppends hinv rfl hadvances _ _

theorem propose_continues (h : node.Invariant) (hs : node.stopped = false) (command : Command) :
    Continues node (node.propose command).1 := by
  rw [propose, if_neg (by simp [hs])]
  cases hl : node.leader with
  | none => exact continues_self h
  | some leader =>
    dsimp only
    rw [if_neg (by simp [h.active hl])]
    split_ifs
    · exact continues_self h
    · exact appendAsLeader_continues h hs command

theorem readBarrier_continues (h : node.Invariant) (hs : node.stopped = false) :
    Continues node node.readBarrier.1 := by
  rw [readBarrier, if_neg (by simp [hs])]
  cases hl : node.leader with
  | none => exact continues_self h
  | some leader =>
    dsimp only
    rw [if_neg (by simp [h.active hl])]
    split_ifs
    · exact continues_stop _ _ _
    · have hinv := h.setReadRounds hl (OrderedMap.emplace node.nextReadId none node.readRounds)
        ((node.nextReadId + 1) % 2 ^ 64)
      obtain ⟨rounds, hr⟩ := startWaitingReads_fst { node with
        nextReadId := (node.nextReadId + 1) % 2 ^ 64
        readRounds := OrderedMap.emplace node.nextReadId none node.readRounds }
        { startedReadId := some node.nextReadId }
      rw [← hl, hr]
      exact fun _ => ⟨hinv.setReadRounds hl rounds _, .of_eq rfl rfl rfl⟩

theorem call_continues (h : node.Invariant) (hs : node.stopped = false) (c : NodeCall) :
    Continues node (node.call c).1 := by
  cases c with
  | electionTimeout => exact onElectionTimeout_continues h hs
  | heartbeatTimeout => exact onHeartbeatTimeout_continues h hs
  | requestVote peerId request => exact onRequestVote_continues h hs peerId request
  | voteReply peerId reply => exact onVoteReply_continues h hs peerId reply
  | appendEntries peerId request => exact onAppendEntries_continues h hs peerId request
  | appendReply peerId sentRequest reply =>
    exact onAppendReply_continues h hs peerId sentRequest reply
  | propose command => exact propose_continues h hs command
  | readBarrier => exact readBarrier_continues h hs

/-! ## Runs -/

/-- The node after a list of calls. -/
def run (node : RaftNode) (calls : List NodeCall) : RaftNode :=
  calls.foldl (fun node c => (node.call c).1) node

theorem run_concat (node : RaftNode) (calls : List NodeCall) (c : NodeCall) :
    node.run (calls ++ [c]) = ((node.run calls).call c).1 := by
  simp [run]

theorem stopped_of_call {c : NodeCall} (h : (node.call c).1.stopped = false) :
    node.stopped = false := by
  cases hs : node.stopped with
  | false => rfl
  | true =>
    rw [call_of_stopped hs, hs] at h
    cases h

/-- The invariant holds as long as no call has stopped the node. -/
theorem run_invariant (h : node.Invariant) (calls : List NodeCall)
    (hrun : (node.run calls).stopped = false) : (node.run calls).Invariant := by
  induction calls using List.reverseRecOn with
  | nil => exact h
  | append_singleton calls c ih =>
    rw [run_concat] at hrun ⊢
    have hbefore := stopped_of_call hrun
    exact (call_continues (ih hbefore) hbefore c hrun).1

/-- What a call guarantees, in terms of the accessors of the node before and after it. -/
structure CallGuarantee (node node' : RaftNode) : Prop where
  applied : node'.lastApplied = node'.commitIndex
  commit_le : node'.commitIndex ≤ node'.lastIndex
  entry_index : ∀ {i e}, node'.log.entryAt i = some e → e.index = i
  entry_sorted : ∀ {i j e e'}, i ≤ j → node'.log.entryAt i = some e →
    node'.log.entryAt j = some e' → e.term ≤ e'.term
  lastTerm_le : node'.log.lastTerm ≤ node'.term
  leader : node'.role = .leader ↔ ∃ leader, node'.leader = some leader ∧ node'.leaderActive leader
  leader_exists : node'.leader.isSome → node'.role = .leader
  leader_self : node'.role = .leader → node'.knownLeader = some node'.selfId ∧
    node'.metadata.state.votedFor = some node'.selfId
  reads : node'.readRounds ≠ [] → node'.role = .leader
  term_le : node.term ≤ node'.term
  commit_mono : node.commitIndex ≤ node'.commitIndex
  entries : ∀ i ≤ node.commitIndex, node'.log.entryAt i = node.log.entryAt i
  vote : node'.term = node.term → ∀ c, node.metadata.state.votedFor = some c →
    node'.metadata.state.votedFor = some c

theorem Invariant.callGuarantee {node' : RaftNode} (h : node'.Invariant)
    (ha : Advances node node') : CallGuarantee node node' where
  applied := h.lastApplied
  commit_le := h.commit_le
  entry_index {i e} he := by
    rw [PersistentLog.entryAt_eq] at he
    split_ifs at he with h0
    have := h.log.index he
    omega
  entry_sorted {i j e e'} hij he he' := by
    rw [PersistentLog.entryAt_eq] at he he'
    split_ifs at he he'
    obtain ⟨hi, rfl⟩ := List.getElem?_eq_some_iff.1 he
    obtain ⟨hj, rfl⟩ := List.getElem?_eq_some_iff.1 he'
    rcases Nat.lt_or_eq_of_le (show i - 1 ≤ j - 1 by omega) with hlt | heq
    · exact List.pairwise_iff_getElem.1 h.log.sorted _ _ hi hj hlt
    · simp [heq]
  lastTerm_le := by
    rw [PersistentLog.lastTerm_eq, PersistentLog.lastTermOf]
    cases hl : node'.log.log.getLast? with
    | none => exact Nat.zero_le _
    | some e => exact h.log.term_le e (List.mem_of_getLast? hl)
  leader := by
    constructor
    · intro hr
      obtain ⟨leader, hl⟩ := Option.isSome_iff_exists.1 (h.exists_leader hr)
      exact ⟨leader, hl, h.active hl⟩
    · rintro ⟨leader, hl, -⟩
      exact (h.leader_facts hl).2.1
  leader_exists hl := by
    obtain ⟨leader, hl⟩ := Option.isSome_iff_exists.1 hl
    exact (h.leader_facts hl).2.1
  leader_self hr := by
    obtain ⟨leader, hl⟩ := Option.isSome_iff_exists.1 (h.exists_leader hr)
    exact ⟨h.knownLeader hl, (h.leader_facts hl).2.2.2.2⟩
  reads hr := by
    cases hl : node'.leader with
    | none => exact absurd (h.reads hl) hr
    | some leader => exact (h.leader_facts hl).2.1
  term_le := ha.term_le
  commit_mono := ha.commit_le
  entries i hi := by
    rw [PersistentLog.entryAt_eq, PersistentLog.entryAt_eq]
    split_ifs with h0
    · rfl
    · have := congrArg (fun l => l[i - 1]?) ha.committed
      simpa [List.getElem?_take, show i - 1 < node.commitIndex by omega] using this
  vote := fun ht c => ha.vote ht

/-- **Any handler calls in any order**: on a node opened on an empty data directory, each call
that does not leave the node stopped guarantees `CallGuarantee`. -/
theorem call_guarantee {selfId : ℕ} {peerIds : Fin 2 → ℕ}
    (h : openFrom selfId peerIds {} = some node) (calls : List NodeCall) (c : NodeCall)
    (hs : ((node.run calls).call c).1.stopped = false) :
    CallGuarantee (node.run calls) ((node.run calls).call c).1 := by
  obtain ⟨hinv, -⟩ := openFrom_invariant h (LogInvariant.nil _) (by simp)
  have hbefore := stopped_of_call hs
  obtain ⟨hafter, ha⟩ := call_continues (run_invariant hinv calls hbefore) hbefore c hs
  exact hafter.callGuarantee ha

/-- A node is elected, takes a put, commits both entries with a peer and starts a read. -/
def leadingCalls : List NodeCall :=
  [.electionTimeout, .voteReply 2 ⟨1, true⟩, .propose { type := .put, key := [107], value := [118] },
    .appendReply 2 ⟨1, 1, 0, 0, [⟨1, 1, {}⟩], 0, 0⟩ ⟨1, true⟩,
    .appendReply 2 ⟨1, 1, 1, 1, [⟨2, 1, { type := .put, key := [107], value := [118] }⟩], 1, 0⟩
      ⟨1, true⟩,
    .readBarrier]

/-- The leader of the next term has one more entry, which is committed. -/
def deposingCall : NodeCall := .appendEntries 3 ⟨2, 3, 2, 1, [⟨3, 2, {}⟩], 3, 0⟩

/-- A leader with two committed entries and a read is deposed. -/
theorem call_guarantee_deposed : ∃ node : RaftNode, openFrom 1 (fun i => i + 2) {} = some node ∧
    (node.run leadingCalls).commitIndex = 2 ∧ (node.run leadingCalls).readRounds ≠ [] ∧
      ((node.run leadingCalls).call deposingCall).1.commitIndex = 3 ∧
        CallGuarantee (node.run leadingCalls) ((node.run leadingCalls).call deposingCall).1 := by
  have h : openFrom 1 (fun i => i + 2) {} = some _ := rfl
  exact ⟨_, h, by decide +kernel, by decide +kernel, by decide +kernel,
    call_guarantee h leadingCalls deposingCall (by decide +kernel)⟩

end RaftNode

end DistributedKV
