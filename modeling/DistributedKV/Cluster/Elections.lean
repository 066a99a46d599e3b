import DistributedKV.Cluster.Refinement

/-!
# Elections refine the abstract protocol

The calls that stand for election and vote: their effect on the abstract state.
-/

namespace DistributedKV

open Replication (Step Grows Frame CommittedBy UpToDate)

variable {cluster : Cluster} {s s' : Abstract} {n : ℕ} {node node' : RaftNode}

/-- A message that node `n` may send in the abstract state `s`. -/
structure SendOk (s : Abstract) (n : ℕ) (repliedTo : Option AppendEntries)
    (m : OutboundRaftMessage) : Prop where
  ok : MessageOk s (envelope n repliedTo m)
  fresh : Fresh s (envelope n repliedTo m)

/-- **What a call on node `n` must do**: it has an effect on the abstract state, after which the
node and the messages are as they should be. -/
def Simulates (cluster : Cluster) (s : Abstract) (n : ℕ) (repliedTo : Option AppendEntries)
    (r : RaftNode × RaftNodeResult) : Prop :=
  ∃ s', Effect cluster n s s' ∧ NodeOk cluster s' n r.1 ∧
    ∀ actions, r.2 = .ok actions → ∀ m ∈ actions.messages, SendOk s' n repliedTo m

/-! ## Nodes after a call -/

/-- A process whose memory is what a reopen would recover. -/
theorem DiskOk.of_synced (hm : node.metadata.Synced) (hl : node.log.Synced) :
    DiskOk s n node.disk ↔ Recorded s n node.metadata.state ∧ s.log n = node.log.log := by
  have hdisk : node.disk = ⟨node.metadata.state, node.log.log⟩ := by
    rw [RaftNode.disk, hm.durable, hl.durable]
  rw [hdisk]
  exact ⟨fun h => ⟨h.recorded, h.log⟩, fun h => ⟨h.1, h.2⟩⟩

theorem RunningOk.facts (h : RunningOk s n node) (hd : DiskOk s n node.disk) :
    Recorded s n node.metadata.state ∧ s.log n = node.log.log :=
  (DiskOk.of_synced h.invariant.metadata h.invariant.logSynced).1 hd

/-- A running node, from what it remembers. -/
theorem NodeOk.of_running (h : NodeOk cluster s n node) (hs : node'.stopped = false)
    (hself : node'.selfId = node.selfId) (hpeers : node'.peerIds = node.peerIds)
    (hr : RunningOk s' n node') (hrec : Recorded s' n node'.metadata.state)
    (hlog : s'.log n = node'.log.log) :
    NodeOk cluster s' n node' where
  selfId := hself.trans h.selfId
  peerIds := hpeers.trans h.peerIds
  disk := (DiskOk.of_synced hr.invariant.metadata hr.invariant.logSynced).2 ⟨hrec, hlog⟩
  committed := ⟨_, hr.committed⟩
  commit_le := hr.invariant.commit_le
  applied := hr.invariant.applied
  leads hrole := by
    obtain ⟨leader, hl⟩ := Option.isSome_iff_exists.1 (hr.invariant.exists_leader hrole)
    exact ⟨_, (hr.leader hl).lead⟩
  stopped h := by simp [hs] at h
  running _ := hr

/-- A node that a call has stopped. -/
theorem NodeOk.of_stop (h : NodeOk cluster s n node) (hg : Grows LogEntry.term s s')
    (e : RaftNodeError) (hself : node'.selfId = node.selfId) (hpeers : node'.peerIds = node.peerIds)
    (hstate : node'.state = node.state) (hdisk : DiskOk s' n node'.disk)
    (hc : node'.commitIndex = node.commitIndex)
    (hlog : node'.log.log.take node.commitIndex = node.log.log.take node.commitIndex)
    (hle : node.commitIndex ≤ node'.lastIndex)
    (hleads : node'.role = .leader → ∃ L, s'.leader node'.term = some (n, L)) :
    NodeOk cluster s' n (node'.stop e).1 where
  selfId := hself.trans h.selfId
  peerIds := hpeers.trans h.peerIds
  disk := hdisk
  committed := by
    obtain ⟨t, ht⟩ := h.committed
    refine ⟨t, ?_⟩
    change CommittedBy s' t (node'.log.log.take node'.commitIndex)
    rw [hc, hlog]
    exact ht.grows hg
  commit_le := hc.trans_le hle
  applied := by
    change node'.state = .replay (node'.log.log.take node'.commitIndex)
    rw [hstate, hc, hlog, h.applied]
  leads := hleads
  stopped _ := rfl
  running hs := by cases hs

/-- A call that leaves the node as it is and sends nothing. -/
theorem simulates_self (h : NodeOk cluster s n node) {repliedTo : Option AppendEntries}
    {r : RaftNodeResult} (hr : ∀ actions, r = .ok actions → actions.messages = []) :
    Simulates cluster s n repliedTo (node, r) :=
  ⟨s, .refl cluster n s, h, fun actions ha m hm => by simp [hr actions ha] at hm⟩

theorem simulates_stop {repliedTo : Option AppendEntries} {e : RaftNodeError}
    (he : Effect cluster n s s') (h : NodeOk cluster s' n (node'.stop e).1) :
    Simulates cluster s n repliedTo (node'.stop e) :=
  ⟨s', he, h, fun actions ha => by cases ha⟩

/-- A follower needs no more than a committed prefix. -/
theorem RunningOk.of_follower (hinv : node'.Invariant)
    (hc : CommittedBy s' node'.term (node'.log.log.take node'.commitIndex))
    (hr : node'.role = .follower) : RunningOk s' n node' := by
  have hnone : node'.leader = none := hinv.leader_none (by simp [hr])
  refine ⟨hinv, hc, fun h => ?_, fun h => ?_, fun id probe h => ?_⟩
  · simp [hr] at h
  · simp [hnone] at h
  · simp [hinv.reads hnone] at h

/-- The role of a node whose vote is not for itself. -/
theorem role_follower_of_vote
    (h : node.metadata.state.votedFor ≠ some node.election.selfId) : node.role = .follower := by
  by_contra hr
  exact h (RaftElection.facts_of_role hr).2.2

theorem role_follower_of_cachedRole (h : node.election.cachedRole = .follower) :
    node.role = .follower := by
  by_contra hr
  exact hr ((RaftElection.facts_of_role hr).1.trans h)

/-! ## Standing for election -/

/-- Entering the next term and standing in it. -/
theorem exists_stand (hs : s.Sound cluster) {m : RaftMetadata} (h : Recorded s n m) :
    ∃ s', Effect cluster n s s' ∧ s'.log = s.log ∧ s'.leader = s.leader ∧
      s'.committed = s.committed ∧ Recorded s' n ⟨m.currentTerm + 1, some n⟩ ∧
      s'.candidacy n (m.currentTerm + 1) = some (s.log n) ∧
      ∀ L, s.leader (m.currentTerm + 1) ≠ some (n, L) := by
  obtain ⟨s₁, he, hq, hr⟩ := Writes.enter hs h (Nat.lt_succ_self m.currentTerm)
  have hterm : s₁.term n = m.currentTerm + 1 := hr.term
  have hstand : Step cluster.quorum LogEntry.term n s₁ _ := .stand s₁
    (by rw [hterm]; exact hr.vote) fun e hmem => by
      rw [hq.log] at hmem
      have := hs.invariant.log_term n e hmem
      rw [h.term] at this
      omega
  refine ⟨_, he.trans ⟨.single hstand, fun h => h, fun {T c} hv => ?_⟩ rfl, hq.log, hq.leader,
    hq.committed, ⟨hterm, ?_⟩, ?_, fun L hL => ?_⟩
  · simp only [Replication.State.castVote, Replication.update₂_apply] at hv
    split_ifs at hv with hT
    · exact Or.inr ⟨hT.2, by rw [hT.2, hterm]; omega⟩
    · exact Or.inl hv
  · simp [Replication.State.castVote, Replication.update₂_apply, hterm]
  · simp [Replication.update₂_apply, hterm, hq.log]
  · -- a leader of the new term would have voted in it already
    obtain ⟨l, -, hc, -⟩ := hs.invariant.leader_elected hL
    have hle := hs.invariant.vote_le (hs.invariant.candidacy hc).1
    rw [h.term] at hle
    omega

theorem onElectionTimeout_simulates (hs : s.Sound cluster) (h : NodeOk cluster s n node)
    (hstop : node.stopped = false) : Simulates cluster s n none node.onElectionTimeout := by
  have hrun := h.running hstop
  obtain ⟨hrec, hlog⟩ := hrun.facts h.disk
  have hcont := RaftNode.onElectionTimeout_continues hrun.invariant hstop
  obtain ⟨s₂, he, hl, hleader, hcommitted, hr, hc, hne⟩ := exists_stand hs hrec
  have hself : node.election.selfId = n := hrun.invariant.selfId.trans h.selfId
  have hend := RaftElection.startElection_rule node.log (A := fun m =>
      ∃ s', Effect cluster n s s' ∧ s'.log = s.log ∧ Recorded s' n m) hrun.invariant.usable
    hrun.invariant.metadata ⟨s, .refl cluster n s, rfl, hrec⟩
    (by
      obtain ⟨s', he, hq, hr⟩ := Writes.enter hs hrec (Nat.lt_succ_self _)
      exact ⟨s', he, hq.log, hr⟩)
    (by
      rw [hself]
      exact ⟨s₂, he, hl, hr⟩)
  rw [RaftNode.onElectionTimeout, if_neg (by simp [hstop])] at hcont ⊢
  revert hcont hend
  generalize node.election.startElection node.metadata node.log = r
  rintro hcont (⟨-⟩ | ⟨e, he'⟩ | ⟨m, -, hA, e, he'⟩ | ⟨m, hm, -, hn, -⟩)
  · exact simulates_self h fun actions ha => by
      obtain rfl := Except.ok.inj ha
      rfl
  · refine simulates_stop (.refl cluster n s) (h.of_stop (.refl s) _ rfl rfl rfl h.disk rfl rfl
      h.commit_le ?_)
    rcases he' with rfl | rfl
    · exact h.leads
    · exact fun hr => absurd ((role_follower_of_cachedRole rfl).symm.trans hr) (by simp)
  · obtain ⟨s', he, hl', hr'⟩ := hA
    refine simulates_stop he (h.of_stop (he.grows hs) _ rfl rfl rfl ⟨hr', ?_⟩
      rfl rfl h.commit_le ?_)
    · rw [hl']
      exact h.disk.log
    · exact fun hr => absurd ((role_follower_of_cachedRole he').symm.trans hr) (by simp)
  · have hinv := (hcont hstop).1
    have hterm : m.state.currentTerm = node.term + 1 := by rw [hn]; rfl
    refine ⟨s₂, he, h.of_running hstop rfl rfl ⟨hinv, ?_, fun _ => ⟨?_, fun L hL => ?_⟩,
      fun hl => ?_,
      fun id probe hp => ?_⟩ ?_ ?_, ?_⟩
    · refine (hrun.committed.grows (he.grows hs)).mono ?_
      exact (Nat.le_succ _).trans hterm.ge
    · change s₂.candidacy n m.state.currentTerm = some node.log.log
      rw [hterm, ← hlog]
      exact hc
    · change s₂.leader m.state.currentTerm = _ at hL
      rw [hterm, hleader] at hL
      exact hne L hL
    · cases hl
    · cases hp
    · change Recorded s₂ n m.state
      rw [hn, hself]
      exact hr
    · rw [hl]
      exact hlog
    · rintro actions ha msg hmsg
      obtain rfl := Except.ok.inj ha
      simp only [RaftNode.broadcast, List.mem_map] at hmsg
      obtain ⟨peerId, -, rfl⟩ := hmsg
      refine ⟨⟨hself, node.log.log, ?_, (PersistentLog.length_log _).symm,
        PersistentLog.lastTerm_eq _⟩, trivial⟩
      rw [← hlog]
      exact hc

/-! ## Voting -/

/-- A node with a new record, which is the old one or has no vote for the node itself. -/
theorem RunningOk.setMetadata (h : RunningOk s n node) (hq : Quiet s s')
    (hg : Grows LogEntry.term s s') {m : PersistentMetadata}
    (hm : m.state = node.metadata.state ∨ m.state.votedFor ≠ some node.election.selfId)
    (hle : node.term ≤ m.state.currentTerm)
    (hinv : RaftNode.Invariant (if node.term < m.state.currentTerm
      then { node with metadata := m }.dropLeadership else { node with metadata := m })) :
    RunningOk s' n (if node.term < m.state.currentTerm
      then { node with metadata := m }.dropLeadership else { node with metadata := m }) := by
  have hcommitted : CommittedBy s' m.state.currentTerm (node.log.log.take node.commitIndex) :=
    (h.committed.grows hg).mono hle
  rcases hm with hm | hm
  · have hlt : ¬ node.term < m.state.currentTerm := by
      rw [hm]
      exact lt_irrefl _
    rw [if_neg hlt] at hinv ⊢
    have hterm : RaftNode.term { node with metadata := m } = node.term := by
      rw [RaftNode.term, hm]
      rfl
    have hrole : RaftNode.role { node with metadata := m } = node.role := by
      simp [RaftNode.role, RaftElection.role, RaftElection.stale, hm]
    refine ⟨hinv, hcommitted, fun hr => ?_, fun hl => ?_, fun id probe hp => ?_⟩
    · rw [hterm, hq.candidacy, hq.leader]
      exact h.candidate (hrole ▸ hr)
    · rw [hterm]
      exact (h.leader hl).quiet hq
    · rw [hterm]
      exact ⟨((h.reads id probe hp).1).quiet hq, (h.reads id probe hp).2⟩
  · split_ifs at hinv ⊢
    · exact .of_follower hinv hcommitted (role_follower_of_vote hm)
    · exact .of_follower hinv hcommitted (role_follower_of_vote hm)

/-- What a node keeps when its record changes. -/
theorem setMetadata_fields (node : RaftNode) (m : PersistentMetadata) {node' : RaftNode}
    (h : node' = if node.term < m.state.currentTerm then { node with metadata := m }.dropLeadership
      else { node with metadata := m }) :
    node'.selfId = node.selfId ∧ node'.peerIds = node.peerIds ∧ node'.metadata = m ∧
      node'.log = node.log ∧ node'.stopped = node.stopped := by
  split_ifs at h
  · subst h
    exact ⟨rfl, rfl, rfl, rfl, rfl⟩
  · subst h
    exact ⟨rfl, rfl, rfl, rfl, rfl⟩

/-- A role of leader that survives a change of the record was there before. -/
theorem leads_of_metadata (h : NodeOk cluster s n node) (hg : Grows LogEntry.term s s')
    (hself : node.election.selfId = n) {m : PersistentMetadata}
    (hm : m.state = node.metadata.state ∨ m.state.votedFor ≠ some n)
    (hr : RaftNode.role { node with metadata := m } = .leader) :
    ∃ L, s'.leader (RaftNode.term { node with metadata := m }) = some (n, L) := by
  rcases hm with hm | hm
  · have hrole : RaftNode.role { node with metadata := m } = node.role := by
      simp [RaftNode.role, RaftElection.role, RaftElection.stale, hm]
    have hterm : RaftNode.term { node with metadata := m } = node.term := by
      rw [RaftNode.term, hm]
      rfl
    obtain ⟨L, hL⟩ := h.leads (hrole ▸ hr)
    obtain ⟨X, hX, -⟩ := hg.leader hL
    exact ⟨L ++ X, by rw [hterm, hX]⟩
  · rw [← hself] at hm
    rw [role_follower_of_vote hm] at hr
    cases hr

theorem upToDate_of_candidateLog {request : RequestVote} {log : PersistentLog}
    {l : List LogEntry} (h : candidateLogIsUpToDate request log = true)
    (hi : request.lastLogIndex = l.length) (ht : request.lastLogTerm = PersistentLog.lastTermOf l) :
    UpToDate LogEntry.term l log.log := by
  unfold candidateLogIsUpToDate at h
  rw [hi, ht, PersistentLog.lastTerm_eq, ← PersistentLog.length_log] at h
  split_ifs at h with hne
  · exact Or.inl (of_decide_eq_true h)
  · exact Or.inr ⟨(not_not.1 hne).symm, of_decide_eq_true h⟩

theorem onRequestVote_simulates (hs : s.Sound cluster) (h : NodeOk cluster s n node)
    (hstop : node.stopped = false) {envelope : Envelope} {request : RequestVote}
    (hm : envelope.message = .requestVote request) (hok : MessageOk s envelope) :
    Simulates cluster s n none (node.onRequestVote envelope.sender request) := by
  have hrun := h.running hstop
  obtain ⟨hrec, hlog⟩ := hrun.facts h.disk
  have hcont := RaftNode.onRequestVote_continues hrun.invariant hstop envelope.sender request
  have hself : node.election.selfId = n := hrun.invariant.selfId.trans h.selfId
  rw [RaftNode.onRequestVote, if_neg (by simp [hstop])] at hcont ⊢
  split_ifs at hcont ⊢ with hp hc
  · exact simulates_self h fun actions ha => by cases ha
  · exact simulates_self h fun actions ha => by cases ha
  rw [Bool.not_eq_false] at hp
  rw [not_not] at hc
  have hne : request.candidateId ≠ n := by
    rw [hc, ← h.selfId]
    exact RaftNode.isPeer_ne_self hrun.invariant hp
  rw [MessageOk, hm] at hok
  obtain ⟨-, l, hcand, hli, hlt⟩ := hok
  have hend := handleRequestVote_rule node.log request (A := fun m =>
      Writes cluster n s m ∧ (m = node.metadata.state ∨ m.votedFor ≠ some n))
    hrun.invariant.metadata ⟨.refl hrec, Or.inl rfl⟩
    (fun ht => ⟨.enter hs hrec ht, Or.inr (by simp)⟩)
    (fun h0 hup hA => ⟨hA.1.grant h0 (by rw [hc]; exact hcand)
      (by rw [hlog]; exact upToDate_of_candidateLog hup hli hlt),
      Or.inr fun he => hne (Option.some.inj he)⟩)
  have hdone : ∀ {m : PersistentMetadata} {granted : Bool}, m.Synced →
      Writes cluster n s m.state ∧ (m.state = node.metadata.state ∨ m.state.votedFor ≠ some n) →
      (granted = true → m.state = ⟨request.term, some request.candidateId⟩) →
      ∀ {node' : RaftNode}, node' = (if node.term < m.state.currentTerm
        then { node with metadata := m }.dropLeadership else { node with metadata := m }) →
      RaftNode.Continues node node' → ∀ {reset : Bool} {term : ℕ},
      (granted = true → term = request.term) → Simulates cluster s n none (node', .ok
        { messages := [⟨envelope.sender, .requestVoteReply ⟨term, granted⟩⟩]
          resetElectionTimer := reset }) := by
    rintro m granted hm' ⟨⟨s', he, hq, hr⟩, hor⟩ hgrant node' hnode' hcont reset term hterm
    obtain ⟨h1, h2, h3, h4, h5⟩ := setMetadata_fields node m hnode'
    have hinv := (hcont (h5.trans hstop)).1
    have hle : node.term ≤ m.state.currentTerm := by
      rw [← hr.term]
      exact hrec.term.ge.trans ((he.grows hs).term_le n)
    have hrun' : RunningOk s' n node' := by
      rw [hnode'] at hinv ⊢
      exact hrun.setMetadata hq (he.grows hs) (by rwa [hself]) hle hinv
    refine ⟨s', he, h.of_running (h5.trans hstop) h1 h2 hrun' (by rwa [h3]) ?_, ?_⟩
    · rw [hq.log, h4]
      exact hlog
    · rintro actions ha msg hmsg
      obtain rfl := Except.ok.inj ha
      rw [List.mem_singleton] at hmsg
      subst hmsg
      refine ⟨fun hg => ?_, trivial⟩
      have hv := hr.vote
      rw [hgrant hg] at hv
      change s'.vote n term = some envelope.sender
      rw [hterm hg, hv, hc]
  dsimp only at hcont ⊢
  revert hcont hend
  generalize handleRequestVote node.metadata node.log request = r
  rintro hcont (⟨m, hm', hA⟩ | ⟨m, hm', hn, hA⟩ | ⟨m, hst, hA⟩)
  · exact hdone hm' hA (by simp) rfl hcont (by simp)
  · exact hdone hm' hA (fun _ => hn) rfl hcont (fun _ => rfl)
  · obtain ⟨⟨s', he, hq, hr⟩, -⟩ := hA
    refine simulates_stop he (h.of_stop (he.grows hs) _ rfl rfl rfl ⟨hr, ?_⟩ rfl rfl h.commit_le ?_)
    · rw [hq.log]
      exact h.disk.log
    · exact leads_of_metadata h (he.grows hs) hself hst.2

end DistributedKV
