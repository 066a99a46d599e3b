import DistributedKV.Cluster.Elections

/-!
# Leading refines the abstract protocol

Winning an election, appending to the own log, sending it to the peers and committing.
-/

namespace DistributedKV

open Replication (Step Grows Frame CommittedBy)

variable {cluster : Cluster} {s s' : Abstract} {n : ℕ} {node node' : RaftNode}
  {leader leader' : RaftLeaderReplication} {repliedTo : Option AppendEntries}

/-! ## Sending to the peers -/

theorem LeaderOk.setPeer {T c : ℕ} {log : List LogEntry} {ids : Fin 2 → ℕ}
    (h : LeaderOk s n T log c ids leader) {i : Fin 2} {peer : PeerState}
    (hid : peer.id = (leader.peers i).id) (hp : PeerOk s n T log.length peer) :
    LeaderOk s n T log c ids (leader.setPeer i peer) where
  selfId := h.selfId
  term := h.term
  stopped := h.stopped
  lead := h.lead
  ack := h.ack
  committed_le := h.committed_le
  id j := by
    by_cases hj : j = i
    · subst hj
      rw [RaftLeaderReplication.setPeer_self, hid, h.id]
    · rw [RaftLeaderReplication.setPeer_of_ne hj, h.id]
  peer j := by
    by_cases hj : j = i
    · subst hj
      rwa [RaftLeaderReplication.setPeer_self]
    · rw [RaftLeaderReplication.setPeer_of_ne hj]
      exact h.peer j

/-- The requests that a leader builds and repeats. -/
theorem LeaderOk.makeRequest {T c : ℕ} {log : PersistentLog} {ids : Fin 2 → ℕ}
    {election : RaftElection} {metadata : PersistentMetadata} {peerId maxEntries : ℕ}
    {request : AppendEntries} (h : LeaderOk s n T log.log c ids leader)
    (hle : c ≤ log.lastIndex) (hc : CommittedBy s T (log.log.take c))
    (hmake : leader.MakeRequestEnd election metadata log c peerId maxEntries
      (leader', .ok request)) :
    LeaderOk s n T log.log c ids leader' ∧
      SendOk s n repliedTo ⟨peerId, .appendEntries request⟩ := by
  cases hmake with
  | pending i hi _ hp =>
    obtain ⟨h1, h2, -⟩ := (h.peer i).pending hp
    exact ⟨h, ⟨h2, h1⟩, trivial⟩
  | fresh i hi hp k hk hl =>
    have hok : RequestOk s (leader.requestFrom log.log c k maxEntries) := by
      refine ⟨log.log, ?_, ?_, rfl, List.take_prefix _ _, ?_, ?_, fun h0 => absurd rfl h0⟩
      · change s.leader leader.term = some (leader.selfId, _)
        rw [h.term, h.selfId, h.lead]
      · rw [PersistentLog.length_log]
        exact hl
      · rw [PersistentLog.length_log]
        exact hle
      · change CommittedBy s leader.term (log.log.take c)
        rwa [h.term]
    refine ⟨h.setPeer rfl ⟨(h.peer i).match_lt, (h.peer i).next_le, (h.peer i).acked, ?_⟩,
      ⟨h.selfId, hok⟩, trivial⟩
    rintro r hr
    obtain rfl := Option.some.inj hr
    exact ⟨hok, h.selfId, h.term, hk.symm, rfl⟩

theorem LeaderOk.findPeer {T c : ℕ} {log : List LogEntry} {ids : Fin 2 → ℕ}
    (h : LeaderOk s n T log c ids leader) {i : Fin 2} : leader.findPeer (ids i) ≠ none := by
  unfold RaftLeaderReplication.findPeer
  rw [h.id, h.id]
  split_ifs with h0 h1
  · simp
  · simp
  · match i with
    | 0 => exact absurd rfl h0
    | 1 => exact absurd rfl h1

theorem RunningOk.setLeader (h : RunningOk s n node) (hl : node.leader = some leader)
    (hok : LeaderOk s n node.term node.log.log node.commitIndex node.peerIds leader') :
    RunningOk s n { node with leader := some leader' } where
  invariant := h.invariant.setLeader hl (hok.selfId.trans (h.leader hl).selfId.symm)
    (hok.term.trans (h.leader hl).term.symm) (hok.stopped.trans (h.leader hl).stopped.symm)
  committed := h.committed
  candidate := h.candidate
  leader he := by
    obtain rfl := Option.some.inj he
    exact hok
  reads := h.reads

/-- Sending to the peers never fails, and leaves the node and the messages as they should be. -/
theorem RunningOk.queueAppends (h : RunningOk s n node) (repliedTo : Option AppendEntries)
    (hl : node.leader = some leader) {peerIds : List ℕ}
    (hp : ∀ p ∈ peerIds, ∃ i, p = node.peerIds i) (actions : RaftNodeActions)
    (ha : ∀ m ∈ actions.messages, SendOk s n repliedTo m) :
    ∃ leader' messages, node.queueAppends peerIds actions =
        ({ node with leader := some leader' }, some { actions with messages }) ∧
      RunningOk s n { node with leader := some leader' } ∧
      ∀ m ∈ messages, SendOk s n repliedTo m := by
  have hend : node.QueueEnd (LeaderOk s n node.term node.log.log node.commitIndex node.peerIds)
      (SendOk s n repliedTo) False actions (node.queueAppends peerIds actions) := by
    refine RaftNode.queueAppends_rule hl (h.leader hl) _ (fun hP _ hmake =>
      hP.makeRequest h.invariant.commit_le h.committed hmake) (fun {l p e} hP hp' hmake => ?_)
        actions
    obtain ⟨-, hrole, -, hself, hvote⟩ := h.invariant.leader_facts hl
    obtain ⟨i, rfl⟩ := hp p hp'
    have hactive : l.active node.election node.metadata = true := by
      refine RaftNode.leaderActive_iff.2 ⟨hP.stopped, hrole, hP.term.symm, ?_⟩
      rw [hvote, hP.selfId, ← (h.leader hl).selfId, hself]
    rcases hmake.why rfl with hf | hact | hmax | hc | ⟨j, -, h0 | hlt⟩
    · exact hP.findPeer hf
    · rw [hactive] at hact
      cases hact
    · cases hmax
    · exact absurd h.invariant.commit_le (not_le.2 hc)
    · have := (hP.peer j).match_lt
      omega
    · have := (hP.peer j).next_le
      rw [PersistentLog.length_log] at this
      omega
  revert hend
  generalize node.queueAppends peerIds actions = r
  rintro (⟨l, hP, hb⟩ | ⟨l, hP, messages, hM⟩)
  · exact hb.elim
  · exact ⟨l, _, rfl, h.setLeader hl hP, fun m hm => (List.mem_append.1 hm).elim (ha m) (hM m)⟩

theorem RunningOk.queueAppend (h : RunningOk s n node) (repliedTo : Option AppendEntries)
    (hl : node.leader = some leader) (i : Fin 2) (actions : RaftNodeActions)
    (ha : ∀ m ∈ actions.messages, SendOk s n repliedTo m) :
    ∃ leader' messages, node.queueAppend (node.peerIds i) actions =
        ({ node with leader := some leader' }, some { actions with messages }) ∧
      RunningOk s n { node with leader := some leader' } ∧
      ∀ m ∈ messages, SendOk s n repliedTo m := by
  rw [← RaftNode.queueAppends_singleton]
  exact h.queueAppends repliedTo hl (fun p hp => ⟨i, List.mem_singleton.1 hp⟩) actions ha

theorem mem_peers {p : ℕ} (h : p ∈ node.peers) : ∃ i, p = node.peerIds i := by
  simp only [RaftNode.peers, List.mem_cons, List.not_mem_nil, or_false] at h
  rcases h with rfl | rfl
  · exact ⟨0, rfl⟩
  · exact ⟨1, rfl⟩

theorem onHeartbeatTimeout_simulates (h : NodeOk cluster s n node) (hstop : node.stopped = false) :
    Simulates cluster s n none node.onHeartbeatTimeout := by
  have hrun := h.running hstop
  obtain ⟨hrec, hlog⟩ := hrun.facts h.disk
  rw [RaftNode.onHeartbeatTimeout, if_neg (by simp [hstop])]
  cases hl : node.leader with
  | none =>
    exact simulates_self h fun actions ha => by
      obtain rfl := Except.ok.inj ha
      rfl
  | some leader =>
    obtain ⟨leader', messages, hq, hrun', hM⟩ := hrun.queueAppends none hl
      (fun p hp => mem_peers hp) { scheduleHeartbeat := true } (by simp)
    simp only [hrun.invariant.active hl, Bool.true_eq_false, if_false, hq]
    refine ⟨s, .refl cluster n s, h.of_running hstop rfl rfl hrun' hrec hlog,
      fun actions ha m hm => ?_⟩
    obtain rfl := Except.ok.inj ha
    rcases List.mem_append.1 hm with hm | hm
    · exact hM m hm
    · obtain ⟨⟨id, probe⟩, hp, hm⟩ := List.mem_flatMap.1 hm
      cases probe with
      | none => cases hm
      | some probe =>
        obtain ⟨h1, h2, -⟩ := hrun.reads id probe hp
        obtain ⟨p, -, rfl⟩ := List.mem_map.1 hm
        exact ⟨⟨h2, h1⟩, trivial⟩

/-! ## Appending -/

/-- What appending an entry to the log of a leader changes. -/
structure Extended (s s' : Abstract) (n : ℕ) (l : List LogEntry) (e : LogEntry) : Prop where
  term : s'.term = s.term
  vote : s'.vote = s.vote
  candidacy : s'.candidacy = s.candidacy
  committed : s'.committed = s.committed
  log : s'.log n = l ++ [e]
  leader : s'.leader e.term = some (n, l ++ [e])
  ack : s'.ack n e.term (l.length + 1)

theorem exists_extend {log : List LogEntry} {e : LogEntry} (hlog : s.log n = log)
    (ht : s.term n = e.term) (hl : s.leader e.term = some (n, log)) (he : Placed log.length e) :
    ∃ s', Effect cluster n s s' ∧ Extended s s' n log e := by
  have hstep : Step cluster.quorum LogEntry.term n s _ :=
    .extend s e (by rw [ht, hlog, hl]) ht.symm
  refine ⟨_, .of_leader hstep rfl (fun hlogs k x hx => ?_) rfl, rfl, rfl, rfl, rfl, ?_, ?_, ?_⟩
  · rw [hlog] at hx
    rcases Nat.lt_trichotomy k log.length with hk | rfl | hk
    · rw [List.getElem?_append_left hk] at hx
      exact hlogs hl hx
    · simp only [List.getElem?_concat_length, Option.some.injEq] at hx
      rwa [← hx]
    · rw [List.getElem?_eq_none (by simp; omega)] at hx
      cases hx
  · simp [hlog]
  · simp [hlog, ht]
  · exact Or.inr ⟨rfl, ht.symm, by rw [hlog]⟩

theorem LeaderOk.extend {c : ℕ} {log : List LogEntry} {e : LogEntry} {ids : Fin 2 → ℕ}
    (hg : Grows LogEntry.term s s') (hx : Extended s s' n log e)
    (h : LeaderOk s n e.term log c ids leader) :
    LeaderOk s' n e.term (log ++ [e]) c ids leader where
  selfId := h.selfId
  term := h.term
  stopped := h.stopped
  lead := hx.leader
  ack := by
    rw [List.length_append]
    exact hx.ack
  committed_le := by
    rw [hx.committed]
    exact h.committed_le
  id := h.id
  peer i := by
    have hp := (h.peer i).grows hg
    refine ⟨hp.match_lt, hp.next_le.trans ?_, hp.acked, hp.pending⟩
    simp

/-- A command becomes the last entry of a leader's log, and goes to the peers. -/
theorem appendAsLeader_simulates (hs : s.Sound cluster) (h : NodeOk cluster s n node)
    (hstop : node.stopped = false) (command : Command) :
    Simulates cluster s n none (node.appendAsLeader command) := by
  have hrun := h.running hstop
  obtain ⟨hrec, hlog⟩ := hrun.facts h.disk
  rw [RaftNode.appendAsLeader, if_neg (by simp [hstop])]
  cases hl : node.leader with
  | none => exact simulates_self h fun actions ha => by cases ha
  | some leader =>
    have hok := hrun.leader hl
    have hterm : leader.term = node.term := hok.term
    dsimp only
    rw [if_neg (by simp [hrun.invariant.active hl])]
    have happ := leader.appendCommand_rule node.election node.metadata hrun.invariant.logSynced
      command
    revert happ
    generalize leader.appendCommand node.election node.metadata node.log command = r
    -- the abstract state with the new entry
    have hextend : node.log.lastIndex + 1 < uint64Max →
        (LogEntry.mk (node.log.lastIndex + 1) leader.term command).Encodable →
        ∃ s', Effect cluster n s s' ∧ Extended s s' n node.log.log
          ⟨node.log.lastIndex + 1, leader.term, command⟩ := fun hmax he => by
      refine exists_extend hlog ?_ ?_ ⟨?_, he, hmax⟩
      · rw [hterm]
        exact hrec.term
      · rw [hterm]
        exact hok.lead
      · rw [PersistentLog.length_log]
    rintro (⟨e, -, -⟩ | ⟨log', hmax, he, hf⟩ | ⟨log', hs', hmax, he, hlog'⟩)
    · have hself : NodeOk cluster s n { node with leader := some leader } :=
        h.of_running hstop rfl rfl (hrun.setLeader hl hok) hrec hlog
      cases e with
      | invalidCommand => exact simulates_self hself fun actions ha => by cases ha
      | notLeader | unknownPeer | invalidBatchSize | indexExhausted | persistenceError
        | inconsistentState =>
        exact simulates_stop (.refl cluster n s)
          (h.of_stop (.refl s) _ rfl rfl rfl h.disk rfl rfl h.commit_le h.leads)
    · rcases hf.durable with hd | hd
      · refine simulates_stop (.refl cluster n s)
          (h.of_stop (.refl s) _ rfl rfl rfl ⟨h.disk.recorded, ?_⟩ rfl (by rw [hf.log]) ?_ h.leads)
        · rw [hlog, ← hd]
          rfl
        · rw [RaftNode.lastIndex, ← PersistentLog.length_log, hf.log, PersistentLog.length_log]
          exact h.commit_le
      · obtain ⟨s', hext, hx⟩ := hextend hmax he
        refine simulates_stop hext
          (h.of_stop (hext.grows hs) _ rfl rfl rfl ⟨⟨?_, ?_⟩, ?_⟩ rfl (by rw [hf.log])
            ?_ fun _ => ?_)
        · rw [hx.term]
          exact h.disk.recorded.term
        · rw [hx.vote]
          exact h.disk.recorded.vote
        · rw [hx.log, ← hd]
          rfl
        · rw [RaftNode.lastIndex, ← PersistentLog.length_log, hf.log, PersistentLog.length_log]
          exact h.commit_le
        · exact ⟨_, hterm ▸ hx.leader⟩
    · obtain ⟨s', hext, hx⟩ := hextend hmax he
      have hg := hext.grows hs
      have hok' := hok
      rw [← hterm] at hok'
      have hstore := hrun.invariant.toStoreInvariant.appendEntry hs' hlog' rfl he hterm
      have hinv := (hrun.invariant.setLog hstore).setLeader hl rfl rfl rfl
      have hrun' : RunningOk s' n { node with log := log', leader := some leader } := by
        refine ⟨hinv, ?_, fun hr => ?_, fun hl' => ?_, hrun.reads.grows hg⟩
        · have := hrun.committed.grows hg
          rwa [← hrun.invariant.take_append hlog'] at this
        · have hrole := (hrun.invariant.leader_facts hl).2.1
          exact absurd (hrole.symm.trans hr) (by simp)
        · obtain rfl := Option.some.inj hl'
          have hext := hok'.extend hg hx
          rw [← hlog'] at hext
          change LeaderOk s' n leader.term log'.log _ _ leader at hext
          rwa [hterm] at hext
      obtain ⟨leader', messages, hq, hrun'', hM⟩ := hrun'.queueAppends none rfl
        (fun p hp => mem_peers hp) { proposedIndex := some (node.log.lastIndex + 1) } (by simp)
      dsimp only at hq ⊢
      rw [hq]
      refine ⟨s', hext, h.of_running hstop rfl rfl hrun'' ⟨?_, ?_⟩ ?_, fun actions ha m hm => ?_⟩
      · rw [hx.term]
        exact hrec.term
      · rw [hx.vote]
        exact hrec.vote
      · rw [hx.log, hlog']
      · obtain rfl := Except.ok.inj ha
        exact hM m hm

theorem propose_simulates (hs : s.Sound cluster) (h : NodeOk cluster s n node)
    (hstop : node.stopped = false) (command : Command) :
    Simulates cluster s n none (node.propose command) := by
  rw [RaftNode.propose, if_neg (by simp [hstop])]
  split
  · exact simulates_self h fun actions ha => by cases ha
  · split_ifs
    · exact simulates_self h fun actions ha => by cases ha
    · exact simulates_self h fun actions ha => by cases ha
    · exact appendAsLeader_simulates hs h hstop command

/-! ## Winning an election -/

/-- Two members that voted for a candidate rule out any other leader of the term. -/
theorem leader_eq_of_votes (hs : s.Sound cluster) {p T c : ℕ} {L : List LogEntry}
    (hn : n ∈ cluster.members) (hp : p ∈ cluster.members) (hne : n ≠ p)
    (hvn : s.vote n T = some n) (hvp : s.vote p T = some n) (hL : s.leader T = some (c, L)) :
    c = n := by
  obtain ⟨l, -, -, Q, hQ, hv⟩ := hs.invariant.leader_elected hL
  obtain ⟨x, hx, hxQ⟩ := cluster.quorum.meet
    (QuorumSystem.majority_pair cluster.card_members hn hp hne) hQ
  have hc := (hv x hxQ).1
  rcases Finset.mem_insert.1 hx with rfl | hx
  · rw [hvn] at hc
    exact (Option.some.inj hc).symm
  · rw [Finset.mem_singleton.1 hx, hvp] at hc
    exact (Option.some.inj hc).symm

/-- What winning the election of a term changes. -/
structure ElectedIn (s s' : Abstract) (n T : ℕ) : Prop where
  term : s'.term = s.term
  vote : s'.vote = s.vote
  log : s'.log = s.log
  committed : s'.committed = s.committed
  leader : s'.leader T = some (n, s.log n)

theorem exists_elect (hs : s.Sound cluster) {p T : ℕ} (hn : n ∈ cluster.members)
    (hp : p ∈ cluster.members) (hne : n ≠ p) (ht : s.term n = T)
    (hc : s.candidacy n T = some (s.log n)) (hl : ∀ L, s.leader T ≠ some (n, L))
    (hvn : s.vote n T = some n) (hvp : s.vote p T = some n) :
    ∃ s', Effect cluster n s s' ∧ ElectedIn s s' n T ∧ s.committed T = 0 := by
  have hnone : s.leader T = none := by
    cases hL : s.leader T with
    | none => rfl
    | some cL =>
      obtain ⟨c, L⟩ := cL
      obtain rfl := leader_eq_of_votes hs hn hp hne hvn hvp hL
      exact absurd hL (hl L)
  subst ht
  have hstep : Step cluster.quorum LogEntry.term n s _ := .elect s hc hnone
    ⟨{n, p}, QuorumSystem.majority_pair cluster.card_members hn hp hne, fun x hx => by
      rcases Finset.mem_insert.1 hx with rfl | hx
      · exact hvn
      · rwa [Finset.mem_singleton.1 hx]⟩
  refine ⟨_, .of_leader hstep rfl (fun _ k e he => ?_) rfl, ⟨rfl, rfl, rfl, rfl, ?_⟩, ?_⟩
  · exact hs.placed (hs.invariant.log_backed n) he
  · simp
  · by_contra h0
    obtain ⟨c, L, -, -, hL, -⟩ := hs.invariant.committed _ h0
    rw [hnone] at hL
    cases hL

/-- The replication object of a leader that has appended its first entry. -/
theorem LeaderOk.create {log : List LogEntry} {e : LogEntry} {ids : Fin 2 → ℕ} {c T : ℕ}
    (hx : Extended s s' n log e) (ht : e.term = T) (hc : s.committed T = 0)
    (hl : leader = ⟨n, T, fun i => ⟨ids i, ⟨log.length + 1, 0⟩, none⟩, false⟩) :
    LeaderOk s' n T (log ++ [e]) c ids leader := by
  subst ht hl
  refine ⟨rfl, rfl, rfl, hx.leader, ?_, ?_, fun _ => rfl, fun i =>
    ⟨Nat.succ_pos _, by simp, fun h => absurd rfl h, fun h => by cases h⟩⟩
  · rw [List.length_append]
    exact hx.ack
  · rw [hx.committed, hc]
    exact Nat.zero_le _

theorem onVoteReply_simulates (hs : s.Sound cluster) (hn : n ∈ cluster.members)
    (h : NodeOk cluster s n node) (hstop : node.stopped = false) {envelope : Envelope}
    {reply : RequestVoteReply} (hm : envelope.message = .requestVoteReply reply)
    (hto : envelope.receiver = n) (hok : MessageOk s envelope) :
    Simulates cluster s n none (node.onVoteReply envelope.sender reply) := by
  have hrun := h.running hstop
  obtain ⟨hrec, hlog⟩ := hrun.facts h.disk
  have hself : node.election.selfId = n := hrun.invariant.selfId.trans h.selfId
  have hcont := RaftNode.onVoteReply_continues hrun.invariant hstop envelope.sender reply
  rw [RaftNode.onVoteReply, if_neg (by simp [hstop])] at hcont ⊢
  by_cases hp : node.isPeer envelope.sender = false
  · rw [if_pos hp]
    exact simulates_self h fun actions ha => by cases ha
  rw [if_neg hp] at hcont ⊢
  have hend := RaftElection.handleVoteReply_rule envelope.sender reply (A := fun m =>
      Writes cluster n s m) hrun.invariant.usable hrun.invariant.metadata (.refl hrec)
    hrun.invariant.votes (fun ht => .enter hs hrec ht)
  revert hcont hend
  generalize node.election.handleVoteReply node.metadata envelope.sender reply = r
  rintro hcont (⟨hr⟩ | ⟨m, hm', hA⟩ | ⟨e, he', m, -, hA⟩ | ⟨replied, hr⟩ |
    ⟨replied, votes, hr, -, hterm, hgranted⟩)
  · exact simulates_self h fun actions ha => by
      obtain rfl := Except.ok.inj ha
      rfl
  · obtain ⟨s', he, hq, hr'⟩ := hA
    have hinv := (hcont hstop).1
    have hle : node.term ≤ m.state.currentTerm := by
      rw [← hr'.term]
      exact hrec.term.ge.trans ((he.grows hs).term_le n)
    refine ⟨s', he, h.of_running hstop rfl rfl (.of_follower hinv ?_
      (role_follower_of_cachedRole rfl))
      hr' ?_, fun actions ha msg hmsg => ?_⟩
    · exact (hrun.committed.grows (he.grows hs)).mono hle
    · rw [hq.log]
      exact hlog
    · obtain rfl := Except.ok.inj ha
      cases hmsg
  · obtain ⟨s', he, hq, hr'⟩ := hA
    refine simulates_stop he (h.of_stop (he.grows hs) _ rfl rfl rfl ⟨hr', ?_⟩ rfl rfl
      h.commit_le ?_)
    · rw [hq.log]
      exact h.disk.log
    · exact fun hr => absurd ((role_follower_of_cachedRole he').symm.trans hr) (by simp)
  · have hinv := (hcont hstop).1
    have hrun' : RunningOk s n { node with election := { node.election with replied } } :=
      ⟨hinv, hrun.committed, hrun.candidate, hrun.leader, hrun.reads⟩
    refine ⟨s, .refl cluster n s, h.of_running hstop rfl rfl hrun' hrec hlog,
      fun actions ha msg hmsg => ?_⟩
    obtain rfl := Except.ok.inj ha
    cases hmsg
  · -- the election is won
    clear hcont
    obtain ⟨-, hte, hvote⟩ := RaftElection.facts_of_role (by rw [hr]; simp)
    rw [hself] at hvote
    obtain ⟨hcand, hnot⟩ := hrun.candidate hr
    obtain ⟨i, hi⟩ : ∃ i, envelope.sender = node.peerIds i := by
      simp only [RaftNode.isPeer, decide_eq_false_iff_not, not_not] at hp
      exact hp.elim (fun h => ⟨0, h⟩) fun h => ⟨1, h⟩
    have hsender : envelope.sender ∈ cluster.members := by
      rw [hi, h.peerIds]
      exact cluster.peerIds_mem n hn i
    have hne : n ≠ envelope.sender := by
      rw [hi, h.peerIds]
      exact (cluster.peerIds_ne_self n hn i).symm
    rw [MessageOk, hm] at hok
    have hvp : s.vote envelope.sender node.term = some n := by
      have hv := hok hgranted
      rwa [hto, hterm] at hv
    obtain ⟨s₁, he₁, hx₁, hzero⟩ := exists_elect hs hn hsender hne hrec.term
      (by rw [hlog]; exact hcand) hnot (hrec.vote.trans hvote) hvp
    have hg₁ := he₁.grows hs
    have hdisk₁ : DiskOk s₁ n node.disk := ⟨⟨by rw [hx₁.term]; exact h.disk.recorded.term,
      by rw [hx₁.vote]; exact h.disk.recorded.vote⟩, by rw [hx₁.log]; exact h.disk.log⟩
    generalize he' : ({ node.election with replied, grantedVotes := votes, cachedRole := .leader } :
      RaftElection) = election
    obtain ⟨hself', hpeers', hu', hc', hte'⟩ : election.selfId = node.selfId ∧
        election.peerIds = node.peerIds ∧ election.unusable = false ∧
        election.cachedRole = .leader ∧ node.term = election.electionTerm := by
      rw [← he']
      exact ⟨hrun.invariant.selfId, hrun.invariant.peerIds, hrun.invariant.usable, rfl, hte⟩
    dsimp only
    split
    · exact simulates_stop he₁
        (h.of_stop hg₁ _ rfl rfl rfl hdisk₁ rfl rfl h.commit_le fun _ => ⟨_, hx₁.leader⟩)
    · next leader hcreate =>
      have hl := RaftLeaderReplication.create_eq_some hcreate
      have hlterm : leader.term = node.term := by rw [hl]; rfl
      have happ := leader.appendCommand_rule election node.metadata hrun.invariant.logSynced {}
      revert happ
      generalize leader.appendCommand election node.metadata node.log {} = r
      -- the abstract state with the first entry of the term
      have hextend : node.log.lastIndex + 1 < uint64Max →
          (LogEntry.mk (node.log.lastIndex + 1) leader.term {}).Encodable →
          ∃ s₂, Effect cluster n s s₂ ∧ Extended s₁ s₂ n node.log.log
            ⟨node.log.lastIndex + 1, leader.term, {}⟩ := fun hmax he => by
        have hext : ∃ s₂, Effect cluster n s₁ s₂ ∧ Extended s₁ s₂ n node.log.log
            ⟨node.log.lastIndex + 1, leader.term, {}⟩ := by
          refine exists_extend (by rw [hx₁.log, hlog]) ?_ ?_ ⟨?_, he, hmax⟩
          · rw [hx₁.term, hrec.term, hlterm]
            rfl
          · rw [hlterm, ← hlog]
            exact hx₁.leader
          · rw [PersistentLog.length_log]
        obtain ⟨s₂, he₂, hx₂⟩ := hext
        exact ⟨s₂, he₁.trans he₂ (by rw [hx₂.term]), hx₂⟩
      rintro (⟨e, -, -⟩ | ⟨log', hmax, he, hf⟩ | ⟨log', hs', hmax, he, hlog'⟩)
      · exact simulates_stop he₁
          (h.of_stop hg₁ _ rfl rfl rfl hdisk₁ rfl rfl h.commit_le fun _ => ⟨_, hx₁.leader⟩)
      · rcases hf.durable with hd | hd
        · refine simulates_stop he₁ (h.of_stop hg₁ _ rfl rfl rfl ⟨hdisk₁.recorded, ?_⟩ rfl
            (by rw [hf.log]) ?_ fun _ => ⟨_, hx₁.leader⟩)
          · rw [hx₁.log, hlog, ← hd]
            rfl
          · rw [RaftNode.lastIndex, ← PersistentLog.length_log, hf.log, PersistentLog.length_log]
            exact h.commit_le
        · obtain ⟨s₂, he₂, hx₂⟩ := hextend hmax he
          refine simulates_stop he₂ (h.of_stop (he₂.grows hs) _ rfl rfl rfl ⟨⟨?_, ?_⟩, ?_⟩ rfl
            (by rw [hf.log]) ?_ fun _ => ⟨_, hlterm ▸ hx₂.leader⟩)
          · rw [hx₂.term]
            exact hdisk₁.recorded.term
          · rw [hx₂.vote]
            exact hdisk₁.recorded.vote
          · rw [hx₂.log, ← hd]
            rfl
          · rw [RaftNode.lastIndex, ← PersistentLog.length_log, hf.log, PersistentLog.length_log]
            exact h.commit_le
      · obtain ⟨s₂, he₂, hx₂⟩ := hextend hmax he
        have hg₂ := he₂.grows hs
        have hlself : leader.selfId = node.selfId := by
          rw [hl]
          exact hself'
        have hinv := hrun.invariant.becomeLeader hself' hpeers' hu' hc' hte'
          (h.selfId ▸ hvote) hlself hlterm (by rw [hl]) hs' hlog' rfl he hlterm
        have hlead : LeaderOk s₂ n node.term log'.log node.commitIndex node.peerIds leader := by
          rw [hlog']
          refine .create hx₂ hlterm (by rw [hx₁.committed]; exact hzero) ?_
          rw [hl, hself', h.selfId, hpeers', PersistentLog.length_log]
          rfl
        have hrun' : RunningOk s₂ n { node with
            election, log := log', leader := some leader, knownLeader := some node.selfId } := by
          refine ⟨hinv, ?_, fun hr => ?_, fun hl' => ?_, hrun.reads.grows hg₂⟩
          · have hcommitted := hrun.committed.grows hg₂
            rwa [← hrun.invariant.take_append hlog'] at hcommitted
          · exact absurd ((hinv.leader_facts rfl).2.1.symm.trans hr) (by simp)
          · obtain rfl := Option.some.inj hl'
            exact hlead
        obtain ⟨leader', messages, hq, hrun'', hM⟩ := hrun'.queueAppends none rfl
          (fun p hp => mem_peers hp) { scheduleHeartbeat := true } (by simp)
        dsimp only at hq ⊢
        rw [hq]
        refine ⟨s₂, he₂, h.of_running hstop rfl rfl hrun'' ⟨?_, ?_⟩ ?_, fun actions ha m hm => ?_⟩
        · rw [hx₂.term, hx₁.term]
          exact hrec.term
        · rw [hx₂.vote, hx₁.vote]
          exact hrec.vote
        · rw [hx₂.log, hlog']
        · obtain rfl := Except.ok.inj ha
          exact hM m hm

/-! ## Reads -/

/-- The probes that a leader starts. -/
theorem RunningOk.readProbe (h : RunningOk s n node) (hself : node.selfId = n)
    (hl : node.leader = some leader) (id : ℕ) : RequestOk s (node.readProbe id) := by
  refine ⟨node.log.log, ?_, Nat.zero_le _, rfl, List.nil_prefix, ?_, h.committed,
    fun _ => ⟨rfl, rfl⟩⟩
  · change s.leader node.term = some (node.selfId, node.log.log)
    rw [hself, (h.leader hl).lead]
  · rw [PersistentLog.length_log]
    exact h.invariant.commit_le

theorem RunningOk.setReadRounds (h : RunningOk s n node) (hl : node.leader = some leader)
    {rounds : List (ℕ × Option AppendEntries)} (next : ℕ)
    (hr : ReadsOk s n node.term node.commitIndex rounds) :
    RunningOk s n { node with readRounds := rounds, nextReadId := next } where
  invariant := h.invariant.setReadRounds hl rounds next
  committed := h.committed
  candidate := h.candidate
  leader := h.leader
  reads := hr

theorem RunningOk.startWaitingReads (h : RunningOk s n node)
    (repliedTo : Option AppendEntries) (hself : node.selfId = n) (hl : node.leader = some leader)
    (actions : RaftNodeActions)
    (ha : ∀ m ∈ actions.messages, SendOk s n repliedTo m) :
    ∃ rounds messages, node.startWaitingReads actions =
        ({ node with readRounds := rounds }, { actions with messages }) ∧
      RunningOk s n { node with readRounds := rounds } ∧
      ∀ m ∈ messages, SendOk s n repliedTo m := by
  rw [RaftNode.startWaitingReads]
  split_ifs with hc
  · exact ⟨node.readRounds, actions.messages, rfl, h, ha⟩
  · refine ⟨_, _, rfl, h.setReadRounds hl node.nextReadId fun id probe hp => ?_, fun m hm => ?_⟩
    · obtain ⟨⟨id', o⟩, hmem, heq⟩ := List.mem_map.1 hp
      simp only [Prod.mk.injEq, Option.some.injEq] at heq
      obtain ⟨rfl, rfl⟩ := heq
      cases o with
      | none => exact ⟨h.readProbe hself hl id', hself, rfl, le_rfl, rfl⟩
      | some probe => exact h.reads id' probe hmem
    · rcases List.mem_append.1 hm with hm | hm
      · exact ha m hm
      · obtain ⟨⟨id, o⟩, -, hm⟩ := List.mem_flatMap.1 hm
        cases o with
        | some probe => cases hm
        | none =>
          obtain ⟨p, -, rfl⟩ := List.mem_map.1 hm
          exact ⟨⟨hself, h.readProbe hself hl id⟩, trivial⟩

theorem readBarrier_simulates (h : NodeOk cluster s n node) (hstop : node.stopped = false) :
    Simulates cluster s n none node.readBarrier := by
  have hrun := h.running hstop
  obtain ⟨hrec, hlog⟩ := hrun.facts h.disk
  rw [RaftNode.readBarrier, if_neg (by simp [hstop])]
  cases hl : node.leader with
  | none => exact simulates_self h fun actions ha => by cases ha
  | some leader =>
    dsimp only
    rw [if_neg (by simp [hrun.invariant.active hl])]
    split_ifs
    · exact simulates_stop (.refl cluster n s)
        (h.of_stop (.refl s) _ rfl rfl rfl h.disk rfl rfl h.commit_le h.leads)
    · have hreads : ReadsOk s n node.term node.commitIndex
          (OrderedMap.emplace node.nextReadId none node.readRounds) := by
        intro id probe hp
        rcases OrderedMap.mem_emplace hp with hp | hp
        · simp at hp
        · exact hrun.reads id probe hp
      have hrun' := hrun.setReadRounds hl ((node.nextReadId + 1) % 2 ^ 64) hreads
      obtain ⟨rounds, messages, hw, hrun'', hM⟩ := hrun'.startWaitingReads none
        h.selfId hl { startedReadId := some node.nextReadId } (by simp)
      rw [← hl, hw]
      refine ⟨s, .refl cluster n s, h.of_running hstop rfl rfl hrun'' hrec hlog,
        fun actions ha m hm => ?_⟩
      obtain rfl := Except.ok.inj ha
      exact hM m hm

end DistributedKV
