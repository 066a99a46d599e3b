import DistributedKV.Raft.NodeElection

/-!
# A leader and one peer

The exchange of `Raft/Repair` between two whole nodes whose storage works. `Heads` is a leader with
a request on its way to one of its peers. A heartbeat sends the request, the peer takes it or not,
and the leader draws its conclusions from the reply: `Pair.round` is such a round. It brings the
leader's `gap` to the peer down, and once the peer has all entries it has them all committed.
-/

namespace DistributedKV

namespace RaftNode

variable {node : RaftNode} {leader leader' : RaftLeaderReplication} {i j : Fin 2}
  {request : AppendEntries}

/-! ## Leaders -/

/-- A request that a leader waits to be answered: it is cut from its log, names what is committed
and carries something if there is something to send. -/
structure Awaits (node : RaftNode) (request : AppendEntries) : Prop where
  cut : request.CutFrom node.log.log
  term : request.term = node.term
  leaderId : request.leaderId = node.selfId
  leaderCommit : request.leaderCommit = node.commitIndex
  entries : request.prevLogIndex < node.lastIndex → request.entries ≠ []

/-- A leader, and what its peer at position `i` is to be sent. -/
structure Heads (node : RaftNode) (i : Fin 2) (leader : RaftLeaderReplication) : Prop where
  invariant : node.Invariant
  running : node.stopped = false
  leads : node.leader = some leader
  bounds : LeaderBounds node leader
  pending : ∀ {request}, (leader.peers i).pending = some request → node.Awaits request

theorem LeaderBounds.findPeer (h : LeaderBounds node leader)
    (hne : node.peerIds 0 ≠ node.peerIds 1) (j : Fin 2) :
    leader.findPeer (node.peerIds j) = some j := by
  rw [RaftLeaderReplication.findPeer, h.id, h.id]
  obtain rfl | rfl := position_cases j
  · exact if_pos rfl
  · rw [if_neg hne, if_pos rfl]

/-- A fresh request is one that the leader waits for. -/
theorem Heads.awaits_requestFrom (h : node.Heads i leader) {k : ℕ} (hk : k ≤ node.lastIndex) :
    node.Awaits (leader.requestFrom node.log.log node.commitIndex k 4) := by
  obtain ⟨-, -, hterm, hself, -⟩ := h.invariant.leader_facts h.leads
  refine ⟨leader.cutFrom_requestFrom ?_ _ _, hterm, hself, rfl, fun hlt hnil => ?_⟩
  · rw [PersistentLog.length_log]
    exact hk
  · have hlen := congrArg List.length hnil
    simp only [RaftLeaderReplication.requestFrom, List.length_take, List.length_drop,
      PersistentLog.length_log, List.length_nil] at hlen
    change k < node.lastIndex at hlt
    rw [lastIndex] at hlt
    omega

/-- A fresh request to a peer. -/
theorem Heads.setPending (h : node.Heads i leader) (hawaits : node.Awaits request)
    (hbounds : LeaderBounds node
      (leader.setPeer j { leader.peers j with pending := some request })) :
    ∃ leader', leader' = leader.setPeer j { leader.peers j with pending := some request } ∧
      Heads { node with leader := some leader' } i leader' ∧
      (leader'.peers i).progress = (leader.peers i).progress ∧
      (j = i → (leader'.peers i).pending = some request) ∧
      (j ≠ i → leader'.peers i = leader.peers i) := by
  have hsame : Invariant { node with
      leader := some (leader.setPeer j { leader.peers j with pending := some request }) } :=
    h.invariant.setLeader h.leads rfl rfl rfl
  by_cases hj : j = i
  · subst hj
    refine ⟨_, rfl, ⟨hsame, h.running, rfl, ⟨hbounds.id, hbounds.peer, hbounds.plain⟩,
      fun hr => ?_⟩, ?_, fun _ => ?_, fun hne => absurd rfl hne⟩
    · rw [RaftLeaderReplication.setPeer_self] at hr
      obtain rfl := Option.some.inj hr
      exact ⟨hawaits.cut, hawaits.term, hawaits.leaderId, hawaits.leaderCommit, hawaits.entries⟩
    · rw [RaftLeaderReplication.setPeer_self]
    · rw [RaftLeaderReplication.setPeer_self]
  · have hpeer : (leader.setPeer j { leader.peers j with pending := some request }).peers i =
        leader.peers i := RaftLeaderReplication.setPeer_of_ne (Ne.symm hj) _
    refine ⟨_, rfl, ⟨hsame, h.running, rfl, ⟨hbounds.id, hbounds.peer, hbounds.plain⟩,
      fun hr => ?_⟩, ?_, fun heq => absurd heq hj, fun _ => hpeer⟩
    · rw [hpeer] at hr
      have hold := h.pending hr
      exact ⟨hold.cut, hold.term, hold.leaderId, hold.leaderCommit, hold.entries⟩
    · rw [hpeer]

/-- Sending to a peer succeeds, and leaves the other peer alone. -/
theorem Heads.queueAppend (h : node.Heads i leader) (j : Fin 2) (actions : RaftNodeActions) :
    ∃ leader' request, node.queueAppend (node.peerIds j) actions =
        ({ node with leader := some leader' },
          some { actions with
            messages := actions.messages ++ [⟨node.peerIds j, .appendEntries request⟩] }) ∧
      Heads { node with leader := some leader' } i leader' ∧
      (leader'.peers i).progress = (leader.peers i).progress ∧
      (j = i → (leader'.peers i).pending = some request) ∧
      (j ≠ i → leader'.peers i = leader.peers i) := by
  have hfind := h.bounds.findPeer h.invariant.peerIds_ne j
  have hactive : leader.active node.election node.metadata = true := h.invariant.active h.leads
  have hlt := (h.bounds.peer j).match_lt
  have hle := (h.bounds.peer j).next_le
  have hcommit : node.commitIndex ≤ node.log.lastIndex := h.invariant.commit_le
  have hself : { node with leader := some leader } = node := by rw [← h.leads]
  rw [RaftNode.queueAppend, h.leads]
  dsimp only
  cases hp : (leader.peers j).pending with
  | some request =>
    have hmake : leader.makeRequest node.election node.metadata node.log node.commitIndex
        (node.peerIds j) 4 = (leader, .ok request) := by
      simp [RaftLeaderReplication.makeRequest, hfind, hactive, hp, not_lt.2 hcommit]
    rw [hmake]
    refine ⟨leader, request, rfl, ?_, rfl, ?_, fun _ => rfl⟩
    · rw [hself]
      exact h
    · rintro rfl
      exact hp
  | none =>
    obtain ⟨k, hnext⟩ : ∃ k, (leader.peers j).progress.nextIndex = k + 1 :=
      Nat.exists_eq_succ_of_ne_zero (Nat.ne_of_gt (Nat.zero_lt_of_lt hlt))
    have hk : k ≤ node.lastIndex := by omega
    have hmake := RaftLeaderReplication.makeRequest_eq hfind hactive hp hnext hk hcommit
      (show 4 ≠ 0 by decide)
    have hawaits := h.awaits_requestFrom hk
    have hbounds : LeaderBounds node (leader.setPeer j { leader.peers j with
        pending := some (leader.requestFrom node.log.log node.commitIndex k 4) }) := by
      have hend := leader.makeRequest_rule node.election node.metadata node.log node.commitIndex
        (node.peerIds j) 4
      rw [hmake] at hend
      exact h.bounds.makeRequest hend
    obtain ⟨leader', hleader', hsent⟩ := h.setPending hawaits hbounds
    rw [hmake, ← hleader']
    exact ⟨leader', _, rfl, hsent⟩

/-- Sending to both peers succeeds, and the peer at position `i` is sent what the leader waits to
be answered. -/
theorem Heads.queueAppends (h : node.Heads i leader) (actions : RaftNodeActions) :
    ∃ leader' request messages, node.queueAppends node.peers actions =
        ({ node with leader := some leader' },
          some { actions with messages := actions.messages ++ messages }) ∧
      Heads { node with leader := some leader' } i leader' ∧
      (leader'.peers i).progress = (leader.peers i).progress ∧
      (leader'.peers i).pending = some request ∧
      ⟨node.peerIds i, .appendEntries request⟩ ∈ messages := by
  obtain ⟨first, request₀, hfirst, h₀, hprogress₀, hpending₀, -⟩ := h.queueAppend 0 actions
  obtain ⟨second, request₁, hsecond, h₁, hprogress₁, hpending₁, hkept₁⟩ := h₀.queueAppend 1
    { actions with messages := actions.messages ++ [⟨node.peerIds 0, .appendEntries request₀⟩] }
  have hqueue : node.queueAppends node.peers actions =
      ({ node with leader := some second },
        some { actions with
          messages := actions.messages ++ [⟨node.peerIds 0, .appendEntries request₀⟩,
            ⟨node.peerIds 1, .appendEntries request₁⟩] }) := by
    rw [peers, RaftNode.queueAppends, hfirst]
    dsimp only at hsecond ⊢
    rw [queueAppends_singleton, hsecond]
    simp
  obtain rfl | rfl := position_cases i
  · refine ⟨second, request₀, _, hqueue, h₁, hprogress₁.trans hprogress₀, ?_, List.mem_cons_self⟩
    rw [hkept₁ (by decide), hpending₀ rfl]
  · exact ⟨second, request₁, _, hqueue, h₁, hprogress₁.trans hprogress₀, hpending₁ rfl,
      List.mem_cons_of_mem _ List.mem_cons_self⟩

/-- A heartbeat sends the peer what the leader waits to be answered. -/
theorem Heads.onHeartbeatTimeout (h : node.Heads i leader) :
    ∃ leader' request actions, node.onHeartbeatTimeout =
        ({ node with leader := some leader' }, .ok actions) ∧
      Heads { node with leader := some leader' } i leader' ∧
      (leader'.peers i).progress = (leader.peers i).progress ∧
      (leader'.peers i).pending = some request ∧
      ⟨node.peerIds i, .appendEntries request⟩ ∈ actions.messages := by
  obtain ⟨leader', request, messages, hqueue, h', hprogress, hpending, hmem⟩ :=
    h.queueAppends { scheduleHeartbeat := true }
  rw [RaftNode.onHeartbeatTimeout, if_neg (by simp [h.running]), h.leads]
  dsimp only
  rw [if_neg (by simp [h.invariant.active h.leads]), hqueue]
  exact ⟨leader', request, _, rfl, h', hprogress, hpending,
    List.mem_append_left _ (List.mem_append_right _ hmem)⟩

/-! ## Winning and proposing -/

/-- A leader appends an entry for which there is room, if its storage works. -/
theorem appendCommand_works {election : RaftElection} {metadata : PersistentMetadata}
    {log : PersistentLog} {command : Command}
    (hactive : leader.active election metadata = true) (hs : log.Synced) (hw : log.Working)
    (hpacked : log.Packed) (hlast : log.lastIndex + 1 < uint64Max)
    (he : (LogEntry.mk (log.lastIndex + 1) leader.term command).Encodable)
    (hroom : log.fileSize +
      PersistentLog.recordSize ⟨log.lastIndex + 1, leader.term, command⟩ ≤ offMax) :
    ∃ log', leader.appendCommand election metadata log command =
        (leader, log', .ok (log.lastIndex + 1)) ∧ log'.Synced ∧ log'.Working ∧ log'.Packed ∧
      log'.log = log.log ++ [⟨log.lastIndex + 1, leader.term, command⟩] := by
  obtain ⟨log', happend, hw', hlog', -⟩ := hw.append rfl he hroom
  have hpacked' := hpacked.append ⟨log.lastIndex + 1, leader.term, command⟩
  rw [happend] at hpacked'
  have hs' : log'.Synced := by
    rcases PersistentLog.append_cases hs ⟨log.lastIndex + 1, leader.term, command⟩ with
      ⟨hindex, -⟩ | ⟨hbad, -⟩ | ⟨-, -, ⟨store, hstore, hsynced, -⟩ | ⟨store, hstore, -⟩⟩
    · exact absurd rfl hindex
    · exact absurd he hbad
    · rw [happend] at hstore
      rwa [(Prod.mk.inj hstore).1]
    · rw [happend] at hstore
      cases (Prod.mk.inj hstore).2
  refine ⟨log', ?_, hs', hw', hpacked', hlog'⟩
  rw [RaftLeaderReplication.appendCommand, if_neg (by simp [hactive]), if_neg (by omega)]
  dsimp only
  rw [happend]

/-- A candidate that gets the vote of a peer in its term. -/
theorem handleVoteReply_wins (h : node.Invariant)
    (hcandidate : node.election.cachedRole = .candidate)
    (hterm : node.election.electionTerm = node.term)
    (hvote : node.metadata.state.votedFor = some node.selfId)
    (hreplied : node.election.replied = fun _ => false) (i : Fin 2) :
    ∃ replied, node.election.handleVoteReply node.metadata (node.peerIds i) ⟨node.term, true⟩ =
      ({ node.election with replied, grantedVotes := 2, cachedRole := .leader }, node.metadata,
        .becameLeader) := by
  have hcurrent : node.metadata.state.currentTerm = node.election.electionTerm := hterm.symm
  have hrole : node.election.role node.metadata = .candidate := by
    simp [RaftElection.role, RaftElection.stale, hcurrent, hvote, h.selfId, hcandidate]
  have hrefresh : node.election.refreshRoleFromMetadata node.metadata =
      (node.election, false) := by
    simp [RaftElection.refreshRoleFromMetadata, hrole]
  have hindex : node.election.peerIndex (node.peerIds i) = some i := by
    rw [RaftElection.peerIndex, h.peerIds]
    obtain rfl | rfl := position_cases i
    · rw [if_neg h.peerIds_ne.symm, if_pos rfl]
    · exact if_pos rfl
  have hknown : ¬ (node.election.cachedRole ≠ .candidate ∨
      node.term ≠ node.election.electionTerm ∨ node.election.replied i = true) := by
    simp [hcandidate, hterm, hreplied]
  have hstale : ¬ node.metadata.state.currentTerm < node.term := lt_irrefl _
  rw [RaftElection.handleVoteReply, if_neg (by simp [h.usable]), hrefresh]
  dsimp only
  rw [hindex]
  dsimp only
  rw [if_neg hstale, if_neg hknown, if_neg (by simp), h.votes hcandidate, if_pos le_rfl]
  exact ⟨_, rfl⟩

/-- The replication object of a leader with room in its log. -/
theorem create_of_leader {election : RaftElection} {metadata : PersistentMetadata}
    {log : PersistentLog} {commitIndex : ℕ} (hrole : election.role metadata = .leader)
    (hvote : metadata.state.votedFor = some election.selfId)
    (h0 : metadata.state.currentTerm ≠ 0) (hlast : log.lastIndex + 1 < uint64Max)
    (hcommit : commitIndex ≤ log.lastIndex) :
    RaftLeaderReplication.create election metadata log commitIndex =
      some ⟨election.selfId, metadata.state.currentTerm,
        fun i => ⟨election.peerIds i, ⟨log.lastIndex + 1, 0⟩, none⟩, false⟩ := by
  have hmax : ¬ uint64Max - 1 ≤ log.lastIndex := by omega
  rw [RaftLeaderReplication.create, if_neg (by simp [h0, hmax, not_lt.2 hcommit, hrole, hvote])]

/-- A leader that has just been elected knows nothing of its peers' logs. -/
theorem Invariant.heads_fresh (h : node.Invariant) (hs : node.stopped = false)
    (hleads : node.leader = some leader) {k : ℕ} (hk : k ≤ node.lastIndex)
    (hpeers : leader.peers = fun i => ⟨node.peerIds i, ⟨k + 1, 0⟩, none⟩) :
    node.Heads i leader := by
  refine ⟨h, hs, hleads, ⟨fun j => by rw [hpeers], fun j => ?_, fun j request hr => ?_⟩,
    fun hr => ?_⟩
  · rw [hpeers]
    exact ⟨Nat.succ_pos _, Nat.succ_le_succ hk, fun hr => by cases hr⟩
  · rw [hpeers] at hr
    cases hr
  · rw [hpeers] at hr
    cases hr

/-- **Winning**: the candidate leads, has the no-op of its term at the end of its log, and knows
nothing of its peers' logs yet. -/
theorem onVoteReply_wins (h : node.Invariant) (hs : node.stopped = false) (hw : node.Working)
    (hpacked : node.log.Packed) (hcandidate : node.election.cachedRole = .candidate)
    (hterm : node.election.electionTerm = node.term)
    (hvote : node.metadata.state.votedFor = some node.selfId)
    (hreplied : node.election.replied = fun _ => false) (i : Fin 2)
    (hlast : node.lastIndex + 1 < uint64Max)
    (hroom : node.log.fileSize +
      PersistentLog.recordSize ⟨node.lastIndex + 1, node.term, {}⟩ ≤ offMax) :
    ∃ node' leader actions, node.onVoteReply (node.peerIds i) ⟨node.term, true⟩ =
        (node', .ok actions) ∧ node'.Heads i leader ∧
      (leader.peers i).progress = ⟨node.lastIndex + 1, 0⟩ ∧ node'.Working ∧ node'.log.Packed ∧
      node'.log.log = node.log.log ++ [⟨node.lastIndex + 1, node.term, {}⟩] ∧
      node'.term = node.term := by
  have h0 : node.term ≠ 0 := h.vote_term (by rw [hvote]; rfl)
  have hpeer := node.isPeer_peerIds i
  obtain ⟨replied, hwins⟩ := handleVoteReply_wins h hcandidate hterm hvote hreplied i
  generalize helection : ({ node.election with
    replied, grantedVotes := 2, cachedRole := .leader } : RaftElection) = election at hwins
  obtain ⟨hself, hpeers, husable, hcached, helectionTerm⟩ : election.selfId = node.selfId ∧
      election.peerIds = node.peerIds ∧ election.unusable = false ∧
      election.cachedRole = .leader ∧ node.term = election.electionTerm := by
    rw [← helection]
    exact ⟨h.selfId, h.peerIds, h.usable, rfl, hterm.symm⟩
  have hcurrent : node.metadata.state.currentTerm = election.electionTerm := helectionTerm
  have hrole : election.role node.metadata = .leader := by
    simp [RaftElection.role, RaftElection.stale, hcurrent, hvote, hself, hcached]
  have hcreate : RaftLeaderReplication.create election node.metadata node.log node.commitIndex =
      some ⟨node.selfId, node.term,
        fun i => ⟨node.peerIds i, ⟨node.lastIndex + 1, 0⟩, none⟩, false⟩ := by
    rw [create_of_leader hrole (by rw [hself]; exact hvote) h0 hlast h.commit_le, hself, hpeers]
    rfl
  generalize hleader : (⟨node.selfId, node.term,
    fun i => ⟨node.peerIds i, ⟨node.lastIndex + 1, 0⟩, none⟩, false⟩ : RaftLeaderReplication) =
      leader at hcreate
  obtain ⟨hls, hlt, hlr, hlp⟩ : leader.selfId = node.selfId ∧ leader.term = node.term ∧
      leader.stopped = false ∧
      leader.peers = fun i => ⟨node.peerIds i, ⟨node.lastIndex + 1, 0⟩, none⟩ := by
    rw [← hleader]
    exact ⟨rfl, rfl, rfl, rfl⟩
  have hactive : leader.active election node.metadata = true := by
    have hsameTerm : node.metadata.state.currentTerm = leader.term := hlt.symm
    simp [RaftLeaderReplication.active, hlr, hrole, hsameTerm, hvote, hls]
  have he : (LogEntry.mk (node.lastIndex + 1) leader.term {}).Encodable :=
    encodable_noOp (Nat.succ_ne_zero _) (hlt ▸ h0)
  obtain ⟨log', happend, hs', hw', hpacked', hlog'⟩ := appendCommand_works hactive h.logSynced
    hw.log hpacked hlast he (by rw [hlt]; exact hroom)
  have hinv := h.becomeLeader hself hpeers husable hcached helectionTerm hvote hls hlt hlr hs' hlog'
    rfl he hlt
  have hlength : log'.lastIndex = node.lastIndex + 1 := PersistentLog.lastIndex_of_append hlog'
  have hheads : Heads { node with
      election, log := log', leader := some leader, knownLeader := some node.selfId } i leader :=
    hinv.heads_fresh hs rfl ((Nat.le_succ _).trans hlength.ge) hlp
  obtain ⟨leader', request, messages, hqueue, hheads', hprogress, -, -⟩ :=
    hheads.queueAppends { scheduleHeartbeat := true }
  rw [onVoteReply, if_neg (by simp [hs]), if_neg (by simp [hpeer]), hwins]
  dsimp only at hqueue ⊢
  rw [hcreate]
  dsimp only
  rw [happend]
  dsimp only
  rw [hqueue]
  refine ⟨_, leader', _, rfl, hheads', ?_, ⟨hw.metadata, hw'⟩, hpacked', ?_, rfl⟩
  · rw [hprogress, hlp]
  · rw [← hlt]
    exact hlog'

/-- **Proposing**: the command is at the end of the log. Nothing is on its way to the peer, and its
progress is as it was. -/
theorem Heads.propose (h : node.Heads i leader) (hw : node.Working) (hpacked : node.log.Packed)
    {command : Command} (hc : command.type ≠ .noOp)
    (he : (LogEntry.mk (node.lastIndex + 1) node.term command).Encodable)
    (hlast : node.lastIndex + 1 < uint64Max)
    (hroom : node.log.fileSize +
      PersistentLog.recordSize ⟨node.lastIndex + 1, node.term, command⟩ ≤ offMax)
    (hp : (leader.peers i).pending = none) :
    ∃ node' leader' actions, node.propose command = (node', .ok actions) ∧
      actions.proposedIndex = some (node.lastIndex + 1) ∧
      node'.Heads i leader' ∧ (leader'.peers i).progress = (leader.peers i).progress ∧
      node'.Working ∧ node'.commitIndex = node.commitIndex ∧
      node'.log.log = node.log.log ++ [⟨node.lastIndex + 1, node.term, command⟩] ∧
      node'.term = node.term := by
  have hinv := h.invariant
  have hactive : leader.active node.election node.metadata = true := hinv.active h.leads
  obtain ⟨-, -, hterm, -, -⟩ := hinv.leader_facts h.leads
  rw [← hterm] at he hroom
  obtain ⟨log', happend, hs', hw', -, hlog'⟩ :=
    appendCommand_works hactive hinv.logSynced hw.log hpacked hlast he hroom
  rw [hterm] at he hlog'
  have hlength : log'.lastIndex = node.lastIndex + 1 := PersistentLog.lastIndex_of_append hlog'
  have hstore := hinv.toStoreInvariant.appendEntry hs' hlog' rfl he rfl
  have hheads : Heads { node with log := log', leader := some leader } i leader := by
    refine ⟨(hinv.setLog hstore).setLeader h.leads rfl rfl rfl, h.running, rfl,
      ⟨h.bounds.id, fun j => ?_, h.bounds.plain⟩, fun hr => by simp [hp] at hr⟩
    obtain ⟨hlt, hle, hpending⟩ := h.bounds.peer j
    refine ⟨hlt, ?_, fun hr => ⟨(hpending hr).1, ?_⟩⟩
    · change _ ≤ log'.lastIndex + 1
      omega
    · change _ ≤ log'.lastIndex
      have hfits := (hpending hr).2
      omega
  obtain ⟨leader', request, messages, hqueue, hheads', hprogress, -, -⟩ :=
    hheads.queueAppends { proposedIndex := some (node.log.lastIndex + 1) }
  rw [RaftNode.propose, if_neg (by simp [h.running]), h.leads]
  dsimp only
  rw [if_neg (by simp [hinv.active h.leads]), if_neg hc, appendAsLeader,
    if_neg (by simp [h.running]), h.leads]
  dsimp only
  rw [if_neg (by simp [hinv.active h.leads]), happend]
  dsimp only at hqueue ⊢
  rw [hqueue]
  exact ⟨_, leader', _, rfl, rfl, hheads', hprogress, ⟨hw.metadata, hw'⟩, rfl, hlog', rfl⟩

/-! ## The peer -/

/-- The peer of a leader with the log `L` in term `T`, when they are known to share `m` entries. -/
structure Joins (L : List LogEntry) (T m : ℕ) (peer : RaftNode) : Prop where
  invariant : peer.Invariant
  running : peer.stopped = false
  working : peer.Working
  term : peer.term = T
  follows : Follows L T m peer.log peer.commitIndex

/-- What a request of the leader has led to: the peer rejects it, as the leader is ahead of what
they share, or it takes the entries over and commits what the leader has committed of them. -/
inductive Answered (L : List LogEntry) (T m : ℕ) (request : AppendEntries) (peer : RaftNode) :
    Bool → Prop
  | rejected (hm : m < request.prevLogIndex) (h : Joins L T m peer) :
      Answered L T m request peer false
  | accepted (h : Joins L T (request.prevLogIndex + request.entries.length) peer)
      (hc : min request.leaderCommit (request.prevLogIndex + request.entries.length) ≤
        peer.commitIndex) :
      Answered L T m request peer true

/-- After a call that leaves the peer's term record as it is. -/
theorem Joins.next {L : List LogEntry} {T m m' : ℕ} {peer peer' : RaftNode} (h : Joins L T m peer)
    (hinvariant : peer'.Invariant) (hrunning : peer'.stopped = false)
    (hmetadata : peer'.metadata = peer.metadata)
    (hfollows : Follows L T m' peer'.log peer'.commitIndex) : Joins L T m' peer' where
  invariant := hinvariant
  running := hrunning
  working := ⟨hmetadata ▸ h.working.metadata, hfollows.working⟩
  term := by
    rw [RaftNode.term, hmetadata]
    exact h.term
  follows := hfollows

/-- The peer rejects a request: it knows the leader, and its stores are as they were. -/
theorem onAppendEntries_rejected {T : ℕ} {peer : RaftNode} (hs : peer.stopped = false)
    (h0 : T ≠ 0) (hterm : request.term = T) (hpeer : peer.isPeer request.leaderId = true)
    (hreject : handleAppendEntries peer.metadata peer.log peer.commitIndex request =
      ⟨peer.metadata, peer.log, peer.commitIndex, .ok ⟨T, false⟩⟩) :
    ∃ peer' actions, peer.onAppendEntries request.leaderId request = (peer', .ok actions) ∧
      ⟨request.leaderId, .appendEntriesReply ⟨T, false⟩⟩ ∈ actions.messages ∧
      peer'.knownLeader = some request.leaderId ∧ peer'.stopped = false ∧
      peer'.metadata = peer.metadata ∧ peer'.log = peer.log ∧
      peer'.commitIndex = peer.commitIndex := by
  have hfollowing : (decide (request.term ≠ 0 ∧ request.term = T)) = true := by
    simp [hterm, h0]
  rw [RaftNode.onAppendEntries, if_neg (by simp [hs]), if_neg (by simp [hpeer]),
    if_neg (not_not.2 rfl), hreject]
  dsimp only
  rw [hfollowing]
  simp only [if_true, Bool.false_eq_true, if_false]
  rw [if_neg (by exact lt_irrefl _)]
  exact ⟨_, _, rfl, List.mem_singleton.2 rfl, rfl, hs, rfl, rfl, rfl⟩

/-- The peer accepts a request: it knows the leader and applies what has been committed. -/
theorem onAppendEntries_accepted {T : ℕ} {peer : RaftNode} {log' : PersistentLog}
    {commitIndex' : ℕ} (hs : peer.stopped = false) (h0 : T ≠ 0) (hterm : request.term = T)
    (hpeer : peer.isPeer request.leaderId = true)
    (haccept : handleAppendEntries peer.metadata peer.log peer.commitIndex request =
      ⟨peer.metadata, log', commitIndex', .ok ⟨T, true⟩⟩)
    (hstore : StoreInvariant { peer with log := log' }) (hmono : peer.commitIndex ≤ commitIndex')
    (hle : commitIndex' ≤ log'.lastIndex) :
    ∃ peer' actions, peer.onAppendEntries request.leaderId request = (peer', .ok actions) ∧
      ⟨request.leaderId, .appendEntriesReply ⟨T, true⟩⟩ ∈ actions.messages ∧
      peer'.knownLeader = some request.leaderId ∧ peer'.stopped = false ∧
      peer'.metadata = peer.metadata ∧ peer'.log = log' ∧ peer'.commitIndex = commitIndex' := by
  have hfollowing : (decide (request.term ≠ 0 ∧ request.term = T)) = true := by
    simp [hterm, h0]
  obtain ⟨applied, happly, -⟩ := @applyReady_eq
    { { peer with
        log := log'
        commitIndex := commitIndex'
        election := peer.election.observeLeader peer.metadata request.term }.dropLeadership with
      knownLeader := some request.leaderId } peer.term peer.commitIndex hstore.log
    hstore.applied hmono hle { resetElectionTimer := true }
  rw [RaftNode.onAppendEntries, if_neg (by simp [hs]), if_neg (by simp [hpeer]),
    if_neg (not_not.2 rfl), haccept]
  dsimp only
  rw [hfollowing]
  simp only [if_true]
  rw [if_neg (by exact lt_irrefl _), happly]
  exact ⟨_, _, rfl, List.mem_append_right _ (List.mem_singleton.2 rfl), rfl, hs, rfl, rfl, rfl⟩

/-- **The peer's half of a round.** -/
theorem Joins.onAppendEntries {L : List LogEntry} {T m : ℕ} {peer : RaftNode}
    (h : Joins L T m peer) (hL : LogInvariant L T) (hlen : L.length ≤ uint64Max) (h0 : T ≠ 0)
    (hcut : request.CutFrom L) (hterm : request.term = T) (hm : m ≤ request.prevLogIndex)
    (hpeer : peer.isPeer request.leaderId = true) :
    ∃ peer' success actions, peer.onAppendEntries request.leaderId request =
        (peer', .ok actions) ∧
      ⟨request.leaderId, .appendEntriesReply ⟨T, success⟩⟩ ∈ actions.messages ∧
      peer'.knownLeader = some request.leaderId ∧ Answered L T m request peer' success := by
  have hcontinues := onAppendEntries_continues h.invariant h.running request.leaderId request
  rcases h.follows.deliver hL hlen hcut hterm h0 hm h.invariant.metadata.ioFailed h.term with
    ⟨hlt, hreject⟩ | ⟨log', commitIndex', haccept, hfollows⟩
  · obtain ⟨peer', actions, hresult, hmem, hknown, hrunning, hmetadata, hlog, hcommit⟩ :=
      onAppendEntries_rejected h.running h0 hterm hpeer hreject
    rw [hresult] at hcontinues
    have hsame : Follows L T m peer'.log peer'.commitIndex := by
      rw [hlog, hcommit]
      exact h.follows
    exact ⟨peer', false, actions, hresult, hmem, hknown,
      .rejected hlt (h.next (hcontinues hrunning).1 hrunning hmetadata hsame)⟩
  · -- what the merged log and the commit index are
    have hend := handleAppendEntries_rule peer.log peer.commitIndex request (A := fun m =>
      m = peer.metadata.state ∨ peer.term < request.term) h.invariant.metadata (Or.inl rfl)
      (fun hlt => Or.inr hlt)
    rw [haccept] at hend
    obtain ⟨hstore, hcommit⟩ : StoreInvariant { peer with log := log' } ∧
        commitIndex' = max peer.commitIndex
          (min request.leaderCommit (request.prevLogIndex + request.entries.length)) := by
      cases hend with
      | appended _ _ _ ht _ hv hp _ hloop =>
        have hsplice := appendLoop_splice h.invariant (h.term.trans hterm.symm).le hv hp
        rw [hloop, ← ht] at hsplice
        cases hsplice with
        | ok _ k hs' hk =>
          exact ⟨hk.storeInvariant h.invariant h.invariant.metadata (.refl _) hs', rfl⟩
    have hle : commitIndex' ≤ log'.lastIndex := by
      rw [← PersistentLog.length_log]
      exact hfollows.commit_le
    obtain ⟨peer', actions, hresult, hmem, hknown, hrunning, hmetadata, hlog, hcommit'⟩ :=
      onAppendEntries_accepted h.running h0 hterm hpeer haccept hstore
        (by rw [hcommit]; exact le_max_left _ _) hle
    rw [hresult] at hcontinues
    have hmerged : Follows L T (request.prevLogIndex + request.entries.length) peer'.log
        peer'.commitIndex := by
      rw [hlog, hcommit']
      exact hfollows
    refine ⟨peer', true, actions, hresult, hmem, hknown,
      .accepted (h.next (hcontinues hrunning).1 hrunning hmetadata hmerged) ?_⟩
    rw [hcommit', hcommit]
    exact le_max_right _ _

/-! ## Replies -/

/-- What an acceptance does to the replication object and the commit index. -/
theorem handleReply_of_accepted {election : RaftElection} {metadata : PersistentMetadata}
    {log : PersistentLog} {peerId : ℕ} (hi : leader.findPeer peerId = some i)
    (hactive : leader.active election metadata = true)
    (hp : (leader.peers i).pending = some request) (commitIndex : ℕ) :
    leader.handleReply election metadata log commitIndex peerId request ⟨leader.term, true⟩ =
      match (leader.setPeer i (RaftLeaderReplication.accepted (leader.peers i)
          (request.prevLogIndex + request.entries.length))).advanceCommitIndex log commitIndex with
      | some c => ⟨leader.setPeer i (RaftLeaderReplication.accepted (leader.peers i)
          (request.prevLogIndex + request.entries.length)), metadata, c, .committed⟩
      | none => ⟨leader.setPeer i (RaftLeaderReplication.accepted (leader.peers i)
          (request.prevLogIndex + request.entries.length)), metadata, commitIndex, .recorded⟩ := by
  cases hc : (leader.setPeer i (RaftLeaderReplication.accepted (leader.peers i)
      (request.prevLogIndex + request.entries.length))).advanceCommitIndex log commitIndex with
  | none =>
    rw [RaftLeaderReplication.accepted] at hc ⊢
    simp [RaftLeaderReplication.handleReply, hi, hactive, hp, hc]
  | some c =>
    rw [RaftLeaderReplication.accepted] at hc ⊢
    simp [RaftLeaderReplication.handleReply, hi, hactive, hp, hc]

/-- A leader whose peer has all of its log commits all of it, if the last entry is of its term. -/
theorem advanceCommitIndex_last {log : PersistentLog} {commitIndex : ℕ} {e : LogEntry}
    (he : log.log.getLast? = some e) (hterm : e.term = leader.term)
    (hmatch : (leader.peers i).progress.matchIndex = log.lastIndex)
    (hlt : commitIndex < log.lastIndex) :
    leader.advanceCommitIndex log commitIndex = some log.lastIndex := by
  obtain ⟨k, hk⟩ : ∃ k, log.lastIndex = k + 1 :=
    Nat.exists_eq_succ_of_ne_zero (Nat.ne_of_gt (Nat.zero_lt_of_lt hlt))
  have hentry : log.entryAt (k + 1) = some e := by
    rw [PersistentLog.entryAt_succ, ← he, List.getLast?_eq_getElem?, PersistentLog.length_log, hk]
    rfl
  have hpeer : k + 1 ≤ (leader.peers 0).progress.matchIndex ∨
      k + 1 ≤ (leader.peers 1).progress.matchIndex := by
    obtain rfl | rfl := position_cases i
    · exact Or.inl (by omega)
    · exact Or.inr (by omega)
  rw [RaftLeaderReplication.advanceCommitIndex, hk, RaftLeaderReplication.commitCandidate,
    if_neg (by omega), hentry]
  dsimp only
  rw [if_pos ⟨hterm, hpeer⟩]

theorem Heads.setReadRounds (h : node.Heads i leader) (rounds : List (ℕ × Option AppendEntries)) :
    Heads { node with readRounds := rounds } i leader where
  invariant := h.invariant.setReadRounds h.leads rounds node.nextReadId
  running := h.running
  leads := h.leads
  bounds := ⟨h.bounds.id, h.bounds.peer, h.bounds.plain⟩
  pending hr :=
    have hold := h.pending hr
    ⟨hold.cut, hold.term, hold.leaderId, hold.leaderCommit, hold.entries⟩

/-- A leader with nothing on its way to the peer, after the peer's progress has been changed. -/
theorem Heads.setPeer (h : node.Heads i leader) {peer : PeerState}
    (hid : peer.id = (leader.peers i).id)
    (hlt : peer.progress.matchIndex < peer.progress.nextIndex)
    (hle : peer.progress.nextIndex ≤ node.lastIndex + 1) (hp : peer.pending = none) :
    Heads { node with leader := some (leader.setPeer i peer) } i (leader.setPeer i peer) := by
  have hbounds := h.bounds.setPeer hid ⟨hlt, hle, fun hr => by simp [hp] at hr⟩
    fun hr => by simp [hp] at hr
  refine ⟨h.invariant.setLeader h.leads rfl rfl rfl, h.running, rfl,
    ⟨hbounds.id, hbounds.peer, hbounds.plain⟩, fun hr => ?_⟩
  rw [RaftLeaderReplication.setPeer_self, hp] at hr
  cases hr

/-- The peer has rejected the request: the leader goes back by one entry. -/
theorem Heads.onAppendReply_rejected (h : node.Heads i leader)
    (hp : (leader.peers i).pending = some request)
    (hlow : (leader.peers i).progress.matchIndex < request.prevLogIndex) :
    ∃ leader' actions, node.onAppendReply (node.peerIds i) request ⟨node.term, false⟩ =
        ({ node with leader := some leader' }, .ok actions) ∧
      Heads { node with leader := some leader' } i leader' ∧
      (leader'.peers i).progress =
        ⟨request.prevLogIndex, (leader.peers i).progress.matchIndex⟩ := by
  have hfind := h.bounds.findPeer h.invariant.peerIds_ne i
  have hactive : leader.active node.election node.metadata = true := h.invariant.active h.leads
  obtain ⟨-, -, hterm, -, -⟩ := h.invariant.leader_facts h.leads
  have hprev := ((h.bounds.peer i).pending hp).1
  have hle := (h.bounds.peer i).next_le
  have hpeer := node.isPeer_peerIds i
  have hreply : leader.handleReply node.election node.metadata node.log node.commitIndex
      (node.peerIds i) request ⟨leader.term, false⟩ = _ :=
    RaftLeaderReplication.handleReply_rejected hfind hactive hp (by omega)
  rw [hterm, ← hprev, Nat.add_sub_cancel] at hreply
  have hback : Heads { node with leader := some (leader.setPeer i ⟨(leader.peers i).id,
      ⟨request.prevLogIndex, (leader.peers i).progress.matchIndex⟩, none⟩) } i _ :=
    h.setPeer rfl hlow (by dsimp only; omega) rfl
  obtain ⟨leader', request', hqueue, hheads, hprogress, -, -⟩ := hback.queueAppend i {}
  rw [RaftNode.onAppendReply, if_neg (by simp [h.running]), if_neg (by simp [hpeer]), h.leads]
  dsimp only at hqueue ⊢
  rw [hreply]
  dsimp only [followUp]
  rw [hqueue]
  dsimp only
  rw [completeRead, if_neg fun hr => hr.1 (h.bounds.plain i _ hp)]
  refine ⟨leader', _, rfl, hheads, ?_⟩
  rw [hprogress, RaftLeaderReplication.setPeer_self]

/-- The leader has recorded a reply that commits nothing: it sends what the peer is missing. -/
theorem Heads.followUp_recorded (h : node.Heads i leader)
    (hp : (leader.peers i).pending = none) :
    ∃ leader' actions, node.followUp (node.peerIds i) .recorded =
        ({ node with leader := some leader' }, some actions) ∧
      Heads { node with leader := some leader' } i leader' ∧
      (leader'.peers i).progress = (leader.peers i).progress ∧
      (node.lastIndex < (leader.peers i).progress.nextIndex →
        (leader'.peers i).pending = none) := by
  have hself : { node with leader := some leader } = node := by rw [← h.leads]
  have hfound : leader.progress (node.peerIds i) = some (leader.peers i).progress := by
    rw [RaftLeaderReplication.progress, h.bounds.findPeer h.invariant.peerIds_ne i,
      Option.map_some]
  dsimp only [followUp]
  rw [h.leads, Option.bind_some, hfound]
  dsimp only
  split_ifs with hmore
  · obtain ⟨leader', request', hqueue, hheads, hkept, -, -⟩ := h.queueAppend i {}
    rw [hqueue]
    exact ⟨leader', _, rfl, hheads, hkept, fun hlt => absurd hmore (not_le.2 hlt)⟩
  · refine ⟨leader, {}, by rw [hself], ?_, rfl, fun _ => hp⟩
    rw [hself]
    exact h

/-- The leader has committed the entries up to `c`: it applies them and tells both peers. -/
theorem Heads.followUp_committed (h : node.Heads i leader)
    (hp : (leader.peers i).pending = none) {c : ℕ} (hmono : node.commitIndex ≤ c)
    (hc : c ≤ node.lastIndex) (peerId : ℕ) :
    ∃ node' leader' actions, followUp { node with commitIndex := c } peerId .committed =
        (node', some actions) ∧ node'.Heads i leader' ∧
      (leader'.peers i).progress = (leader.peers i).progress ∧ node'.log = node.log ∧
      node'.metadata = node.metadata ∧ node'.commitIndex = c := by
  obtain ⟨applied, happly, -⟩ := @applyReady_eq { node with commitIndex := c } node.term
    node.commitIndex h.invariant.log h.invariant.applied hmono hc {}
  have hcommitted : Heads { node with
      commitIndex := c
      state := .replay (node.log.log.take c) } i leader := by
    refine ⟨h.invariant.commit hc, h.running, h.leads,
      ⟨h.bounds.id, h.bounds.peer, h.bounds.plain⟩, fun hr => ?_⟩
    rw [hp] at hr
    cases hr
  obtain ⟨leader', request', messages, hqueue, hheads, hkept, -, -⟩ :=
    hcommitted.queueAppends { applied }
  obtain ⟨rounds, hrounds⟩ := startWaitingReads_fst { node with
    leader := some leader'
    commitIndex := c
    state := .replay (node.log.log.take c) } { applied, messages := [] ++ messages }
  dsimp only [followUp] at happly ⊢
  rw [happly]
  dsimp only at hqueue ⊢
  rw [hqueue]
  exact ⟨_, leader', _, Prod.ext hrounds rfl, hheads.setReadRounds rounds, hkept, rfl, rfl, rfl⟩

/-- The peer has accepted the request: the leader knows that it holds the entries, and if these are
the last ones, everything is committed. If it was already, nothing is sent. -/
theorem Heads.onAppendReply_accepted (h : node.Heads i leader)
    (hp : (leader.peers i).pending = some request) {e : LogEntry}
    (he : node.log.log.getLast? = some e) (heterm : e.term = node.term) :
    ∃ node' leader' actions, node.onAppendReply (node.peerIds i) request ⟨node.term, true⟩ =
        (node', .ok actions) ∧ node'.Heads i leader' ∧
      (leader'.peers i).progress =
        ⟨request.prevLogIndex + request.entries.length + 1,
          request.prevLogIndex + request.entries.length⟩ ∧
      node'.log = node.log ∧ node'.metadata = node.metadata ∧
      (request.prevLogIndex + request.entries.length = node.lastIndex →
        node'.commitIndex = node.lastIndex ∧
          (node.commitIndex = node.lastIndex → (leader'.peers i).pending = none)) := by
  have hfind := h.bounds.findPeer h.invariant.peerIds_ne i
  have hactive : leader.active node.election node.metadata = true := h.invariant.active h.leads
  obtain ⟨-, -, hterm, -, -⟩ := h.invariant.leader_facts h.leads
  obtain ⟨hprev, hfits⟩ := (h.bounds.peer i).pending hp
  have hmatch := (h.bounds.peer i).match_lt
  have hcommit : node.commitIndex ≤ node.log.lastIndex := h.invariant.commit_le
  have hplain := h.bounds.plain i _ hp
  have hpeer := node.isPeer_peerIds i
  generalize hm : request.prevLogIndex + request.entries.length = matched at hfits ⊢
  have hmax : max (leader.peers i).progress.matchIndex matched = matched := by omega
  have hreply : leader.handleReply node.election node.metadata node.log node.commitIndex
      (node.peerIds i) request ⟨leader.term, true⟩ = _ :=
    handleReply_of_accepted hfind hactive hp node.commitIndex
  rw [hterm, hm, RaftLeaderReplication.accepted, hmax] at hreply
  have hknows : Heads { node with leader := some (leader.setPeer i
      ⟨(leader.peers i).id, ⟨matched + 1, matched⟩, none⟩) } i _ :=
    h.setPeer rfl (Nat.lt_succ_self _) (Nat.succ_le_succ hfits) rfl
  have hall : matched = node.lastIndex → node.commitIndex < node.log.lastIndex →
      (leader.setPeer i ⟨(leader.peers i).id, ⟨matched + 1, matched⟩, none⟩).advanceCommitIndex
        node.log node.commitIndex = some node.log.lastIndex := fun hlast =>
    advanceCommitIndex_last (i := i) he (heterm.trans hterm.symm)
      (by rw [RaftLeaderReplication.setPeer_self]; exact hlast)
  generalize hl : leader.setPeer i ⟨(leader.peers i).id, ⟨matched + 1, matched⟩, none⟩ = known
    at hreply hknows hall
  have hprogress : (known.peers i).progress = ⟨matched + 1, matched⟩ := by
    rw [← hl, RaftLeaderReplication.setPeer_self]
  have hnone : (known.peers i).pending = none := by
    rw [← hl, RaftLeaderReplication.setPeer_self]
  rw [RaftNode.onAppendReply, if_neg (by simp [h.running]), if_neg (by simp [hpeer]), h.leads]
  dsimp only
  rw [hreply]
  cases hadvance : known.advanceCommitIndex node.log node.commitIndex with
  | none =>
    have hdone : matched = node.lastIndex → node.commitIndex = node.lastIndex := fun hlast => by
      refine Nat.le_antisymm hcommit (not_lt.1 fun hlt => ?_)
      rw [hall hlast hlt] at hadvance
      cases hadvance
    obtain ⟨leader', actions, hfollow, hheads, hkept, hrest⟩ := hknows.followUp_recorded hnone
    rw [hprogress] at hkept hrest
    dsimp only at hfollow ⊢
    rw [hfollow]
    dsimp only
    rw [completeRead, if_neg fun hr => hr.1 hplain]
    exact ⟨_, leader', _, rfl, hheads, hkept, rfl, rfl, fun hlast =>
      ⟨hdone hlast, fun _ => hrest (hlast ▸ Nat.lt_succ_self matched)⟩⟩
  | some c =>
    obtain ⟨k, x, rfl, hck, hx, -⟩ := RaftLeaderReplication.advanceCommitIndex_eq_some hadvance
    have hk := (List.getElem?_eq_some_iff.1 hx).1
    rw [PersistentLog.length_log] at hk
    have hdone : matched = node.lastIndex → k + 1 = node.lastIndex := fun hlast => by
      rw [hall hlast (by omega)] at hadvance
      exact (Option.some.inj hadvance).symm
    obtain ⟨node', leader', actions, hfollow, hheads, hkept, hlog, hmetadata, hcommitted⟩ :=
      hknows.followUp_committed hnone (hck.trans (Nat.le_succ k)) hk (node.peerIds i)
    dsimp only at hfollow ⊢
    rw [hfollow]
    dsimp only
    rw [completeRead, if_neg fun hr => hr.1 hplain]
    refine ⟨node', leader', _, rfl, hheads, hkept.trans hprogress, hlog, hmetadata, fun hlast =>
      ⟨hcommitted.trans (hdone hlast), fun hall => ?_⟩⟩
    have hle : k + 1 ≤ node.lastIndex := hk
    omega

/-! ## Rounds -/

/-- A leader and its peer at position `i`, in the leader's term. The last entry of the leader's log
is of this term. -/
structure Pair (i : Fin 2) (node : RaftNode) (leader : RaftLeaderReplication) (peer : RaftNode) :
    Prop where
  heads : node.Heads i leader
  working : node.Working
  joins : Joins node.log.log node.term (leader.peers i).progress.matchIndex peer
  length_le : node.lastIndex ≤ uint64Max
  own : ∃ e, node.log.log.getLast? = some e ∧ e.term = node.term
  done : (leader.peers i).progress.matchIndex = node.lastIndex → node.commitIndex = node.lastIndex

/-- A heartbeat of the leader, the peer's call with the request, and the leader's with the reply.
No call fails. -/
inductive Round (i : Fin 2) (node peer node' peer' : RaftNode) : Prop
  | mk (sent : RaftNode) (hw : sent.Working) (request : AppendEntries) (reply : AppendEntriesReply)
      (a b c : RaftNodeActions) (hsend : node.call .heartbeatTimeout = (sent, .ok a))
      (hrequest : ⟨node.peerIds i, .appendEntries request⟩ ∈ a.messages)
      (hanswer : peer.call (.appendEntries node.selfId request) = (peer', .ok b))
      (hreply : ⟨node.selfId, .appendEntriesReply reply⟩ ∈ b.messages)
      (hlearn : sent.call (.appendReply (node.peerIds i) request reply) = (node', .ok c)) :
      Round i node peer node' peer'

/-- How many rounds there may be until a leader with `last` entries knows that the peer has them. -/
def gap (last : ℕ) (progress : PeerProgress) : ℕ :=
  progress.nextIndex + last - 2 * progress.matchIndex - 1

/-- What a round has changed besides. -/
structure Gains (i : Fin 2) (node : RaftNode) (leader : RaftLeaderReplication) (node' : RaftNode)
    (leader' : RaftLeaderReplication) (peer' : RaftNode) : Prop where
  log : node'.log = node.log
  metadata : node'.metadata = node.metadata
  knownLeader : peer'.knownLeader = some node.selfId
  gap : (leader'.peers i).progress.matchIndex = node.lastIndex ∨
    gap node.lastIndex (leader'.peers i).progress < gap node.lastIndex (leader.peers i).progress
  committed : (leader.peers i).progress.matchIndex = node.lastIndex →
    (leader'.peers i).progress.matchIndex = node.lastIndex ∧
      (leader'.peers i).pending = none ∧ node.lastIndex ≤ peer'.commitIndex

variable {peer : RaftNode}

/-- A peer that has all of the leader's entries has no others. -/
theorem Pair.log_eq (h : Pair i node leader peer)
    (hm : (leader.peers i).progress.matchIndex = node.lastIndex) :
    peer.log.log = node.log.log := by
  have hfollows := h.joins.follows
  rw [hm, lastIndex, ← PersistentLog.length_log] at hfollows
  have htake : peer.log.log.take node.log.log.length = node.log.log := by
    rw [hfollows.matched, List.take_length]
  rcases hfollows.tail with hshort | hlow
  · rwa [List.take_of_length_le hshort] at htake
  · -- the peer holds the last entry, which is of the leader's term
    obtain ⟨e, he, hterm⟩ := h.own
    have hmem : e ∈ peer.log.log := by
      refine List.mem_of_mem_take (i := node.log.log.length) ?_
      rw [htake]
      exact List.mem_of_getLast? he
    exact absurd (hlow e hmem) (by rw [hterm]; exact lt_irrefl _)

/-- A leader whose peer has all of its log, with nothing on its way, takes a command. -/
theorem Pair.propose (h : Pair i node leader peer) (hpacked : node.log.Packed)
    (hm : (leader.peers i).progress.matchIndex = node.lastIndex)
    (hp : (leader.peers i).pending = none) {command : Command} (hc : command.type ≠ .noOp)
    (he : (LogEntry.mk (node.lastIndex + 1) node.term command).Encodable)
    (hlast : node.lastIndex + 1 < uint64Max)
    (hroom : (node.log.log.map PersistentLog.recordSize).sum +
      PersistentLog.recordSize ⟨node.lastIndex + 1, node.term, command⟩ ≤ offMax) :
    ∃ node' leader' actions, node.propose command = (node', .ok actions) ∧
      actions.proposedIndex = some (node.lastIndex + 1) ∧ Pair i node' leader' peer ∧
      node'.log.log = node.log.log ++ [⟨node.lastIndex + 1, node.term, command⟩] ∧
      node'.term = node.term ∧ node'.commitIndex = node.commitIndex ∧
      gap node'.lastIndex (leader'.peers i).progress = 1 := by
  obtain ⟨node', leader', actions, hpropose, hindex, hheads, hprogress, hworking, hcommit, hlog,
    hterm⟩ := h.heads.propose h.working hpacked hc he hlast
      (by rw [hpacked.fileSize]; exact hroom) hp
  have hlastIndex : node'.lastIndex = node.lastIndex + 1 := PersistentLog.lastIndex_of_append hlog
  have hlen : node.log.log.length = node.lastIndex := node.log.length_log
  have hsame := h.log_eq hm
  have hjoins := h.joins
  have hfollows := hjoins.follows
  have hlt := (h.heads.bounds.peer i).match_lt
  have hle := (h.heads.bounds.peer i).next_le
  refine ⟨node', leader', actions, hpropose, hindex, ⟨hheads, hworking, ?_, ?_, ?_, ?_⟩, hlog,
    hterm, hcommit, ?_⟩
  · rw [hprogress, hm, hterm, hlog]
    refine ⟨hjoins.invariant, hjoins.running, hjoins.working, hjoins.term, hfollows.working,
      hfollows.packed, hfollows.index, ?_, fun {j x e} hx he _ => ?_, hfollows.commit_le, ?_,
      Or.inl ?_, ?_⟩
    · rw [hsame, List.take_append_of_le_length hlen.ge]
    · have hj := (List.getElem?_eq_some_iff.1 hx).1
      rw [hsame] at hj ⊢
      rw [List.take_append_of_le_length hj]
    · have hcommitted := hfollows.commit_le
      rw [hsame] at hcommitted ⊢
      rw [List.take_append_of_le_length hcommitted]
    · rw [hsame, hlen]
    · rw [hsame, List.drop_left' hlen, List.map_singleton, List.sum_singleton]
      exact hroom
  · omega
  · exact ⟨⟨node.lastIndex + 1, node.term, command⟩, by rw [hlog]; simp, hterm.symm⟩
  · rw [hprogress, hm]
    intro h0
    omega
  · rw [hprogress, hlastIndex, gap]
    omega

/-- **A round**: no call fails, the leader knows more than before, and a peer that had all of its
entries has committed all of them. -/
theorem Pair.round (h : Pair i node leader peer) (hpeer : peer.isPeer node.selfId = true) :
    ∃ node' leader' peer', Round i node peer node' peer' ∧ Pair i node' leader' peer' ∧
      Gains i node leader node' leader' peer' := by
  have hinv := h.heads.invariant
  obtain ⟨-, -, -, -, hvote⟩ := hinv.leader_facts h.heads.leads
  have h0 : node.term ≠ 0 := hinv.vote_term (by rw [hvote]; rfl)
  have hlen : node.log.log.length ≤ uint64Max := by
    rw [PersistentLog.length_log]
    exact h.length_le
  obtain ⟨sending, request, a, hsend, hsending, hprogress, hpending, hrequest⟩ :=
    h.heads.onHeartbeatTimeout
  obtain ⟨hcut, hterm, hleader, hcommit, hentries⟩ := hsending.pending hpending
  obtain ⟨hprev, hfits⟩ := (hsending.bounds.peer i).pending hpending
  have hlt := (hsending.bounds.peer i).match_lt
  rw [hprogress] at hprev hlt
  change request.prevLogIndex + request.entries.length ≤ node.lastIndex at hfits
  change request.leaderId = node.selfId at hleader
  change request.leaderCommit = node.commitIndex at hcommit
  change request.prevLogIndex < node.lastIndex → request.entries ≠ [] at hentries
  obtain ⟨peer', success, b, hanswer, hreply, hknown, hanswered⟩ :=
    h.joins.onAppendEntries hinv.log hlen h0 hcut hterm (by omega) (by rw [hleader]; exact hpeer)
  rw [hleader] at hanswer hreply hknown
  have hw : Working { node with leader := some sending } := ⟨h.working.metadata, h.working.log⟩
  have hdone := h.done
  cases hanswered with
  | rejected hm hjoins =>
    obtain ⟨leader', c, hlearn, hheads, hback⟩ :=
      hsending.onAppendReply_rejected hpending (by rw [hprogress]; exact hm)
    rw [hprogress] at hback
    refine ⟨_, leader', peer',
      ⟨_, hw, request, _, a, b, c, hsend, hrequest, hanswer, hreply, hlearn⟩,
      ⟨hheads, ⟨hw.metadata, hw.log⟩, ?_, h.length_le, h.own, ?_⟩, rfl, rfl, hknown, Or.inr ?_,
      fun hlast => ?_⟩
    · rw [hback]
      exact hjoins
    · rw [hback]
      exact hdone
    · rw [hback, gap, gap]
      dsimp only
      omega
    · omega
  | accepted hjoins hc =>
    obtain ⟨e, he, heterm⟩ := h.own
    obtain ⟨node', leader', c, hlearn, hheads, hforward, hlog, hmetadata, hall⟩ :=
      hsending.onAppendReply_accepted hpending he heterm
    have hlast : node'.lastIndex = node.lastIndex := by rw [lastIndex, hlog]; rfl
    have hsameTerm : node'.term = node.term := by rw [term, hmetadata]; rfl
    refine ⟨node', leader', peer', ⟨_, hw, request, _, a, b, c, hsend, hrequest, hanswer, hreply,
      hlearn⟩, ⟨hheads, ⟨?_, ?_⟩, ?_, ?_, ?_, ?_⟩, hlog, hmetadata, hknown, ?_, fun hm => ?_⟩
    · rw [hmetadata]
      exact hw.metadata
    · rw [hlog]
      exact hw.log
    · rw [hforward, hlog, hsameTerm]
      exact hjoins
    · rw [hlast]
      exact h.length_le
    · rw [hlog, hsameTerm]
      exact ⟨e, he, heterm⟩
    · rw [hforward, hlast]
      exact fun hm => (hall hm).1
    · rw [hforward, gap, gap]
      dsimp only
      rcases Nat.lt_or_ge request.prevLogIndex node.lastIndex with hbefore | hafter
      · have hnonempty := List.length_pos_of_ne_nil (hentries hbefore)
        omega
      · omega
    · have hwhole := hdone hm
      have hsame : request.prevLogIndex + request.entries.length = node.lastIndex := by omega
      rw [hforward]
      dsimp only
      exact ⟨hsame, (hall hsame).2 hwhole, by omega⟩

end RaftNode

end DistributedKV
