import DistributedKV.Cluster.Leading

/-!
# Replies to append requests refine the abstract protocol

A leader counts the acknowledgements of its peers, commits, applies, and answers reads. None of
this fails on a node and a reply that are as they should be, except for a rejection at the index
after the match index (`RaftLeaderReplication.handleReply` with `inconsistentFollower`).
-/

namespace DistributedKV

open Replication (Step Grows Frame CommittedBy)

variable {cluster : Cluster} {s s' : Abstract} {n : ℕ} {node node' : RaftNode}
  {leader leader' : RaftLeaderReplication} {repliedTo : Option AppendEntries}

theorem findPeer_id {peerId : ℕ} {i : Fin 2} (h : leader.findPeer peerId = some i) :
    (leader.peers i).id = peerId := by
  unfold RaftLeaderReplication.findPeer at h
  split_ifs at h with h0 h1
  · obtain rfl := Option.some.inj h
    exact h0
  · obtain rfl := Option.some.inj h
    exact h1

/-! ## The progress of a peer -/

theorem LeaderOk.retry {T c : ℕ} {log : List LogEntry} {ids : Fin 2 → ℕ}
    (h : LeaderOk s n T log c ids leader) {i : Fin 2} {k : ℕ}
    (hn : (leader.peers i).progress.nextIndex = k + 1)
    (hm : (leader.peers i).progress.matchIndex < k) :
    LeaderOk s n T log c ids (leader.setPeer i { leader.peers i with
      progress := { (leader.peers i).progress with nextIndex := k }, pending := none }) := by
  have hp := h.peer i
  have hnext := hp.next_le
  refine h.setPeer rfl ⟨hm, ?_, hp.acked, fun hr => by cases hr⟩
  change k ≤ log.length + 1
  omega

theorem LeaderOk.accept (hs : s.Sound cluster) {T c : ℕ} {log : List LogEntry} {ids : Fin 2 → ℕ}
    (h : LeaderOk s n T log c ids leader) {i : Fin 2} {m : ℕ}
    (ha : s.ack (leader.peers i).id T m) :
    LeaderOk s n T log c ids
      (leader.setPeer i (RaftLeaderReplication.accepted (leader.peers i) m)) := by
  have hp := h.peer i
  have hnext := hp.next_le
  have hmatch := hp.match_lt
  have hle : m ≤ log.length := by
    obtain ⟨-, x, L, hL, hm⟩ := hs.invariant.ack_le ha
    rw [h.lead] at hL
    obtain ⟨rfl, rfl⟩ := Prod.mk.inj (Option.some.inj hL)
    exact hm
  refine h.setPeer rfl ⟨Nat.lt_succ_self _, ?_, fun h0 => ?_, fun hr => by cases hr⟩
  · change max (leader.peers i).progress.matchIndex m + 1 ≤ log.length + 1
    omega
  · change s.ack (leader.peers i).id T (max (leader.peers i).progress.matchIndex m)
    rcases max_choice (leader.peers i).progress.matchIndex m with hmax | hmax
    · rw [hmax]
      refine hp.acked fun h0' => h0 ?_
      exact hmax.trans h0'
    · rwa [hmax]

/-! ## Committing -/

/-- What a leader and one of its peers hold of an entry of the leader's term has been chosen. -/
theorem LeaderOk.chosen (hn : n ∈ cluster.members) {T c k : ℕ} {log : List LogEntry} {e : LogEntry}
    {ids : Fin 2 → ℕ} (hids : ids = cluster.peerIds n) (h : LeaderOk s n T log c ids leader)
    (he : log[k]? = some e) (het : e.term = T) {j : Fin 2}
    (hj : k + 1 ≤ (leader.peers j).progress.matchIndex) :
    Replication.Chosen cluster.quorum LogEntry.term s T (k + 1) := by
  have hmem : ids j ∈ cluster.members := hids ▸ cluster.peerIds_mem n hn j
  have hne : n ≠ ids j := hids ▸ (cluster.peerIds_ne_self n hn j).symm
  refine ⟨n, log, k, e, h.lead, rfl, he, het, {n, ids j},
    QuorumSystem.majority_pair cluster.card_members hn hmem hne, fun x hx => ?_⟩
  rcases Finset.mem_insert.1 hx with rfl | hx
  · exact ⟨log.length, (List.getElem?_eq_some_iff.1 he).1, h.ack⟩
  · have hack := (h.peer j).acked (by omega)
    rw [h.id] at hack
    rw [Finset.mem_singleton.1 hx]
    exact ⟨_, hj, hack⟩

/-- Committing more of the log of a leader, on the word of one peer. -/
theorem exists_commit (hs : s.Sound cluster) (hn : n ∈ cluster.members) {T c k : ℕ}
    {log : List LogEntry} {e : LogEntry} {ids : Fin 2 → ℕ} (hids : ids = cluster.peerIds n)
    (ht : s.term n = T) (h : LeaderOk s n T log c ids leader) (hck : c ≤ k)
    (he : log[k]? = some e) (het : e.term = T) {j : Fin 2}
    (hj : k + 1 ≤ (leader.peers j).progress.matchIndex) :
    ∃ s', Effect cluster n s s' ∧ s'.term = s.term ∧ s'.vote = s.vote ∧ s'.log = s.log ∧
      LeaderOk s' n T log (k + 1) ids leader ∧ CommittedBy s' T (log.take (k + 1)) := by
  subst ht
  obtain ⟨-, -, -, -, -, -, -, -, hquorum⟩ := h.chosen hn hids he het hj
  have hstep : Step cluster.quorum LogEntry.term n s _ := .commit s k log e h.lead
    (h.committed_le.trans hck) he het hquorum
  have heffect : Effect cluster n s _ := .of_step hstep rfl rfl
  have hg := heffect.grows hs
  refine ⟨_, heffect, rfl, rfl, rfl, ⟨h.selfId, h.term, h.stopped, h.lead, h.ack, ?_, h.id,
    fun i => (h.peer i).grows hg⟩, Or.inr ⟨s.term n, n, log, le_rfl, h.lead, ?_⟩⟩
  · exact (Function.update_self ..).le
  · simp

/-! ## What follows a reply -/

/-- A leader that has applied what it knows to be committed, in place of `node`. -/
def Applied (s : Abstract) (n : ℕ) (node : RaftNode) : Prop :=
  RunningOk s n { node with state := .replay (node.log.log.take node.commitIndex) }

/-- Following up on a reply never fails, and leaves the node and the messages as they should be. -/
theorem followUp_eq (h : Applied s n node) (hself : node.selfId = n) {c : ℕ}
    (hstate : node.state = .replay (node.log.log.take c)) (hc : c ≤ node.commitIndex)
    (hl : node.leader = some leader) (i : Fin 2) {outcome : AppendReplyOutcome}
    (hsame : outcome ≠ .committed → c = node.commitIndex) :
    ∃ leader' rounds actions, node.followUp (node.peerIds i) outcome = ({ node with
        state := .replay (node.log.log.take node.commitIndex)
        leader := some leader', readRounds := rounds }, some actions) ∧
      RunningOk s n { node with
        state := .replay (node.log.log.take node.commitIndex)
        leader := some leader', readRounds := rounds } ∧
      ∀ m ∈ actions.messages, SendOk s n none m := by
  have hok := h.leader hl
  by_cases ho : outcome = .committed
  · subst ho
    have hlog : LogInvariant node.log.log node.term := h.invariant.log
    obtain ⟨applied, happ, -⟩ := RaftNode.applyReady_eq hlog hstate hc h.invariant.commit_le {}
    obtain ⟨leader₁, messages, hq, hrun₁, hM⟩ := RunningOk.queueAppends h none hl
      (fun p hp => mem_peers hp) { applied } (by simp)
    obtain ⟨rounds, messages', hw, hrun₂, hM'⟩ := hrun₁.startWaitingReads none hself rfl
      { applied, messages } hM
    refine ⟨leader₁, rounds, { applied, messages := messages' }, ?_, hrun₂, hM'⟩
    rw [RaftNode.followUp, happ]
    dsimp only at hq hw ⊢
    rw [hq]
    dsimp only
    rw [hw]
  · have hreplay : .replay (node.log.log.take node.commitIndex) = node.state := by
      rw [hstate, hsame ho]
    rw [Applied, hreplay] at h
    rw [hreplay]
    obtain ⟨leader₁, messages, hq, hrun₁, hM⟩ := h.queueAppend none hl i {} (by simp)
    have hplain :
        RunningOk s n { node with leader := some leader, readRounds := node.readRounds } :=
      h.setLeader hl (h.leader hl)
    have hnode : ({ node with leader := some leader, readRounds := node.readRounds } : RaftNode) =
        node := by rw [← hl]
    cases outcome with
    | retry => exact ⟨leader₁, node.readRounds, _, hq, hrun₁, hM⟩
    | committed => exact absurd rfl ho
    | recorded =>
      rw [RaftNode.followUp]
      have hprogress :
          (node.leader.bind fun leader => leader.progress (node.peerIds i)).isSome := by
        rw [hl]
        have := Option.isSome_iff_ne_none.2 (hok.findPeer (i := i))
        simpa [RaftLeaderReplication.progress] using this
      obtain ⟨progress, hp⟩ := Option.isSome_iff_exists.1 hprogress
      rw [hp]
      dsimp only
      split_ifs
      · exact ⟨leader₁, node.readRounds, _, hq, hrun₁, hM⟩
      · exact ⟨leader, node.readRounds, {}, by rw [← hnode], hplain, by simp⟩
    | ignored | steppedDown | inconsistentFollower | persistenceError =>
      exact ⟨leader, node.readRounds, {}, by rw [← hnode]; rfl, hplain, by simp⟩

/-- Completing a read never fails. -/
theorem completeRead_eq (h : RunningOk s n node) (hl : node.leader = some leader)
    (sentRequest : AppendEntries) (reply : AppendEntriesReply) (actions : RaftNodeActions) :
    ∃ rounds readyReads, node.completeRead sentRequest reply actions =
        ({ node with readRounds := rounds }, .ok { actions with readyReads }) ∧
      RunningOk s n { node with readRounds := rounds } := by
  have hself : ∃ rounds readyReads, (node, Except.ok actions) =
        (({ node with readRounds := rounds }, .ok { actions with readyReads }) :
          RaftNode × RaftNodeResult) ∧ RunningOk s n { node with readRounds := rounds } :=
    ⟨node.readRounds, actions.readyReads, rfl, h⟩
  rw [RaftNode.completeRead]
  split_ifs with hr
  · split
    · next probe hfind =>
      dsimp only
      split_ifs with hp hlt
      · have hle := (h.reads _ _ (OrderedMap.mem_of_find hfind)).2.2.2.1
        rw [h.invariant.lastApplied] at hlt
        exact absurd hle (not_le.2 hlt)
      · exact ⟨_, _, rfl, h.setReadRounds hl node.nextReadId fun id p hm =>
          h.reads id p (OrderedMap.mem_erase.1 hm).1⟩
      · exact hself
    · exact hself
  · exact hself

/-! ## The handler -/

/-- What `handle_reply` returns when `on_append_reply` calls it, on a node with a replication
object. -/
def RaftNode.handleReply (node : RaftNode) (peerId : ℕ) (sentRequest : AppendEntries)
    (reply : AppendEntriesReply) : Option RaftLeaderReplication.ReplyOutcome :=
  node.leader.map fun leader => leader.handleReply node.election node.metadata node.log
    node.commitIndex peerId sentRequest reply

def RaftNode.replyOutcome (node : RaftNode) (peerId : ℕ) (sentRequest : AppendEntries)
    (reply : AppendEntriesReply) : Option AppendReplyOutcome :=
  (node.handleReply peerId sentRequest reply).map RaftLeaderReplication.ReplyOutcome.outcome

/-- A node that leaves its term for a later one. -/
theorem NodeOk.enterTerm (hs : s.Sound cluster) (h : NodeOk cluster s n node)
    (hstop : node.stopped = false) {m : PersistentMetadata} {t : ℕ} (hm : m.Synced)
    (hn : m.state = ⟨t, none⟩) (ht : node.term < t) {l : Option RaftLeaderReplication} :
    ∃ s', Effect cluster n s s' ∧
      NodeOk cluster s' n { node with leader := l, metadata := m }.dropLeadership := by
  have hrun := h.running hstop
  obtain ⟨hrec, hlog⟩ := hrun.facts h.disk
  obtain ⟨s', he, hq, hr⟩ := Writes.enter hs hrec ht
  have hinv : RaftNode.Invariant { node with leader := l, metadata := m }.dropLeadership :=
    hrun.invariant.enterTerm hm hn ht
  have hle : node.term ≤ m.state.currentTerm := by
    rw [hn]
    exact ht.le
  refine ⟨s', he, h.of_running hstop rfl rfl (.of_follower hinv ?_ (role_follower_of_vote ?_))
    ?_ ?_⟩
  · exact (hrun.committed.grows (he.grows hs)).mono hle
  · change m.state.votedFor ≠ _
    simp [hn]
  · change Recorded s' n m.state
    rwa [hn]
  · rw [hq.log]
    exact hlog

/-- A node that fails to record a later term. -/
theorem NodeOk.enterTerm_stop (hs : s.Sound cluster) (h : NodeOk cluster s n node)
    {m : PersistentMetadata} (hm : m.state = node.metadata.state)
    (hw : Writes cluster n s m.durable) {l : Option RaftLeaderReplication}
    (e : RaftNodeError) : ∃ s', Effect cluster n s s' ∧
      NodeOk cluster s' n ({ node with leader := l, metadata := m }.stop e).1 := by
  obtain ⟨s', he, hq, hr⟩ := hw
  refine ⟨s', he, h.of_stop (he.grows hs) _ rfl rfl rfl ⟨hr, ?_⟩ rfl rfl h.commit_le fun hr => ?_⟩
  · rw [hq.log]
    exact h.disk.log
  · have hrole : RaftNode.role { node with leader := l, metadata := m } = node.role := by
      simp [RaftNode.role, RaftElection.role, RaftElection.stale, hm]
    have hterm : RaftNode.term { node with leader := l, metadata := m } = node.term := by
      rw [RaftNode.term, hm]
      rfl
    obtain ⟨L, hL⟩ := h.leads (hrole ▸ hr)
    rw [hterm, hq.leader]
    exact ⟨L, hL⟩

/-- The end of the handler, on a leader that has applied what it knows to be committed. -/
theorem follow_simulates (h : NodeOk cluster s n node) (hstop : node.stopped = false)
    (he : Effect cluster n s s')
    (hrec : Recorded s' n node.metadata.state) (hlog : s'.log n = node.log.log) {c : ℕ}
    (happ : Applied s' n { node with leader := some leader, commitIndex := c })
    (hstate : node.state = .replay (node.log.log.take node.commitIndex))
    (hc : node.commitIndex ≤ c) {peerId : ℕ} {i : Fin 2} (hi : peerId = node.peerIds i)
    {outcome : AppendReplyOutcome} (hsame : outcome ≠ .committed → node.commitIndex = c)
    (sentRequest : AppendEntries) (reply : AppendEntriesReply) {r : RaftNode × RaftNodeResult}
    (hr : r = match RaftNode.followUp { node with leader := some leader, commitIndex := c } peerId
        outcome with
      | (node, none) => node.stop .inconsistentState
      | (node, some actions) => node.completeRead sentRequest reply actions) :
    Simulates cluster s n none r ∧ r.2 ≠ .error .inconsistentState := by
  subst hi
  obtain ⟨leader₁, rounds, actions, hf, hrun, hM⟩ := followUp_eq happ h.selfId hstate hc rfl i hsame
  obtain ⟨rounds', readyReads, hread, hrun'⟩ := completeRead_eq hrun rfl sentRequest reply actions
  dsimp only at hf hread hrun'
  rw [hf] at hr
  dsimp only at hr
  rw [hread] at hr
  subst hr
  refine ⟨⟨s', he, h.of_running hstop rfl rfl hrun' hrec hlog, fun actions' ha m hm => ?_⟩, by simp⟩
  obtain rfl := Except.ok.inj ha
  exact hM m hm

theorem onAppendReply_simulates (hs : s.Sound cluster) (hn : n ∈ cluster.members)
    (h : NodeOk cluster s n node) (hstop : node.stopped = false) {peerId : ℕ}
    {sentRequest : AppendEntries} {reply : AppendEntriesReply}
    (hok : ReplyOk s peerId sentRequest reply) :
    Simulates cluster s n none (node.onAppendReply peerId sentRequest reply) ∧
      ((node.onAppendReply peerId sentRequest reply).2 = .error .inconsistentState →
        node.replyOutcome peerId sentRequest reply = some .inconsistentFollower) := by
  have hrun := h.running hstop
  obtain ⟨hrec, hlog⟩ := hrun.facts h.disk
  have hself : node.election.selfId = n := hrun.invariant.selfId.trans h.selfId
  rw [RaftNode.onAppendReply, if_neg (by simp [hstop])]
  by_cases hp : node.isPeer peerId = false
  · rw [if_pos hp]
    exact ⟨simulates_self h fun actions ha => (by cases ha), fun he => by cases he⟩
  rw [if_neg hp]
  cases hl : node.leader with
  | none =>
    dsimp only
    split_ifs with ht
    · rcases PersistentMetadata.advanceTerm_cases hrun.invariant.metadata reply.term with
        ⟨hlt, -⟩ | ⟨heq, -⟩ | ⟨-, hup⟩
      · exact absurd ht (not_lt.2 hlt.le)
      · exact absurd ht (not_lt.2 heq.le)
      · have hw : Writes cluster n s ⟨reply.term, none⟩ := .enter hs hrec ht
        revert hup
        generalize node.metadata.advanceTerm reply.term = r
        rintro (⟨m, hm, hn'⟩ | ⟨m, hn', hd⟩)
        · obtain ⟨s', he, hnode⟩ := h.enterTerm hs hstop hm hn' ht (l := none)
          refine ⟨⟨s', he, ?_, fun actions ha msg hmsg => ?_⟩, fun he => by cases he⟩
          · rwa [← hl] at hnode
          · obtain rfl := Except.ok.inj ha
            cases hmsg
        · have hwrites : Writes cluster n s m.durable := by
            rcases hd with hd | hd
            · exact hd ▸ .refl hrec
            · exact hd ▸ hw
          obtain ⟨s', he, hnode⟩ := h.enterTerm_stop hs hn' hwrites .persistenceError (l := none)
          refine ⟨simulates_stop he ?_, fun he => by cases he⟩
          rwa [← hl] at hnode
    · exact ⟨simulates_self h fun actions ha => by
        obtain rfl := Except.ok.inj ha
        rfl, fun he => by cases he⟩
  | some leader =>
    have hlead := hrun.leader hl
    obtain ⟨i, hi⟩ : ∃ i, peerId = node.peerIds i := by
      simp only [RaftNode.isPeer, decide_eq_false_iff_not, not_not] at hp
      exact hp.elim (fun h => ⟨0, h⟩) fun h => ⟨1, h⟩
    have hend := leader.handleReply_rule node.election node.log node.commitIndex peerId sentRequest
      reply (A := fun m => Writes cluster n s m) hrun.invariant.metadata (.refl hrec)
      fun _ ht => .enter hs hrec (hlead.term.symm.trans_lt ht)
    -- the node goes on leading, with `l` in place of `leader`
    have hfollow : ∀ {s' : Abstract} {l : RaftLeaderReplication} {c : ℕ}
        (outcome : AppendReplyOutcome), Effect cluster n s s' → s'.term = s.term →
        s'.vote = s.vote → s'.log = s.log →
        LeaderOk s' n node.term node.log.log c node.peerIds l →
        CommittedBy s' node.term (node.log.log.take c) → node.commitIndex ≤ c →
        c ≤ node.lastIndex → (outcome ≠ .committed → node.commitIndex = c) →
        ∀ {r : RaftNode × RaftNodeResult}, r = (match RaftNode.followUp
            { node with leader := some l, commitIndex := c } peerId outcome with
          | (node, none) => node.stop .inconsistentState
          | (node, some actions) => node.completeRead sentRequest reply actions) →
        Simulates cluster s n none r ∧ r.2 ≠ .error .inconsistentState := by
      intro s' l c outcome he hterm hvote hlog' hl' hcommitted hle hc ho r hr
      have hg := he.grows hs
      have hinv := (hrun.invariant.setLeader hl (hl'.selfId.trans hlead.selfId.symm)
        (hl'.term.trans hlead.term.symm) (hl'.stopped.trans hlead.stopped.symm)).commit hc
      refine follow_simulates h hstop he
        ⟨by rw [hterm]; exact hrec.term, by rw [hvote]; exact hrec.vote⟩
        (by rw [hlog', hlog]) ⟨hinv, hcommitted, fun hrole => ?_, fun he => ?_, ?_⟩
        hrun.invariant.applied hle hi ho sentRequest reply hr
      · exact absurd ((hrun.invariant.leader_facts hl).2.1.symm.trans hrole) (by simp)
      · obtain rfl := Option.some.inj he
        exact hl'
      · exact fun id probe hm => ⟨(hrun.reads id probe hm).1.grows hg, (hrun.reads id probe hm).2.1,
          (hrun.reads id probe hm).2.2.1, (hrun.reads id probe hm).2.2.2.1.trans hle,
          (hrun.reads id probe hm).2.2.2.2⟩
    have hacked : ∀ {i : Fin 2}, leader.findPeer peerId = some i → reply.success = true →
        (leader.peers i).pending = some sentRequest →
        s.ack (leader.peers i).id node.term
          (sentRequest.prevLogIndex + sentRequest.entries.length) := by
      intro i hi hsucc hpend
      have hterm := ((hlead.peer i).pending hpend).2.2.1
      have := (hok.accepted hsucc).2
      rwa [hterm, ← findPeer_id hi] at this
    rw [RaftNode.replyOutcome, RaftNode.handleReply, hl, Option.map_some, Option.map_some]
    dsimp only
    revert hend
    generalize leader.handleReply node.election node.metadata node.log node.commitIndex peerId
      sentRequest reply = r
    rintro (⟨-⟩ | ⟨m, hm, hn', ht, hA⟩ | ⟨m, hm, hA⟩ | ⟨i, -, -, -, -, -⟩ |
      ⟨i, hfind, -, hrej, hpend, k, hk, hmatch⟩ | ⟨i, hfind, -, hsucc, hpend, l, rfl⟩ |
      ⟨i, hfind, -, hsucc, hpend, l, rfl, c, hc⟩)
    · obtain ⟨hsim, hne⟩ := hfollow .ignored (.refl cluster n s) rfl rfl rfl hlead hrun.committed
        le_rfl h.commit_le (fun _ => rfl) rfl
      exact ⟨hsim, fun he => absurd he hne⟩
    · rw [hlead.term] at ht
      obtain ⟨s', he, hnode⟩ :=
        h.enterTerm hs hstop hm hn' ht (l := some { leader with stopped := true })
      refine ⟨⟨s', he, hnode, fun actions ha msg hmsg => ?_⟩, fun he => by cases he⟩
      obtain rfl := Except.ok.inj ha
      cases hmsg
    · obtain ⟨s', he, hnode⟩ := h.enterTerm_stop hs hm hA .persistenceError
        (l := some { leader with stopped := true })
      exact ⟨simulates_stop he hnode, fun he => by cases he⟩
    · exact ⟨simulates_stop (.refl cluster n s) (h.of_stop (.refl s) _ rfl rfl rfl h.disk rfl rfl
        h.commit_le h.leads), fun _ => rfl⟩
    · obtain ⟨hsim, hne⟩ := hfollow .retry (.refl cluster n s) rfl rfl rfl (hlead.retry hk hmatch)
        hrun.committed le_rfl h.commit_le (fun _ => rfl) rfl
      exact ⟨hsim, fun he => absurd he hne⟩
    · obtain ⟨hsim, hne⟩ := hfollow .recorded (.refl cluster n s) rfl rfl rfl
        (hlead.accept hs (hacked hfind hsucc hpend)) hrun.committed le_rfl h.commit_le
        (fun _ => rfl) rfl
      exact ⟨hsim, fun he => absurd he hne⟩
    · have hlead' := hlead.accept hs (hacked hfind hsucc hpend)
      obtain ⟨k, e, rfl, hle, he, het, j, hj⟩ := RaftLeaderReplication.advanceCommitIndex_eq_some hc
      have hk := (List.getElem?_eq_some_iff.1 he).1
      rw [PersistentLog.length_log] at hk
      obtain ⟨s', heffect, h1, h2, h3, hlead'', hcommitted⟩ :=
        exists_commit hs hn h.peerIds hrec.term
        hlead' hle he (het.trans hlead.term) hj
      obtain ⟨hsim, hne⟩ := hfollow .committed heffect h1 h2 h3 hlead'' hcommitted
        (hle.trans (Nat.le_succ k)) hk (fun hne => absurd rfl hne) rfl
      exact ⟨hsim, fun he => absurd he hne⟩

end DistributedKV
