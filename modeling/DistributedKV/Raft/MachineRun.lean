import DistributedKV.Raft.MachineNode
import DistributedKV.Raft.NodeReach
import Mathlib.Logic.Relation

/-!
# Words along a run

What a node records stays small enough for the arithmetic of its handlers (`Words`), whatever
messages of 64-bit numbers it gets and whatever becomes of its writes: each call preserves this, and
so does a restart. So no handler of a reachable node goes wrong, apart from the read barrier that
gives out the last id; and the terms and the ids of reads only go up.
-/

namespace DistributedKV

/-! ## Terms -/

/-- The terms of a store are 64-bit numbers from `t` on, and a reopen recovers none that is
earlier than the one in use. -/
structure PersistentMetadata.TermWords (t : ℕ) (store : PersistentMetadata) : Prop where
  le : t ≤ store.state.currentTerm
  durable : store.state.currentTerm ≤ store.durable.currentTerm
  lt : store.durable.currentTerm < 2 ^ 64

namespace PersistentMetadata.TermWords

variable {t : ℕ} {store : PersistentMetadata}

theorem persist (h : TermWords t store) {next : RaftMetadata}
    (hle : store.state.currentTerm ≤ next.currentTerm) (hlt : next.currentTerm < 2 ^ 64) :
    TermWords t (store.persist next).1 := by
  unfold PersistentMetadata.persist
  split_ifs
  · exact h
  dsimp only
  cases nextOutcome store.outcomes with
  | done => exact ⟨h.le.trans hle, le_rfl, hlt⟩
  | failed => exact ⟨h.le, h.durable, h.lt⟩
  | uncertain reached =>
    cases reached with
    | false => exact ⟨h.le, h.durable, h.lt⟩
    | true => exact ⟨h.le, hle, hlt⟩

theorem term_lt (h : TermWords t store) : store.state.currentTerm < 2 ^ 64 :=
  h.durable.trans_lt h.lt

theorem advanceTerm (h : TermWords t store) {term : ℕ} (hterm : term < 2 ^ 64) :
    TermWords t (store.advanceTerm term).1 := by
  unfold PersistentMetadata.advanceTerm
  split_ifs with hfailed hstale heq
  · exact h
  · exact h
  · exact h
  · exact h.persist (not_lt.1 hstale) hterm

theorem voteFor (h : TermWords t store) (candidate : ℕ) :
    TermWords t (store.voteFor candidate).1 := by
  unfold PersistentMetadata.voteFor
  split_ifs
  · exact h
  · exact h
  · exact h
  · exact h
  · exact h.persist le_rfl h.term_lt

theorem startElection (h : TermWords t store) (election : RaftElection) (log : PersistentLog) :
    TermWords t (election.startElection store log).2.1 := by
  unfold RaftElection.startElection
  split_ifs
  · exact h
  dsimp only
  split_ifs with hleader hmax
  · exact h
  · exact h
  · have hterm := h.term_lt
    rw [uint64Max] at hmax
    have hnext : TermWords t (store.advanceTerm (store.state.currentTerm + 1)).1 :=
      h.advanceTerm (by omega)
    revert hnext
    rcases store.advanceTerm (store.state.currentTerm + 1) with ⟨store', _ | _ | _ | _ | _ | _⟩
    all_goals intro hnext
    all_goals try exact hnext
    dsimp only at hnext ⊢
    have hvote := hnext.voteFor (election.refreshRoleFromMetadata store).1.selfId
    split_ifs <;> exact hvote

theorem handleVoteReply (h : TermWords t store) (election : RaftElection) (peerId : ℕ)
    {reply : RequestVoteReply} (hr : reply.term < 2 ^ 64) :
    TermWords t (election.handleVoteReply store peerId reply).2.1 := by
  unfold RaftElection.handleVoteReply
  by_cases hunusable : election.unusable = true
  · rw [if_pos hunusable]
    exact h
  rw [if_neg hunusable]
  rcases election.refreshRoleFromMetadata store with ⟨election', _ | _⟩
  swap
  · exact h
  dsimp only
  cases election'.peerIndex peerId with
  | none => exact h
  | some peer =>
    dsimp only
    split_ifs
    · have hnext := h.advanceTerm hr
      revert hnext
      rcases store.advanceTerm reply.term with ⟨store', _ | _ | _ | _ | _ | _⟩
      all_goals exact id
    all_goals exact h

theorem handleRequestVote (h : TermWords t store) (log : PersistentLog) {request : RequestVote}
    (hr : request.term < 2 ^ 64) :
    TermWords t (DistributedKV.handleRequestVote store log request).1 := by
  unfold DistributedKV.handleRequestVote
  have hnext := h.advanceTerm hr
  revert hnext
  rcases store.advanceTerm request.term with ⟨store', _ | _ | _ | _ | _ | _⟩
  all_goals intro hnext
  all_goals try exact hnext
  all_goals
    dsimp only at hnext ⊢
    split_ifs
    · exact hnext
    · exact hnext
    · have hvote := hnext.voteFor request.candidateId
      revert hvote
      rcases store'.voteFor request.candidateId with ⟨store'', _ | _ | _ | _ | _ | _⟩
      all_goals exact id

theorem handleAppendEntries (h : TermWords t store) (log : PersistentLog) (commitIndex : ℕ)
    {request : AppendEntries} (hr : request.term < 2 ^ 64) :
    TermWords t (DistributedKV.handleAppendEntries store log commitIndex request).metadata := by
  unfold DistributedKV.handleAppendEntries
  have hnext := h.advanceTerm hr
  revert hnext
  rcases store.advanceTerm request.term with ⟨store', _ | _ | _ | _ | _ | _⟩
  all_goals intro hnext
  all_goals try exact hnext
  all_goals
    dsimp only at hnext ⊢
    split_ifs
    · exact hnext
    · exact hnext
    · exact hnext
    · split <;> exact hnext

theorem handleReply (h : TermWords t store) (leader : RaftLeaderReplication)
    (election : RaftElection) (log : PersistentLog) (commitIndex peerId : ℕ)
    (sentRequest : AppendEntries) {reply : AppendEntriesReply} (hr : reply.term < 2 ^ 64) :
    TermWords t (leader.handleReply election store log commitIndex peerId sentRequest
      reply).metadata := by
  unfold RaftLeaderReplication.handleReply
  cases leader.findPeer peerId with
  | none => exact h
  | some i =>
    dsimp only
    split_ifs
    · exact h
    · have hnext := h.advanceTerm hr
      revert hnext
      rcases store.advanceTerm reply.term with ⟨store', _ | _ | _ | _ | _ | _⟩
      all_goals exact id
    · exact h
    · exact h
    · exact h
    · split <;> exact h

end PersistentMetadata.TermWords

namespace Machine

/-! ## Peers -/

/-- The records of a leader's peers leave room for one more index. -/
def PeersWords (leader : RaftLeaderReplication) : Prop := ∀ i, PeerWords (leader.peers i)

namespace PeersWords

variable {leader leader' : RaftLeaderReplication} {election : RaftElection}
  {metadata : PersistentMetadata} {log : PersistentLog} {commitIndex peerId : ℕ}

theorem setPeer (h : PeersWords leader) {i : Fin 2} {peer : PeerState} (hp : PeerWords peer) :
    PeersWords (leader.setPeer i peer) := by
  intro j
  by_cases hj : j = i
  · rw [hj, RaftLeaderReplication.setPeer_self]
    exact hp
  · rw [RaftLeaderReplication.setPeer_of_ne hj]
    exact h j

theorem create
    (h : RaftLeaderReplication.create election metadata log commitIndex = some leader) :
    PeersWords leader := by
  obtain rfl := RaftLeaderReplication.create_eq_some h
  exact fun _ => ⟨by dsimp only; omega, fun hr => by cases hr⟩

/-- A new request ends within the log. -/
theorem makeRequest (h : PeersWords leader) (hlog : log.lastIndex + 1 < 2 ^ 64)
    {request : AppendEntries} (hmake : leader.MakeRequestEnd election metadata log commitIndex
      peerId 4 (leader', .ok request)) : PeersWords leader' := by
  cases hmake with
  | pending => exact h
  | fresh i hi hp k hk hl =>
    refine h.setPeer ⟨(h i).matchIndex, fun hr => ?_⟩
    obtain rfl := Option.some.inj hr
    have hlength : ((log.log.drop k).take 4).length ≤ log.lastIndex - k := by
      rw [← PersistentLog.length_log, List.length_take, List.length_drop]
      exact min_le_right _ _
    dsimp only [RaftLeaderReplication.requestFrom]
    omega

/-- A matched request is one that the leader has kept. -/
theorem handleReply (h : PeersWords leader) (election : RaftElection)
    (metadata : PersistentMetadata) (log : PersistentLog) (commitIndex peerId : ℕ)
    (sentRequest : AppendEntries) (reply : AppendEntriesReply) :
    PeersWords
      (leader.handleReply election metadata log commitIndex peerId sentRequest reply).leader := by
  unfold RaftLeaderReplication.handleReply
  cases leader.findPeer peerId with
  | none => exact h
  | some i =>
    have hmatch := (h i).matchIndex
    have hset : ∀ {progress : PeerProgress}, progress.matchIndex + 1 < 2 ^ 64 →
        PeersWords (leader.setPeer i { leader.peers i with progress, pending := none }) :=
      fun hlt => h.setPeer ⟨hlt, fun hr => by cases hr⟩
    dsimp only
    split_ifs with hactive hlater hignored
    · exact h
    · split <;> exact h
    · exact h
    · exact hset hmatch
    · exact hset hmatch
    · have hpending : (leader.peers i).pending = some sentRequest := by tauto
      have hsum := (h i).pending hpending
      have hlt : max (leader.peers i).progress.matchIndex
          (sentRequest.prevLogIndex + sentRequest.entries.length) + 1 < 2 ^ 64 := by omega
      split <;> exact hset hlt

theorem appendCommand (h : PeersWords leader) (election : RaftElection)
    (metadata : PersistentMetadata) (log : PersistentLog) (command : Command) :
    PeersWords (leader.appendCommand election metadata log command).1 := by
  unfold RaftLeaderReplication.appendCommand
  split_ifs
  · exact h
  · exact h
  · dsimp only
    split <;> exact h

end PeersWords

/-! ## Words -/

/-- What a node has recorded: terms of 64 bits that are at least `t`, and as long as it leads, a log
and peers with room for one more index. -/
structure Words (t : ℕ) (node : RaftNode) : Prop where
  terms : node.metadata.TermWords t
  log : node.leader.isSome → node.log.lastIndex + 1 < 2 ^ 64
  peers : ∀ {leader}, node.leader = some leader → PeersWords leader

namespace Words

variable {t : ℕ} {node node' : RaftNode} {actions : RaftNodeActions}

theorem of_none (h : node.metadata.TermWords t) (hl : node.leader = none) : Words t node where
  terms := h
  log hsome := by simp [hl] at hsome
  peers heq := by simp [hl] at heq

theorem of_eq (h : Words t node) (hm : node'.metadata = node.metadata)
    (hlog : node'.log = node.log) (hl : node'.leader = node.leader) : Words t node' where
  terms := hm ▸ h.terms
  log hsome := hlog ▸ h.log (hl ▸ hsome)
  peers heq := h.peers (hl ▸ heq)

theorem setMetadata (h : Words t node) {metadata : PersistentMetadata}
    (hm : metadata.TermWords t) : Words t { node with metadata } := ⟨hm, h.log, h.peers⟩

theorem dropLeadership (h : Words t node) : Words t node.dropLeadership := .of_none h.terms rfl

theorem stop (h : Words t node) (e : RaftNodeError) : Words t (node.stop e).1 :=
  .of_none h.terms rfl

theorem withFaults (h : Words t node) (faults : Faults) : Words t (node.withFaults faults) :=
  ⟨⟨h.terms.le, h.terms.durable, h.terms.lt⟩, h.log, h.peers⟩

/-! ## The helpers -/

theorem queueAppend (h : Words t node) (peerId : ℕ) (actions : RaftNodeActions) :
    Words t (node.queueAppend peerId actions).1 := by
  cases hl : node.leader with
  | none =>
    rw [RaftNode.queueAppend, hl]
    exact h
  | some leader =>
    have hlog := h.log (by rw [hl]; rfl)
    have hend : node.QueueEnd PeersWords (fun _ => True) True actions
        (node.queueAppend peerId actions) :=
      RaftNode.queueAppend_rule hl (h.peers hl)
        (fun hmake => ⟨(h.peers hl).makeRequest hlog hmake, trivial⟩) (fun _ => trivial) actions
    revert hend
    generalize node.queueAppend peerId actions = r
    rintro (⟨leader', hP, -⟩ | ⟨leader', hP, messages, -⟩)
    all_goals exact ⟨h.terms, fun _ => hlog, fun heq => Option.some.inj heq ▸ hP⟩

theorem queueAppends (h : Words t node) (peerIds : List ℕ) (actions : RaftNodeActions) :
    Words t (node.queueAppends peerIds actions).1 := by
  induction peerIds generalizing node actions with
  | nil => exact h
  | cons peerId peerIds ih =>
    have hfirst := h.queueAppend peerId actions
    rw [RaftNode.queueAppends]
    revert hfirst
    rcases node.queueAppend peerId actions with ⟨node', _ | actions'⟩
    · exact id
    · exact fun hfirst => ih hfirst actions'

theorem applyReady (h : Words t node) (actions : RaftNodeActions) :
    Words t (node.applyReady actions).1 := by
  obtain ⟨state, heq, -⟩ := node.applyReady_shape actions
  rw [heq]
  exact h.of_eq rfl rfl rfl

theorem startWaitingReads (h : Words t node) (actions : RaftNodeActions) :
    Words t (node.startWaitingReads actions).1 := by
  rw [RaftNode.startWaitingReads]
  split_ifs
  · exact h
  · exact h.of_eq rfl rfl rfl

theorem followUp (h : Words t node) (peerId : ℕ) (outcome : AppendReplyOutcome) :
    Words t (node.followUp peerId outcome).1 := by
  unfold RaftNode.followUp
  cases outcome with
  | retry => exact h.queueAppend peerId {}
  | ignored | steppedDown | inconsistentFollower | persistenceError => exact h
  | recorded =>
    dsimp only
    split
    · exact h
    · split_ifs
      · exact h.queueAppend peerId {}
      · exact h
  | committed =>
    have happ := h.applyReady {}
    dsimp only
    revert happ
    rcases node.applyReady {} with ⟨node₁, _ | actions₁⟩
    · exact id
    · intro happ
      have hq := happ.queueAppends node₁.peers actions₁
      dsimp only at hq ⊢
      revert hq
      rcases node₁.queueAppends node₁.peers actions₁ with ⟨node₂, _ | actions₂⟩
      · exact id
      · exact fun hq => hq.startWaitingReads actions₂

theorem completeRead (h : Words t node) (sentRequest : AppendEntries) (reply : AppendEntriesReply)
    (actions : RaftNodeActions) : Words t (node.completeRead sentRequest reply actions).1 := by
  rw [RaftNode.completeRead]
  split_ifs
  · split
    · dsimp only
      split_ifs
      · exact h.stop _
      · exact h.of_eq rfl rfl rfl
      · exact h
    · exact h
  · exact h

/-! ## The handlers -/

/-- The end of a handler that sends requests to the peers. -/
theorem of_queueAppends (h : Words t node) (peerIds : List ℕ) (actions : RaftNodeActions)
    (f : RaftNode → RaftNodeActions → RaftNodeActions) :
    Words t (match node.queueAppends peerIds actions with
      | (node, none) => node.stop .inconsistentState
      | (node, some actions) => (node, .ok (f node actions))).1 := by
  have hq := h.queueAppends peerIds actions
  revert hq
  rcases node.queueAppends peerIds actions with ⟨node', _ | actions'⟩
  · exact fun hq => hq.stop _
  · exact id

theorem onElectionTimeout (h : Words t node) : Words t node.onElectionTimeout.1 := by
  rw [RaftNode.onElectionTimeout]
  split_ifs
  · exact h
  have hterms := h.terms.startElection node.election node.log
  revert hterms
  rcases node.election.startElection node.metadata node.log with
    ⟨election, metadata, (_ | _ | _) | request⟩
  · exact fun hterms => ⟨hterms, h.log, h.peers⟩
  all_goals exact fun hterms => .of_none hterms rfl

theorem onHeartbeatTimeout (h : Words t node) : Words t node.onHeartbeatTimeout.1 := by
  rw [RaftNode.onHeartbeatTimeout]
  split_ifs
  · exact h
  cases node.leader with
  | none => exact h
  | some leader =>
    dsimp only
    split_ifs
    · exact h.dropLeadership
    · exact h.of_queueAppends _ _ _

theorem onRequestVote (h : Words t node) (peerId : ℕ) {request : RequestVote}
    (hr : request.term < 2 ^ 64) : Words t (node.onRequestVote peerId request).1 := by
  rw [RaftNode.onRequestVote]
  split_ifs
  · exact h
  · exact h
  · exact h
  have hterms := h.terms.handleRequestVote node.log hr
  dsimp only
  revert hterms
  rcases DistributedKV.handleRequestVote node.metadata node.log request with ⟨metadata, e | reply⟩
  · exact fun hterms => .of_none hterms rfl
  · intro hterms
    dsimp only
    split_ifs
    · exact .of_none hterms rfl
    · exact h.setMetadata hterms

theorem onVoteReply (h : Words t node) (peerId : ℕ) {reply : RequestVoteReply}
    (hr : reply.term < 2 ^ 64) : Words t (node.onVoteReply peerId reply).1 := by
  rw [RaftNode.onVoteReply]
  split_ifs
  · exact h
  · exact h
  have hterms := h.terms.handleVoteReply node.election peerId hr
  revert hterms
  rcases node.election.handleVoteReply node.metadata peerId reply with
    ⟨election, metadata, _ | _ | _ | _ | _⟩
  all_goals intro hterms
  · exact ⟨hterms, h.log, h.peers⟩
  · exact ⟨hterms, h.log, h.peers⟩
  · dsimp only
    cases hcreate : RaftLeaderReplication.create election metadata node.log node.commitIndex with
    | none => exact .of_none hterms rfl
    | some leader =>
      have hpeers := (PeersWords.create hcreate).appendCommand election metadata node.log {}
      have hroom := @lastIndex_appendCommand leader election metadata node.log {}
      dsimp only
      revert hpeers hroom
      rcases leader.appendCommand election metadata node.log {} with ⟨leader', log', e | index⟩
      · exact fun _ _ => .of_none hterms rfl
      · intro hpeers hroom
        refine of_queueAppends ?_ _ _ _
        exact ⟨hterms, fun _ => (hroom rfl).1, fun heq => Option.some.inj heq ▸ hpeers⟩
  · exact .of_none hterms rfl
  · exact .of_none hterms rfl

/-- An append request leaves the log of a node that goes on leading as it was. -/
theorem onAppendEntries (h : Words t node) (hinv : node.stopped = false → node.Invariant)
    (peerId : ℕ) {request : AppendEntries} (hr : request.term < 2 ^ 64) :
    Words t (node.onAppendEntries peerId request).1 := by
  rw [RaftNode.onAppendEntries]
  split_ifs with hs
  · exact h
  · exact h
  · exact h
  have hnode := hinv (by simpa using hs)
  have hterms := h.terms.handleAppendEntries node.log node.commitIndex hr
  have hend := handleAppendEntries_rule node.log node.commitIndex request
    (A := fun m => node.metadata.state.Succeeds m) hnode.metadata (.refl _) (fun ht => .enter ht)
  have hkept : ∀ {m : PersistentMetadata} {log : PersistentLog}, m.TermWords t →
      log.log = node.log.log → Words t { node with metadata := m, log } :=
    fun hm hlog => ⟨hm, fun hsome => by
      rw [← PersistentLog.length_log, hlog, PersistentLog.length_log]
      exact h.log hsome, h.peers⟩
  have hinvalid : ∀ {m : PersistentMetadata} {log : PersistentLog}, m.TermWords t →
      log.log = node.log.log → Words t
        (if node.term < m.state.currentTerm then { node with metadata := m, log }.dropLeadership
          else { node with metadata := m, log }) := by
    intro m log hm hlog
    split_ifs
    · exact .of_none hm rfl
    · exact hkept hm hlog
  dsimp only
  revert hterms hend
  generalize DistributedKV.handleAppendEntries node.metadata node.log node.commitIndex request = r
  rintro hterms (⟨m, -, -⟩ | ⟨hstale⟩ | ⟨m, -, hA, -, -⟩ | ⟨m, -, hA, ht, h0, -⟩ |
    ⟨m, -, hA, ht, h0, hv, hp, log, e, hloop⟩ | ⟨m, -, hA, ht, h0, hv, hp, log, hloop⟩)
  · refine .of_none ?_ rfl
    dsimp only
    split_ifs <;> exact hterms
  · have hf : ¬ (request.term ≠ 0 ∧ request.term = node.metadata.state.currentTerm) := by omega
    simp only [hf, decide_false, Bool.false_eq_true, if_false]
    rw [if_neg (lt_irrefl _)]
    exact h.of_eq rfl rfl rfl
  · exact hinvalid hterms rfl
  · simp only [ne_eq, h0, not_false_eq_true, true_and, decide_true, if_true, Bool.false_eq_true,
      if_false]
    refine .of_none ?_ rfl
    split_ifs <;> exact hterms
  · cases e with
    | invalidRequest =>
      exact hinvalid hterms
        (RaftNode.appendLoop_invalidRequest hnode (hA.term_le.trans ht.le) hv hp hloop)
    | committedConflict | persistenceError =>
      refine .of_none ?_ rfl
      dsimp only
      split_ifs <;> exact hterms
  · simp only [ne_eq, h0, not_false_eq_true, true_and, decide_true, if_true]
    -- a follower has no replication object
    have hfollows : ∀ {x : RaftNode} {actions : RaftNodeActions}
        {f : RaftNodeActions → RaftNodeActions}, Words t x →
        Words t (match x.applyReady actions with
          | (node, none) => node.stop .inconsistentState
          | (node, some actions) => (node, .ok (f actions))).1 := by
      intro x actions f hx
      have happ := hx.applyReady actions
      revert happ
      rcases x.applyReady actions with ⟨x', _ | actions'⟩
      · exact fun happ => happ.stop _
      · exact id
    refine hfollows (.of_none ?_ rfl)
    split_ifs <;> exact hterms

theorem onAppendReply (h : Words t node) (peerId : ℕ) (sentRequest : AppendEntries)
    {reply : AppendEntriesReply} (hr : reply.term < 2 ^ 64) :
    Words t (node.onAppendReply peerId sentRequest reply).1 := by
  rw [RaftNode.onAppendReply]
  by_cases hs : node.stopped = true
  · rw [if_pos hs]
    exact h
  by_cases hp : node.isPeer peerId = false
  · rw [if_neg hs, if_pos hp]
    exact h
  rw [if_neg hs, if_neg hp]
  cases hl : node.leader with
  | none =>
    dsimp only
    split_ifs
    · have hterms := h.terms.advanceTerm hr
      revert hterms
      rcases node.metadata.advanceTerm reply.term with ⟨metadata, _ | _ | _ | _ | _ | _⟩
      all_goals exact fun hterms => .of_none hterms rfl
    · exact h
  | some leader =>
    have hterms := h.terms.handleReply leader node.election node.log node.commitIndex peerId
      sentRequest hr
    have hpeers := (h.peers hl).handleReply node.election node.metadata node.log node.commitIndex
      peerId sentRequest reply
    dsimp only
    revert hterms hpeers
    rcases leader.handleReply node.election node.metadata node.log node.commitIndex peerId
      sentRequest reply with ⟨leader', metadata, commitIndex, outcome⟩
    intro hterms hpeers
    have hnode : Words t { node with leader := some leader', metadata, commitIndex } :=
      ⟨hterms, fun _ => h.log (by rw [hl]; rfl), fun heq => Option.some.inj heq ▸ hpeers⟩
    have hfollow : ∀ outcome, Words t
        (match RaftNode.followUp { node with leader := some leader', metadata, commitIndex } peerId
            outcome with
          | (node, none) => node.stop .inconsistentState
          | (node, some actions) => node.completeRead sentRequest reply actions).1 := by
      intro outcome
      have hend := hnode.followUp peerId outcome
      revert hend
      generalize RaftNode.followUp _ _ _ = r
      rcases r with ⟨node', _ | actions⟩
      · exact fun hend => hend.stop _
      · exact fun hend => hend.completeRead _ _ _
    cases outcome with
    | persistenceError | inconsistentFollower => exact hnode.stop _
    | steppedDown => exact hnode.dropLeadership
    | ignored => exact hfollow .ignored
    | retry => exact hfollow .retry
    | recorded => exact hfollow .recorded
    | committed => exact hfollow .committed

theorem appendAsLeader (h : Words t node) (hinv : node.stopped = false → node.Invariant)
    (command : Command) : Words t (node.appendAsLeader command).1 := by
  rw [RaftNode.appendAsLeader]
  by_cases hs : node.stopped = true
  · rw [if_pos hs]
    exact h
  rw [if_neg hs]
  cases hl : node.leader with
  | none => exact h
  | some leader =>
    dsimp only
    by_cases ha : node.leaderActive leader = false
    · rw [if_pos ha]
      exact h
    rw [if_neg ha]
    have hlog := (hinv (by simpa using hs)).logSynced
    have hend := leader.appendCommand_rule node.election node.metadata hlog command
    have hpeers := (h.peers hl).appendCommand node.election node.metadata node.log command
    have hroom := @lastIndex_appendCommand leader node.election node.metadata node.log command
    revert hend hpeers hroom
    generalize leader.appendCommand node.election node.metadata node.log command = r
    rintro (⟨e, -, -⟩ | ⟨log', -, -, -⟩ | ⟨log', -, -, -, -⟩) hpeers hroom
    · have hnode : Words t { node with leader := some leader } :=
        ⟨h.terms, fun _ => h.log (by rw [hl]; rfl), fun heq => Option.some.inj heq ▸ hpeers⟩
      cases e with
      | invalidCommand => exact hnode
      | notLeader | unknownPeer | invalidBatchSize | indexExhausted | persistenceError
        | inconsistentState => exact hnode.stop _
    · exact .of_none h.terms rfl
    · refine of_queueAppends ?_ _ _ _
      exact ⟨h.terms, fun _ => (hroom rfl).1, fun heq => Option.some.inj heq ▸ hpeers⟩

theorem propose (h : Words t node) (hinv : node.stopped = false → node.Invariant)
    (command : Command) : Words t (node.propose command).1 := by
  rw [RaftNode.propose]
  by_cases hs : node.stopped = true
  · rw [if_pos hs]
    exact h
  rw [if_neg hs]
  cases node.leader with
  | none => exact h
  | some leader =>
    dsimp only
    split_ifs
    · exact h
    · exact h
    · exact h.appendAsLeader hinv command

theorem readBarrier (h : Words t node) : Words t node.readBarrier.1 := by
  rw [RaftNode.readBarrier]
  by_cases hs : node.stopped = true
  · rw [if_pos hs]
    exact h
  rw [if_neg hs]
  cases hl : node.leader with
  | none => exact h
  | some leader =>
    dsimp only
    split_ifs
    · exact h
    · exact h.stop _
    · refine startWaitingReads ?_ _
      exact ⟨h.terms, fun _ => h.log (by rw [hl]; rfl), fun heq => h.peers (hl.trans heq)⟩

/-- **Any call** of 64-bit numbers. -/
theorem call (h : Words t node) (hinv : node.stopped = false → node.Invariant) {c : NodeCall}
    (hc : c.InRange) : Words t (node.call c).1 := by
  cases c with
  | electionTimeout => exact h.onElectionTimeout
  | heartbeatTimeout => exact h.onHeartbeatTimeout
  | requestVote peerId request => exact h.onRequestVote peerId hc.1
  | voteReply peerId reply => exact h.onVoteReply peerId hc
  | appendEntries peerId request => exact h.onAppendEntries hinv peerId hc.term
  | appendReply peerId sentRequest reply => exact h.onAppendReply peerId sentRequest hc.2
  | propose command => exact h.propose hinv command
  | readBarrier => exact h.readBarrier

end Words

/-! ## Runs -/

/-- The node after one call of 64-bit numbers, whatever becomes of its writes. -/
def Called (node node' : RaftNode) : Prop :=
  ∃ (faults : Faults) (c : NodeCall), c.InRange ∧ node' = ((node.withFaults faults).call c).1

/-- A call, or a restart from the disk. -/
inductive Step (selfId : ℕ) (peerIds : Fin 2 → ℕ) (node : RaftNode) : RaftNode → Prop
  | called {node' : RaftNode} (h : Called node node') : Step selfId peerIds node node'
  | reopened {node' : RaftNode} (h : RaftNode.openFrom selfId peerIds node.disk = some node') :
      Step selfId peerIds node node'

/-- A state of a node that was opened on an empty data directory. -/
def Live (selfId : ℕ) (peerIds : Fin 2 → ℕ) (node : RaftNode) : Prop :=
  ∃ start, RaftNode.openFrom selfId peerIds {} = some start ∧
    Relation.ReflTransGen (Step selfId peerIds) start node

variable {selfId : ℕ} {peerIds : Fin 2 → ℕ} {node node' : RaftNode} {t : ℕ}

theorem Live.steps (h : Live selfId peerIds node)
    (hsteps : Relation.ReflTransGen (Step selfId peerIds) node node') :
    Live selfId peerIds node' := by
  obtain ⟨start, hstart, hrun⟩ := h
  exact ⟨start, hstart, hrun.trans hsteps⟩

/-- Calls without a restart. -/
theorem steps_of_calls (hcalls : Relation.ReflTransGen Called node node') :
    Relation.ReflTransGen (Step selfId peerIds) node node' := by
  induction hcalls with
  | refl => exact .refl
  | tail _ hcalled ih => exact ih.tail (.called hcalled)

theorem Live.called (h : Live selfId peerIds node) (faults : Faults) {c : NodeCall}
    (hc : c.InRange) : Live selfId peerIds ((node.withFaults faults).call c).1 :=
  h.steps (.single (.called ⟨faults, c, hc, rfl⟩))

theorem Live.reachable (h : Live selfId peerIds node) : RaftNode.Reachable selfId peerIds node := by
  obtain ⟨start, hstart, hrun⟩ := h
  induction hrun with
  | refl => exact .opened hstart
  | tail _ hstep ih =>
    cases hstep with
    | called hcalled =>
      obtain ⟨faults, c, -, rfl⟩ := hcalled
      exact ih.called faults c
    | reopened ho => exact ih.reopened ho

theorem Live.invariant (h : Live selfId peerIds node) (hs : node.stopped = false) :
    node.Invariant := h.reachable.reached.invariant hs

/-- A restart goes on from the terms on the disk. -/
theorem Words.reopened (h : Words t node)
    (ho : RaftNode.openFrom selfId peerIds node.disk = some node') : Words t node' := by
  obtain rfl := RaftNode.openFrom_eq ho
  exact .of_none ⟨h.terms.le.trans h.terms.durable, le_rfl, h.terms.lt⟩ rfl

theorem Words.step (h : Words t node) (hlive : Live selfId peerIds node)
    (hstep : Step selfId peerIds node node') : Words t node' := by
  cases hstep with
  | called hcalled =>
    obtain ⟨faults, c, hc, rfl⟩ := hcalled
    exact (h.withFaults faults).call (fun hs => (hlive.invariant hs).withFaults faults) hc
  | reopened ho => exact h.reopened ho

theorem Words.steps (h : Words t node) (hlive : Live selfId peerIds node)
    (hsteps : Relation.ReflTransGen (Step selfId peerIds) node node') : Words t node' := by
  induction hsteps with
  | refl => exact h
  | tail hsteps hstep ih => exact ih.step (hlive.steps hsteps) hstep

theorem Live.words (h : Live selfId peerIds node) : Words 0 node := by
  obtain ⟨start, hstart, hrun⟩ := h
  refine Words.steps ?_ ⟨start, hstart, .refl⟩ hrun
  obtain rfl := RaftNode.openFrom_eq hstart
  exact .of_none ⟨le_rfl, le_rfl, Nat.two_pow_pos 64⟩ rfl

/-- **Terms never fall**, over restarts too. -/
theorem Live.term_le (h : Live selfId peerIds node)
    (hsteps : Relation.ReflTransGen (Step selfId peerIds) node node') :
    node.term ≤ node'.term ∧ node'.term < 2 ^ 64 := by
  have hwords : Words node.term node :=
    ⟨⟨le_rfl, h.words.terms.durable, h.words.terms.lt⟩, h.words.log, h.words.peers⟩
  have hterms := (hwords.steps h hsteps).terms
  exact ⟨hterms.le, hterms.term_lt⟩

/-! ## Elections and reads -/

open RaftNodeResult

/-- The election timeout of the node, with these failures of its writes, sends vote requests of
term `t`. -/
def Stands (node : RaftNode) (faults : Faults) (t : ℕ) : Prop :=
  ∃ peerId request, ⟨peerId, .requestVote request⟩ ∈
    messages ((node.withFaults faults).call .electionTimeout).2 ∧ request.term = t

/-- The call, with these failures of the writes, gives out the read id. -/
def Issues (node : RaftNode) (faults : Faults) (c : NodeCall) (id : ℕ) : Prop :=
  startedReadId ((node.withFaults faults).call c).2 = some id

/-- An election is held in the next term, and leaves the node in it. -/
theorem onElectionTimeout_term (h : node.Invariant) (hs : node.stopped = false) {peerId : ℕ}
    {request : RequestVote}
    (hm : ⟨peerId, .requestVote request⟩ ∈ messages node.onElectionTimeout.2) :
    request.term = node.term + 1 ∧ node.onElectionTimeout.1.term = node.term + 1 := by
  have hend := RaftElection.startElection_rule node.log
    (A := fun m => node.metadata.state.Succeeds m) h.usable h.metadata (.refl _)
    (.enter (Nat.lt_succ_self _)) (RaftMetadata.Succeeds.castVote (.enter (Nat.lt_succ_self _))
      (Nat.succ_ne_zero _))
  rw [RaftNode.onElectionTimeout, if_neg (by simp [hs])] at hm ⊢
  revert hend hm
  generalize node.election.startElection node.metadata node.log = r
  rintro hm (⟨-⟩ | ⟨e, -⟩ | ⟨m, -, -, e, -⟩ | ⟨m, -, -, hn, -⟩)
  · cases hm
  · cases hm
  · cases hm
  · refine ⟨?_, congrArg RaftMetadata.currentTerm hn⟩
    obtain ⟨p, -, heq⟩ := List.mem_map.1 hm
    cases heq
    rfl

theorem Live.stands (h : Live selfId peerIds node) {faults : Faults} (hst : Stands node faults t) :
    t = node.term + 1 ∧ ((node.withFaults faults).call .electionTimeout).1.term = t := by
  obtain ⟨peerId, request, hm, rfl⟩ := hst
  have hs : (node.withFaults faults).stopped = false := by
    cases hs : (node.withFaults faults).stopped with
    | false => rfl
    | true =>
      rw [RaftNode.call_of_stopped hs] at hm
      cases hm
  obtain ⟨hterm, hnext⟩ := onElectionTimeout_term ((h.invariant hs).withFaults faults) hs hm
  exact ⟨hterm, hnext.trans hterm.symm⟩

/-- **No term is used for two elections**: a later one has a larger term, over restarts too. -/
theorem Live.stands_lt (h : Live selfId peerIds node) {faults faults' : Faults} {t' : ℕ}
    (hst : Stands node faults t)
    (hsteps : Relation.ReflTransGen (Step selfId peerIds)
      ((node.withFaults faults).call .electionTimeout).1 node')
    (hst' : Stands node' faults' t') : t < t' := by
  have hlive := h.called faults (c := .electionTimeout) trivial
  obtain ⟨-, hterm⟩ := h.stands hst
  obtain ⟨hterm', -⟩ := (hlive.steps hsteps).stands hst'
  have hle := (hlive.term_le hsteps).1
  omega

/-- A call that gives out an id is a read barrier and gives out the next one. -/
theorem issues_of_call {c : NodeCall} {id : ℕ} (h : node.Invariant) (hs : node.stopped = false)
    (hid : startedReadId (node.call c).2 = some id) :
    c = .readBarrier ∧ id = node.nextReadId ∧ id ≠ 0 ∧
      (node.call c).1.nextReadId = (id + 1) % 2 ^ 64 := by
  have hend := RaftNode.call_log h hs c
  revert hend hid
  generalize node.call c = r
  rintro hid (⟨node', e, -, -⟩ | ⟨node', e, -, -, -, -, -⟩ |
    ⟨node', actions, -, -, -, -, -, -, hnone⟩ |
    ⟨node', actions, command, -, -, -, -, -, -, -, -, hnone⟩ |
    ⟨node', actions, hcall, -, -, -, -, h0, hn, -, -, hsome⟩)
  · cases hid
  · cases hid
  · simp [startedReadId, hnone] at hid
  · simp [startedReadId, hnone] at hid
  · rw [startedReadId, hsome] at hid
    obtain rfl := Option.some.inj hid
    exact ⟨hcall, rfl, h0, hn⟩

/-- The counter of the ids is a 64-bit number. -/
theorem Live.nextReadId_lt (h : Live selfId peerIds node) (hs : node.stopped = false) :
    node.nextReadId < 2 ^ 64 := by
  obtain ⟨start, hstart, hrun⟩ := h
  induction hrun with
  | refl =>
    obtain rfl := RaftNode.openFrom_eq hstart
    exact Nat.one_lt_two_pow (by decide)
  | @tail node node' hrun hstep ih =>
    cases hstep with
    | reopened ho =>
      obtain rfl := RaftNode.openFrom_eq ho
      exact Nat.one_lt_two_pow (by decide)
    | called hcalled =>
      obtain ⟨faults, c, -, rfl⟩ := hcalled
      have hbefore : (node.withFaults faults).stopped = false := RaftNode.running_of_call hs
      have hinv := (Live.invariant ⟨start, hstart, hrun⟩ hbefore).withFaults faults
      exact ((RaftNode.call_log hinv hbefore c).nextReadId hs (ih hbefore)).1

/-- Within one process the counter passes an id once, or has wrapped to zero. -/
theorem Live.past (h : Live selfId peerIds node) {id : ℕ}
    (hpast : node.stopped = false → node.nextReadId = 0 ∨ id < node.nextReadId)
    (hcalls : Relation.ReflTransGen Called node node') :
    node'.stopped = false → node'.nextReadId = 0 ∨ id < node'.nextReadId := by
  induction hcalls with
  | refl => exact hpast
  | @tail node₁ node₂ hcalls hcalled ih =>
    intro hs
    obtain ⟨faults, c, -, rfl⟩ := hcalled
    have hlive := h.steps (steps_of_calls hcalls)
    have hbefore : (node₁.withFaults faults).stopped = false := RaftNode.running_of_call hs
    have hinv := (hlive.invariant hbefore).withFaults faults
    exact ((RaftNode.call_log hinv hbefore c).nextReadId hs (hlive.nextReadId_lt hbefore)).2 id
      (ih hbefore)

theorem running_of_issues {faults : Faults} {c : NodeCall} {id : ℕ}
    (hid : Issues node faults c id) : (node.withFaults faults).stopped = false := by
  cases hs : (node.withFaults faults).stopped with
  | false => rfl
  | true =>
    rw [Issues, RaftNode.call_of_stopped hs] at hid
    cases hid

/-- **No read id is given out twice** by one process. -/
theorem Live.issues_lt (h : Live selfId peerIds node) {faults faults' : Faults} {c c' : NodeCall}
    (hc : c.InRange) {id id' : ℕ} (hid : Issues node faults c id)
    (hcalls : Relation.ReflTransGen Called ((node.withFaults faults).call c).1 node')
    (hid' : Issues node' faults' c' id') : id < id' ∧ id' < 2 ^ 64 := by
  have hs : (node.withFaults faults).stopped = false := running_of_issues hid
  have hs' : (node'.withFaults faults').stopped = false := running_of_issues hid'
  obtain ⟨-, heq, -, hnext⟩ := issues_of_call ((h.invariant hs).withFaults faults) hs hid
  have hlive := h.called faults hc
  have hlt : id < 2 ^ 64 := heq ▸ h.nextReadId_lt hs
  have hpast := hlive.past (fun _ => (by omega : _ ∨ id < _)) hcalls hs'
  have hlive' := hlive.steps (steps_of_calls hcalls)
  obtain ⟨-, rfl, h0, -⟩ := issues_of_call ((hlive'.invariant hs').withFaults faults') hs' hid'
  exact ⟨hpast.resolve_left h0, hlive'.nextReadId_lt hs'⟩

/-! ## No arithmetic wraps -/

/-- A node with fewer than `2 ^ 63` entries has room. -/
theorem Live.room (h : Live selfId peerIds node) (hs : node.stopped = false)
    (hlast : node.lastIndex < 2 ^ 63) (faults : Faults) : Room (node.withFaults faults) where
  term := h.words.terms.term_lt
  log := by
    rw [RaftNode.lastIndex] at hlast
    change node.log.lastIndex + 1 < 2 ^ 64
    omega
  commitIndex := by
    have hcommit := (h.invariant hs).commit_le
    change node.commitIndex < 2 ^ 64
    omega
  peers leader hl := h.words.peers hl
  nextReadId := h.nextReadId_lt hs

/-- **Index and term arithmetic is exact**: no call with 64-bit numbers on a node with fewer than
`2 ^ 63` entries computes a number that does not fit, except the read barrier that gives out the
last id and takes the counter to zero. No later election is in an earlier term or the same, over
restarts too, and no read id is given out twice by one process. -/
theorem live_exact (h : Live selfId peerIds node) :
    (node.lastIndex < 2 ^ 63 → ∀ (faults : Faults) (c : NodeCall), c.InRange →
      (¬ Issues node faults c uint64Max →
        call (node.withFaults faults) c = .ok ((node.withFaults faults).call c)) ∧
      (Issues node faults c uint64Max →
        call (node.withFaults faults) c = .error .wrap ∧
          ((node.withFaults faults).call c).1.nextReadId = 0)) ∧
    (∀ later, Relation.ReflTransGen (Step selfId peerIds) node later →
      node.term ≤ later.term ∧ later.term < 2 ^ 64) ∧
    (∀ faults t, Stands node faults t → t = node.term + 1 ∧
      ∀ later faults' t', Relation.ReflTransGen (Step selfId peerIds)
          ((node.withFaults faults).call .electionTimeout).1 later →
        Stands later faults' t' → t < t') ∧
    (∀ faults (c : NodeCall) id, c.InRange → Issues node faults c id →
      ∀ later faults' c' id', Relation.ReflTransGen Called
          ((node.withFaults faults).call c).1 later →
        Issues later faults' c' id' → id < id' ∧ id' < 2 ^ 64) := by
  refine ⟨fun hlast faults c hc => ⟨fun hid => ?_, fun hid => ?_⟩,
    fun later hsteps => h.term_le hsteps,
    fun faults t hst => ⟨(h.stands hst).1, fun later faults' t' hsteps hst' =>
      h.stands_lt hst hsteps hst'⟩,
    fun faults c id hc hid later faults' c' id' hcalls hid' => h.issues_lt hc hid hcalls hid'⟩
  · cases hs : (node.withFaults faults).stopped with
    | true => exact call_of_stopped hs c
    | false => exact call_eq (h.room hs hlast faults) hc hid
  · have hs := running_of_issues hid
    obtain ⟨rfl, -⟩ := issues_of_call ((h.invariant hs).withFaults faults) hs hid
    exact readBarrier_last hid

theorem isSome_firstLeader : (RaftNode.openFrom 1 (fun i => i + 2) {}).isSome := rfl

/-- A node that has won the first election. -/
def firstLeader : RaftNode :=
  ((RaftNode.openFrom 1 (fun i => i + 2) {}).get isSome_firstLeader).run
    [.electionTimeout, .voteReply 2 ⟨1, true⟩]

theorem firstLeader_live : Live 1 (fun i => i + 2) firstLeader := by
  have hopened : Live 1 (fun i => i + 2)
      ((RaftNode.openFrom 1 (fun i => i + 2) {}).get isSome_firstLeader) :=
    ⟨_, (Option.some_get isSome_firstLeader).symm, .refl⟩
  exact (hopened.called {} (c := .electionTimeout) trivial).called {}
    (c := .voteReply 2 ⟨1, true⟩) (by decide : 1 < 2 ^ 64)

/-- An append request whose numbers are as large as they can be. -/
def largestRequest : AppendEntries :=
  ⟨2 ^ 64 - 1, 2, 2 ^ 64 - 1, 2 ^ 64 - 1, [], 2 ^ 64 - 1, 2 ^ 64 - 1⟩

theorem live_exact_firstLeader :
    call (firstLeader.withFaults {}) (.appendEntries 2 largestRequest) =
      .ok ((firstLeader.withFaults {}).call (.appendEntries 2 largestRequest)) ∧
    ¬ Issues ((firstLeader.withFaults {}).call .readBarrier).1 {} .readBarrier 1 := by
  have hrange : NodeCall.InRange (.appendEntries 2 largestRequest) :=
    ⟨by decide, by decide, by decide, by decide, by decide, by decide, by simp [largestRequest]⟩
  have hlast : firstLeader.lastIndex < 2 ^ 63 := by decide +kernel
  have hother : ¬ Issues firstLeader {} (.appendEntries 2 largestRequest) uint64Max := by
    unfold Issues
    decide +kernel
  have hfirst : Issues firstLeader {} .readBarrier 1 := by
    unfold Issues
    decide +kernel
  obtain ⟨hexact, -, -, hreads⟩ := live_exact firstLeader_live
  refine ⟨(hexact hlast {} _ hrange).1 hother, fun hagain => ?_⟩
  exact absurd (hreads {} .readBarrier 1 trivial hfirst _ {} .readBarrier 1 .refl hagain).1
    (lt_irrefl 1)

/-! ## The last read id -/

/-- A live leader that is about to give out the read id. -/
structure Reads (selfId : ℕ) (peerIds : Fin 2 → ℕ) (id : ℕ) (node : RaftNode) : Prop where
  live : Live selfId peerIds node
  running : node.stopped = false
  leads : node.role = .leader
  nextReadId : node.nextReadId = id
  lastIndex : node.lastIndex < 2 ^ 63

theorem Reads.issues {id : ℕ} (h : Reads selfId peerIds id node) (h0 : id ≠ 0) :
    Issues node {} .readBarrier id := by
  have hinv := (h.live.invariant h.running).withFaults {}
  have htakes : TakesReads (node.withFaults {}) := by
    obtain ⟨leader, hl⟩ := Option.isSome_iff_exists.1 (hinv.exists_leader h.leads)
    exact ⟨h.running, by rw [← h.nextReadId] at h0; exact h0, leader, hl, hinv.active hl⟩
  rcases readBarrier_cases (node.withFaults {}) with ⟨hno, -⟩ | ⟨hid, -⟩
  · exact absurd htakes hno
  · rw [Issues, ← h.nextReadId]
    exact hid

theorem Reads.next {id : ℕ} (h : Reads selfId peerIds id node) (h0 : id ≠ 0)
    (hlt : id + 1 < 2 ^ 64) :
    Reads selfId peerIds (id + 1) ((node.withFaults {}).call .readBarrier).1 := by
  have hid := h.issues h0
  have hinv := (h.live.invariant h.running).withFaults {}
  have hlive := h.live.called {} (c := .readBarrier) trivial
  have hend := RaftNode.call_log hinv h.running .readBarrier
  have hlog : (node.withFaults {}).log.log = node.log.log := rfl
  have hnext : (node.withFaults {}).nextReadId = id := h.nextReadId
  rw [Issues] at hid
  revert hid hlive hend
  generalize (node.withFaults {}).call .readBarrier = r
  rintro hid hlive (⟨node', e, -, -⟩ | ⟨node', e, -, -, -, -, -⟩ |
    ⟨node', actions, -, -, -, -, -, -, hnone⟩ | ⟨node', actions, command, hcall, -⟩ |
    ⟨node', actions, -, hs, hr, hl, -, -, hn, -, -, -⟩)
  · cases hid
  · cases hid
  · simp [startedReadId, hnone] at hid
  · cases hcall
  · refine ⟨hlive, hs, hr.2.1, ?_, ?_⟩
    · rw [hn, hnext, Nat.mod_eq_of_lt hlt]
    · have hlast := h.lastIndex
      rw [RaftNode.lastIndex, ← PersistentLog.length_log, hl, hlog, PersistentLog.length_log]
      exact hlast

/-- Every id comes up. -/
theorem Reads.every (h : Reads selfId peerIds 1 node) (n : ℕ) (hn : n + 1 < 2 ^ 64) :
    ∃ node', Reads selfId peerIds (n + 1) node' := by
  induction n with
  | zero => exact ⟨node, h⟩
  | succ n ih =>
    obtain ⟨node', h'⟩ := ih (by omega)
    exact ⟨_, h'.next (Nat.succ_ne_zero n) hn⟩

theorem firstLeader_reads : Reads 1 (fun i => i + 2) 1 firstLeader where
  live := firstLeader_live
  running := by decide +kernel
  leads := by decide +kernel
  nextReadId := by decide +kernel
  lastIndex := by decide +kernel

/-- The first leader after a read and a restart, when it has won another election. -/
def secondLeader : RaftNode :=
  ((RaftNode.openFrom 1 (fun i => i + 2)
      ((firstLeader.withFaults {}).call .readBarrier).1.disk).get rfl).run
    [.electionTimeout, .voteReply 2 ⟨2, true⟩]

theorem steps_secondLeader : Relation.ReflTransGen (Step 1 (fun i => i + 2))
    ((firstLeader.withFaults {}).call .readBarrier).1 secondLeader := by
  have hreopened : Relation.ReflTransGen (Step 1 (fun i => i + 2))
      ((firstLeader.withFaults {}).call .readBarrier).1 _ :=
    .single (.reopened (Option.some_get rfl).symm)
  exact (hreopened.tail (.called ⟨{}, .electionTimeout, trivial, rfl⟩)).tail
    (.called ⟨{}, .voteReply 2 ⟨2, true⟩, (by decide : 2 < 2 ^ 64), rfl⟩)

/-- The increment after the last read id is not that of the natural numbers, and a restart starts
with the first id again. -/
theorem not_live_exact :
    (¬ ∀ node, Live 1 (fun i => i + 2) node → node.lastIndex < 2 ^ 63 →
      ∀ (faults : Faults) (c : NodeCall), c.InRange →
        call (node.withFaults faults) c = .ok ((node.withFaults faults).call c)) ∧
    (¬ ∀ node, Live 1 (fun i => i + 2) node →
      ∀ faults (c : NodeCall) id, c.InRange → Issues node faults c id →
        ∀ later faults' c' id', Relation.ReflTransGen (Step 1 (fun i => i + 2))
            ((node.withFaults faults).call c).1 later →
          Issues later faults' c' id' → id ≠ id') := by
  constructor
  · intro h
    obtain ⟨node, hreads⟩ := firstLeader_reads.every (2 ^ 64 - 2) (by decide)
    have hok := h node hreads.live hreads.lastIndex {} .readBarrier trivial
    have hwrap := (readBarrier_last (hreads.issues (by decide))).1
    rw [call, hwrap] at hok
    cases hok
  · intro h
    have hfirst := firstLeader_reads.issues Nat.one_ne_zero
    have hsecond : Issues secondLeader {} .readBarrier 1 := by
      unfold Issues
      decide +kernel
    exact h firstLeader firstLeader_live {} .readBarrier 1 trivial hfirst secondLeader {}
      .readBarrier 1 steps_secondLeader hsecond rfl

end Machine

end DistributedKV
