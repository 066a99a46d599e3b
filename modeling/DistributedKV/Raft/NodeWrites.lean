import DistributedKV.Raft.NodeCall

/-!
# What a call writes to the log

An entry that a call puts on the disk comes from the request that it handles, or it is the entry of
an election or of a proposal. Nothing is assumed of the node, and any write may fail.
-/

namespace DistributedKV

/-- The entries that a call may write. -/
def NodeCall.Writes (e : LogEntry) : NodeCall → Prop
  | .appendEntries _ request => e ∈ request.entries
  | .voteReply _ _ => e.command = {}
  | .propose command => e.command = command
  | _ => False

namespace PersistentLog

variable {store : PersistentLog} {e entry : LogEntry}

theorem mem_durable_append (h : e ∈ (store.append entry).1.durable) :
    e ∈ store.durable ∨ e = entry := by
  unfold append at h
  split_ifs at h
  · exact Or.inl h
  · exact Or.inl h
  split at h
  · exact Or.inl h
  dsimp only at h
  split_ifs at h
  · exact Or.inl h
  cases ho : nextOutcome store.outcomes with
  | done =>
    rw [ho] at h
    simpa using h
  | failed =>
    rw [ho] at h
    exact Or.inl h
  | uncertain reached =>
    rw [ho] at h
    dsimp only at h
    split_ifs at h
    · simpa using h
    · exact Or.inl h

theorem mem_durable_truncateSuffix {k : ℕ} (h : e ∈ (store.truncateSuffix k).1.durable) :
    e ∈ store.durable := by
  unfold truncateSuffix at h
  dsimp only at h
  split_ifs at h
  · exact h
  · exact h
  · exact h
  cases ho : nextOutcome store.outcomes with
  | done =>
    rw [ho] at h
    exact List.mem_of_mem_take h
  | failed =>
    rw [ho] at h
    exact h
  | uncertain reached =>
    rw [ho] at h
    dsimp only at h
    split_ifs at h
    · exact List.mem_of_mem_take h
    · exact h

end PersistentLog

/-- The rest of the loop, after the append of `x` to a log with no other entries. -/
theorem mem_durable_appendRest {c : ℕ} {log log' : PersistentLog} {e x : LogEntry}
    {es : List LogEntry} (hlog' : ∀ e ∈ log'.durable, e ∈ log.durable)
    (ih : ∀ {log : PersistentLog}, e ∈ (appendLoop c log es).1.durable →
      e ∈ log.durable ∨ e ∈ es)
    (h : e ∈ (match log'.append x with
      | (log, .appended) => appendLoop c log es
      | (log, _) => (log, .error .persistenceError)).1.durable) :
    e ∈ log.durable ∨ e ∈ x :: es := by
  have hx := @PersistentLog.mem_durable_append log' e x
  have hdone : e ∈ (log'.append x).1.durable → e ∈ log.durable ∨ e ∈ x :: es := by
    intro h
    rcases hx h with h | rfl
    · exact Or.inl (hlog' e h)
    · exact Or.inr List.mem_cons_self
  revert h hdone
  rcases log'.append x with ⟨log'', result⟩
  intro h hdone
  cases result with
  | appended => exact (ih h).elim hdone fun h => Or.inr (List.mem_cons_of_mem x h)
  | unexpectedIndex | invalidEntry | ioError => exact hdone h

theorem mem_durable_appendLoop {c : ℕ} {log : PersistentLog} {e : LogEntry} (es : List LogEntry)
    (h : e ∈ (appendLoop c log es).1.durable) : e ∈ log.durable ∨ e ∈ es := by
  induction es generalizing log with
  | nil => exact Or.inl h
  | cons x es ih =>
    rw [appendLoop] at h
    split at h
    · split_ifs at h
      · exact Or.inl h
      · exact (ih h).imp_right (List.mem_cons_of_mem x)
      · exact Or.inl h
      · have ht := @PersistentLog.mem_durable_truncateSuffix log e x.index
        revert h ht
        have hall := fun e => @PersistentLog.mem_durable_truncateSuffix log e x.index
        revert hall
        rcases log.truncateSuffix x.index with ⟨log', result⟩
        intro hall h ht
        cases result with
        | truncated => exact mem_durable_appendRest hall ih h
        | invalidIndex | ioError => exact Or.inl (ht h)
    · exact mem_durable_appendRest (fun _ h => h) ih h

theorem mem_durable_handleAppendEntries {metadata : PersistentMetadata} {log : PersistentLog}
    {c : ℕ} {request : AppendEntries} {e : LogEntry}
    (h : e ∈ (handleAppendEntries metadata log c request).log.durable) :
    e ∈ log.durable ∨ e ∈ request.entries := by
  have hloop := @mem_durable_appendLoop c log e request.entries
  unfold handleAppendEntries at h
  split at h
  · exact Or.inl h
  dsimp only at h
  split_ifs at h
  · exact Or.inl h
  · exact Or.inl h
  · exact Or.inl h
  revert h hloop
  rcases appendLoop c log request.entries with ⟨log', e' | u⟩
  · exact fun hloop h => hloop h
  · exact fun hloop h => hloop h

theorem mem_durable_appendCommand {leader : RaftLeaderReplication} {election : RaftElection}
    {metadata : PersistentMetadata} {log : PersistentLog} {command : Command} {e : LogEntry}
    (h : e ∈ (leader.appendCommand election metadata log command).2.1.durable) :
    e ∈ log.durable ∨ e.command = command := by
  unfold RaftLeaderReplication.appendCommand at h
  split_ifs at h
  · exact Or.inl h
  · exact Or.inl h
  have happend := @PersistentLog.mem_durable_append log e ⟨log.lastIndex + 1, leader.term, command⟩
  dsimp only at h
  revert h happend
  rcases log.append ⟨log.lastIndex + 1, leader.term, command⟩ with ⟨log', result⟩
  intro h happend
  have hlog : e ∈ log'.durable := by cases result <;> exact h
  exact (happend hlog).imp_right fun heq => by rw [heq]

namespace RaftNode

/-! ## What leaves the log alone -/

@[simp] theorem log_stop (node : RaftNode) (e : RaftNodeError) :
    (node.stop e).1.log = node.log := rfl

@[simp] theorem log_queueAppend (node : RaftNode) (peerId : ℕ) (actions : RaftNodeActions) :
    (node.queueAppend peerId actions).1.log = node.log := by
  unfold queueAppend
  split
  · rfl
  · split <;> rfl

@[simp] theorem log_queueAppends (node : RaftNode) (peerIds : List ℕ) (actions : RaftNodeActions) :
    (node.queueAppends peerIds actions).1.log = node.log := by
  induction peerIds generalizing node actions with
  | nil => rfl
  | cons peerId peerIds ih =>
    have hfirst := log_queueAppend node peerId actions
    rw [queueAppends]
    revert hfirst
    rcases node.queueAppend peerId actions with ⟨node', _ | actions'⟩
    · exact id
    · exact fun hfirst => (ih node' actions').trans hfirst

theorem log_of_queueAppends {node node' : RaftNode} {peerIds : List ℕ} {actions : RaftNodeActions}
    {result : Option RaftNodeActions} (h : node.queueAppends peerIds actions = (node', result)) :
    node'.log = node.log := by
  have hlog := log_queueAppends node peerIds actions
  rwa [h] at hlog

@[simp] theorem log_applyReady (node : RaftNode) (actions : RaftNodeActions) :
    (node.applyReady actions).1.log = node.log := by
  unfold applyReady
  split <;> rfl

@[simp] theorem log_startWaitingReads (node : RaftNode) (actions : RaftNodeActions) :
    (node.startWaitingReads actions).1.log = node.log := by
  unfold startWaitingReads
  split_ifs <;> rfl

@[simp] theorem log_followUp (node : RaftNode) (peerId : ℕ) (outcome : AppendReplyOutcome) :
    (node.followUp peerId outcome).1.log = node.log := by
  cases outcome with
  | retry => exact log_queueAppend node peerId {}
  | recorded =>
    rw [followUp]
    split
    · rfl
    · split_ifs
      · exact log_queueAppend node peerId {}
      · rfl
  | committed =>
    have happly := log_applyReady node {}
    rw [followUp]
    revert happly
    rcases node.applyReady {} with ⟨node', _ | actions⟩
    · exact id
    intro happly
    have hqueue := log_queueAppends node' node'.peers actions
    dsimp only
    revert hqueue
    rcases node'.queueAppends node'.peers actions with ⟨node'', _ | actions'⟩
    · exact fun hqueue => hqueue.trans happly
    · exact fun hqueue => (log_startWaitingReads node'' actions').trans (hqueue.trans happly)
  | ignored | steppedDown | inconsistentFollower | persistenceError => rfl

@[simp] theorem log_completeRead (node : RaftNode) (sentRequest : AppendEntries)
    (reply : AppendEntriesReply) (actions : RaftNodeActions) :
    (node.completeRead sentRequest reply actions).1.log = node.log := by
  unfold completeRead
  split_ifs
  · split
    · dsimp only
      split_ifs <;> rfl
    · rfl
  · rfl

theorem log_onElectionTimeout (node : RaftNode) : node.onElectionTimeout.1.log = node.log := by
  unfold onElectionTimeout
  split_ifs
  · rfl
  · rcases node.election.startElection node.metadata node.log with ⟨election, metadata, e | request⟩
    · cases e <;> rfl
    · rfl

theorem log_onHeartbeatTimeout (node : RaftNode) : node.onHeartbeatTimeout.1.log = node.log := by
  unfold onHeartbeatTimeout
  split_ifs
  · rfl
  split
  · rfl
  split_ifs
  · rfl
  have hqueue := log_queueAppends node node.peers { scheduleHeartbeat := true }
  revert hqueue
  rcases node.queueAppends node.peers { scheduleHeartbeat := true } with ⟨node', _ | actions⟩
  · exact id
  · exact id

theorem log_onRequestVote (node : RaftNode) (peerId : ℕ) (request : RequestVote) :
    (node.onRequestVote peerId request).1.log = node.log := by
  unfold onRequestVote
  split_ifs
  · rfl
  · rfl
  · rfl
  rcases handleRequestVote node.metadata node.log request with ⟨metadata, e | reply⟩
  · rfl
  · dsimp only
    split_ifs <;> rfl

/-- The end of `on_append_reply`. -/
theorem log_followUp_completeRead (node : RaftNode) (peerId : ℕ) (outcome : AppendReplyOutcome)
    (sentRequest : AppendEntries) (reply : AppendEntriesReply) :
    (match node.followUp peerId outcome with
      | (node, none) => node.stop .inconsistentState
      | (node, some actions) => node.completeRead sentRequest reply actions).1.log = node.log := by
  have hfollow := log_followUp node peerId outcome
  revert hfollow
  rcases node.followUp peerId outcome with ⟨node', _ | actions⟩
  · exact id
  · exact fun hfollow => (log_completeRead node' sentRequest reply actions).trans hfollow

theorem log_onAppendReply (node : RaftNode) (peerId : ℕ) (sentRequest : AppendEntries)
    (reply : AppendEntriesReply) :
    (node.onAppendReply peerId sentRequest reply).1.log = node.log := by
  unfold onAppendReply
  by_cases hs : node.stopped = true
  · rw [if_pos hs]
  rw [if_neg hs]
  by_cases hp : node.isPeer peerId = false
  · rw [if_pos hp]
  rw [if_neg hp]
  split
  · split_ifs
    · rcases node.metadata.advanceTerm reply.term with ⟨metadata, result⟩
      cases result <;> rfl
    · rfl
  next leader hl =>
  rcases leader.handleReply node.election node.metadata node.log node.commitIndex peerId sentRequest
    reply with ⟨leader', metadata, commitIndex, outcome⟩
  have hrest := log_followUp_completeRead
    { node with leader := some leader', metadata, commitIndex } peerId outcome sentRequest reply
  cases outcome with
  | persistenceError | inconsistentFollower | steppedDown => rfl
  | ignored | retry | recorded | committed => exact hrest

theorem log_readBarrier (node : RaftNode) : node.readBarrier.1.log = node.log := by
  unfold readBarrier
  by_cases hs : node.stopped = true
  · rw [if_pos hs]
  rw [if_neg hs]
  split
  · rfl
  split_ifs
  · rfl
  · rfl
  · exact log_startWaitingReads _ _

/-! ## What is written -/

theorem mem_durable_onVoteReply {node : RaftNode} {peerId : ℕ} {reply : RequestVoteReply}
    {e : LogEntry} (h : e ∈ (node.onVoteReply peerId reply).1.log.durable) :
    e ∈ node.log.durable ∨ e.command = {} := by
  unfold onVoteReply at h
  split_ifs at h
  · exact Or.inl h
  · exact Or.inl h
  revert h
  rcases node.election.handleVoteReply node.metadata peerId reply with ⟨election, metadata, outcome⟩
  intro h
  cases outcome with
  | persistenceError | steppedDown | ignored | recorded => exact Or.inl h
  | becameLeader =>
    dsimp only at h
    split at h
    · exact Or.inl h
    next leader hcreate =>
    have happend := @mem_durable_appendCommand leader election metadata node.log {} e
    revert h happend
    rcases leader.appendCommand election metadata node.log {} with ⟨leader', log', e' | index⟩
    · exact fun h happend => happend h
    · intro h happend
      refine happend ?_
      dsimp only at h ⊢
      split at h
      · next node' hq =>
        rw [log_stop, log_of_queueAppends hq] at h
        exact h
      · next node' actions hq =>
        rw [log_of_queueAppends hq] at h
        exact h

theorem mem_durable_onAppendEntries {node : RaftNode} {peerId : ℕ} {request : AppendEntries}
    {e : LogEntry} (h : e ∈ (node.onAppendEntries peerId request).1.log.durable) :
    e ∈ node.log.durable ∨ e ∈ request.entries := by
  unfold onAppendEntries at h
  split_ifs at h
  · exact Or.inl h
  · exact Or.inl h
  · exact Or.inl h
  have hhandle := @mem_durable_handleAppendEntries node.metadata node.log node.commitIndex request e
  revert hhandle h
  rcases handleAppendEntries node.metadata node.log node.commitIndex request with
    ⟨metadata, log, commitIndex, e' | reply⟩
  · intro h hhandle
    refine hhandle ?_
    revert h
    dsimp only
    cases e' <;> split_ifs <;> exact id
  · intro h hhandle
    refine hhandle ?_
    have happly : ∀ {node' node'' : RaftNode} {actions : RaftNodeActions}
        {result : Option RaftNodeActions}, node'.log = log →
        node'.applyReady actions = (node'', result) → node''.log = log := by
      intro node' node'' actions result hn heq
      have hlog := log_applyReady node' actions
      rw [heq] at hlog
      exact hlog.trans hn
    dsimp only at h
    by_cases hsucc : reply.success = true
    · simp only [hsucc, if_true] at h
      split at h
      · next node'' heq =>
        rw [log_stop, happly (by split_ifs <;> rfl) heq] at h
        exact h
      · next node'' actions heq =>
        rw [happly (by split_ifs <;> rfl) heq] at h
        exact h
    · simp only [hsucc, Bool.false_eq_true, if_false] at h
      revert h
      split_ifs <;> exact id

theorem mem_durable_propose {node : RaftNode} {command : Command} {e : LogEntry}
    (h : e ∈ (node.propose command).1.log.durable) :
    e ∈ node.log.durable ∨ e.command = command := by
  unfold propose at h
  by_cases hs : node.stopped = true
  · rw [if_pos hs] at h
    exact Or.inl h
  rw [if_neg hs] at h
  cases hl : node.leader with
  | none =>
    rw [hl] at h
    exact Or.inl h
  | some leader =>
  rw [hl] at h
  dsimp only at h
  by_cases hactive : node.leaderActive leader = false
  · rw [if_pos hactive] at h
    exact Or.inl h
  rw [if_neg hactive] at h
  split_ifs at h
  · exact Or.inl h
  rw [appendAsLeader, if_neg hs, hl] at h
  dsimp only at h
  rw [if_neg hactive] at h
  have happend := @mem_durable_appendCommand leader node.election node.metadata node.log command e
  revert happend h
  rcases leader.appendCommand node.election node.metadata node.log command with
    ⟨leader', log', e' | index⟩
  · intro h happend
    refine happend ?_
    cases e' <;> exact h
  · intro h happend
    refine happend ?_
    dsimp only at h ⊢
    split at h
    · next node' hq =>
      rw [log_stop, log_of_queueAppends hq] at h
      exact h
    · next node' actions hq =>
      rw [log_of_queueAppends hq] at h
      exact h

/-- **What a call writes**: an entry on the disk after a call was there before, or it is one that
the call may write. -/
theorem mem_durable_call {node : RaftNode} {c : NodeCall} {e : LogEntry}
    (h : e ∈ (node.call c).1.log.durable) : e ∈ node.log.durable ∨ c.Writes e := by
  cases c with
  | electionTimeout => exact Or.inl (log_onElectionTimeout node ▸ h)
  | heartbeatTimeout => exact Or.inl (log_onHeartbeatTimeout node ▸ h)
  | requestVote peerId request => exact Or.inl (log_onRequestVote node peerId request ▸ h)
  | voteReply peerId reply => exact mem_durable_onVoteReply h
  | appendEntries peerId request => exact mem_durable_onAppendEntries h
  | appendReply peerId sentRequest reply =>
    exact Or.inl (log_onAppendReply node peerId sentRequest reply ▸ h)
  | propose command => exact mem_durable_propose h
  | readBarrier => exact Or.inl (log_readBarrier node ▸ h)

end RaftNode

end DistributedKV
