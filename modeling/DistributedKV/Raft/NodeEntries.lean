import DistributedKV.Raft.NodeReads

/-!
# The log across a call

What one call may do to the log of a leader and to the commit index, what it reports as applied,
when it starts a read, and with which errors a node stops. A leader that stays one changes its log
only by appending the command of a proposal.
-/

namespace DistributedKV

/-- The errors with which a node stops; with the others it goes on. -/
def RaftNodeError.stops : RaftNodeError → Bool
  | .persistenceError => true
  | .inconsistentState => true
  | .termExhausted => true
  | .stopped => true
  | _ => false

theorem PersistentLog.entryAt_of_append {log log' : PersistentLog} {e : LogEntry} {index : ℕ}
    (hl : log'.log = log.log ++ [e]) {x : LogEntry} (hx : log.entryAt index = some x) :
    log'.entryAt index = some x := by
  cases index with
  | zero => simp [PersistentLog.entryAt] at hx
  | succ i =>
    rw [PersistentLog.entryAt_succ] at hx ⊢
    rw [hl, List.getElem?_append_left (List.getElem?_eq_some_iff.1 hx).1]
    exact hx

theorem PersistentLog.entryAt_of_log_eq {log log' : PersistentLog} (hl : log'.log = log.log)
    (index : ℕ) :
    log'.entryAt index = log.entryAt index := by
  rw [PersistentLog.entryAt_eq, PersistentLog.entryAt_eq, hl]

namespace RaftNode

variable {node node' : RaftNode} {c : NodeCall}

/-- The indices of the entries that become committed between two states of a node. -/
def newlyCommitted (node node' : RaftNode) : List ℕ :=
  List.range' (node.commitIndex + 1) (node'.commitIndex - node.commitIndex)

/-- How a call ends, as far as the log, the commit index and the ids of reads go. -/
inductive LogEnd (node : RaftNode) (c : NodeCall) : RaftNode × RaftNodeResult → Prop
  | stopped (node' : RaftNode) (e : RaftNodeError) (he : e.stops = true)
      (hs : node'.stopped = true) : LogEnd node c (node', .error e)
  | refused (node' : RaftNode) (e : RaftNodeError) (he : e.stops = false)
      (hs : node'.stopped = false) (hl : node'.log.log = node.log.log)
      (hc : node'.commitIndex = node.commitIndex) (hn : node'.nextReadId = node.nextReadId) :
      LogEnd node c (node', .error e)
  | ok (node' : RaftNode) (actions : RaftNodeActions) (hs : node'.stopped = false)
      (hl : node.role = .leader → node'.role = .leader → node'.log.log = node.log.log)
      (hc : node.commitIndex ≤ node'.commitIndex) (hn : node'.nextReadId = node.nextReadId)
      (ha : actions.applied.map AppliedLogEntry.index = newlyCommitted node node')
      (hp : actions.proposedIndex = none) (hid : actions.startedReadId = none) :
      LogEnd node c (node', .ok actions)
  | proposed (node' : RaftNode) (actions : RaftNodeActions) (command : Command)
      (hcall : c = .propose command) (hs : node'.stopped = false)
      (hr : node.role = .leader ∧ node'.role = .leader ∧ node'.term = node.term)
      (hl : node'.log.log = node.log.log ++ [⟨node.lastIndex + 1, node.term, command⟩])
      (hc : node'.commitIndex = node.commitIndex) (hn : node'.nextReadId = node.nextReadId)
      (ha : actions.applied = []) (hp : actions.proposedIndex = some (node.lastIndex + 1))
      (hid : actions.startedReadId = none) : LogEnd node c (node', .ok actions)
  | reading (node' : RaftNode) (actions : RaftNodeActions) (hcall : c = .readBarrier)
      (hs : node'.stopped = false)
      (hr : node.role = .leader ∧ node'.role = .leader ∧ node'.term = node.term)
      (hl : node'.log.log = node.log.log) (hc : node'.commitIndex = node.commitIndex)
      (h0 : node.nextReadId ≠ 0) (hn : node'.nextReadId = (node.nextReadId + 1) % 2 ^ 64)
      (ha : actions.applied = []) (hp : actions.proposedIndex = none)
      (hid : actions.startedReadId = some node.nextReadId) : LogEnd node c (node', .ok actions)

theorem LogEnd.of_stop (e : RaftNodeError) (he : e.stops = true) : LogEnd node c (node'.stop e) :=
  .stopped _ e he rfl

/-- A call that changes neither the log nor the commit index. -/
theorem LogEnd.of_kept {actions : RaftNodeActions} (hs : node'.stopped = false)
    (hl : node'.log.log = node.log.log) (hc : node'.commitIndex = node.commitIndex)
    (hn : node'.nextReadId = node.nextReadId) (ha : actions.applied = [])
    (hp : actions.proposedIndex = none) (hid : actions.startedReadId = none) :
    LogEnd node c (node', .ok actions) :=
  .ok node' actions hs (fun _ _ => hl) hc.ge hn (by simp [ha, newlyCommitted, hc]) hp hid

/-! ## Helpers of several handlers -/

/-- What sending requests does not touch. -/
structure SameEntries (node : RaftNode) (actions : RaftNodeActions)
    (r : RaftNode × RaftNodeActions) : Prop where
  log : r.1.log = node.log
  commitIndex : r.1.commitIndex = node.commitIndex
  stopped : r.1.stopped = node.stopped
  role : r.1.role = node.role ∧ r.1.term = node.term
  nextReadId : r.1.nextReadId = node.nextReadId
  applied : r.2.applied = actions.applied
  proposedIndex : r.2.proposedIndex = actions.proposedIndex
  startedReadId : r.2.startedReadId = actions.startedReadId

theorem queueAppends_entries {peerIds : List ℕ} {actions actions' : RaftNodeActions} {r : RaftNode}
    (h : node.queueAppends peerIds actions = (r, some actions')) {leader : RaftLeaderReplication}
    (hl : node.leader = some leader) :
    SameEntries node actions (r, actions') ∧ r.leader.isSome := by
  have hend := queueAppends_rule hl (P := fun _ => True) (M := fun _ => True) (B := True) trivial
    peerIds (fun _ _ _ => ⟨trivial, trivial⟩) (fun _ _ _ => trivial) actions
  rw [h] at hend
  cases hend with
  | queued leader' => exact ⟨⟨rfl, rfl, rfl, ⟨rfl, rfl⟩, rfl, rfl, rfl, rfl⟩, rfl⟩

theorem queueAppend_entries {peerId : ℕ} {actions actions' : RaftNodeActions} {r : RaftNode}
    (h : node.queueAppend peerId actions = (r, some actions')) {leader : RaftLeaderReplication}
    (hl : node.leader = some leader) :
    SameEntries node actions (r, actions') ∧ r.leader.isSome := by
  rw [← queueAppends_singleton] at h
  exact queueAppends_entries h hl

theorem startWaitingReads_entries (node : RaftNode) (actions : RaftNodeActions) :
    SameEntries node actions (node.startWaitingReads actions) := by
  obtain ⟨rounds, messages, h, -⟩ := startWaitingReads_shape node actions
  rw [h]
  exact ⟨rfl, rfl, rfl, ⟨rfl, rfl⟩, rfl, rfl, rfl, rfl⟩

/-! ## The handlers -/

theorem onElectionTimeout_log (h : node.Invariant) (hs : node.stopped = false) :
    LogEnd node .electionTimeout node.onElectionTimeout := by
  have hend := RaftElection.startElection_rule node.log (A := fun _ => True) h.usable h.metadata
    trivial trivial trivial
  rw [onElectionTimeout, if_neg (by simp [hs])]
  revert hend
  generalize node.election.startElection node.metadata node.log = r
  rintro (⟨-⟩ | ⟨e, -⟩ | ⟨m, -, -, e, -⟩ | ⟨m, -, -, -, -⟩)
  · exact .of_kept hs rfl rfl rfl rfl rfl rfl
  · exact .of_stop _ rfl
  · exact .of_stop _ rfl
  · exact .of_kept hs rfl rfl rfl rfl rfl rfl

theorem onHeartbeatTimeout_log (h : node.Invariant) (hs : node.stopped = false) :
    LogEnd node .heartbeatTimeout node.onHeartbeatTimeout := by
  rw [onHeartbeatTimeout, if_neg (by simp [hs])]
  cases hl : node.leader with
  | none => exact .of_kept hs rfl rfl rfl rfl rfl rfl
  | some leader =>
    simp only [h.active hl, Bool.true_eq_false, if_false]
    cases hq : node.queueAppends node.peers { scheduleHeartbeat := true } with
    | mk node' result =>
      cases result with
      | none => exact .of_stop _ rfl
      | some actions =>
        obtain ⟨hsame, -⟩ := queueAppends_entries hq hl
        exact .of_kept (hsame.stopped.trans hs) (by rw [hsame.log]) hsame.commitIndex
          hsame.nextReadId hsame.applied hsame.proposedIndex hsame.startedReadId

theorem onRequestVote_log (h : node.Invariant) (hs : node.stopped = false) (peerId : ℕ)
    (request : RequestVote) :
    LogEnd node (.requestVote peerId request) (node.onRequestVote peerId request) := by
  rw [onRequestVote, if_neg (by simp [hs])]
  split_ifs
  · exact .refused _ _ rfl hs rfl rfl rfl
  · exact .refused _ _ rfl hs rfl rfl rfl
  have hend := handleRequestVote_rule node.log request (A := fun _ => True) h.metadata trivial
    (fun _ => trivial) (fun _ _ _ => trivial)
  have hkept : ∀ {m : PersistentMetadata} {actions : RaftNodeActions}, actions.applied = [] →
      actions.proposedIndex = none → actions.startedReadId = none →
      LogEnd node (.requestVote peerId request)
        (if node.term < m.state.currentTerm then { node with metadata := m }.dropLeadership
          else { node with metadata := m }, .ok actions) := by
    intro m actions ha hp hid
    split_ifs
    · exact .of_kept hs rfl rfl rfl ha hp hid
    · exact .of_kept hs rfl rfl rfl ha hp hid
  dsimp only
  revert hend
  generalize handleRequestVote node.metadata node.log request = r
  rintro (⟨m, -, -⟩ | ⟨m, -, -, -⟩ | ⟨m, -, -⟩)
  · exact hkept rfl rfl rfl
  · exact hkept rfl rfl rfl
  · exact .of_stop _ rfl

/-- The end of a handler that sends requests to the peers, on a node that did not lead before. -/
theorem LogEnd.of_queueAppends {leader : RaftLeaderReplication} (hl : node'.leader = some leader)
    (hs : node'.stopped = false) (hr : node.role ≠ .leader)
    (hc : node'.commitIndex = node.commitIndex) (hn : node'.nextReadId = node.nextReadId)
    (peerIds : List ℕ) {actions : RaftNodeActions} (ha : actions.applied = [])
    (hp : actions.proposedIndex = none) (hid : actions.startedReadId = none) :
    LogEnd node c (match node'.queueAppends peerIds actions with
      | (node, none) => node.stop .inconsistentState
      | (node, some actions) => (node, .ok actions)) := by
  cases hq : node'.queueAppends peerIds actions with
  | mk node'' result =>
    cases result with
    | none => exact .of_stop _ rfl
    | some actions' =>
      obtain ⟨hsame, -⟩ := queueAppends_entries hq hl
      have hcommit : node''.commitIndex = node.commitIndex := hsame.commitIndex.trans hc
      refine .ok _ _ (hsame.stopped.trans hs) (fun h => absurd h hr) hcommit.ge
        (hsame.nextReadId.trans hn) ?_ (hsame.proposedIndex.trans hp)
        (hsame.startedReadId.trans hid)
      rw [hsame.applied, ha, newlyCommitted, hcommit, Nat.sub_self]
      rfl

theorem onVoteReply_log (h : node.Invariant) (hs : node.stopped = false) (peerId : ℕ)
    (reply : RequestVoteReply) :
    LogEnd node (.voteReply peerId reply) (node.onVoteReply peerId reply) := by
  rw [onVoteReply, if_neg (by simp [hs])]
  split_ifs
  · exact .refused _ _ rfl hs rfl rfl rfl
  have hend := RaftElection.handleVoteReply_rule peerId reply (A := fun _ => True) h.usable
    h.metadata trivial h.votes fun _ => trivial
  revert hend
  generalize node.election.handleVoteReply node.metadata peerId reply = r
  rintro (⟨-⟩ | ⟨m, -, -⟩ | ⟨e, -, m, -, -⟩ | ⟨replied, -⟩ | ⟨replied, votes, hcand, -, -, -⟩)
  · exact .of_kept hs rfl rfl rfl rfl rfl rfl
  · exact .of_kept hs rfl rfl rfl rfl rfl rfl
  · exact .of_stop _ rfl
  · exact .of_kept hs rfl rfl rfl rfl rfl rfl
  · have hrole : node.role ≠ .leader := by
      change node.election.role node.metadata ≠ .leader
      simp [hcand]
    generalize ({ node.election with replied, grantedVotes := votes, cachedRole := .leader } :
      RaftElection) = election
    dsimp only
    split
    · exact .of_stop _ rfl
    · next leader hcreate =>
      have happ := leader.appendCommand_rule election node.metadata h.logSynced {}
      revert happ
      generalize leader.appendCommand election node.metadata node.log {} = r
      rintro (⟨e, -, -⟩ | ⟨log', -, -, -⟩ | ⟨log', -, -, -, -⟩)
      · exact .of_stop _ rfl
      · exact .of_stop _ rfl
      · refine .of_queueAppends rfl ?_ hrole ?_ ?_ _ ?_ ?_ ?_
        · exact hs
        all_goals rfl

/-- The loop over a request's entries returns `InvalidRequest` only while the log is as it was:
once it has changed the log, the log ends where the loop goes on. -/
theorem appendLoop_invalidRequest (h : node.Invariant) {request : AppendEntries}
    (ht : node.term ≤ request.term) (hv : validEntries request = true)
    (hp : previousMismatch node.log request = false) {log : PersistentLog}
    (hloop : appendLoop node.commitIndex node.log request.entries = (log, .error .invalidRequest)) :
    log.log = node.log.log := by
  have hend : AppendLoopEnd node.commitIndex _ _ := appendLoop_rule
    (I := fun k entries log => Splice node.log.log node.commitIndex request.term
      (request.prevLogIndex + request.entries.length) k entries log ∧
        (log = node.log.log ∨ log.length = k))
    (fun h => ⟨(validEntriesFrom_cons h.1.valid).1, h.1.le⟩) ?_ ?_ ?_ request.entries h.logSynced
    ⟨splice_start h ht hv hp, Or.inl rfl⟩
  · rw [hloop] at hend
    cases hend with
    | invalidRequest log k e x es hs hI hx =>
      refine hI.2.resolve_right fun hlen => ?_
      obtain ⟨hlt, -⟩ := List.getElem?_eq_some_iff.1 hx
      omega
  · rintro k e es l x ⟨hsplice, hl⟩ hx hterm -
    refine ⟨hsplice.skip hx hterm, Or.inl (hl.resolve_right fun hlen => ?_)⟩
    obtain ⟨hlt, -⟩ := List.getElem?_eq_some_iff.1 hx
    omega
  · rintro k e es l x ⟨hsplice, -⟩ hx - hk
    obtain ⟨hlt, -⟩ := List.getElem?_eq_some_iff.1 hx
    exact ⟨hsplice.truncate hk, Or.inr (List.length_take_of_le hlt.le)⟩
  · rintro k e es l ⟨hsplice, -⟩ hlen he
    exact ⟨hsplice.append hlen he, Or.inr (by simp [hlen])⟩

/-- A node that observes a leader of its term follows. -/
theorem role_observeLeader (node : RaftNode) {t : ℕ} (h0 : t ≠ 0) (ht : node.term = t)
    (he : node'.election = node.election.observeLeader node.metadata t) : node'.role ≠ .leader := by
  intro hr
  have hcached := (role_eq_leader_iff.1 hr).1
  rw [he, RaftElection.cachedRole_observeLeader h0 ht] at hcached
  cases hcached

theorem onAppendEntries_log (h : node.Invariant) (hs : node.stopped = false) (peerId : ℕ)
    (request : AppendEntries) :
    LogEnd node (.appendEntries peerId request) (node.onAppendEntries peerId request) := by
  rw [onAppendEntries, if_neg (by simp [hs])]
  split_ifs
  · exact .refused _ _ rfl hs rfl rfl rfl
  · exact .refused _ _ rfl hs rfl rfl rfl
  have hend := handleAppendEntries_rule node.log node.commitIndex request
    (A := fun m => node.metadata.state.Succeeds m) h.metadata (.refl _) (fun ht => .enter ht)
  have hinvalid : ∀ {m : PersistentMetadata} {log : PersistentLog}, log.log = node.log.log →
      LogEnd node (.appendEntries peerId request)
        (if node.term < m.state.currentTerm then { node with metadata := m, log }.dropLeadership
          else { node with metadata := m, log }, .error .invalidRequest) := by
    intro m log hlog
    split_ifs
    · exact .refused _ _ rfl hs hlog rfl rfl
    · exact .refused _ _ rfl hs hlog rfl rfl
  dsimp only
  revert hend
  generalize handleAppendEntries node.metadata node.log node.commitIndex request = r
  rintro (⟨m, -, -⟩ | ⟨hstale⟩ | ⟨m, -, hA, -, -⟩ | ⟨m, -, hA, ht, h0, -⟩ |
    ⟨m, -, hA, ht, h0, hv, hp, log, e, hloop⟩ | ⟨m, hm, hA, ht, h0, hv, hp, log, hloop⟩)
  · exact .of_stop _ rfl
  · have hf : ¬ (request.term ≠ 0 ∧ request.term = node.metadata.state.currentTerm) := by omega
    simp only [hf, decide_false, Bool.false_eq_true, if_false]
    rw [if_neg (lt_irrefl _)]
    exact .of_kept hs rfl rfl rfl rfl rfl rfl
  · exact hinvalid rfl
  · simp only [ne_eq, h0, not_false_eq_true, true_and, decide_true, if_true, Bool.false_eq_true,
      if_false]
    split_ifs
    · exact .of_kept hs rfl rfl rfl rfl rfl rfl
    · exact .of_kept hs rfl rfl rfl rfl rfl rfl
  · cases e with
    | invalidRequest =>
      exact hinvalid (appendLoop_invalidRequest h (hA.term_le.trans ht.le) hv hp hloop)
    | committedConflict | persistenceError => exact .of_stop _ rfl
  · have hsplice := appendLoop_splice h (hA.term_le.trans ht.le) hv hp
    rw [hloop] at hsplice
    obtain ⟨_, k, hsync, hk⟩ := hsplice
    have hlen := hk.last
    have hle := hk.le
    have hcommit := hk.commit_le
    simp only [List.length_nil, Nat.add_zero] at hlen
    simp only [ne_eq, h0, not_false_eq_true, true_and, decide_true, if_true]
    -- what the new commit index covers is in the log
    have hin : max node.commitIndex (min request.leaderCommit
        (request.prevLogIndex + request.entries.length)) ≤ log.lastIndex := by
      rw [← PersistentLog.length_log]
      omega
    have happly : ∀ {x : RaftNode}, x.log = log → x.state = node.state → x.term = request.term →
        x.commitIndex = max node.commitIndex (min request.leaderCommit
          (request.prevLogIndex + request.entries.length)) → x.stopped = false →
        x.nextReadId = node.nextReadId →
        (∀ state, RaftNode.role { x with state } ≠ .leader) → LogEnd node
          (.appendEntries peerId request)
          (match x.applyReady { resetElectionTimer := true } with
            | (node, none) => node.stop .inconsistentState
            | (node, some actions) => (node, .ok { actions with
                messages := actions.messages ++
                  [⟨peerId, .appendEntriesReply ⟨request.term, true⟩⟩] })) := by
      intro x hxl hxs hxt hxc hxstop hxid hxrole
      have hlog : LogInvariant x.log.log request.term := by
        rw [hxl]
        exact hk.wellFormed
      have hstate : x.state = .replay (x.log.log.take node.commitIndex) := by
        rw [hxs, hxl, hk.committed]
        exact h.applied
      obtain ⟨applied, happ, hindex⟩ := applyReady_eq hlog hstate
        (by rw [hxc]; exact le_max_left _ _) (by rw [hxc, lastIndex, hxl]; exact hin)
        { resetElectionTimer := true }
      rw [happ]
      refine .ok _ _ hxstop (fun _ hr => absurd hr (hxrole _)) ?_ hxid hindex rfl rfl
      dsimp only
      rw [hxc]
      exact le_max_left _ _
    split_ifs
    · refine happly rfl rfl ht rfl hs rfl fun state => ?_
      exact role_observeLeader { node with metadata := m } h0 ht rfl
    · refine happly rfl rfl ht rfl hs rfl fun state => ?_
      exact role_observeLeader { node with metadata := m } h0 ht rfl

/-! ## Replies to requests -/

/-- What following up on a reply leaves, and what it reports on a node whose state machine has
applied the first `x` entries. -/
structure FollowedUp (node : RaftNode) (x : ℕ) (r : RaftNode × RaftNodeActions) : Prop where
  log : r.1.log = node.log
  commitIndex : r.1.commitIndex = node.commitIndex
  stopped : r.1.stopped = node.stopped
  nextReadId : r.1.nextReadId = node.nextReadId
  applied : r.2.applied.map AppliedLogEntry.index = List.range' (x + 1) (node.commitIndex - x)
  proposedIndex : r.2.proposedIndex = none
  startedReadId : r.2.startedReadId = none

theorem followUp_entries {peerId x : ℕ} {outcome : AppendReplyOutcome} {r : RaftNode}
    {actions : RaftNodeActions} (h : node.followUp peerId outcome = (r, some actions))
    {leader : RaftLeaderReplication} (hl : node.leader = some leader)
    (hlog : LogInvariant node.log.log node.term)
    (hstate : node.state = .replay (node.log.log.take x)) (hx : x ≤ node.commitIndex)
    (hle : node.commitIndex ≤ node.lastIndex)
    (hsame : outcome ≠ .committed → x = node.commitIndex) :
    FollowedUp node x (r, actions) := by
  have hself : outcome ≠ .committed → ∀ {r : RaftNode} {actions : RaftNodeActions},
      SameEntries node {} (r, actions) →
      FollowedUp node x (r, actions) := fun ho r actions hr => by
    refine ⟨hr.log, hr.commitIndex, hr.stopped, hr.nextReadId, ?_, hr.proposedIndex,
      hr.startedReadId⟩
    rw [hr.applied, hsame ho, Nat.sub_self]
    rfl
  have hrefl : SameEntries node {} (node, {}) := ⟨rfl, rfl, rfl, ⟨rfl, rfl⟩, rfl, rfl, rfl, rfl⟩
  cases outcome with
  | retry => exact hself (by simp) (queueAppend_entries h hl).1
  | recorded =>
    rw [followUp] at h
    split at h
    · cases h
    · split_ifs at h
      · exact hself (by simp) (queueAppend_entries h hl).1
      · obtain ⟨rfl, hactions⟩ := Prod.mk.inj h
        obtain rfl := Option.some.inj hactions
        exact hself (by simp) hrefl
  | committed =>
    obtain ⟨applied, happ, hindex⟩ := applyReady_eq hlog hstate hx hle {}
    rw [followUp, happ] at h
    dsimp only at h
    split at h
    · cases h
    · next node₂ actions₂ hq =>
      obtain ⟨hqueue, -⟩ := queueAppends_entries hq hl
      have hreads := startWaitingReads_entries node₂ actions₂
      obtain ⟨rfl, hactions⟩ := Prod.mk.inj h
      obtain rfl := Option.some.inj hactions
      refine ⟨hreads.log.trans hqueue.log, hreads.commitIndex.trans hqueue.commitIndex,
        hreads.stopped.trans hqueue.stopped, hreads.nextReadId.trans hqueue.nextReadId, ?_,
        hreads.proposedIndex.trans hqueue.proposedIndex,
        hreads.startedReadId.trans hqueue.startedReadId⟩
      rw [hreads.applied, hqueue.applied, hindex]
  | ignored | steppedDown | inconsistentFollower | persistenceError =>
    obtain ⟨rfl, hactions⟩ := Prod.mk.inj h
    obtain rfl := Option.some.inj hactions
    exact hself (by simp) hrefl

/-- The end of `on_append_reply`. -/
theorem LogEnd.of_completeRead {actions : RaftNodeActions}
    (hs : node'.stopped = false) (hl : node'.log.log = node.log.log)
    (hc : node.commitIndex ≤ node'.commitIndex) (hn : node'.nextReadId = node.nextReadId)
    (ha : actions.applied.map AppliedLogEntry.index = newlyCommitted node node')
    (hp : actions.proposedIndex = none) (hid : actions.startedReadId = none)
    (sentRequest : AppendEntries) (reply : AppendEntriesReply) :
    LogEnd node c (node'.completeRead sentRequest reply actions) := by
  have hsame : LogEnd node c (node', .ok actions) := .ok _ _ hs (fun _ _ => hl) hc hn ha hp hid
  rw [completeRead]
  split_ifs
  · split
    · dsimp only
      split_ifs
      · exact .of_stop _ rfl
      · exact .ok _ _ hs (fun _ _ => hl) hc hn ha hp hid
      · exact hsame
    · exact hsame
  · exact hsame

theorem onAppendReply_log (h : node.Invariant) (hs : node.stopped = false) (peerId : ℕ)
    (sentRequest : AppendEntries) (reply : AppendEntriesReply) :
    LogEnd node (.appendReply peerId sentRequest reply)
      (node.onAppendReply peerId sentRequest reply) := by
  rw [onAppendReply, if_neg (by simp [hs])]
  by_cases hpeer : node.isPeer peerId = false
  · rw [if_pos hpeer]
    exact .refused _ _ rfl hs rfl rfl rfl
  rw [if_neg hpeer]
  cases hl : node.leader with
  | none =>
    dsimp only
    split_ifs
    · rcases node.metadata.advanceTerm reply.term with ⟨m, result⟩
      cases result with
      | persisted => exact .of_kept hs rfl rfl rfl rfl rfl rfl
      | unchanged | staleTerm | voteConflict | invalidTerm | ioError => exact .of_stop _ rfl
    · exact .of_kept hs rfl rfl rfl rfl rfl rfl
  | some leader =>
    have hend := leader.handleReply_rule node.election node.log node.commitIndex peerId sentRequest
      reply (A := fun _ => True) h.metadata trivial fun _ _ => trivial
    -- the node goes on leading, perhaps with a larger commit index
    have hfollow : ∀ {l : RaftLeaderReplication} {i : ℕ} (outcome : AppendReplyOutcome),
        node.commitIndex ≤ i → i ≤ node.lastIndex →
        (outcome ≠ .committed → node.commitIndex = i) →
        LogEnd node (.appendReply peerId sentRequest reply)
          (match followUp { node with leader := some l, commitIndex := i } peerId outcome with
            | (node, none) => node.stop .inconsistentState
            | (node, some actions) => node.completeRead sentRequest reply actions) := by
      intro l i outcome hle hlast hsame
      cases hf : followUp { node with leader := some l, commitIndex := i } peerId outcome with
      | mk node' result =>
        cases result with
        | none => exact .of_stop _ rfl
        | some actions =>
          have hend := followUp_entries hf rfl h.log h.applied hle hlast hsame
          have hcommit : node'.commitIndex = i := hend.commitIndex
          refine .of_completeRead (hend.stopped.trans hs) (by rw [hend.log])
            (hle.trans hcommit.ge) hend.nextReadId ?_ hend.proposedIndex hend.startedReadId _ _
          rw [hend.applied, newlyCommitted, hcommit]
    dsimp only
    revert hend
    generalize leader.handleReply node.election node.metadata node.log node.commitIndex peerId
      sentRequest reply = r
    rintro (⟨-⟩ | ⟨m, -, -, -, -⟩ | ⟨m, -, -⟩ | ⟨i, -, -, -, -, -⟩ | ⟨i, -, -, -, -, k, -, -⟩ |
      ⟨i, -, -, -, -, l, rfl⟩ | ⟨i, -, -, -, -, l, rfl, c, hc⟩)
    · exact hfollow .ignored le_rfl h.commit_le fun _ => rfl
    · exact .of_kept hs rfl rfl rfl rfl rfl rfl
    · exact .of_stop _ rfl
    · exact .of_stop _ rfl
    · exact hfollow .retry le_rfl h.commit_le fun _ => rfl
    · exact hfollow .recorded le_rfl h.commit_le fun _ => rfl
    · obtain ⟨k, e, rfl, hle, he, -⟩ := RaftLeaderReplication.advanceCommitIndex_eq_some hc
      have hk := (List.getElem?_eq_some_iff.1 he).1
      rw [PersistentLog.length_log] at hk
      exact hfollow .committed (hle.trans (Nat.le_succ k)) hk (by simp)

/-! ## Proposals and reads -/

/-- How a proposal ends. A refusal changes nothing. -/
inductive ProposeEnd (node : RaftNode) (command : Command) : RaftNode × RaftNodeResult → Prop
  | stopped (node' : RaftNode) (e : RaftNodeError) (he : e.stops = true)
      (hs : node'.stopped = true) : ProposeEnd node command (node', .error e)
  | refused (e : RaftNodeError) (he : e.stops = false)
      (h : e = .invalidCommand → command.type = .noOp ∨ node.term ≠ 0 ∧
        ¬ (LogEntry.mk (node.lastIndex + 1) node.term command).Encodable) :
      ProposeEnd node command (node, .error e)
  | proposed (node' : RaftNode) (actions : RaftNodeActions) (hs : node'.stopped = false)
      (hr : node.role = .leader ∧ node'.role = .leader ∧ node'.term = node.term)
      (hl : node'.log.log = node.log.log ++ [⟨node.lastIndex + 1, node.term, command⟩])
      (hc : node'.commitIndex = node.commitIndex) (hn : node'.nextReadId = node.nextReadId)
      (ha : actions.applied = []) (hp : actions.proposedIndex = some (node.lastIndex + 1))
      (hid : actions.startedReadId = none) : ProposeEnd node command (node', .ok actions)

theorem propose_end (h : node.Invariant) (hs : node.stopped = false) (command : Command) :
    ProposeEnd node command (node.propose command) := by
  rw [propose, if_neg (by simp [hs])]
  cases hl : node.leader with
  | none => exact .refused _ rfl (by simp)
  | some leader =>
    obtain ⟨-, hrole, hterm, -, hvote⟩ := h.leader_facts hl
    dsimp only
    rw [if_neg (by simp [h.active hl])]
    split_ifs with hnoOp
    · exact .refused _ rfl fun _ => Or.inl hnoOp
    rw [appendAsLeader, if_neg (by simp [hs]), hl]
    dsimp only
    rw [if_neg (by simp [h.active hl])]
    have happ := leader.appendCommand_rule node.election node.metadata h.logSynced command
    revert happ
    generalize leader.appendCommand node.election node.metadata node.log command = r
    rintro (⟨e, -, -, henc⟩ | ⟨log', -, -, -⟩ | ⟨log', -, -, -, hlog⟩)
    · cases e with
      | invalidCommand =>
        have hself : { node with leader := some leader } = node := by rw [← hl]
        dsimp only
        rw [hself]
        refine .refused _ rfl fun _ => Or.inr ⟨h.vote_term (by simp [hvote]), ?_⟩
        rw [← hterm]
        exact henc rfl
      | notLeader | unknownPeer | invalidBatchSize | indexExhausted | persistenceError
        | inconsistentState => exact .stopped _ _ rfl rfl
    · exact .stopped _ _ rfl rfl
    · dsimp only
      split
      · exact .stopped _ _ rfl rfl
      · next node' actions hq =>
        obtain ⟨hsame, -⟩ := queueAppends_entries hq rfl
        refine .proposed _ _ (hsame.stopped.trans hs)
          ⟨hrole, hsame.role.1.trans hrole, hsame.role.2⟩ ?_ hsame.commitIndex hsame.nextReadId
          hsame.applied hsame.proposedIndex hsame.startedReadId
        rw [hsame.log, hlog, hterm]
        rfl

/-- How a read barrier ends. A refusal changes nothing. -/
inductive ReadEnd (node : RaftNode) : RaftNode × RaftNodeResult → Prop
  | stopped (node' : RaftNode) (e : RaftNodeError) (he : e.stops = true)
      (hs : node'.stopped = true) : ReadEnd node (node', .error e)
  | refused (e : RaftNodeError) (he : e.stops = false) : ReadEnd node (node, .error e)
  | reading (node' : RaftNode) (actions : RaftNodeActions) (hs : node'.stopped = false)
      (hr : node.role = .leader ∧ node'.role = .leader ∧ node'.term = node.term)
      (hl : node'.log.log = node.log.log) (hc : node'.commitIndex = node.commitIndex)
      (h0 : node.nextReadId ≠ 0) (hn : node'.nextReadId = (node.nextReadId + 1) % 2 ^ 64)
      (ha : actions.applied = []) (hp : actions.proposedIndex = none)
      (hid : actions.startedReadId = some node.nextReadId) : ReadEnd node (node', .ok actions)

theorem readBarrier_end (h : node.Invariant) (hs : node.stopped = false) :
    ReadEnd node node.readBarrier := by
  rw [readBarrier, if_neg (by simp [hs])]
  cases hl : node.leader with
  | none => exact .refused _ rfl
  | some leader =>
    have hrole : node.role = .leader := (h.leader_facts hl).2.1
    dsimp only
    rw [if_neg (by simp [h.active hl])]
    split_ifs with h0
    · exact .stopped _ _ rfl rfl
    · have hsame := startWaitingReads_entries { node with
        nextReadId := (node.nextReadId + 1) % 2 ^ 64
        readRounds := OrderedMap.emplace node.nextReadId none node.readRounds }
        { startedReadId := some node.nextReadId }
      rw [← hl]
      exact .reading _ _ (hsame.stopped.trans hs)
        ⟨hrole, hsame.role.1.trans hrole, hsame.role.2⟩ (by rw [hsame.log]) hsame.commitIndex
        h0 hsame.nextReadId hsame.applied hsame.proposedIndex hsame.startedReadId

/-- **The log across a call.** -/
theorem call_log (h : node.Invariant) (hs : node.stopped = false) (c : NodeCall) :
    LogEnd node c (node.call c) := by
  cases c with
  | electionTimeout => exact onElectionTimeout_log h hs
  | heartbeatTimeout => exact onHeartbeatTimeout_log h hs
  | requestVote peerId request => exact onRequestVote_log h hs peerId request
  | voteReply peerId reply => exact onVoteReply_log h hs peerId reply
  | appendEntries peerId request => exact onAppendEntries_log h hs peerId request
  | appendReply peerId sentRequest reply => exact onAppendReply_log h hs peerId sentRequest reply
  | propose command =>
    have hend := propose_end h hs command
    rw [call]
    revert hend
    generalize node.propose command = r
    rintro (⟨node', e, he, hs'⟩ | ⟨e, he⟩ | ⟨node', actions, hs', hr, hl, hc, hn, ha, hp, hid⟩)
    · exact .stopped node' e he hs'
    · exact .refused node e he hs rfl rfl rfl
    · exact .proposed node' actions command rfl hs' hr hl hc hn ha hp hid
  | readBarrier =>
    have hend := readBarrier_end h hs
    rw [call]
    revert hend
    generalize node.readBarrier = r
    rintro (⟨node', e, he, hs'⟩ | ⟨e, he⟩ | ⟨node', actions, hs', hr, hl, hc, h0, hn, ha, hp, hid⟩)
    · exact .stopped node' e he hs'
    · exact .refused node e he hs rfl rfl rfl
    · exact .reading node' actions rfl hs' hr hl hc h0 hn ha hp hid

/-! ## What follows for a leader -/

/-- What a call does to the entries of a leader that stays one, and what it reports as applied. -/
theorem LogEnd.entries {r : RaftNode × RaftNodeResult} (h : LogEnd node c r)
    (hn : node.Invariant) (hn' : r.1.Invariant) (hs : r.1.stopped = false)
    (hr : node.role = .leader) (hr' : r.1.role = .leader) {index : ℕ} {x : LogEntry}
    (hx : node.log.entryAt index = some x) (hi : node.lastApplied < index) :
    r.1.log.entryAt index = some x ∧ (index ≤ r.1.lastApplied → ∃ actions, r.2 = .ok actions ∧
      index ∈ actions.applied.map AppliedLogEntry.index) := by
  rw [hn.lastApplied] at hi
  rw [hn'.lastApplied]
  -- the commit index has not moved
  have hsame : r.1.commitIndex = node.commitIndex → index ≤ r.1.commitIndex →
      ∃ actions, r.2 = .ok actions ∧ index ∈ actions.applied.map AppliedLogEntry.index :=
    fun hc hle => absurd hle (by omega)
  cases h with
  | stopped node' e he hs' => simp [hs'] at hs
  | refused node' e he hs' hl hc =>
    exact ⟨(PersistentLog.entryAt_of_log_eq hl index).trans hx, hsame hc⟩
  | ok node' actions hs' hl hc hid ha =>
    refine ⟨(PersistentLog.entryAt_of_log_eq (hl hr hr') index).trans hx,
      fun hle => ⟨actions, rfl, ?_⟩⟩
    rw [ha, newlyCommitted, List.mem_range'_1]
    dsimp only at hle ⊢
    omega
  | proposed node' actions command hcall hs' hrole hl hc =>
    exact ⟨PersistentLog.entryAt_of_append hl hx, hsame hc⟩
  | reading node' actions hcall hs' hrole hl hc =>
    exact ⟨(PersistentLog.entryAt_of_log_eq hl index).trans hx, hsame hc⟩

/-- A node that stops says so. -/
theorem LogEnd.fails {r : RaftNode × RaftNodeResult} (h : LogEnd node c r)
    (hs : r.1.stopped = true) : ∃ e, r.2 = .error e ∧ e.stops = true := by
  cases h with
  | stopped node' e he => exact ⟨e, rfl, he⟩
  | refused node' e he hs' => simp [hs'] at hs
  | ok node' actions hs' => simp [hs'] at hs
  | proposed node' actions command hcall hs' => simp [hs'] at hs
  | reading node' actions hcall hs' => simp [hs'] at hs

/-- The ids of reads go up until the counter wraps to zero. -/
theorem LogEnd.nextReadId {r : RaftNode × RaftNodeResult} (h : LogEnd node c r)
    (hs : r.1.stopped = false) (hlt : node.nextReadId < 2 ^ 64) :
    r.1.nextReadId < 2 ^ 64 ∧ ∀ id, (node.nextReadId = 0 ∨ id < node.nextReadId) →
      r.1.nextReadId = 0 ∨ id < r.1.nextReadId := by
  cases h with
  | stopped node' e he hs' => simp [hs'] at hs
  | refused node' e he hs' hl hc hn =>
    dsimp only
    rw [hn]
    exact ⟨hlt, fun _ h => h⟩
  | ok node' actions hs' hl hc hn =>
    dsimp only
    rw [hn]
    exact ⟨hlt, fun _ h => h⟩
  | proposed node' actions command hcall hs' hrole hl hc hn =>
    dsimp only
    rw [hn]
    exact ⟨hlt, fun _ h => h⟩
  | reading node' actions hcall hs' hrole hl hc h0 hn =>
    dsimp only
    rw [hn]
    refine ⟨Nat.mod_lt _ (Nat.two_pow_pos 64), fun id hid => ?_⟩
    omega

end RaftNode

end DistributedKV
