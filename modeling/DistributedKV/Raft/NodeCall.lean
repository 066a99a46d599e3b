import DistributedKV.Raft.NodeInvariant

/-!
# The calls on a node

The eight public handlers of `RaftNode` as one function of a call, and rules for the helpers that
several handlers share.
-/

namespace DistributedKV

/-- A call of a public handler, with its arguments. -/
inductive NodeCall
  | electionTimeout
  | heartbeatTimeout
  | requestVote (peerId : ℕ) (request : RequestVote)
  | voteReply (peerId : ℕ) (reply : RequestVoteReply)
  | appendEntries (peerId : ℕ) (request : AppendEntries)
  | appendReply (peerId : ℕ) (sentRequest : AppendEntries) (reply : AppendEntriesReply)
  | propose (command : Command)
  | readBarrier

/-- What the writes of one call meet, store by store. -/
structure Faults where
  metadata : List WriteOutcome := []
  log : List WriteOutcome := []
  deriving DecidableEq

namespace RaftNode

def withFaults (node : RaftNode) (faults : Faults) : RaftNode :=
  { node with
    metadata := { node.metadata with outcomes := faults.metadata }
    log := { node.log with outcomes := faults.log } }

def call (node : RaftNode) : NodeCall → RaftNode × RaftNodeResult
  | .electionTimeout => node.onElectionTimeout
  | .heartbeatTimeout => node.onHeartbeatTimeout
  | .requestVote peerId request => node.onRequestVote peerId request
  | .voteReply peerId reply => node.onVoteReply peerId reply
  | .appendEntries peerId request => node.onAppendEntries peerId request
  | .appendReply peerId sentRequest reply => node.onAppendReply peerId sentRequest reply
  | .propose command => node.propose command
  | .readBarrier => node.readBarrier

/-- A stopped node refuses every call. -/
theorem call_of_stopped {node : RaftNode} (h : node.stopped = true) (c : NodeCall) :
    node.call c = (node, .error .stopped) := by
  cases c <;>
    simp only [call, onElectionTimeout, onHeartbeatTimeout, onRequestVote, onVoteReply,
      onAppendEntries, onAppendReply, propose, readBarrier, h, if_true]

/-- A node that runs after a call ran before it. -/
theorem running_of_call {node : RaftNode} {c : NodeCall} (h : (node.call c).1.stopped = false) :
    node.stopped = false := by
  cases hs : node.stopped with
  | false => rfl
  | true => rwa [call_of_stopped hs, hs] at h

/-- A node whose call succeeds ran before it. -/
theorem running_of_ok {node : RaftNode} {c : NodeCall} {actions : RaftNodeActions}
    (h : (node.call c).2 = .ok actions) : node.stopped = false := by
  cases hs : node.stopped with
  | false => rfl
  | true =>
    rw [call_of_stopped hs] at h
    cases h

/-! ## Applying -/

/-- With the log applied up to an earlier index, `apply_ready` succeeds and applies it up to the
commit index. -/
theorem applyReady_eq {node : RaftNode} {t c : ℕ} (hlog : LogInvariant node.log.log t)
    (hstate : node.state = .replay (node.log.log.take c)) (hc : c ≤ node.commitIndex)
    (hl : node.commitIndex ≤ node.lastIndex) (actions : RaftNodeActions) :
    ∃ applied, node.applyReady actions =
        ({ node with state := .replay (node.log.log.take node.commitIndex) },
          some { actions with applied }) ∧
      applied.map AppliedLogEntry.index = List.range' (c + 1) (node.commitIndex - c) := by
  obtain ⟨applied, h, hi⟩ := applyCommitted_eq hlog.wellFormed hc hl
  refine ⟨applied, ?_, hi⟩
  rw [applyReady, hstate, h]

/-! ## Sending to the peers -/

/-- How `queue_append` ends, in terms of an assertion `P` about the replication object and an
assertion `M` about messages; it fails only in case of `B`. -/
inductive QueueEnd (node : RaftNode) (P : RaftLeaderReplication → Prop)
    (M : OutboundRaftMessage → Prop) (B : Prop) (actions : RaftNodeActions) :
    RaftNode × Option RaftNodeActions → Prop
  | failed (leader : RaftLeaderReplication) (hP : P leader) (hb : B) :
      QueueEnd node P M B actions ({ node with leader := some leader }, none)
  | queued (leader : RaftLeaderReplication) (hP : P leader) (messages : List OutboundRaftMessage)
      (hM : ∀ m ∈ messages, M m) :
      QueueEnd node P M B actions ({ node with leader := some leader },
        some { actions with messages := actions.messages ++ messages })

variable {node : RaftNode} {leader : RaftLeaderReplication} {P : RaftLeaderReplication → Prop}
  {M : OutboundRaftMessage → Prop} {B : Prop}

/-- The rule of `queue_append`: assertions that building a request preserves hold at the end. -/
theorem queueAppend_rule (hl : node.leader = some leader) (hP : P leader) {peerId : ℕ}
    (hmake : ∀ {leader' request}, leader.MakeRequestEnd node.election node.metadata node.log
      node.commitIndex peerId 4 (leader', .ok request) →
        P leader' ∧ M ⟨peerId, .appendEntries request⟩)
    (hbad : ∀ {e}, leader.MakeRequestEnd node.election node.metadata node.log
      node.commitIndex peerId 4 (leader, .error e) → B) (actions : RaftNodeActions) :
    QueueEnd node P M B actions (node.queueAppend peerId actions) := by
  unfold queueAppend
  rw [hl]
  have hend := leader.makeRequest_rule node.election node.metadata node.log node.commitIndex
    peerId 4
  dsimp only
  revert hend
  generalize leader.makeRequest node.election node.metadata node.log node.commitIndex peerId 4 = r
  intro hend
  match r, hend with
  | (_, .error e), .error _ h => exact .failed leader hP (hbad (.error e h))
  | (leader', .ok request), hend =>
    obtain ⟨hP', hM⟩ := hmake hend
    exact .queued leader' hP' [_] (by simpa using hM)

/-- The rule of `queue_append` for several peers. -/
theorem queueAppends_rule (hl : node.leader = some leader) (hP : P leader) (peerIds : List ℕ)
    (hmake : ∀ {leader leader' peerId request}, P leader → peerId ∈ peerIds →
      leader.MakeRequestEnd node.election node.metadata node.log node.commitIndex peerId 4
        (leader', .ok request) → P leader' ∧ M ⟨peerId, .appendEntries request⟩)
    (hbad : ∀ {leader peerId e}, P leader → peerId ∈ peerIds →
      leader.MakeRequestEnd node.election node.metadata node.log node.commitIndex peerId 4
        (leader, .error e) → B) (actions : RaftNodeActions) :
    QueueEnd node P M B actions (node.queueAppends peerIds actions) := by
  induction peerIds generalizing node leader actions with
  | nil =>
    have hself : { node with leader := some leader } = node := by rw [← hl]
    have hend : QueueEnd node P M B actions _ := .queued leader hP [] (by simp)
    rwa [hself, List.append_nil] at hend
  | cons peerId peerIds ih =>
    have hfirst : QueueEnd node P M B actions (node.queueAppend peerId actions) :=
      queueAppend_rule hl hP (fun h => hmake hP List.mem_cons_self h)
        (fun h => hbad hP List.mem_cons_self h) actions
    rw [queueAppends]
    revert hfirst
    generalize node.queueAppend peerId actions = r
    rintro (⟨leader', hP', hb⟩ | ⟨leader', hP', messages, hM⟩)
    · exact .failed leader' hP' hb
    · have hrest : QueueEnd { node with leader := some leader' } P M B
          { actions with messages := actions.messages ++ messages } _ :=
        ih (rfl : ({ node with leader := some leader' } : RaftNode).leader = _) hP'
          (fun hP hp h => hmake hP (List.mem_cons_of_mem _ hp) h)
          (fun hP hp h => hbad hP (List.mem_cons_of_mem _ hp) h) _
      dsimp only at hrest ⊢
      revert hrest
      generalize queueAppends { node with leader := some leader' } peerIds
        { actions with messages := actions.messages ++ messages } = r
      rintro (⟨leader'', hP'', hb⟩ | ⟨leader'', hP'', messages', hM'⟩)
      · exact .failed leader'' hP'' hb
      · have hend : QueueEnd node P M B actions _ := .queued leader'' hP'' (messages ++ messages')
          fun m hm => (List.mem_append.1 hm).elim (hM m) (hM' m)
        rwa [← List.append_assoc] at hend

theorem queueAppends_singleton (node : RaftNode) (peerId : ℕ) (actions : RaftNodeActions) :
    node.queueAppends [peerId] actions = node.queueAppend peerId actions := by
  rw [queueAppends]
  rcases node.queueAppend peerId actions with ⟨node', _ | actions'⟩ <;> rfl

end RaftNode

end DistributedKV
