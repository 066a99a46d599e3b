import DistributedKV.Raft.NodeReads

/-!
# How much a node sends at once

`queue_append` asks for four entries at most, and a read's probe carries none. A request that has
no answer yet is sent again as it is, so this holds of what a leader keeps and of what it sends
(`RaftNode.call_sends`). Besides, only an append request is answered by an append reply.
-/

namespace DistributedKV

namespace RaftNode

open RaftNodeResult

variable {node node' : RaftNode} {leader : RaftLeaderReplication} {c : NodeCall}
  {messages : List OutboundRaftMessage} {actions : RaftNodeActions} {result : RaftNodeResult}

/-- The message is one that the call `c` may send. -/
inductive Sent (c : NodeCall) : RaftMessage → Prop
  | requestVote (request : RequestVote) : Sent c (.requestVote request)
  | requestVoteReply (reply : RequestVoteReply) : Sent c (.requestVoteReply reply)
  | appendEntries (request : AppendEntries) (h : request.entries.length ≤ 4) :
      Sent c (.appendEntries request)
  | appendEntriesReply (reply : AppendEntriesReply) {peerId : ℕ} {request : AppendEntries}
      (hc : c = .appendEntries peerId request) : Sent c (.appendEntriesReply reply)

/-- The requests that wait for an answer are small. -/
def SmallPending (leader : RaftLeaderReplication) : Prop :=
  ∀ i request, (leader.peers i).pending = some request → request.entries.length ≤ 4

/-- The requests that the node keeps are small, and its probes tell of something committed. -/
structure Batched (node : RaftNode) : Prop where
  pending : ∀ {leader}, node.leader = some leader → SmallPending leader
  probes : ∀ {id probe}, (id, some probe) ∈ node.readRounds →
    probe.entries.length ≤ 4 ∧ probe.leaderCommit ≠ 0

/-- The node keeps small requests, and the call `c` may send the messages. -/
structure Sends (c : NodeCall) (node : RaftNode) (messages : List OutboundRaftMessage) : Prop where
  batched : node.Batched
  sent : ∀ m ∈ messages, Sent c m.message

/-! ## What is kept -/

theorem Batched.of_none (hl : node.leader = none) (hr : node.readRounds = []) : node.Batched where
  pending h := by
    rw [hl] at h
    cases h
  probes h := by
    rw [hr] at h
    cases h

/-- The requests that are kept depend on the replication object and the reads. -/
theorem Batched.of_eq (h : node.Batched) (hl : node'.leader = node.leader)
    (hr : node'.readRounds = node.readRounds) : node'.Batched :=
  ⟨fun h' => h.pending (hl ▸ h'), fun h' => h.probes (hr ▸ h')⟩

theorem Batched.withFaults (h : node.Batched) (faults : Faults) :
    (node.withFaults faults).Batched :=
  h.of_eq rfl rfl

theorem Batched.dropLeadership (node : RaftNode) : node.dropLeadership.Batched :=
  .of_none rfl rfl

theorem SmallPending.setPeer (h : SmallPending leader) {i : Fin 2} {peer : PeerState}
    (hp : ∀ request, peer.pending = some request → request.entries.length ≤ 4) :
    SmallPending (leader.setPeer i peer) := by
  intro j request hr
  by_cases hj : j = i
  · subst hj
    rw [RaftLeaderReplication.setPeer_self] at hr
    exact hp request hr
  · rw [RaftLeaderReplication.setPeer_of_ne hj] at hr
    exact h j request hr

theorem SmallPending.makeRequest (h : SmallPending leader) {election : RaftElection}
    {metadata : PersistentMetadata} {log : PersistentLog} {commitIndex peerId : ℕ}
    {leader' : RaftLeaderReplication} {request : AppendEntries}
    (hmake : leader.MakeRequestEnd election metadata log commitIndex peerId 4
      (leader', .ok request)) :
    SmallPending leader' ∧ request.entries.length ≤ 4 := by
  cases hmake with
  | pending i hi _ hp => exact ⟨h, h i request hp⟩
  | fresh i hi hp k hk hl =>
    have hlen : (leader.requestFrom log.log commitIndex k 4).entries.length ≤ 4 :=
      List.length_take_le 4 _
    refine ⟨h.setPeer fun request hr => ?_, hlen⟩
    obtain rfl := Option.some.inj hr
    exact hlen

/-- A reply makes no new requests. -/
theorem SmallPending.handleReply (h : SmallPending leader) (election : RaftElection)
    (metadata : PersistentMetadata) (log : PersistentLog) (commitIndex peerId : ℕ)
    (sentRequest : AppendEntries) (reply : AppendEntriesReply) :
    SmallPending
      (leader.handleReply election metadata log commitIndex peerId sentRequest reply).leader := by
  unfold RaftLeaderReplication.handleReply
  cases leader.findPeer peerId with
  | none => exact h
  | some i =>
    have hset : ∀ {progress : PeerProgress},
        SmallPending (leader.setPeer i { leader.peers i with progress, pending := none }) :=
      h.setPeer fun _ hr => by cases hr
    dsimp only
    split_ifs
    · exact h
    · split <;> exact h
    · exact h
    · exact h.setPeer fun _ hr => by cases hr
    · exact hset
    · split <;> exact hset

theorem SmallPending.appendCommand (h : SmallPending leader) (election : RaftElection)
    (metadata : PersistentMetadata) (log : PersistentLog) (command : Command) :
    SmallPending (leader.appendCommand election metadata log command).1 := by
  unfold RaftLeaderReplication.appendCommand
  split_ifs
  · exact h
  · exact h
  · dsimp only
    split <;> exact h

/-! ## What the helpers send -/

/-- Every success of a helper leaves a node that keeps and sends small requests. -/
def SendsEnd (c : NodeCall) (r : RaftNode × Option RaftNodeActions) : Prop :=
  ∀ actions, r.2 = some actions → Sends c r.1 actions.messages

theorem Sends.stop (node : RaftNode) (e : RaftNodeError) :
    Sends c (node.stop e).1 (RaftNodeResult.messages (node.stop e).2) :=
  ⟨.of_none rfl rfl, fun _ hm => by cases hm⟩

theorem Sends.nil (h : node.Batched) : Sends c node [] := ⟨h, fun _ hm => by cases hm⟩

theorem Sends.of_eq (h : Sends c node messages) (hl : node'.leader = node.leader)
    (hr : node'.readRounds = node.readRounds) : Sends c node' messages :=
  ⟨h.batched.of_eq hl hr, h.sent⟩

/-- What a handler does with the result of a helper. -/
theorem SendsEnd.elim {r : RaftNode × Option RaftNodeActions} (h : SendsEnd c r)
    {f : RaftNode → RaftNodeActions → RaftNode × RaftNodeResult}
    (hf : ∀ node actions, Sends c node actions.messages →
      Sends c (f node actions).1 (RaftNodeResult.messages (f node actions).2)) :
    Sends c
      (match r with
        | (node, none) => node.stop .inconsistentState
        | (node, some actions) => f node actions).1
      (RaftNodeResult.messages
        (match r with
          | (node, none) => node.stop .inconsistentState
          | (node, some actions) => f node actions).2) := by
  rcases r with ⟨node', _ | actions⟩
  · exact .stop _ _
  · exact hf _ _ (h actions rfl)

theorem Sends.queueAppends (h : Sends c node actions.messages) (hl : node.leader.isSome)
    (peerIds : List ℕ) : SendsEnd c (node.queueAppends peerIds actions) := by
  obtain ⟨leader, hl⟩ := Option.isSome_iff_exists.1 hl
  have hend := queueAppends_rule hl (h.batched.pending hl) (M := fun m => Sent c m.message)
    (B := True) peerIds (fun hP _ hmake => (hP.makeRequest hmake).imp_right (.appendEntries _))
    (fun _ _ _ => trivial) actions
  revert hend
  generalize node.queueAppends peerIds actions = r
  rintro (⟨l, -, -⟩ | ⟨l, hP, messages, hM⟩) actions' ha
  · cases ha
  · obtain rfl := Option.some.inj ha
    refine ⟨⟨fun hl' => ?_, h.batched.probes⟩, fun m hm => ?_⟩
    · obtain rfl := Option.some.inj hl'
      exact hP
    · exact (List.mem_append.1 hm).elim (h.sent m) (hM m)

theorem Sends.queueAppend (h : Sends c node actions.messages) (hl : node.leader.isSome)
    (peerId : ℕ) : SendsEnd c (node.queueAppend peerId actions) := by
  rw [← queueAppends_singleton]
  exact h.queueAppends hl _

theorem sent_of_broadcast {request : AppendEntries} (h : request.entries.length ≤ 4) :
    ∀ m ∈ node.broadcast (.appendEntries request), Sent c m.message := by
  intro m hm
  obtain ⟨p, -, rfl⟩ := List.mem_map.1 hm
  exact .appendEntries _ h

theorem commitIndex_ne_zero (h : node.currentTermCommitted = true) : node.commitIndex ≠ 0 := by
  intro h0
  simp [currentTermCommitted, h0] at h

theorem Sends.startWaitingReads (h : Sends c node actions.messages) :
    Sends c (node.startWaitingReads actions).1 (node.startWaitingReads actions).2.messages := by
  rw [RaftNode.startWaitingReads]
  split_ifs with hc
  · exact h
  · refine ⟨⟨h.batched.pending, fun hm => ?_⟩, fun m hm => ?_⟩
    · obtain ⟨⟨id', o⟩, hmem, heq⟩ := List.mem_map.1 hm
      obtain ⟨rfl, rfl⟩ := (by simpa using heq : id' = _ ∧ o.getD (node.readProbe id') = _)
      cases o with
      | none => exact ⟨Nat.zero_le 4, commitIndex_ne_zero (by simpa using hc)⟩
      | some probe => exact h.batched.probes hmem
    · rcases List.mem_append.1 hm with hm | hm
      · exact h.sent m hm
      · obtain ⟨⟨id, o⟩, hmem, hm⟩ := List.mem_flatMap.1 hm
        cases o with
        | none =>
          have hprobe : (node.readProbe id).entries.length ≤ 4 := Nat.zero_le 4
          exact sent_of_broadcast hprobe m hm
        | some probe => cases hm

theorem Sends.applyReady (h : Sends c node actions.messages) :
    SendsEnd c (node.applyReady actions) ∧
      (node.applyReady actions).1.leader = node.leader := by
  obtain ⟨state, h1, h2⟩ := node.applyReady_shape actions
  rw [h1]
  refine ⟨fun actions' ha => ?_, rfl⟩
  obtain ⟨applied, rfl⟩ := h2 actions' ha
  rw [h1]
  exact h.of_eq rfl rfl

theorem Sends.followUp (h : node.Batched) (hl : node.leader.isSome) (peerId : ℕ)
    (outcome : AppendReplyOutcome) : SendsEnd c (node.followUp peerId outcome) := by
  have hnil : Sends c node ({} : RaftNodeActions).messages := .nil h
  have hsame : SendsEnd c (node, some {}) := fun _ ha => by
    obtain rfl := Option.some.inj ha
    exact hnil
  have hqueue : SendsEnd c (node.queueAppend peerId {}) := hnil.queueAppend hl peerId
  cases outcome with
  | retry => exact hqueue
  | ignored | steppedDown | inconsistentFollower | persistenceError => exact hsame
  | recorded =>
    rw [RaftNode.followUp]
    split
    · exact fun _ ha => by cases ha
    · split_ifs
      · exact hqueue
      · exact hsame
  | committed =>
    obtain ⟨happ, hleader⟩ : SendsEnd c (node.applyReady {}) ∧ _ := hnil.applyReady
    rw [RaftNode.followUp]
    revert happ hleader
    rcases node.applyReady {} with ⟨node₁, _ | actions₁⟩
    · exact fun _ _ _ ha => by cases ha
    · intro happ hleader
      have hq := (happ _ rfl).queueAppends (hleader ▸ hl) node₁.peers
      dsimp only at hq ⊢
      revert hq
      rcases node₁.queueAppends node₁.peers actions₁ with ⟨node₂, _ | actions₂⟩
      · exact fun _ _ ha => by cases ha
      · intro hq actions ha
        obtain rfl := Option.some.inj ha
        exact (hq _ rfl).startWaitingReads

theorem Sends.completeRead (h : Sends c node actions.messages) (sentRequest : AppendEntries)
    (reply : AppendEntriesReply) :
    Sends c (node.completeRead sentRequest reply actions).1
      (RaftNodeResult.messages (node.completeRead sentRequest reply actions).2) := by
  rw [RaftNode.completeRead]
  split_ifs
  · split
    · dsimp only
      split_ifs
      · exact .stop _ _
      · exact ⟨⟨h.batched.pending, fun hm => h.batched.probes (OrderedMap.mem_erase.1 hm).1⟩,
          h.sent⟩
      · exact h
    · exact h
  · exact h

/-! ## The handlers -/

/-- The end of a handler that sends requests to the peers. -/
theorem Sends.of_queueAppends (h : Sends c node actions.messages) (hl : node.leader.isSome)
    (peerIds : List ℕ) :
    Sends c
      (match node.queueAppends peerIds actions with
        | (node, none) => node.stop .inconsistentState
        | (node, some actions) => (node, .ok actions)).1
      (RaftNodeResult.messages
        (match node.queueAppends peerIds actions with
          | (node, none) => node.stop .inconsistentState
          | (node, some actions) => (node, .ok actions)).2) :=
  (h.queueAppends hl peerIds).elim fun _ _ h => h

theorem onElectionTimeout_sends (h : node.Batched) :
    Sends c node.onElectionTimeout.1 (RaftNodeResult.messages node.onElectionTimeout.2) := by
  rw [onElectionTimeout]
  split_ifs
  · exact .nil h
  · rcases node.election.startElection node.metadata node.log with
      ⟨election, metadata, (_ | _ | _) | request⟩
    · exact .nil (h.of_eq rfl rfl)
    · exact .stop _ _
    · exact .stop _ _
    · refine ⟨.dropLeadership _, fun m hm => ?_⟩
      obtain ⟨p, -, rfl⟩ := List.mem_map.1 hm
      exact .requestVote request

theorem onHeartbeatTimeout_sends (h : node.Batched) :
    Sends c node.onHeartbeatTimeout.1 (RaftNodeResult.messages node.onHeartbeatTimeout.2) := by
  rw [onHeartbeatTimeout]
  split_ifs
  · exact .nil h
  · cases hl : node.leader with
    | none => exact .nil h
    | some leader =>
      dsimp only
      split_ifs
      · exact .nil (.dropLeadership _)
      · have hstart : Sends c node ({ scheduleHeartbeat := true } : RaftNodeActions).messages :=
          .nil h
        refine (hstart.queueAppends (by simp [hl]) node.peers).elim fun node' actions h' => ?_
        refine ⟨h'.batched, fun m hm => ?_⟩
        rcases List.mem_append.1 hm with hm | hm
        · exact h'.sent m hm
        · obtain ⟨⟨id, o⟩, hmem, hm⟩ := List.mem_flatMap.1 hm
          cases o with
          | none => cases hm
          | some probe => exact sent_of_broadcast (h'.batched.probes hmem).1 m hm

theorem onRequestVote_sends (h : node.Batched) (peerId : ℕ) (request : RequestVote) :
    Sends c (node.onRequestVote peerId request).1
      (RaftNodeResult.messages (node.onRequestVote peerId request).2) := by
  rw [onRequestVote]
  split_ifs
  · exact .nil h
  · exact .nil h
  · exact .nil h
  · dsimp only
    rcases handleRequestVote node.metadata node.log request with ⟨metadata, e | reply⟩
    · exact .stop _ _
    · refine ⟨?_, fun m hm => ?_⟩
      · dsimp only
        split_ifs
        · exact .dropLeadership _
        · exact h.of_eq rfl rfl
      · rw [List.mem_singleton.1 hm]
        exact .requestVoteReply reply

theorem onVoteReply_sends (h : node.Batched) (peerId : ℕ) (reply : RequestVoteReply) :
    Sends c (node.onVoteReply peerId reply).1
      (RaftNodeResult.messages (node.onVoteReply peerId reply).2) := by
  rw [onVoteReply]
  split_ifs
  · exact .nil h
  · exact .nil h
  · rcases node.election.handleVoteReply node.metadata peerId reply with
      ⟨election, metadata, outcome⟩
    cases outcome with
    | persistenceError => exact .stop _ _
    | steppedDown => exact .nil (.dropLeadership _)
    | ignored | recorded => exact .nil (h.of_eq rfl rfl)
    | becameLeader =>
      dsimp only
      split
      · exact .stop _ _
      · next leader hcreate =>
        have hpending : SmallPending leader := by
          rw [RaftLeaderReplication.create_eq_some hcreate]
          exact fun i request hr => by cases hr
        have happ := hpending.appendCommand election metadata node.log {}
        revert happ
        rcases leader.appendCommand election metadata node.log {} with ⟨leader', log, e | index⟩
        · exact fun _ => .stop _ _
        · intro happ
          have hbatched : Batched { node with
              election
              metadata
              knownLeader := some node.selfId
              leader := some leader'
              log } := by
            refine ⟨fun hl => ?_, h.probes⟩
            obtain rfl := Option.some.inj hl
            exact happ
          have hstart : Sends c _ ({ scheduleHeartbeat := true } : RaftNodeActions).messages :=
            .nil hbatched
          exact hstart.of_queueAppends rfl _

theorem onAppendEntries_sends (h : node.Batched) (peerId : ℕ) (request : AppendEntries) :
    Sends (.appendEntries peerId request) (node.onAppendEntries peerId request).1
      (RaftNodeResult.messages (node.onAppendEntries peerId request).2) := by
  rw [onAppendEntries]
  split_ifs
  · exact .nil h
  · exact .nil h
  · exact .nil h
  · dsimp only
    rcases handleAppendEntries node.metadata node.log node.commitIndex request with
      ⟨metadata, log, commitIndex, result⟩
    -- the stores do not matter
    have hstores : ∀ {b : Prop} [Decidable b], (if b then
        { node with metadata, log, commitIndex }.dropLeadership
          else { node with metadata, log, commitIndex }).Batched := by
      intro b hb
      split_ifs
      · exact .dropLeadership _
      · exact h.of_eq rfl rfl
    -- the reply
    have hreplied : ∀ {node' : RaftNode} {actions : RaftNodeActions}
        {reply : AppendEntriesReply}, Sends (.appendEntries peerId request) node' actions.messages →
          Sends (.appendEntries peerId request) node'
            (actions.messages ++ [⟨peerId, .appendEntriesReply reply⟩]) := by
      refine fun h' => ⟨h'.batched, fun m hm => (List.mem_append.1 hm).elim (h'.sent m)
        fun hm => ?_⟩
      rw [List.mem_singleton.1 hm]
      exact .appendEntriesReply _ rfl
    cases result with
    | error e =>
      cases e with
      | invalidRequest => exact .nil hstores
      | persistenceError | committedConflict => exact .stop _ _
    | ok reply =>
      dsimp only
      generalize hnode : (if node.term < _ then _ else _ : RaftNode) = node'
      have hbatched : node'.Batched := hnode ▸ hstores
      have hfollowing : ∀ (following : Bool), (if following then
          { { node' with
              election := node'.election.observeLeader node'.metadata request.term }.dropLeadership
            with knownLeader := some peerId }
          else node').Batched := by
        intro following
        split_ifs
        · exact .of_none rfl rfl
        · exact hbatched
      generalize decide (request.term ≠ 0 ∧ request.term = reply.term) = following
      have hstart : Sends (.appendEntries peerId request) _
          ({ resetElectionTimer := following } : RaftNodeActions).messages :=
        .nil (hfollowing following)
      by_cases hsuccess : reply.success = true
      · rw [if_pos hsuccess]
        exact hstart.applyReady.1.elim fun _ _ h' => hreplied h'
      · rw [if_neg hsuccess]
        exact hreplied hstart

theorem onAppendReply_sends (h : node.Batched) (peerId : ℕ) (sentRequest : AppendEntries)
    (reply : AppendEntriesReply) :
    Sends c (node.onAppendReply peerId sentRequest reply).1
      (RaftNodeResult.messages (node.onAppendReply peerId sentRequest reply).2) := by
  rw [onAppendReply]
  split
  · exact .nil h
  split
  · exact .nil h
  · cases hl : node.leader with
    | none =>
      dsimp only
      split_ifs
      · rcases node.metadata.advanceTerm reply.term with ⟨metadata, result⟩
        cases result with
        | persisted => exact .nil (.dropLeadership _)
        | unchanged | staleTerm | voteConflict | invalidTerm | ioError => exact .stop _ _
      · exact .nil h
    | some leader =>
      have hpending := (h.pending hl).handleReply node.election node.metadata node.log
        node.commitIndex peerId sentRequest reply
      dsimp only
      revert hpending
      rcases leader.handleReply node.election node.metadata node.log node.commitIndex peerId
        sentRequest reply with ⟨leader', metadata, commitIndex, outcome⟩
      intro hpending
      have hbatched : Batched { node with leader := some leader', metadata, commitIndex } := by
        refine ⟨fun hl => ?_, h.probes⟩
        obtain rfl := Option.some.inj hl
        exact hpending
      have hfollow : ∀ outcome, Sends c
          (match followUp { node with leader := some leader', metadata, commitIndex } peerId
              outcome with
            | (node, none) => node.stop .inconsistentState
            | (node, some actions) => node.completeRead sentRequest reply actions).1
          (RaftNodeResult.messages
            (match followUp { node with leader := some leader', metadata, commitIndex } peerId
                outcome with
              | (node, none) => node.stop .inconsistentState
              | (node, some actions) => node.completeRead sentRequest reply actions).2) :=
        fun outcome => (Sends.followUp hbatched rfl peerId outcome).elim fun _ _ h' =>
          h'.completeRead sentRequest reply
      cases outcome with
      | persistenceError | inconsistentFollower => exact .stop _ _
      | steppedDown => exact .nil (.dropLeadership _)
      | ignored => exact hfollow .ignored
      | retry => exact hfollow .retry
      | recorded => exact hfollow .recorded
      | committed => exact hfollow .committed

theorem appendAsLeader_sends (h : node.Batched) (command : Command) :
    Sends c (node.appendAsLeader command).1
      (RaftNodeResult.messages (node.appendAsLeader command).2) := by
  rw [appendAsLeader]
  split
  · exact .nil h
  · cases hl : node.leader with
    | none => exact .nil h
    | some leader =>
      dsimp only
      split_ifs
      · exact .nil h
      · have happ := (h.pending hl).appendCommand node.election node.metadata node.log command
        revert happ
        rcases leader.appendCommand node.election node.metadata node.log command with
          ⟨leader', log, e | index⟩
        · intro happ
          have hbatched : Batched { node with leader := some leader', log } := by
            refine ⟨fun hl => ?_, h.probes⟩
            obtain rfl := Option.some.inj hl
            exact happ
          cases e with
          | invalidCommand => exact .nil hbatched
          | notLeader | unknownPeer | invalidBatchSize | indexExhausted | persistenceError
            | inconsistentState => exact .stop _ _
        · intro happ
          have hbatched : Batched { node with leader := some leader', log } := by
            refine ⟨fun hl => ?_, h.probes⟩
            obtain rfl := Option.some.inj hl
            exact happ
          have hstart : Sends c _ ({ proposedIndex := some index } : RaftNodeActions).messages :=
            .nil hbatched
          exact hstart.of_queueAppends rfl _

theorem propose_sends (h : node.Batched) (command : Command) :
    Sends c (node.propose command).1 (RaftNodeResult.messages (node.propose command).2) := by
  rw [propose]
  split
  · exact .nil h
  · cases hl : node.leader with
    | none => exact .nil h
    | some leader =>
      dsimp only
      split_ifs
      · exact .nil h
      · exact .nil h
      · exact appendAsLeader_sends h command

theorem readBarrier_sends (h : node.Batched) :
    Sends c node.readBarrier.1 (RaftNodeResult.messages node.readBarrier.2) := by
  rw [readBarrier]
  split
  · exact .nil h
  · cases hl : node.leader with
    | none => exact .nil h
    | some leader =>
      dsimp only
      split_ifs
      · exact .nil h
      · exact .stop _ _
      · have hbatched : Batched { node with
            leader := some leader
            nextReadId := (node.nextReadId + 1) % 2 ^ 64
            readRounds := OrderedMap.emplace node.nextReadId none node.readRounds } := by
          refine ⟨fun hl' => h.pending (hl.trans hl'), fun hm => ?_⟩
          rcases OrderedMap.mem_emplace hm with hm | hm
          · cases hm
          · exact h.probes hm
        have hstart : Sends c _
            ({ startedReadId := some node.nextReadId } : RaftNodeActions).messages :=
          .nil hbatched
        exact hstart.startWaitingReads

/-- The index that a node reports for a read is that of something committed. -/
theorem CallFacts.ready_index_ne_zero {r : RaftNode × RaftNodeResult} (h : CallFacts node c r)
    (hb : node.Batched) {x : ReadyRead} (hx : x ∈ readyReads r.2) : x.index ≠ 0 := by
  obtain ⟨_, sent, _, -, -, -, hcommit, -, -, -, -, -, hprobes, -⟩ := h.ready x hx
  rw [← hcommit]
  rcases hprobes with hold | ⟨rfl, hc⟩
  · exact (hb.probes hold).2
  · exact commitIndex_ne_zero hc

/-- **What a call sends**, and what the node keeps to send again. -/
theorem call_sends (h : node.Batched) (c : NodeCall) :
    Sends c (node.call c).1 (RaftNodeResult.messages (node.call c).2) := by
  cases c with
  | electionTimeout => exact onElectionTimeout_sends h
  | heartbeatTimeout => exact onHeartbeatTimeout_sends h
  | requestVote peerId request => exact onRequestVote_sends h peerId request
  | voteReply peerId reply => exact onVoteReply_sends h peerId reply
  | appendEntries peerId request => exact onAppendEntries_sends h peerId request
  | appendReply peerId sentRequest reply => exact onAppendReply_sends h peerId sentRequest reply
  | propose command => exact propose_sends h command
  | readBarrier => exact readBarrier_sends h

end RaftNode

end DistributedKV
