import DistributedKV.Cluster.Abstract

/-!
# The cluster and its abstract state

What the disks, the processes and the messages of a cluster mean in the abstract state. A disk
holds its node's term, vote and log. A message tells something of the past: a candidacy, a vote,
a part of a leader's log, an acknowledgement. A process that runs knows a committed prefix of its
log, and as a leader an acknowledgement for each match index. All of this is kept when other nodes
make steps (`NodeOk.frame`, `MessageOk.grows`).
-/

namespace DistributedKV

open Replication (Grows Frame CommittedBy)

/-! ## Messages -/

/-- The request carries a part of the log `L` of the leader of its term. -/
structure Requested (s : Abstract) (request : AppendEntries) (L : List LogEntry) : Prop where
  leader : s.leader request.term = some (request.leaderId, L)
  prev_le : request.prevLogIndex ≤ L.length
  prevTerm : request.prevLogTerm = PersistentLog.termAt L request.prevLogIndex
  entries : request.entries <+: L.drop request.prevLogIndex
  commit_le : request.leaderCommit ≤ L.length
  committed : CommittedBy s request.term (L.take request.leaderCommit)
  probe : request.readContext ≠ 0 → request.prevLogIndex = 0 ∧ request.entries = []

def RequestOk (s : Abstract) (request : AppendEntries) : Prop := ∃ L, Requested s request L

/-- The node that replied had done what the reply says. -/
structure ReplyOk (s : Abstract) (replier : ℕ) (request : AppendEntries)
    (reply : AppendEntriesReply) : Prop where
  accepted : reply.success = true → reply.term = request.term ∧
    s.ack replier request.term (request.prevLogIndex + request.entries.length)
  rejected : reply.success = false → reply.term = request.term → request.prevLogIndex ≠ 0

def MessageOk (s : Abstract) (envelope : Envelope) : Prop :=
  match envelope.message with
  | .requestVote request => request.candidateId = envelope.sender ∧
      ∃ l, s.candidacy envelope.sender request.term = some l ∧
        request.lastLogIndex = l.length ∧ request.lastLogTerm = PersistentLog.lastTermOf l
  | .requestVoteReply reply =>
      reply.voteGranted = true → s.vote envelope.sender reply.term = some envelope.receiver
  | .appendEntries request => request.leaderId = envelope.sender ∧ RequestOk s request
  | .appendEntriesReply reply =>
      ∀ request, envelope.repliedTo = some request → ReplyOk s envelope.sender request reply

/-- What holds when a reply to an append request is sent, and perhaps not much longer: the node is
in the reply's term, and if it rejects a request of that term, it has not acknowledged the entries
that precede the request's. -/
def Fresh (s : Abstract) (envelope : Envelope) : Prop :=
  match envelope.message with
  | .appendEntriesReply reply => reply.term = s.term envelope.sender ∧
      ∀ request, envelope.repliedTo = some request → reply.success = false →
        reply.term = request.term → ¬ s.ack envelope.sender request.term request.prevLogIndex
  | _ => True

/-! ## Nodes -/

structure DiskOk (s : Abstract) (n : ℕ) (disk : Disk) : Prop where
  recorded : Recorded s n disk.metadata
  log : s.log n = disk.log

/-- What the leader `n` of term `T`, with a log of `last` entries, knows about a peer. -/
structure PeerOk (s : Abstract) (n T last : ℕ) (peer : PeerState) : Prop where
  match_lt : peer.progress.matchIndex < peer.progress.nextIndex
  next_le : peer.progress.nextIndex ≤ last + 1
  acked : peer.progress.matchIndex ≠ 0 → s.ack peer.id T peer.progress.matchIndex
  pending : ∀ {request}, peer.pending = some request → RequestOk s request ∧
    request.leaderId = n ∧ request.term = T ∧
      request.prevLogIndex + 1 = peer.progress.nextIndex ∧ request.readContext = 0

/-- The replication object of the leader `n` of term `T`. -/
structure LeaderOk (s : Abstract) (n T : ℕ) (log : List LogEntry) (commitIndex : ℕ)
    (ids : Fin 2 → ℕ) (leader : RaftLeaderReplication) : Prop where
  selfId : leader.selfId = n
  term : leader.term = T
  stopped : leader.stopped = false
  lead : s.leader T = some (n, log)
  ack : s.ack n T log.length
  committed_le : s.committed T ≤ commitIndex
  id : ∀ i, (leader.peers i).id = ids i
  peer : ∀ i, PeerOk s n T log.length (leader.peers i)

/-- The probes of the waiting reads of the leader `n` of term `T`. -/
def ReadsOk (s : Abstract) (n T commitIndex : ℕ)
    (rounds : List (ℕ × Option AppendEntries)) : Prop :=
  ∀ id probe, (id, some probe) ∈ rounds → RequestOk s probe ∧ probe.leaderId = n ∧
    probe.term = T ∧ probe.leaderCommit ≤ commitIndex ∧ probe.readContext = id

/-- A process that has not stopped. -/
structure RunningOk (s : Abstract) (n : ℕ) (node : RaftNode) : Prop where
  invariant : node.Invariant
  committed : CommittedBy s node.term (node.log.log.take node.commitIndex)
  candidate : node.role = .candidate → s.candidacy n node.term = some node.log.log ∧
    ∀ L, s.leader node.term ≠ some (n, L)
  leader : ∀ {leader}, node.leader = some leader →
    LeaderOk s n node.term node.log.log node.commitIndex node.peerIds leader
  reads : ReadsOk s n node.term node.commitIndex node.readRounds

/-- A process, stopped or not. -/
structure NodeOk (cluster : Cluster) (s : Abstract) (n : ℕ) (node : RaftNode) : Prop where
  selfId : node.selfId = n
  peerIds : node.peerIds = cluster.peerIds n
  disk : DiskOk s n node.disk
  committed : ∃ t, CommittedBy s t (node.log.log.take node.commitIndex)
  commit_le : node.commitIndex ≤ node.lastIndex
  applied : node.state = .replay (node.log.log.take node.commitIndex)
  leads : node.role = .leader → ∃ L, s.leader node.term = some (n, L)
  stopped : node.stopped = true → node.leader = none
  running : node.stopped = false → RunningOk s n node

def SlotOk (cluster : Cluster) (s : Abstract) (n : ℕ) : Slot → Prop
  | .down disk => DiskOk s n disk
  | .up node => n ∈ cluster.members ∧ NodeOk cluster s n node

/-- **The refinement relation** between a cluster and its abstract state. -/
structure Refines (cluster : Cluster) (w : World) (s : Abstract) : Prop where
  sound : s.Sound cluster
  slot : ∀ n, SlotOk cluster s n (w.slots n)
  message : ∀ envelope ∈ w.sent, MessageOk s envelope

variable {cluster : Cluster} {s s' : Abstract} {n p : ℕ}

/-! ## What growth keeps -/

theorem Requested.grows (hg : Grows LogEntry.term s s') {request : AppendEntries}
    {L : List LogEntry} (h : Requested s request L) :
    ∃ X, Requested s' request (L ++ X) := by
  obtain ⟨X, hX, -⟩ := hg.leader h.leader
  refine ⟨X, hX, ?_, ?_, ?_, ?_, ?_, h.probe⟩
  · rw [List.length_append]
    exact h.prev_le.trans (Nat.le_add_right _ _)
  · rw [PersistentLog.termAt_append h.prev_le, h.prevTerm]
  · rw [List.drop_append_of_le_length h.prev_le]
    exact h.entries.trans (List.prefix_append _ _)
  · rw [List.length_append]
    exact h.commit_le.trans (Nat.le_add_right _ _)
  · rw [List.take_append_of_le_length h.commit_le]
    exact h.committed.grows hg

theorem RequestOk.grows (hg : Grows LogEntry.term s s') {request : AppendEntries}
    (h : RequestOk s request) : RequestOk s' request := by
  obtain ⟨L, h⟩ := h
  obtain ⟨X, h⟩ := h.grows hg
  exact ⟨L ++ X, h⟩

theorem MessageOk.grows (hg : Grows LogEntry.term s s') {envelope : Envelope}
    (h : MessageOk s envelope) : MessageOk s' envelope := by
  unfold MessageOk at *
  split at h
  · obtain ⟨h1, l, h2, h3⟩ := h
    exact ⟨h1, l, hg.candidacy h2, h3⟩
  · exact fun hv => hg.vote (h hv)
  · exact ⟨h.1, h.2.grows hg⟩
  · exact fun request hr => ⟨fun ha => ⟨((h request hr).accepted ha).1,
      hg.ack ((h request hr).accepted ha).2⟩, (h request hr).rejected⟩

theorem PeerOk.grows (hg : Grows LogEntry.term s s') {T last : ℕ} {peer : PeerState}
    (h : PeerOk s n T last peer) : PeerOk s' n T last peer where
  match_lt := h.match_lt
  next_le := h.next_le
  acked h0 := hg.ack (h.acked h0)
  pending hr := ⟨(h.pending hr).1.grows hg, (h.pending hr).2⟩

theorem ReadsOk.grows (hg : Grows LogEntry.term s s') {T c : ℕ}
    {rounds : List (ℕ × Option AppendEntries)} (h : ReadsOk s n T c rounds) :
    ReadsOk s' n T c rounds := fun id probe hm => ⟨(h id probe hm).1.grows hg, (h id probe hm).2⟩

/-! ## What the steps of other nodes keep -/

theorem DiskOk.frame (hf : Frame n s s') (hp : p ≠ n) {disk : Disk} (h : DiskOk s p disk) :
    DiskOk s' p disk where
  recorded := ⟨by rw [hf.term p hp, h.recorded.term], by rw [hf.vote p hp, h.recorded.vote]⟩
  log := by rw [hf.log p hp, h.log]

/-- The log of a leader does not change by the steps of other nodes. -/
theorem leader_frame (hg : Grows LogEntry.term s s') (hf : Frame n s s') (hp : p ≠ n) {T : ℕ}
    {L : List LogEntry} (h : s.leader T = some (p, L)) : s'.leader T = some (p, L) := by
  obtain ⟨X, hX, -⟩ := hg.leader h
  have hX' := hf.leader hp hX
  rw [h] at hX'
  simp only [Option.some.injEq, Prod.mk.injEq, true_and] at hX'
  rwa [← hX'] at hX

theorem LeaderOk.frame (hg : Grows LogEntry.term s s') (hf : Frame n s s') (hp : p ≠ n) {T c : ℕ}
    {log : List LogEntry} {ids : Fin 2 → ℕ} {leader : RaftLeaderReplication}
    (h : LeaderOk s p T log c ids leader) : LeaderOk s' p T log c ids leader where
  selfId := h.selfId
  term := h.term
  stopped := h.stopped
  lead := leader_frame hg hf hp h.lead
  ack := hg.ack h.ack
  committed_le := by
    rw [hf.committed hp (leader_frame hg hf hp h.lead)]
    exact h.committed_le
  id := h.id
  peer i := (h.peer i).grows hg

theorem RunningOk.frame (hg : Grows LogEntry.term s s') (hf : Frame n s s') (hp : p ≠ n)
    {node : RaftNode} (h : RunningOk s p node) : RunningOk s' p node where
  invariant := h.invariant
  committed := h.committed.grows hg
  candidate hc := ⟨hg.candidacy (h.candidate hc).1, fun L hL =>
    (h.candidate hc).2 L (hf.leader hp hL)⟩
  leader hl := (h.leader hl).frame hg hf hp
  reads := h.reads.grows hg

theorem NodeOk.frame (hg : Grows LogEntry.term s s') (hf : Frame n s s') (hp : p ≠ n)
    {node : RaftNode} (h : NodeOk cluster s p node) : NodeOk cluster s' p node where
  selfId := h.selfId
  peerIds := h.peerIds
  disk := h.disk.frame hf hp
  committed := by
    obtain ⟨t, ht⟩ := h.committed
    exact ⟨t, ht.grows hg⟩
  commit_le := h.commit_le
  applied := h.applied
  leads hr := by
    obtain ⟨L, hL⟩ := h.leads hr
    exact ⟨L, leader_frame hg hf hp hL⟩
  stopped := h.stopped
  running hs := (h.running hs).frame hg hf hp

theorem SlotOk.frame (hg : Grows LogEntry.term s s') (hf : Frame n s s') (hp : p ≠ n)
    {slot : Slot} (h : SlotOk cluster s p slot) : SlotOk cluster s' p slot := by
  cases slot with
  | down disk => exact DiskOk.frame hf hp h
  | up node => exact ⟨h.1, h.2.frame hg hf hp⟩

/-! ## What terms and votes do not touch -/

theorem committedBy_quiet (hq : Quiet s s') {t : ℕ} {l : List LogEntry} (h : CommittedBy s t l) :
    CommittedBy s' t l := by
  unfold CommittedBy at *
  rwa [hq.leader, hq.committed]

theorem RequestOk.quiet (hq : Quiet s s') {request : AppendEntries} (h : RequestOk s request) :
    RequestOk s' request := by
  obtain ⟨L, h⟩ := h
  exact ⟨L, by rw [hq.leader]; exact h.leader, h.prev_le, h.prevTerm, h.entries, h.commit_le,
    committedBy_quiet hq h.committed, h.probe⟩

theorem LeaderOk.quiet (hq : Quiet s s') {T c : ℕ} {log : List LogEntry} {ids : Fin 2 → ℕ}
    {leader : RaftLeaderReplication} (h : LeaderOk s n T log c ids leader) :
    LeaderOk s' n T log c ids leader where
  selfId := h.selfId
  term := h.term
  stopped := h.stopped
  lead := by
    rw [hq.leader]
    exact h.lead
  ack := by
    rw [hq.ack]
    exact h.ack
  committed_le := by
    rw [hq.committed]
    exact h.committed_le
  id := h.id
  peer i := ⟨(h.peer i).match_lt, (h.peer i).next_le, by rw [hq.ack]; exact (h.peer i).acked,
    fun hr => ⟨((h.peer i).pending hr).1.quiet hq, ((h.peer i).pending hr).2⟩⟩

end DistributedKV
