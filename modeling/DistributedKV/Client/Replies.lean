import DistributedKV.Client.Client
import DistributedKV.Cluster.Words
import DistributedKV.Server.Encoding
import DistributedKV.Server.Linearizability

/-!
# The replies that clients are sent

A client gets a reply of the kind that it has asked for, and all numbers in the reply are 64-bit
numbers, so the reply can be encoded and the client decodes what the server has meant
(`Service.Run.replies_readable`).
-/

namespace DistributedKV

open RaftNodeResult

theorem PersistentLog.le_lastIndex_of_entryAt {log : PersistentLog} {index : ℕ} {e : LogEntry}
    (h : log.entryAt index = some e) : index ≤ log.lastIndex := by
  rw [PersistentLog.entryAt_eq] at h
  split_ifs at h
  have hlt := (List.getElem?_eq_some_iff.1 h).1
  rw [PersistentLog.length_log] at hlt
  omega

/-- The second byte of the requests that such a reply answers. -/
def ClientReply.requestKind : ClientReply → UInt8
  | .write _ => 5
  | .read _ => 7
  | .status _ => 9

/-! ## The numbers of a node -/

/-- The numbers that a server takes from its node are 64-bit numbers. -/
structure RaftNode.Figures (node : RaftNode) : Prop where
  term : node.term < 2 ^ 64
  selfId : node.selfId < 2 ^ 64
  peerIds : ∀ a, node.peerIds a < 2 ^ 64
  knownLeader : node.knownLeader.getD 0 < 2 ^ 64
  commitIndex : node.commitIndex < 2 ^ 64
  lastApplied : node.lastApplied < 2 ^ 64
  prior : ∀ {id prior}, node.requestResult id = some prior →
    prior.term < 2 ^ 64 ∧ prior.index < 2 ^ 64
  progress : ∀ {peerId progress}, node.peerProgress peerId = some progress →
    progress.nextIndex < 2 ^ 64 ∧ progress.matchIndex < 2 ^ 64
  lastIndex : node.stopped = false → node.lastIndex < 2 ^ 64

/-- What a leader knows about a peer. -/
theorem NodeOk.progress {cluster : Cluster} {s : Abstract} {n : ℕ} {node : RaftNode}
    (h : NodeOk cluster s n node) {peerId : ℕ} {progress : PeerProgress}
    (hp : node.peerProgress peerId = some progress) :
    progress.matchIndex < progress.nextIndex ∧ progress.nextIndex ≤ node.lastIndex + 1 := by
  rw [RaftNode.peerProgress] at hp
  cases hl : node.leader with
  | none =>
    rw [hl] at hp
    cases hp
  | some leader =>
    rw [hl] at hp
    dsimp only at hp
    split_ifs at hp
    obtain ⟨j, -, rfl⟩ := Option.map_eq_some_iff.1 hp
    have hpeer := ((h.running (h.stopped_of_leader hl)).leader hl).peer j
    have hnext := hpeer.next_le
    rw [PersistentLog.length_log] at hnext
    exact ⟨hpeer.match_lt, hnext⟩

namespace Cluster.Run

variable {cluster : Cluster} {r : cluster.Run} {g : ℕ → Abstract} {i n : ℕ} {node : RaftNode}

/-- A node only names members. -/
theorem Ghost.knownLeader_mem (h : r.Ghost g) (hi : i ≤ r.length)
    (hslot : (r.state i).slots n = .up node) {l : ℕ} (hl : node.knownLeader = some l) :
    l ∈ cluster.members := by
  obtain ⟨j, hj, node', hslot', -⟩ := (h.hintsOk hi).node hslot hl
  exact (h.slot (hj.trans hi) hslot').1

/-- What is committed, and what the log of a running process holds. -/
theorem Ghost.logWords (h : r.Ghost g) (hids : ∀ n ∈ cluster.members, n < 2 ^ 64)
    (hi : i ≤ r.length) (hslot : (r.state i).slots n = .up node) :
    LogWords (node.log.log.take node.commitIndex) ∧
      (node.stopped = false → LogWords node.log.log) := by
  have hsound := (h.refines i hi).sound
  have hterm := h.term_lt hi (h.counted hids i hi).slot
  obtain ⟨-, hok⟩ := h.slot hi hslot
  constructor
  · obtain ⟨t, hnil | ⟨T, c, L, -, hL, hpre⟩⟩ := hok.committed
    · rw [hnil]
      exact ⟨Nat.two_pow_pos 64, fun e he => by cases he⟩
    · have hlt := (hsound.invariant.leader_le hL).trans_lt (hterm c)
      have hwords := hsound.logWords (hsound.invariant.leader_backed hL) fun e he =>
        (hsound.invariant.leader_term hL e he).trans_lt hlt
      have hpre := hpre.trans (List.take_prefix _ L)
      exact ⟨hpre.length_le.trans_lt hwords.length, fun e he => hwords.entries e (hpre.subset he)⟩
  · intro hs
    have hlog : (g i).log n = node.log.log := by
      rw [hok.disk.log, RaftNode.disk]
      exact (hok.running hs).invariant.logSynced.durable
    exact hlog ▸ hsound.logWords (hsound.invariant.log_backed n) fun e he =>
      (hsound.invariant.log_term n e he).trans_lt (hterm n)

end Cluster.Run

namespace Service.Run

variable {r : Run} {i n : ℕ} {server : Server}

/-- **The numbers of every server** are 64-bit numbers. -/
theorem figures (r : Run) (hi : i ≤ r.length) (hslot : (r.state i).slots n = .up server) :
    server.node.Figures := by
  obtain ⟨r', f, ht⟩ := r.exists_trace
  obtain ⟨g, h⟩ := r'.exists_ghost
  have hfi := (ht.shadows i hi).1
  have hup := ht.slot hi hslot
  have hids : ∀ n ∈ serverCluster.members, n < 2 ^ 64 := by decide
  obtain ⟨hn, hok⟩ := h.slot hfi hup
  have hlive := (h.counted hids _ hfi).slot n
  rw [hup] at hlive
  obtain ⟨hcommitted, hrunning⟩ := h.logWords hids hfi hup
  have hlast := r.lastApplied_eq hi hslot
  have hcommit : server.node.commitIndex < 2 ^ 64 := by
    have hle := hok.commit_le
    have hlen := hcommitted.length
    rw [RaftNode.lastIndex] at hle
    rw [List.length_take, PersistentLog.length_log, min_eq_left hle] at hlen
    exact hlen
  refine
    { term := (Machine.Live.words hlive).terms.term_lt
      selfId := hok.selfId ▸ hids n hn
      peerIds := fun a => hok.peerIds ▸ hids _ (serverCluster.peerIds_mem n hn a)
      knownLeader := ?_
      commitIndex := hcommit
      lastApplied := hlast ▸ hcommit
      prior := fun {id prior} hp => ?_
      progress := fun {peerId progress} hp => ?_
      lastIndex := fun hs => ?_ }
  · cases hl : server.node.knownLeader with
    | none => exact Nat.two_pow_pos 64
    | some l => exact hids l (h.knownLeader_mem hfi hup hl)
  · have hfind := (r.applied_executed hi hslot).2 id
    rw [hp, Option.map_some, Server.applied, hlast] at hfind
    have hrange := hcommitted.entries _ (List.mem_of_find?_eq_some hfind.symm)
    exact ⟨hrange.2, hrange.1⟩
  · obtain ⟨hmatch, hnext⟩ := hok.progress hp
    have hs : server.node.stopped = false := by
      rw [RaftNode.peerProgress] at hp
      cases hl : server.node.leader with
      | none => simp [hl] at hp
      | some leader => exact hok.stopped_of_leader hl
    have hlt := length_lt_of_placed fun he => (h.refines _ hfi).sound.placed
      ((h.refines _ hfi).sound.invariant.log_backed n) he
    rw [hok.disk.log, RaftNode.disk, (hok.running hs).invariant.logSynced.durable,
      PersistentLog.length_log, uint64Max] at hlt
    rw [RaftNode.lastIndex] at hnext
    omega
  · have hlen := (hrunning hs).length
    rwa [PersistentLog.length_log] at hlen

end Service.Run

/-! ## The numbers of the replies -/

namespace Server

variable {server server' : Server} {result : RaftNodeResult} {connection : ℕ} {faults : Faults}
  {event : Event}

/-- The numbers of a server's node, of its pending requests and of the replies are 64-bit
numbers. -/
structure Counts (server : Server) : Prop where
  node : server.node.Figures
  writes : ∀ p ∈ server.pendingWrites, p.1 < 2 ^ 64 ∧ p.2.term < 2 ^ 64
  reads : ∀ p ∈ server.pendingReads, p.2.term < 2 ^ 64
  replies : ∀ x ∈ server.replies, x.2.InRange

namespace Counts

/-- What does not concern clients may change. -/
theorem of_eq (h : Counts server) (hn : server'.node = server.node)
    (hw : ∀ p ∈ server'.pendingWrites, p ∈ server.pendingWrites)
    (hr : ∀ p ∈ server'.pendingReads, p ∈ server.pendingReads)
    (hreplies : ∀ x ∈ server'.replies, x ∈ server.replies) : Counts server' :=
  ⟨hn ▸ h.node, fun p hp => h.writes p (hw p hp), fun p hp => h.reads p (hr p hp),
    fun x hx => h.replies x (hreplies x hx)⟩

theorem replyAll (h : Counts server) (replies : List (ℕ × ClientReply))
    (hx : ∀ x ∈ replies, x.2.InRange) : Counts (server.replyAll replies) :=
  ⟨h.node, h.writes, h.reads, fun x hmem => (List.mem_append.1 hmem).elim (h.replies x) (hx x)⟩

theorem reply (h : Counts server) (connection : ℕ) {answer : ClientReply}
    (ha : answer.InRange) : Counts (server.reply connection answer) :=
  h.replyAll [(connection, answer)] fun x hx => by
    obtain rfl := List.mem_singleton.1 hx
    exact ha

theorem inRange_write (h : Counts server) (status : ClientWriteStatus) {hint : ℕ}
    (hhint : hint < 2 ^ 64) :
    (ClientReply.write ⟨status, server.node.term, 0, hint⟩).InRange :=
  ⟨h.node.term, Nat.two_pow_pos 64, hhint⟩

theorem inRange_read (h : Counts server) (status : ClientReadStatus) {hint : ℕ}
    (hhint : hint < 2 ^ 64) :
    (ClientReply.read ⟨status, server.node.term, 0, hint, none⟩).InRange :=
  ⟨h.node.term, Nat.two_pow_pos 64, hhint⟩

theorem unknownOutcomes (h : Counts server) {writes : List (ℕ × PendingWrite)}
    (hw : ∀ p ∈ writes, p ∈ server.pendingWrites) :
    ∀ x ∈ server.unknownOutcomes writes, x.2.InRange := by
  intro x hx
  obtain ⟨p, hp, hx⟩ := List.mem_flatMap.1 hx
  obtain ⟨k, -, rfl⟩ := List.mem_map.1 hx
  obtain ⟨hindex, hterm⟩ := h.writes p (hw p hp)
  exact ⟨hterm, hindex, h.node.knownLeader⟩

theorem requestReply (h : Counts server) (command : Command) :
    (ClientReply.write (server.requestReply (server.prior command) command)).InRange := by
  cases hp : server.prior command with
  | none => exact h.inRange_write _ h.node.selfId
  | some prior =>
    rw [Server.requestReply]
    obtain ⟨id, -, hprior⟩ := Option.bind_eq_some_iff.1 hp
    obtain ⟨hterm, hindex⟩ := h.node.prior hprior
    split_ifs
    · exact ⟨hterm, hindex, h.node.selfId⟩
    · exact h.inRange_write _ h.node.selfId

/-! ### What `process` does -/

theorem failPending (h : Counts server) : Counts server.failPending := by
  have hall := h.replyAll (server.unknownOutcomes server.pendingWrites ++
    server.pendingReads.map fun p => (p.2.connection,
      .read ⟨.internalError, p.2.term, 0, server.leaderHint, none⟩)) fun x hx => by
    rcases List.mem_append.1 hx with hx | hx
    · exact h.unknownOutcomes (fun _ hp => hp) x hx
    · obtain ⟨p, hp, rfl⟩ := List.mem_map.1 hx
      exact ⟨h.reads p hp, Nat.two_pow_pos 64, h.node.knownLeader⟩
  exact hall.of_eq rfl (fun _ hp => by cases hp) (fun _ hp => by cases hp) fun _ hx => hx

theorem fail (h : Counts server) : Counts server.fail :=
  h.failPending.of_eq rfl (fun _ hp => hp) (fun _ hp => hp) fun _ hx => hx

theorem expirePending (h : Counts server) : Counts server.expirePending := by
  have hall := h.replyAll
    (server.unknownOutcomes (server.pendingWrites.filter fun p => !server.current p.2.term) ++
      (server.pendingReads.filter fun p => !server.current p.2.term).map fun p => (p.2.connection,
        .read ⟨.notLeader, server.node.term, 0, server.leaderHint, none⟩)) fun x hx => by
    rcases List.mem_append.1 hx with hx | hx
    · exact h.unknownOutcomes (fun _ hp => List.mem_of_mem_filter hp) x hx
    · obtain ⟨p, -, rfl⟩ := List.mem_map.1 hx
      exact h.inRange_read _ h.node.knownLeader
  exact hall.of_eq rfl (fun _ hp => List.mem_of_mem_filter hp)
    (fun _ hp => List.mem_of_mem_filter hp) fun _ hx => hx

theorem answerWrite (h : Counts server) (entry : AppliedLogEntry) :
    Counts (server.answerWrite entry) := by
  rw [Server.answerWrite]
  split
  · exact h
  · next pending _ =>
    have hall := h.replyAll (pending.answers
      (server.requestReply (server.prior pending.command) pending.command)) fun x hx => by
      obtain ⟨k, -, rfl⟩ := List.mem_map.1 hx
      exact h.requestReply pending.command
    exact hall.of_eq rfl (fun _ hp => (OrderedMap.mem_erase.1 hp).1) (fun _ hp => hp)
      fun _ hx => hx

theorem answerRead (h : Counts server) {ready : ReadyRead} (hready : ready.index < 2 ^ 64) :
    Counts (server.answerRead ready) := by
  rw [Server.answerRead]
  split
  · exact h
  · next pending hp =>
    have hterm := h.reads _ (OrderedMap.mem_of_find hp)
    have hreply : (ClientReply.read (server.readReply pending ready)).InRange :=
      ⟨hterm, hready, h.node.selfId⟩
    exact (h.reply pending.connection hreply).of_eq rfl (fun _ hp => hp)
      (fun _ hp => (OrderedMap.mem_erase.1 hp).1) fun _ hx => hx

theorem sendMessages (h : Counts server) (repliedTo : Option AppendEntries)
    (messages : List OutboundRaftMessage) : Counts (server.sendMessages repliedTo messages) := by
  induction messages generalizing server with
  | nil => exact h
  | cons outbound messages ih =>
    rw [Server.sendMessages]
    split_ifs
    · exact ih h
    · dsimp only
      split
      · exact h.fail
      · exact ih (h.of_eq rfl (fun _ hp => hp) (fun _ hp => hp) fun _ hx => hx)

theorem process (h : Counts server)
    (hready : ∀ actions, result = .ok actions → ∀ x ∈ actions.readyReads, x.index < 2 ^ 64)
    (repliedTo : Option AppendEntries) : Counts (server.process result repliedTo) := by
  have hexp := h.expirePending
  unfold Server.process
  cases result with
  | error e =>
    dsimp only
    split_ifs
    · exact hexp.fail
    · exact hexp
  | ok actions =>
    have hwrites : ∀ {entries : List AppliedLogEntry} {server : Server}, Counts server →
        Counts (entries.foldl Server.answerWrite server) := by
      intro entries
      induction entries with
      | nil => exact id
      | cons entry entries ih => exact fun h => ih (h.answerWrite entry)
    have hreads : ∀ {reads : List ReadyRead} {server : Server},
        (∀ x ∈ reads, x.index < 2 ^ 64) → Counts server →
          Counts (reads.foldl Server.answerRead server) := by
      intro reads
      induction reads with
      | nil => exact fun _ => id
      | cons ready reads ih =>
        exact fun hall h => ih (fun x hx => hall x (List.mem_cons_of_mem _ hx))
          (h.answerRead (hall ready List.mem_cons_self))
    exact (hreads (hready actions rfl) (hwrites hexp)).sendMessages repliedTo _

/-- The status of a server that runs. -/
theorem status (h : Counts server) (hs : server.node.stopped = false) :
    (ClientReply.status server.status).InRange := by
  have hpeer : ∀ a, (server.peerStatus (server.node.peerIds a)).id < 2 ^ 64 ∧
      (server.peerStatus (server.node.peerIds a)).nextIndex < 2 ^ 64 ∧
      (server.peerStatus (server.node.peerIds a)).matchIndex < 2 ^ 64 := fun a => by
    rw [peerStatus]
    split
    · next progress hp => exact ⟨h.node.peerIds a, h.node.progress hp⟩
    · exact ⟨h.node.peerIds a, Nat.two_pow_pos 64, Nat.two_pow_pos 64⟩
  intro v hv
  simp only [ClientStatusReply.numbers, Server.status, List.mem_cons, List.not_mem_nil,
    or_false] at hv
  rcases hv with rfl | rfl | rfl | rfl | rfl | rfl | rfl | rfl | rfl | rfl | rfl | rfl
  · exact h.node.selfId
  · exact h.node.term
  · exact h.node.knownLeader
  · exact h.node.lastIndex hs
  · exact h.node.commitIndex
  · exact h.node.lastApplied
  · exact (hpeer 0).1
  · exact (hpeer 0).2.1
  · exact (hpeer 0).2.2
  · exact (hpeer 1).1
  · exact (hpeer 1).2.1
  · exact (hpeer 1).2.2

/-- The replies that a client gets at once. -/
theorem immediate (h : Counts server) (hs : server.node.stopped = false) {bytes : Bytes}
    {answer : ClientReply} (hi : server.Immediate bytes answer) : answer.InRange := by
  cases hi with
  | malformedWrite => exact h.inRange_write _ (Nat.two_pow_pos 64)
  | notLeaderWrite => exact h.inRange_write _ h.node.knownLeader
  | priorWrite _ _ hp => exact hp ▸ h.requestReply _
  | conflictingWrite | busyWrite => exact h.inRange_write _ h.node.selfId
  | malformedRead => exact h.inRange_read _ (Nat.two_pow_pos 64)
  | notLeaderRead => exact h.inRange_read _ h.node.knownLeader
  | busyRead => exact h.inRange_read _ h.node.selfId
  | malformedStatus =>
    intro v hv
    obtain rfl : v = 0 := by simpa [ClientStatusReply.numbers] using hv
    exact Nat.two_pow_pos 64
  | status => exact h.status hs

end Counts

/-- A server between two events. -/
theorem Invariant.counts (h : server.Invariant) (hn : server.node.Figures)
    (hnone : server.replies = []) : Counts server where
  node := hn
  writes := by
    rintro ⟨index, pending⟩ hp
    obtain ⟨hcurrent, -, he⟩ := h.writes hp
    have hs : server.node.stopped = false := by
      by_contra hs
      rw [(h.stopped (by simpa using hs)).1] at hp
      cases hp
    have hlast := hn.lastIndex hs
    have hle := PersistentLog.le_lastIndex_of_entryAt he
    simp only [current, decide_eq_true_eq] at hcurrent
    exact ⟨hle.trans_lt hlast, hcurrent.2 ▸ hn.term⟩
  reads := by
    rintro ⟨id, pending⟩ hp
    have hcurrent := (h.reads hp).1
    simp only [current, decide_eq_true_eq] at hcurrent
    exact hcurrent.2 ▸ hn.term
  replies x hx := by
    rw [hnone] at hx
    cases hx

/-- **Every reply of a step** holds 64-bit numbers. -/
theorem StepEnd.counts (hinv : server.Invariant) (hn : server.node.Figures)
    (hn' : server'.node.Figures) (hnone : server.replies = [])
    (hs : ∀ bytes, event = .accept (some bytes) → server.node.stopped = false)
    (hready : ∀ c actions, server.resultOf faults c = .ok actions → ∀ x ∈ actions.readyReads,
      x.index ≤ (server.called faults c).node.lastApplied)
    (h : StepEnd server connection faults event server') : Counts server' := by
  have hcounts := hinv.counts hn hnone
  have hcalled : ∀ c, (server.called faults c).node.Figures → Counts (server.called faults c) :=
    fun c hc => ⟨hc, hcounts.writes, hcounts.reads, hcounts.replies⟩
  have hindex : ∀ c actions, (server.called faults c).node.Figures →
      server.resultOf faults c = .ok actions → ∀ x ∈ actions.readyReads, x.index < 2 ^ 64 :=
    fun c actions hc ha x hx => (hready c actions ha x hx).trans_lt hc.lastApplied
  cases h with
  | quiet _ hsame =>
    exact hcounts.of_eq hsame.node (fun p hp => hsame.pendingWrites ▸ hp)
      (fun p hp => hsame.pendingReads ▸ hp) fun x hx => hsame.replies ▸ hx
  | @performed _ _ input c _ _ _ hsame =>
    have hc : (server.called faults c).node.Figures := by
      rw [← node_process (server.called faults c) (server.resultOf faults c) input.repliedTo,
        ← hsame.node]
      exact hn'
    refine ((hcalled c hc).process (fun actions ha => hindex c actions hc ha) input.repliedTo).of_eq
      hsame.node (fun p hp => hsame.pendingWrites ▸ hp)
      (fun p hp => hsame.pendingReads ▸ hp) fun x hx => hsame.replies ▸ hx
  | drained =>
    exact hcounts.failPending.of_eq rfl (fun _ hp => hp) (fun _ hp => hp) fun _ hx => hx
  | answered himm => exact hcounts.reply _ (hcounts.immediate (hs _ rfl) himm)
  | @joined bytes index pending hb hd hr hp =>
    refine ⟨hn, fun (index', pending') hmem => ?_, hcounts.reads, hcounts.replies⟩
    change (index', pending') ∈ OrderedMap.modify index
      (fun p => { p with connections := p.connections ++ [connection] })
      server.pendingWrites at hmem
    obtain ⟨old, hold, heq⟩ := OrderedMap.mem_modify hmem
    obtain ⟨hindex, hterm⟩ := hcounts.writes _ hold
    rcases heq with rfl | ⟨-, rfl⟩ <;> exact ⟨hindex, hterm⟩
  | @refused bytes c answer hc href =>
    have hcall := hcalled c hn'
    refine hcall.reply _ ?_
    generalize server.resultOf faults c = result at href
    cases href with
    | notLeaderWrite | invalidCommand | unproposed => exact hcall.inRange_write _ hn'.knownLeader
    | notLeaderRead | unstarted => exact hcall.inRange_read _ hn'.knownLeader
  | @failed bytes c e answer hc he hfail =>
    rw [node_process] at hn'
    have hcall := hcalled c hn'
    refine Counts.process (hcall.reply _ ?_) (fun _ ha => by cases ha) none
    cases hfail with
    | write => exact hcall.inRange_write _ hn'.knownLeader
    | read => exact hcall.inRange_read _ hn'.knownLeader
  | @proposed bytes command actions index hc ha hi =>
    rw [node_process] at hn'
    have hcall := hcalled (.propose command) hn'
    obtain ⟨-, hstop, -, -, hentry⟩ := hinv.proposed ha hi
    have hlast := (PersistentLog.le_lastIndex_of_entryAt hentry).trans_lt (hn'.lastIndex hstop)
    refine Counts.process ⟨hn', fun p hp => ?_, hcall.reads, hcall.replies⟩
      (fun actions' ha' => hindex _ _ hn' (ha' ▸ ha)) none
    rcases OrderedMap.mem_emplace hp with rfl | hold
    · exact ⟨hlast, hn.term⟩
    · exact hcall.writes p hold
  | @reading bytes key actions id hc hd ha hi =>
    rw [node_process] at hn'
    have hcall := hcalled .readBarrier hn'
    refine Counts.process ⟨hn', hcall.writes, fun p hp => ?_, hcall.replies⟩
      (fun actions' ha' => hindex _ _ hn' (ha' ▸ ha)) none
    rcases OrderedMap.mem_emplace hp with rfl | hold
    · exact hn.term
    · exact hcall.reads p hold

/-! ## The kinds of the replies -/

/-- The client waits for a reply of this kind. -/
def Expects (server : Server) (k : ℕ) : ClientReply → Prop
  | .write _ => ∃ e, server.Awaits k e
  | .read _ => ∃ id pending, (id, pending) ∈ server.pendingReads ∧ pending.connection = k
  | .status _ => False

/-- The client of the event has sent a request of the reply's kind. -/
def Requests (connection : ℕ) (event : Event) (k : ℕ) (reply : ClientReply) : Prop :=
  k = connection ∧ ∃ bytes, event = .accept (some bytes) ∧ bytes[1]? = some reply.requestKind

variable {k : ℕ} {reply : ClientReply}

theorem Drains.expects (h : Drains result server server') (hr : (k, reply) ∈ server'.replies) :
    (k, reply) ∈ server.replies ∨ server.Expects k reply := by
  obtain ⟨new, hnew, hanswer⟩ := h.replies
  rw [hnew, List.mem_append] at hr
  refine hr.imp_right fun hr => ?_
  have hx := hanswer _ hr
  revert hx
  generalize hpair : (k, reply) = pair
  rintro (⟨hp, hc⟩ | ⟨hp, hc, ht, hres, hi⟩ | ⟨hp, hs, term⟩ | ⟨hp, ht, hres, hx⟩)
  all_goals obtain ⟨rfl, rfl⟩ := Prod.mk.inj hpair
  · exact ⟨_, _, _, hp, hc, rfl⟩
  · exact ⟨_, _, _, hp, hc, rfl⟩
  · exact ⟨_, _, hp, rfl⟩
  · exact ⟨_, _, hp, rfl⟩

/-- **Every reply of a step** is of the kind that its client has asked for. -/
theorem StepEnd.expects (hnone : server.replies = [])
    (h : StepEnd server connection faults event server') (hr : (k, reply) ∈ server'.replies) :
    server.Expects k reply ∨ Requests connection event k reply := by
  have hempty : ∀ {x}, x ∉ server.replies := fun hx => by simp [hnone] at hx
  have hasked : ∀ {bytes : Bytes} {c : NodeCall}, server.Asks bytes c →
      (∀ command, c = .propose command → bytes[1]? = some 5) ∧
        (c = .readBarrier → bytes[1]? = some 7) := fun hc => by
    cases hc with
    | write hb => exact ⟨fun _ _ => hb, nofun⟩
    | read hb => exact ⟨nofun, fun _ => hb⟩
  cases h with
  | quiet _ hsame => exact absurd (hsame.replies ▸ hr) hempty
  | performed _ _ _ hsame =>
    rw [hsame.replies] at hr
    have hexpects := ((process_drains _ _ _).expects hr).resolve_left hempty
    refine Or.inl ?_
    cases reply <;> exact hexpects
  | drained =>
    have hdrains : Drains (.error .stopped) server server.failPending := failPending_drains server
    exact Or.inl ((hdrains.expects hr).resolve_left hempty)
  | @answered bytes answer himm =>
    obtain ⟨rfl, rfl⟩ := Prod.mk.inj (eq_of_mem_reply hnone hr)
    exact Or.inr ⟨rfl, bytes, rfl, by cases himm <;> assumption⟩
  | joined => exact absurd hr hempty
  | @refused bytes c answer hc href =>
    obtain ⟨rfl, rfl⟩ := Prod.mk.inj (eq_of_mem_reply hnone hr)
    obtain ⟨hwrite, hread⟩ := hasked hc
    generalize server.resultOf faults c = result at href
    refine Or.inr ⟨rfl, bytes, rfl, ?_⟩
    cases href with
    | notLeaderWrite | invalidCommand | unproposed => exact hwrite _ rfl
    | notLeaderRead | unstarted => exact hread rfl
  | @failed bytes c e answer hc he hfail =>
    obtain ⟨hwrite, hread⟩ := hasked hc
    rcases (process_drains _ _ _).expects hr with hold | hexpects
    · obtain ⟨rfl, rfl⟩ := Prod.mk.inj (eq_of_mem_reply hnone hold)
      refine Or.inr ⟨rfl, bytes, rfl, ?_⟩
      cases hfail with
      | write => exact hwrite _ rfl
      | read => exact hread rfl
    · refine Or.inl ?_
      cases reply <;> exact hexpects
  | @proposed bytes command actions index hc ha hi =>
    have hexpects := ((process_drains _ _ _).expects hr).resolve_left hempty
    cases reply with
    | write reply =>
      obtain ⟨e, index', pending, hp, hk, rfl⟩ := hexpects
      rcases OrderedMap.mem_emplace hp with heq | hold
      · obtain ⟨rfl, rfl⟩ := Prod.mk.inj heq
        exact Or.inr ⟨List.mem_singleton.1 hk, bytes, rfl, (hasked hc).1 _ rfl⟩
      · exact Or.inl ⟨_, _, _, hold, hk, rfl⟩
    | read reply => exact Or.inl hexpects
    | status reply => exact Or.inl hexpects
  | @reading bytes key actions id hc hd ha hi =>
    have hexpects := ((process_drains _ _ _).expects hr).resolve_left hempty
    cases reply with
    | write reply => exact Or.inl hexpects
    | read reply =>
      obtain ⟨id', pending, hp, rfl⟩ := hexpects
      rcases OrderedMap.mem_emplace hp with heq | hold
      · obtain ⟨rfl, rfl⟩ := Prod.mk.inj heq
        exact Or.inr ⟨rfl, bytes, rfl, (hasked hc).2 rfl⟩
      · exact Or.inl ⟨_, _, hold, rfl⟩
    | status reply => exact Or.inl hexpects

end Server

namespace Service.Run

variable {r : Run} {i k : ℕ} {reply : ClientReply} {bytes : Bytes}

/-- **A client can read its reply**: it is of the kind that the client has asked for, it can be
encoded, and its numbers are 64-bit numbers. -/
theorem replies_readable (r : Run) (hi : i ≤ r.length) (hr : (k, reply) ∈ (r.state i).replies)
    (hk : (r.state i).clients[k]? = some bytes) :
    bytes[1]? = some reply.requestKind ∧ reply.InRange ∧ (reply.encode).isOk = true := by
  obtain ⟨m, hm, n, event, faults, server, server', hh, hx⟩ := r.reply_sent hi hr
  refine ⟨?_, ?_, ?_⟩
  · have hclients : (r.state (m + 1)).clients <+: (r.state i).clients := r.clients_mono hm hi
    rcases hh.stepEnd.expects rfl hx with hexpects | ⟨rfl, frame, rfl, hkind⟩
    · cases reply with
      | write reply =>
        obtain ⟨e, ha⟩ := hexpects
        obtain ⟨frame, hframe, hd⟩ := (r.awaits hh.lt.le hh.slot ha).client
        have hsame := Replication.getElem?_of_prefix (r.clients_mono hm.le hi) hframe
        obtain rfl := Option.some.inj (hsame.symm.trans hk)
        exact kind_of_decodeClientRequest hd
      | read reply =>
        obtain ⟨id, pending, hp, rfl⟩ := hexpects
        obtain ⟨s, hs, ⟨event₀, faults₀, before, after, hh₀, hb⟩, -⟩ :=
          r.exists_began hh.lt.le hh.slot hp
        obtain ⟨frame, rfl, hkind, -⟩ := hb.frame
        have hclient : (Server.Event.accept (some frame)).client = some frame := by
          rw [Server.Event.client, if_pos (Or.inr (Or.inl hkind))]
        obtain rfl := hh₀.frame hclient (hs.trans hm) hi (hb.connection ▸ hk)
        exact hkind
      | status reply => exact hexpects.elim
    · have hclient : (Server.Event.accept (some frame)).client = some frame := by
        rw [Server.Event.client, if_pos]
        cases reply <;> simp [hkind, ClientReply.requestKind]
      obtain rfl := hh.frame hclient hm hi hk
      exact hkind
  · obtain ⟨-, s, hok⟩ := r.nodeOk hh.lt.le hh.slot
    have hcounts : Server.Counts server' := by
      refine hh.stepEnd.counts hh.invariant (r.figures hh.lt.le hh.slot :)
        (r.figures hh.lt hh.slot') rfl (fun frame he => ?_) fun c actions ha x hx => ?_
      · subst he
        exact (r.server_invariant hh.lt.le hh.slot).running (Server.running_of_accept hh.step)
      · have hmem : x ∈ readyReads ((server.node.withFaults faults).call c).2 := by
          change server.resultOf faults c = .ok actions at ha
          rw [Server.resultOf] at ha
          rw [ha]
          exact hx
        obtain ⟨-, -, -, -, -, -, -, -, -, -, -, -, -, hle⟩ :=
          ((hok.withFaults faults).callFacts c).ready x hmem
        exact hle
    exact hcounts.replies _ hx
  · have hencodes := hh.replies_encode _ hx
    cases reply <;> exact hencodes

end Service.Run

end DistributedKV
