import DistributedKV.Raft.NodeEntries
import DistributedKV.Raft.NodeReach
import DistributedKV.Server.Steps

/-!
# Every client is answered

What holds of a server between two events, whatever its node is told: a pending write stands for
an entry of the term that the node leads, which is in its log and not yet applied. The clients that
were accepted are exactly those that have been answered and those that wait, each once.
-/

namespace DistributedKV

theorem RaftNodeError.isFatal_eq (e : RaftNodeError) : e.isFatal = e.stops := by
  cases e <;> rfl

namespace Server

variable {server server' : Server} {result : RaftNodeResult} {connection : ℕ} {faults : Faults}
  {c : NodeCall}

/-- What holds of a server before `process`, after the call that led to the result. -/
structure Called (server : Server) (result : RaftNodeResult) : Prop where
  ordered : server.Ordered
  fatal : server.node.stopped = true → ∃ e, result = .error e ∧ e.isFatal = true
  invariant : server.node.stopped = false → server.node.Invariant
  nextReadId : server.node.stopped = false → server.node.nextReadId < 2 ^ 64
  writes : server.node.stopped = false → ∀ {index pending},
    (index, pending) ∈ server.pendingWrites → server.current pending.term = true →
      server.node.log.entryAt index = some ⟨index, pending.term, pending.command⟩ ∧
        (index ≤ server.node.lastApplied → ∃ actions, result = .ok actions ∧
          index ∈ actions.applied.map AppliedLogEntry.index)
  reads : server.node.stopped = false → ∀ {id pending}, (id, pending) ∈ server.pendingReads →
    server.node.nextReadId = 0 ∨ id < server.node.nextReadId

/-- **What holds of a server between two events.** -/
structure Invariant (server : Server) : Prop where
  ordered : server.Ordered
  stopped : server.node.stopped = true → server.pendingWrites = [] ∧ server.pendingReads = []
  invariant : server.node.stopped = false → server.node.Invariant
  nextReadId : server.node.stopped = false → server.node.nextReadId < 2 ^ 64
  writes : ∀ {index pending}, (index, pending) ∈ server.pendingWrites →
    server.current pending.term = true ∧ server.node.lastApplied < index ∧
      server.node.log.entryAt index = some ⟨index, pending.term, pending.command⟩
  reads : ∀ {id pending}, (id, pending) ∈ server.pendingReads →
    server.current pending.term = true ∧
      (server.node.nextReadId = 0 ∨ id < server.node.nextReadId)

/-- The invariant depends on the node and the pending requests. -/
theorem Invariant.of_eq (h : server.Invariant) (hn : server'.node = server.node)
    (hw : server'.pendingWrites = server.pendingWrites)
    (hr : server'.pendingReads = server.pendingReads) : server'.Invariant where
  ordered := ⟨hw ▸ h.ordered.writes, hr ▸ h.ordered.reads⟩
  stopped hs := by
    rw [hw, hr]
    exact h.stopped (hn ▸ hs)
  invariant := hn ▸ h.invariant
  nextReadId := hn ▸ h.nextReadId
  writes hp := by
    rw [current, hn]
    exact h.writes (hw ▸ hp)
  reads hp := by
    rw [current, hn]
    exact h.reads (hr ▸ hp)

theorem Called.of_eq (h : server.Called result) (hn : server'.node = server.node)
    (hw : server'.pendingWrites = server.pendingWrites)
    (hr : server'.pendingReads = server.pendingReads) : server'.Called result where
  ordered := ⟨hw ▸ h.ordered.writes, hr ▸ h.ordered.reads⟩
  fatal := hn ▸ h.fatal
  invariant := hn ▸ h.invariant
  nextReadId := hn ▸ h.nextReadId
  writes hs _ _ hp := by
    rw [current, hn]
    exact h.writes (hn ▸ hs) (hw ▸ hp)
  reads hs _ _ hp := by
    rw [hn]
    exact h.reads (hn ▸ hs) (hr ▸ hp)

/-- **`process` restores the invariant.** -/
theorem Called.process (h : server.Called result) (repliedTo : Option AppendEntries) :
    (server.process result repliedTo).Invariant := by
  have hd := process_drains server result repliedTo
  have hleft := process_remaining server result repliedTo
  -- a stopped node leaves nothing pending
  have hempty : server.node.stopped = true → (server.process result repliedTo).pendingWrites = [] ∧
      (server.process result repliedTo).pendingReads = [] := fun hs => by
    obtain ⟨e, he, hf⟩ := h.fatal hs
    exact hleft.fatal e he hf
  refine ⟨hd.ordered h.ordered, hd.node ▸ hempty, hd.node ▸ h.invariant, hd.node ▸ h.nextReadId,
    fun {index pending} hp => ?_, fun {id pending} hp => ?_⟩
  · have hs : server.node.stopped = false := by
      by_contra hs
      simp [(hempty (by simpa using hs)).1] at hp
    obtain ⟨hcur, happlied⟩ := hleft.writes _ hp
    obtain ⟨hentry, hnew⟩ := h.writes hs (hd.writes _ hp) hcur
    rw [current, hd.node]
    refine ⟨hcur, not_le.1 fun hle => ?_, hentry⟩
    obtain ⟨actions, hr, hi⟩ := hnew hle
    exact happlied actions hr hi
  · have hs : server.node.stopped = false := by
      by_contra hs
      simp [(hempty (by simpa using hs)).2] at hp
    rw [current, hd.node]
    exact ⟨hleft.reads _ hp, h.reads hs (hd.reads _ hp)⟩

/-! ## A call -/

/-- A call that succeeds is one of a node that runs. -/
theorem running_of_resultOf {actions : RaftNodeActions}
    (ha : server.resultOf faults c = .ok actions) : server.node.stopped = false := by
  have hs : (server.node.withFaults faults).stopped = false := RaftNode.running_of_ok ha
  exact hs

/-- **What a call does to a server.** -/
theorem Invariant.called (h : server.Invariant) (faults : Faults) (c : NodeCall) :
    (server.called faults c).Called (server.resultOf faults c) := by
  generalize hr : (server.node.withFaults faults).call c = r
  have hnode : (server.called faults c).node = r.1 := by rw [Server.called, hr]
  have hresult : server.resultOf faults c = r.2 := by rw [resultOf, hr]
  have hordered : (server.called faults c).Ordered := ⟨h.ordered.writes, h.ordered.reads⟩
  cases hs : server.node.stopped with
  | true =>
    have hstop : (server.node.withFaults faults).stopped = true := hs
    rw [RaftNode.call_of_stopped hstop] at hr
    have hstopped : (server.called faults c).node.stopped = true := by rw [hnode, ← hr, hstop]
    refine ⟨hordered, fun _ => ⟨.stopped, by rw [hresult, ← hr], rfl⟩, ?_, ?_, ?_, ?_⟩
    all_goals
      intro hs'
      simp [hstopped] at hs'
  | false =>
    have hinv : (server.node.withFaults faults).Invariant := (h.invariant hs).withFaults faults
    have hend := RaftNode.call_log hinv hs c
    have hcont := RaftNode.call_continues hinv hs c
    rw [hr] at hend hcont
    rw [hresult]
    refine ⟨hordered, fun hs' => ?_, fun hs' => ?_, fun hs' => ?_,
      fun hs' index pending hp hcur => ?_,
      fun hs' id pending hp => ?_⟩
    all_goals rw [hnode] at hs'
    · obtain ⟨e, he, hstops⟩ := hend.fails hs'
      exact ⟨e, he, e.isFatal_eq.trans hstops⟩
    · rw [hnode]
      exact (hcont hs').1
    · rw [hnode]
      exact (hend.nextReadId hs' (h.nextReadId hs)).1
    · obtain ⟨hcur₀, happlied, hentry⟩ := h.writes hp
      rw [current, hnode, decide_eq_true_eq] at hcur
      rw [current, decide_eq_true_eq] at hcur₀
      rw [hnode]
      exact hend.entries hinv (hcont hs').1 hs' hcur₀.1 hcur.1 hentry happlied
    · rw [hnode]
      exact (hend.nextReadId hs' (h.nextReadId hs)).2 id (h.reads hp).2

/-! ## New requests -/

/-- The node as it is before a call that it refuses. -/
theorem Invariant.withFaults (h : server.Invariant) (faults : Faults) :
    ({ server with node := server.node.withFaults faults } : Server).Invariant where
  ordered := ⟨h.ordered.writes, h.ordered.reads⟩
  stopped := h.stopped
  invariant hs := (h.invariant hs).withFaults faults
  nextReadId := h.nextReadId
  writes hp := h.writes hp
  reads hp := h.reads hp

/-- The call that a client asks for, if the node refuses it, changes nothing. -/
theorem Refusal.called_eq (h : server.Invariant) {reply : ClientReply}
    (hr : (server.called faults c).Refusal c (server.resultOf faults c) reply) :
    server.called faults c = { server with node := server.node.withFaults faults } := by
  suffices ((server.node.withFaults faults).call c).1 = server.node.withFaults faults by
    rw [Server.called, this]
  cases hs : server.node.stopped with
  | true =>
    have hstop : (server.node.withFaults faults).stopped = true := hs
    rw [RaftNode.call_of_stopped hstop]
  | false =>
    have hinv : (server.node.withFaults faults).Invariant := (h.invariant hs).withFaults faults
    rw [resultOf] at hr
    cases c with
    | propose command =>
      have hend := RaftNode.propose_end hinv hs command
      rw [RaftNode.call] at hr ⊢
      revert hr hend
      generalize (server.node.withFaults faults).propose command = r
      rintro hr (⟨node', e, he, -⟩ | ⟨e, -⟩ | ⟨node', actions, -, -, -, -, -, -, hp, -⟩)
      · cases hr <;> cases he
      · rfl
      · cases hr with
        | unproposed _ h => simp [h] at hp
    | readBarrier =>
      have hend := RaftNode.readBarrier_end hinv hs
      rw [RaftNode.call] at hr ⊢
      revert hr hend
      generalize (server.node.withFaults faults).readBarrier = r
      rintro hr (⟨node', e, he, -⟩ | ⟨e, -⟩ | ⟨node', actions, -, -, -, -, -, -, -, -, hid⟩)
      · cases hr
        cases he
      · rfl
      · cases hr with
        | unstarted h => simp [h] at hid
    | electionTimeout | heartbeatTimeout | requestVote | voteReply | appendEntries | appendReply =>
      cases hr

/-- Where the command of an accepted proposal stands, and that no write is pending there. -/
theorem Invariant.proposed (h : server.Invariant) {command : Command} {actions : RaftNodeActions}
    {index : ℕ} (ha : server.resultOf faults (.propose command) = .ok actions)
    (hi : actions.proposedIndex = some index) :
    index ∉ OrderedMap.keys server.pendingWrites ∧
      (server.called faults (.propose command)).node.stopped = false ∧
      (server.called faults (.propose command)).node.term = server.node.term ∧
      (server.called faults (.propose command)).node.lastApplied < index ∧
      (server.called faults (.propose command)).node.log.entryAt index =
        some ⟨index, server.node.term, command⟩ := by
  generalize hr : (server.node.withFaults faults).call (.propose command) = r
  have hnode : (server.called faults (.propose command)).node = r.1 := by rw [Server.called, hr]
  have hs := running_of_resultOf ha
  rw [resultOf, hr] at ha
  rw [hnode]
  have hinv : (server.node.withFaults faults).Invariant := (h.invariant hs).withFaults faults
  have hend := RaftNode.propose_end hinv hs command
  have hcont := RaftNode.call_continues hinv hs (.propose command)
  rw [RaftNode.call] at hr hcont
  rw [hr] at hend hcont
  obtain ⟨node', result⟩ := r
  obtain rfl : result = .ok actions := ha
  cases hend with
  | proposed _ _ hs' hrole hl hc _ _ hp =>
    obtain rfl := Option.some.inj (hi.symm.trans hp)
    have hlast : (server.node.withFaults faults).lastIndex = server.node.lastIndex := rfl
    rw [hlast] at hl ⊢
    refine ⟨fun hk => ?_, hs', hrole.2.2, ?_, ?_⟩
    · obtain ⟨pending, hp⟩ := OrderedMap.mem_keys_iff.1 hk
      have hentry := (h.writes hp).2.2
      rw [PersistentLog.entryAt_succ, RaftNode.lastIndex, ← PersistentLog.length_log,
        List.getElem?_eq_none le_rfl] at hentry
      cases hentry
    · have hle := hinv.commit_le
      rw [(hcont hs').1.lastApplied, hc]
      exact Nat.lt_succ_of_le hle
    · have hlog : (server.node.withFaults faults).log.log = server.node.log.log := rfl
      rw [PersistentLog.entryAt_succ, hl, hlog, RaftNode.lastIndex, ← PersistentLog.length_log,
        List.getElem?_concat_length]
      rfl

/-- The id of a read that was started, and that no read is pending under it. -/
theorem Invariant.reading (h : server.Invariant) {actions : RaftNodeActions} {id : ℕ}
    (ha : server.resultOf faults .readBarrier = .ok actions)
    (hi : actions.startedReadId = some id) :
    id ∉ OrderedMap.keys server.pendingReads ∧
      ((server.called faults .readBarrier).node.nextReadId = 0 ∨
        id < (server.called faults .readBarrier).node.nextReadId) := by
  generalize hr : (server.node.withFaults faults).call .readBarrier = r
  have hnode : (server.called faults .readBarrier).node = r.1 := by rw [Server.called, hr]
  have hs := running_of_resultOf ha
  rw [resultOf, hr] at ha
  rw [hnode]
  have hend := RaftNode.readBarrier_end ((h.invariant hs).withFaults faults) hs
  rw [RaftNode.call] at hr
  rw [hr] at hend
  obtain ⟨node', result⟩ := r
  obtain rfl : result = .ok actions := ha
  cases hend with
  | reading _ _ _ _ _ _ h0 hn _ _ hid =>
    obtain rfl := Option.some.inj (hi.symm.trans hid)
    have hnext : (server.node.withFaults faults).nextReadId = server.node.nextReadId := rfl
    have hlt := h.nextReadId hs
    rw [hnext] at h0 hn ⊢
    refine ⟨fun hk => ?_, ?_⟩
    · obtain ⟨pending, hp⟩ := OrderedMap.mem_keys_iff.1 hk
      exact (h.reads hp).2.elim h0 (lt_irrefl _)
    · rw [hn]
      omega

theorem Called.addWrite (h : server.Called result) {index : ℕ} {pending : PendingWrite}
    (hlt : server.node.lastApplied < index)
    (hentry : server.node.log.entryAt index = some ⟨index, pending.term, pending.command⟩) :
    (server.addWrite index pending).Called result where
  ordered := ⟨h.ordered.writes.emplace _ _, h.ordered.reads⟩
  fatal := h.fatal
  invariant := h.invariant
  nextReadId := h.nextReadId
  writes hs _ _ hp hcur := by
    rcases OrderedMap.mem_emplace hp with heq | hp
    · obtain ⟨rfl, rfl⟩ := Prod.mk.inj heq
      exact ⟨hentry, fun hle => absurd hle (not_le.2 hlt)⟩
    · exact h.writes hs hp hcur
  reads := h.reads

theorem Called.addRead (h : server.Called result) {id : ℕ} {pending : PendingRead}
    (hid : server.node.nextReadId = 0 ∨ id < server.node.nextReadId) :
    (server.addRead id pending).Called result where
  ordered := ⟨h.ordered.writes, h.ordered.reads.emplace _ _⟩
  fatal := h.fatal
  invariant := h.invariant
  nextReadId := h.nextReadId
  writes := h.writes
  reads hs _ _ hp := by
    rcases OrderedMap.mem_emplace hp with heq | hp
    · obtain ⟨rfl, rfl⟩ := Prod.mk.inj heq
      exact hid
    · exact h.reads hs hp

theorem Invariant.join (h : server.Invariant) (index connection : ℕ) :
    (server.join index connection).Invariant := by
  have hw : (server.join index connection).pendingWrites = OrderedMap.modify index
      (fun p => { p with connections := p.connections ++ [connection] }) server.pendingWrites := rfl
  refine ⟨⟨hw ▸ h.ordered.writes.modify _ _, h.ordered.reads⟩, fun hs => ?_, h.invariant,
    h.nextReadId, fun hp => ?_, h.reads⟩
  · obtain ⟨hempty, hr⟩ := h.stopped hs
    exact ⟨by rw [hw, hempty]; rfl, hr⟩
  · obtain ⟨pending', hp', rfl | ⟨-, rfl⟩⟩ := OrderedMap.mem_modify (hw ▸ hp)
    · exact h.writes hp'
    · have hold := h.writes hp'
      exact hold

/-! ## Steps -/

theorem Invariant.of_drained (h : server.Invariant) (hn : server'.node = server.node)
    (hw : server'.pendingWrites = []) (hr : server'.pendingReads = []) : server'.Invariant where
  ordered := ⟨hw ▸ .nil, hr ▸ .nil⟩
  stopped _ := ⟨hw, hr⟩
  invariant := hn ▸ h.invariant
  nextReadId := hn ▸ h.nextReadId
  writes hp := by simp [hw] at hp
  reads hp := by simp [hr] at hp

/-- A server on a node that has just been opened. -/
theorem Invariant.start {selfId : ℕ} {peerIds : Fin 2 → ℕ} {disk : Disk} {node : RaftNode}
    (ho : RaftNode.openFrom selfId peerIds disk = some node) (hinv : node.Invariant) :
    ({ node } : Server).Invariant := by
  refine ⟨⟨.nil, .nil⟩, fun _ => ⟨rfl, rfl⟩, fun _ => hinv, fun _ => ?_, fun hp => ?_,
    fun hp => ?_⟩
  · obtain rfl := RaftNode.openFrom_eq ho
    norm_num
  · cases hp
  · cases hp

/-- **Every step keeps the invariant.** -/
theorem StepEnd.invariant {event : Event} (h : server.Invariant)
    (hend : StepEnd server connection faults event server') : server'.Invariant := by
  cases hend with
  | quiet _ hsame => exact h.of_eq hsame.node hsame.pendingWrites hsame.pendingReads
  | performed _ _ _ hsame =>
    exact ((h.called faults _).process _).of_eq hsame.node hsame.pendingWrites
      hsame.pendingReads
  | drained => exact h.of_drained rfl rfl rfl
  | answered => exact h.of_eq rfl rfl rfl
  | joined => exact h.join _ _
  | refused _ hr =>
    rw [hr.called_eq h]
    exact (h.withFaults faults).of_eq rfl rfl rfl
  | @failed _ c e reply _ he =>
    have hcalled := h.called faults c
    rw [he] at hcalled
    have hreply : ((server.called faults c).reply connection reply).Called (.error e) :=
      hcalled.of_eq rfl rfl rfl
    exact hreply.process none
  | @proposed _ command _ _ _ ha hi =>
    obtain ⟨-, -, -, hlt, hentry⟩ := h.proposed ha hi
    have hcalled := h.called faults (.propose command)
    rw [ha] at hcalled
    exact (hcalled.addWrite hlt hentry).process none
  | reading _ _ ha hi =>
    have hcalled := h.called faults .readBarrier
    rw [ha] at hcalled
    exact (hcalled.addRead (h.reading ha hi).2).process none

/-! ## Accounts -/

theorem SameRequests.accounted (h : SameRequests server server') :
    server'.accounted = server.accounted := by
  rw [Server.accounted, Server.accounted, waiting, waiting, h.pendingWrites, h.pendingReads,
    h.replies]

theorem accounted_reply (server : Server) (connection : ℕ) (reply : ClientReply) :
    (server.reply connection reply).accounted.Perm (connection :: server.accounted) := by
  refine List.perm_iff_count.2 fun c => ?_
  simp only [accounted, waiting, Server.reply, List.map_append, List.map_cons, List.map_nil,
    List.count_append, List.count_cons, List.count_nil]
  omega

theorem accounted_addWrite {index : ℕ} (h : index ∉ OrderedMap.keys server.pendingWrites)
    (term : ℕ) (command : Command) :
    (server.addWrite index ⟨[connection], term, command⟩).accounted.Perm
      (connection :: server.accounted) := by
  have hperm := (OrderedMap.perm_emplace h ⟨[connection], term, command⟩).flatMap_right
    fun p => p.2.connections
  refine List.perm_iff_count.2 fun c => ?_
  have hcount := hperm.count_eq c
  simp only [accounted, waiting, addWrite, List.flatMap_cons, List.count_append, List.count_cons,
    List.count_nil] at hcount ⊢
  omega

theorem accounted_addRead {id : ℕ} (h : id ∉ OrderedMap.keys server.pendingReads) (term : ℕ)
    (key : Bytes) :
    (server.addRead id ⟨connection, term, key⟩).accounted.Perm
      (connection :: server.accounted) := by
  have hperm := (OrderedMap.perm_emplace h ⟨connection, term, key⟩).map fun p => p.2.connection
  refine List.perm_iff_count.2 fun c => ?_
  have hcount := hperm.count_eq c
  simp only [accounted, waiting, addRead, List.map_cons, List.count_append,
    List.count_cons] at hcount ⊢
  omega

theorem accounted_join (h : server.Ordered) {index : ℕ} {pending : PendingWrite}
    (hp : (index, pending) ∈ server.pendingWrites) :
    (server.join index connection).accounted.Perm (connection :: server.accounted) := by
  have hold := (h.writes.perm_erase (h.writes.find_eq_some_iff.2 hp)).flatMap_right
    fun p => p.2.connections
  have hnew := (h.writes.perm_modify hp fun p =>
    { p with connections := p.connections ++ [connection] }).flatMap_right fun p => p.2.connections
  refine List.perm_iff_count.2 fun c => ?_
  have hcount := hold.count_eq c
  have hcount' := hnew.count_eq c
  simp only [accounted, waiting, Server.join, List.flatMap_cons, List.count_append,
    List.count_cons, List.count_nil] at hcount hcount' ⊢
  omega

/-- **Every step accounts for its clients**: the client whose frame it accepts is answered or
waits, and the others still do. -/
theorem StepEnd.accounted {event : Event} (h : server.Invariant)
    (hend : StepEnd server connection faults event server') :
    server'.accounted.Perm
      ((event.client.toList.map fun _ => connection) ++ server.accounted) := by
  -- a client's frame accepts one client
  have hclient : ∀ {bytes : Bytes}, bytes[1]? = some 5 ∨ bytes[1]? = some 7 ∨ bytes[1]? = some 9 →
      ((Event.accept (some bytes)).client.toList.map fun _ => connection) = [connection] := by
    intro bytes hb
    rw [Event.client, if_pos hb]
    rfl
  have hasks : ∀ {bytes : Bytes} {c : NodeCall}, server.Asks bytes c →
      ((Event.accept (some bytes)).client.toList.map fun _ => connection) = [connection] := by
    intro bytes c hc
    cases hc with
    | write hb => exact hclient (Or.inl hb)
    | read hb => exact hclient (Or.inr (Or.inl hb))
  have hcalled : ∀ {c : NodeCall}, (server.called faults c).Ordered := ⟨h.ordered.writes,
    h.ordered.reads⟩
  cases hend with
  | quiet hnone hsame =>
    rw [hnone, hsame.accounted]
    exact .refl _
  | performed hnone _ _ hsame =>
    rw [hnone, hsame.accounted]
    exact (process_drains _ _ _).accounted hcalled
  | drained hnone =>
    rw [hnone]
    have hd : Drains (.ok {}) server server.failPending := failPending_drains server
    exact hd.accounted h.ordered
  | answered himm =>
    rw [himm.client]
    exact accounted_reply _ _ _
  | joined hb _ _ hp =>
    rw [hclient (Or.inl hb)]
    exact accounted_join h.ordered hp
  | refused hc hr =>
    rw [hasks hc]
    exact accounted_reply _ _ _
  | @failed _ c e reply hc =>
    rw [hasks hc]
    have hordered : ((server.called faults c).reply connection reply).Ordered :=
      ⟨h.ordered.writes, h.ordered.reads⟩
    exact ((process_drains _ _ _).accounted hordered).trans (accounted_reply _ _ _)
  | @proposed _ command _ index hc ha hi =>
    rw [hasks hc]
    have hordered : ((server.called faults (.propose command)).addWrite index
        ⟨[connection], server.node.term, command⟩).Ordered :=
      ⟨h.ordered.writes.emplace _ _, h.ordered.reads⟩
    exact ((process_drains _ _ _).accounted hordered).trans
      (accounted_addWrite (h.proposed ha hi).1 _ _)
  | @reading _ key _ id hc _ ha hi =>
    rw [hasks hc]
    have hordered : ((server.called faults .readBarrier).addRead id
        ⟨connection, server.node.term, key⟩).Ordered :=
      ⟨h.ordered.writes, h.ordered.reads.emplace _ _⟩
    exact ((process_drains _ _ _).accounted hordered).trans
      (accounted_addRead (h.reading ha hi).1 _ _)

end Server

end DistributedKV
