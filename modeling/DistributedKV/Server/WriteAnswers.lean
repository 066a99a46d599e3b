import DistributedKV.Server.Answering

/-!
# What a client is told about a write

The replies to writes, by what they are based on: the request as it came, a refusal of the node, or
the entry that a client waits for. And which clients wait for which entry after a step.
-/

namespace DistributedKV

/-- What is reported as applied is committed. -/
theorem RaftNode.LogEnd.applied_le {node : RaftNode} {c : NodeCall} {r : RaftNode × RaftNodeResult}
    (h : RaftNode.LogEnd node c r) {actions : RaftNodeActions} (hr : r.2 = .ok actions) {index : ℕ}
    (hi : index ∈ actions.applied.map AppliedLogEntry.index) :
    r.1.stopped = false ∧ index ≤ r.1.commitIndex := by
  cases h with
  | stopped | refused => cases hr
  | ok node' actions' hs hl hc hn ha =>
    obtain rfl := Except.ok.inj hr
    rw [ha, newlyCommitted, List.mem_range'_1] at hi
    refine ⟨hs, ?_⟩
    dsimp only
    omega
  | proposed node' actions' command hcall hs hrole hl hc hn ha =>
    obtain rfl := Except.ok.inj hr
    simp [ha] at hi
  | reading node' actions' hcall hs hrole hl hc h0 hn ha =>
    obtain rfl := Except.ok.inj hr
    simp [ha] at hi

namespace Server

variable {server server' : Server} {connection k : ℕ} {faults : Faults} {event : Event}
  {reply : ClientWriteReply}

/-! ## Replies -/

/-- What a reply to a write that a step sends is based on. -/
inductive WriteAnswer (server : Server) (connection : ℕ) (faults : Faults) (event : Event)
    (server' : Server) : ℕ → ClientWriteReply → Prop
  | immediate {bytes : Bytes} {reply : ClientWriteReply} (he : event = .accept (some bytes))
      (h : server.Immediate bytes (.write reply)) (hn : server'.node = server.node)
      (hw : server'.pendingWrites = server.pendingWrites) :
      WriteAnswer server connection faults event server' connection reply
  | refused {bytes : Bytes} {command : Command} {reply : ClientWriteReply}
      (he : event = .accept (some bytes)) (hc : server.Asks bytes (.propose command))
      (h : reply.status ≠ .invalidRequest) (hc' : reply.status ≠ .committed)
      (hn : server'.node = server.node.withFaults faults)
      (hw : server'.pendingWrites = server.pendingWrites) :
      WriteAnswer server connection faults event server' connection reply
  | unknown {k : ℕ} {reply : ClientWriteReply}
      (h : reply.status = .outcomeUnknown ∨ reply.status = .internalError) :
      WriteAnswer server connection faults event server' k reply
  | applied {k index : ℕ} {pending : PendingWrite} (hp : (index, pending) ∈ server.pendingWrites)
      (hk : k ∈ pending.connections) (hs : server'.node.stopped = false)
      (hi : index ≤ server'.node.lastApplied)
      (he : server'.node.log.entryAt index = some ⟨index, pending.term, pending.command⟩) :
      WriteAnswer server connection faults event server' k
        (server'.requestReply (server'.prior pending.command) pending.command)

/-- What a reply is based on depends on the node and the pending writes. -/
theorem WriteAnswer.of_eq {server'' : Server}
    (h : WriteAnswer server connection faults event server' k reply)
    (hn : server''.node = server'.node) (hw : server''.pendingWrites = server'.pendingWrites) :
    WriteAnswer server connection faults event server'' k reply := by
  cases h with
  | immediate he h hn' hw' => exact .immediate he h (hn.trans hn') (hw.trans hw')
  | refused he hc h hc' hn' hw' => exact .refused he hc h hc' (hn.trans hn') (hw.trans hw')
  | unknown h => exact .unknown h
  | applied hp hk hs hi he =>
    simp only [requestReply, prior, ← hn]
    exact .applied hp hk (hn ▸ hs) (hn ▸ hi) (hn ▸ he)

/-- The replies to writes among the answers to pending requests. -/
theorem Drains.writeReply {result : RaftNodeResult} (h : Drains result server server')
    (hr : (k, .write reply) ∈ server'.replies) :
    (k, .write reply) ∈ server.replies ∨ reply.status = .outcomeUnknown ∨
      ∃ index pending actions, (index, pending) ∈ server.pendingWrites ∧
        k ∈ pending.connections ∧ server.current pending.term = true ∧ result = .ok actions ∧
        index ∈ actions.applied.map AppliedLogEntry.index ∧
        reply = server.requestReply (server.prior pending.command) pending.command := by
  obtain ⟨new, hnew, hanswer⟩ := h.replies
  rw [hnew, List.mem_append] at hr
  refine hr.imp_right fun hr => ?_
  have hx := hanswer _ hr
  revert hx
  generalize hpair : (k, ClientReply.write reply) = pair
  rintro (⟨hp, hc⟩ | ⟨hp, hc, ht, hres, hi⟩ | ⟨hp, hs, term⟩ | ⟨hp, ht, hres, hx⟩)
  · obtain ⟨rfl, hreply⟩ := Prod.mk.inj hpair
    rw [ClientReply.write.inj hreply]
    exact Or.inl rfl
  · obtain ⟨rfl, hreply⟩ := Prod.mk.inj hpair
    exact Or.inr ⟨_, _, _, hp, hc, ht, hres, hi, ClientReply.write.inj hreply⟩
  · cases (Prod.mk.inj hpair).2
  · cases (Prod.mk.inj hpair).2

/-- A reply that `process` bases on an entry, after a call of the node. -/
theorem Called.writeAnswer {result : RaftNodeResult} {repliedTo : Option AppendEntries}
    (h : server'.Called result)
    (happlied : ∀ actions, result = .ok actions → ∀ index,
      index ∈ actions.applied.map AppliedLogEntry.index →
        server'.node.stopped = false ∧ index ≤ server'.node.lastApplied)
    (hw : ∀ actions, result = .ok actions → actions.applied ≠ [] →
      server'.pendingWrites = server.pendingWrites)
    (hr : (k, .write reply) ∈ (server'.process result repliedTo).replies)
    (hold : (k, .write reply) ∈ server'.replies → reply.status = .internalError) :
    WriteAnswer server connection faults event (server'.process result repliedTo) k reply := by
  rcases (process_drains _ _ _).writeReply hr with
    hr | hs | ⟨index, pending, actions, hp, hk, ht, hres, hi, rfl⟩
  · exact .unknown (Or.inr (hold hr))
  · exact .unknown (Or.inl hs)
  · obtain ⟨hstop, hle⟩ := happlied actions hres index hi
    have hentry := (h.writes hstop hp ht).1
    have hne : actions.applied ≠ [] := fun hnil => by simp [hnil] at hi
    have hnode := node_process server' result repliedTo
    have hanswer : WriteAnswer server connection faults event (server'.process result repliedTo) k
        _ := .applied (hw actions hres hne ▸ hp) hk (hnode.symm ▸ hstop) (hnode.symm ▸ hle)
          (hnode.symm ▸ hentry)
    simpa only [requestReply, prior, hnode] using hanswer

theorem Invariant.applied_le (h : server.Invariant) {c : NodeCall} {actions : RaftNodeActions}
    (ha : server.resultOf faults c = .ok actions) {index : ℕ}
    (hi : index ∈ actions.applied.map AppliedLogEntry.index) :
    (server.called faults c).node.stopped = false ∧
      index ≤ (server.called faults c).node.lastApplied := by
  have hs := running_of_resultOf ha
  have hend := RaftNode.call_log ((h.invariant hs).withFaults faults) hs c
  obtain ⟨hstop, hle⟩ := hend.applied_le ha hi
  exact ⟨hstop, by rwa [((h.called faults c).invariant hstop).lastApplied]⟩

/-- A proposal applies nothing. -/
theorem Invariant.applied_propose (h : server.Invariant) {command : Command}
    {actions : RaftNodeActions} (ha : server.resultOf faults (.propose command) = .ok actions) :
    actions.applied = [] := by
  have hs := running_of_resultOf ha
  have hend := RaftNode.propose_end ((h.invariant hs).withFaults faults) hs command
  rw [resultOf, RaftNode.call] at ha
  revert ha hend
  generalize (server.node.withFaults faults).propose command = r
  rintro ha (⟨node', e, he, hs'⟩ | ⟨e, he⟩ | ⟨node', actions', hs', hr, hl, hc, hn, happ, hp, hid⟩)
  · cases ha
  · cases ha
  · obtain rfl := Except.ok.inj ha
    exact happ

/-- The node does not find fault with a client's command. -/
theorem Invariant.ne_invalidCommand (h : server.Invariant) {bytes : Bytes} {command : Command}
    (hc : server.Asks bytes (.propose command)) :
    server.resultOf faults (.propose command) ≠ .error .invalidCommand := by
  intro hr
  cases hs : server.node.stopped with
  | true =>
    have hstop : (server.node.withFaults faults).stopped = true := hs
    rw [resultOf, RaftNode.call_of_stopped hstop] at hr
    cases hr
  | false =>
    have hend := RaftNode.propose_end ((h.invariant hs).withFaults faults) hs command
    rw [resultOf, RaftNode.call] at hr
    revert hr hend
    generalize (server.node.withFaults faults).propose command = r
    rintro hr (⟨node', e, he, hs'⟩ | ⟨e, he, hinvalid⟩ | ⟨node', actions⟩)
    · obtain rfl := Except.error.inj hr
      cases he
    · cases hc with
      | write hb hd =>
        obtain ⟨htype, -, henc⟩ := encodable_of_decodeClientRequest hd
        rcases hinvalid (Except.error.inj hr) with hnoOp | ⟨hterm, hnot⟩
        · exact htype hnoOp
        · exact hnot (henc (Nat.succ_ne_zero _) hterm)
    · cases hr

/-- **Every reply to a write** that a step sends has its reason. -/
theorem StepEnd.writeAnswer (hinv : server.Invariant) (hnone : server.replies = [])
    (h : StepEnd server connection faults event server')
    (hr : (k, .write reply) ∈ server'.replies) :
    WriteAnswer server connection faults event server' k reply := by
  have hempty : ∀ {x}, x ∉ server.replies := fun hx => by simp [hnone] at hx
  cases h with
  | quiet _ hsame => exact absurd (hsame.replies ▸ hr) hempty
  | @performed _ _ input c _ _ _ hsame =>
    have hcalled := hinv.called faults c
    rw [hsame.replies] at hr
    have hanswer : WriteAnswer server connection faults event _ k reply :=
      hcalled.writeAnswer (fun actions ha index hi => hinv.applied_le ha hi) (fun _ _ _ => rfl) hr
        fun hr => absurd hr hempty
    exact hanswer.of_eq hsame.node hsame.pendingWrites
  | drained =>
    have hdrains : Drains (.error .stopped) server server.failPending := failPending_drains server
    rcases hdrains.writeReply hr with hold | hunknown | ⟨_, _, _, -, -, -, hres, -⟩
    · exact absurd hold hempty
    · exact .unknown (Or.inl hunknown)
    · cases hres
  | answered himm =>
    obtain ⟨rfl, heq⟩ := Prod.mk.inj (eq_of_mem_reply hnone hr)
    exact .immediate rfl (heq ▸ himm) rfl rfl
  | joined => exact absurd hr hempty
  | @refused bytes c _ hc href =>
    obtain ⟨rfl, heq⟩ := Prod.mk.inj (eq_of_mem_reply hnone hr)
    subst heq
    have hcalled := href.called_eq hinv
    generalize hres : server.resultOf faults c = result at href
    have hanswer : ∀ {command : Command}, server.Asks bytes (.propose command) →
        reply.status ≠ .invalidRequest → reply.status ≠ .committed →
        WriteAnswer server k faults (.accept (some bytes))
          ((server.called faults c).reply k (.write reply)) k reply := fun hc h h' => by
      rw [hcalled]
      exact .refused rfl hc h h' rfl rfl
    cases href with
    | notLeaderWrite | unproposed => exact hanswer hc (by simp) (by simp)
    | invalidCommand => exact absurd hres (hinv.ne_invalidCommand hc)
  | @failed bytes c e answer hc he hfail =>
    have hcalled : ((server.called faults c).reply connection answer).Called (.error e) :=
      (he ▸ hinv.called faults c).of_eq rfl rfl rfl
    refine (hcalled.writeAnswer (fun _ h => by cases h) (fun _ h => by cases h) hr fun hr => ?_)
    obtain ⟨-, heq⟩ := Prod.mk.inj (eq_of_mem_reply hnone hr)
    subst heq
    cases hfail
    rfl
  | @proposed bytes command actions index hc ha hi =>
    obtain ⟨-, -, -, hlt, hentry⟩ := hinv.proposed ha hi
    have hnil := hinv.applied_propose ha
    have hcalled := hinv.called faults (.propose command)
    rw [ha] at hcalled
    have hadded : ((server.called faults (.propose command)).addWrite index
        ⟨[connection], server.node.term, command⟩).Called (.ok actions) :=
      hcalled.addWrite hlt hentry
    refine hadded.writeAnswer (fun actions' h index' hi' => ?_) (fun actions' h hne => ?_) hr
      fun hr => absurd hr hempty
    · obtain rfl := Except.ok.inj h
      exact hinv.applied_le ha hi'
    · obtain rfl := Except.ok.inj h
      exact absurd hnil hne
  | @reading bytes key actions id hc hd ha hi =>
    have hcalled := hinv.called faults .readBarrier
    rw [ha] at hcalled
    have hadded : ((server.called faults .readBarrier).addRead id
        ⟨connection, server.node.term, key⟩).Called (.ok actions) :=
      hcalled.addRead (hinv.reading ha hi).2
    refine hadded.writeAnswer (fun actions' h index' hi' => ?_) (fun _ _ _ => rfl) hr
      fun hr => absurd hr hempty
    obtain rfl := Except.ok.inj h
    exact hinv.applied_le ha hi'

/-! ## Waiting clients -/

/-- The client waits for the entry. -/
def Awaits (server : Server) (k : ℕ) (e : LogEntry) : Prop :=
  ∃ index pending, (index, pending) ∈ server.pendingWrites ∧ k ∈ pending.connections ∧
    e = ⟨index, pending.term, pending.command⟩

theorem Awaits.of_subset {e : LogEntry} (h : server'.Awaits k e)
    (hw : ∀ x ∈ server'.pendingWrites, x ∈ server.pendingWrites) : server.Awaits k e := by
  obtain ⟨index, pending, hp, hk, he⟩ := h
  exact ⟨index, pending, hw _ hp, hk, he⟩

theorem Awaits.of_process {result : RaftNodeResult} {repliedTo : Option AppendEntries}
    {e : LogEntry}
    (h : (server.process result repliedTo).Awaits k e) : server.Awaits k e :=
  h.of_subset (process_drains server result repliedTo).writes

/-- The client of a step has come to wait for an entry: its command is the client's, it waits for
no other, and if the disk holds a new entry, it is this one. -/
structure Enters (server : Server) (bytes : Bytes) (server' : Server) (k : ℕ) (e : LogEntry) :
    Prop where
  kind : bytes[1]? = some 5
  decoded : decodeClientRequest bytes = .ok ⟨e.command⟩
  unique : ∀ e', server'.Awaits k e' → server.Awaits k e' ∨ e' = e
  disk : ∀ e' ∈ server'.node.disk.log, e' ∈ server.node.disk.log ∨ e' = e

/-- What an accepted proposal leaves on the disk. -/
theorem Invariant.mem_disk_proposed (h : server.Invariant) {command : Command}
    {actions : RaftNodeActions} {index : ℕ}
    (ha : server.resultOf faults (.propose command) = .ok actions)
    (hi : actions.proposedIndex = some index) {e : LogEntry}
    (he : e ∈ (server.called faults (.propose command)).node.disk.log) :
    e ∈ server.node.disk.log ∨ e = ⟨index, server.node.term, command⟩ := by
  have hs := running_of_resultOf ha
  have hinv := (h.invariant hs).withFaults faults
  have hstop := (h.proposed ha hi).2.1
  have hend := RaftNode.propose_end hinv hs command
  have hdurable := ((h.called faults (.propose command)).invariant hstop).logSynced.durable
  have hbefore : server.node.log.durable = server.node.log.log :=
    (h.invariant hs).logSynced.durable
  rw [RaftNode.disk, hdurable, Server.called, RaftNode.call] at he
  rw [resultOf, RaftNode.call] at ha
  rw [RaftNode.disk, hbefore]
  revert ha he hend
  generalize (server.node.withFaults faults).propose command = r
  rintro ha he (⟨node', e', he', hs'⟩ | ⟨e', he'⟩ |
    ⟨node', actions', hs', hr, hl, hc, hn, happ, hp, hid⟩)
  · cases ha
  · cases ha
  · obtain rfl := Except.ok.inj ha
    obtain rfl := Option.some.inj (hi.symm.trans hp)
    dsimp only at he
    rw [hl] at he
    exact (List.mem_append.1 he).imp id List.mem_singleton.1

/-- **Which client waits for which entry after a step**: it did before, or it is the client of the
step. -/
theorem StepEnd.awaits (hinv : server.Invariant)
    (h : StepEnd server connection faults event server') {e : LogEntry}
    (ha : server'.Awaits k e) : server.Awaits k e ∨
      k = connection ∧ ∃ bytes, event = .accept (some bytes) ∧ server.Enters bytes server' k e := by
  cases h with
  | quiet _ hsame => exact Or.inl (ha.of_subset fun x hx => hsame.pendingWrites ▸ hx)
  | performed _ _ _ hsame =>
    have ha : Awaits (Server.process _ _ _) k e := ha.of_subset fun x hx => hsame.pendingWrites ▸ hx
    exact Or.inl (ha.of_process.of_subset fun x hx => hx)
  | drained =>
    obtain ⟨index, pending, hp, -⟩ := ha
    cases hp
  | answered => exact Or.inl (ha.of_subset fun x hx => hx)
  | @joined bytes index pending hb hd hr hp =>
    -- the entries that the clients of the new server wait for
    have hw : (server.join index connection).pendingWrites = OrderedMap.modify index
        (fun p => { p with connections := p.connections ++ [connection] }) server.pendingWrites :=
      rfl
    have hold : ∀ {e' : LogEntry}, (server.join index connection).Awaits k e' →
        server.Awaits k e' ∨ k = connection ∧ e' = ⟨index, pending.term, pending.command⟩ := by
      rintro e' ⟨index', pending', hp', hk, rfl⟩
      rw [hw] at hp'
      obtain ⟨old, hold, rfl | ⟨rfl, rfl⟩⟩ := OrderedMap.mem_modify hp'
      · exact Or.inl ⟨_, _, hold, hk, rfl⟩
      · obtain rfl := hinv.ordered.writes.unique hp hold
        rcases List.mem_append.1 hk with hk | hk
        · exact Or.inl ⟨_, _, hold, hk, rfl⟩
        · exact Or.inr ⟨List.mem_singleton.1 hk, rfl⟩
    refine (hold ha).imp_right fun ⟨hk, he⟩ => ⟨hk, bytes, rfl, hb, he ▸ hd, fun e' h => ?_,
      fun e' h => Or.inl h⟩
    exact (hold h).imp_right fun h => h.2.trans he.symm
  | refused => exact Or.inl (ha.of_subset fun x hx => hx)
  | failed => exact Or.inl (ha.of_process.of_subset fun x hx => hx)
  | @proposed bytes command actions index hc hok hi =>
    have hold : ∀ {e' : LogEntry}, (((server.called faults (.propose command)).addWrite index
        ⟨[connection], server.node.term, command⟩).process (.ok actions) none).Awaits k e' →
          server.Awaits k e' ∨ k = connection ∧ e' = ⟨index, server.node.term, command⟩ := by
      intro e' ha
      obtain ⟨index', pending', hp', hk, rfl⟩ := ha.of_process
      rcases OrderedMap.mem_emplace hp' with heq | hp'
      · obtain ⟨rfl, rfl⟩ := Prod.mk.inj heq
        exact Or.inr ⟨List.mem_singleton.1 hk, rfl⟩
      · exact Or.inl ⟨_, _, hp', hk, rfl⟩
    refine (hold ha).imp_right fun ⟨hk, he⟩ => ⟨hk, bytes, rfl, ?_⟩
    obtain ⟨hb, hd⟩ : bytes[1]? = some 5 ∧ decodeClientRequest bytes = .ok ⟨command⟩ := by
      cases hc with
      | write hb hd => exact ⟨hb, hd⟩
    refine ⟨hb, he ▸ hd, fun e' h => (hold h).imp_right fun h => h.2.trans he.symm, fun e' h => ?_⟩
    rw [node_process] at h
    exact he ▸ hinv.mem_disk_proposed hok hi h
  | reading => exact Or.inl (ha.of_process.of_subset fun x hx => hx)

end Server

end DistributedKV
