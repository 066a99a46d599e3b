import DistributedKV.Cluster.Frames
import DistributedKV.Server.ReadAnswers

/-!
# A server can encode what it builds

Commands come from frames of clients and from the console, so they are short, and every message of a
node has a frame (`Service.Run.messages_encode`). The replies to clients are based on what the node
has applied or what a leader knows about its peers, and their encoders accept all of them
(`Service.Run.always_encodes`).
-/

namespace DistributedKV

open RaftNodeResult
open Session (electionAppend commandAppend)

/-- The reply has a frame. -/
def ClientReply.Encodes : ClientReply → Prop
  | .write reply => (encodeClientReply reply).isOk = true
  | .read reply => (encodeClientReadReply reply).isOk = true
  | .status reply => (encodeClientStatusReply reply).isOk = true

/-! ## Commands -/

/-- The command of a write request is short. -/
theorem short_of_decodeClientRequest {bytes : Bytes} {command : Command}
    (h : decodeClientRequest bytes = .ok ⟨command⟩) : command.Short := by
  obtain ⟨-, -, commandBytes, hc, rfl, hlen⟩ :=
    encodeClientRequest_eq_ok_iff.1 (decodeClientRequest_eq_ok_iff.1 h)
  have hframe := length_encodeCommand hc
  rw [Command.frameSize] at hframe
  rw [length_withChecksum, List.length_append] at hlen
  rw [Command.Short]
  dsimp only at hframe
  omega

namespace Server

variable {server server' : Server} {faults : Faults} {event : Event} {connection k : ℕ}

/-- What a server proposes is short. -/
theorem Feeds.short {command : Command} (hconsole : server.consoleLine.length ≤ maxConsoleLine)
    (h : server.Feeds event (.propose command)) : command.Short := by
  cases h with
  | console _ hlen =>
    rw [maxConsoleLine] at hconsole
    rw [Command.Short, maxClientRequestSize]
    omega
  | write _ hd => exact short_of_decodeClientRequest hd

/-! ## Status replies -/

/-- Only a server that runs accepts connections. -/
theorem running_of_accept {frame : Option Bytes}
    (h : server.step connection faults (.accept frame) = some server') : server.running = true := by
  have hret := returned_of_step h
  unfold step at h
  dsimp only [silent] at h
  split_ifs at h with _ hrunning
  exact hrunning

/-- The answers to pending requests tell nobody the status. -/
theorem Drains.statusReply {result : RaftNodeResult} {reply : ClientStatusReply}
    (h : Drains result server server') (hr : (k, .status reply) ∈ server'.replies) :
    (k, .status reply) ∈ server.replies := by
  obtain ⟨new, hnew, hanswer⟩ := h.replies
  rw [hnew, List.mem_append] at hr
  exact hr.resolve_right fun hr => by cases hanswer _ hr

/-- Only a client that asks for the status gets it. -/
theorem StepEnd.statusReply {reply : ClientStatusReply} (hnone : server.replies = [])
    (h : StepEnd server connection faults event server')
    (hr : (k, .status reply) ∈ server'.replies) : (∃ bytes, event = .accept (some bytes)) ∧
      (reply = {} ∨ reply = server.status) := by
  have hempty : ∀ {x}, x ∉ server.replies := fun hx => by simp [hnone] at hx
  cases h with
  | quiet _ hsame => exact absurd (hsame.replies ▸ hr) hempty
  | performed _ _ _ hsame =>
    rw [hsame.replies] at hr
    exact absurd ((process_drains _ _ _).statusReply hr) hempty
  | drained =>
    have hdrains : Drains (.error .stopped) server server.failPending := failPending_drains server
    exact absurd (hdrains.statusReply hr) hempty
  | @answered bytes reply' himm =>
    obtain ⟨rfl, heq⟩ := Prod.mk.inj (eq_of_mem_reply hnone hr)
    subst heq
    refine ⟨⟨bytes, rfl⟩, ?_⟩
    cases himm with
    | malformedStatus => exact Or.inl rfl
    | status => exact Or.inr rfl
  | joined => exact absurd hr hempty
  | @refused bytes c _ hc href =>
    obtain ⟨-, heq⟩ := Prod.mk.inj (eq_of_mem_reply hnone hr)
    subst heq
    generalize server.resultOf faults c = result at href
    cases href
  | @failed bytes c e answer hc he hfail =>
    have hold := (process_drains _ _ _).statusReply hr
    obtain ⟨-, heq⟩ := Prod.mk.inj (eq_of_mem_reply hnone hold)
    subst heq
    cases hfail
  | proposed | reading => exact absurd ((process_drains _ _ _).statusReply hr) hempty

/-- What a node says about a peer. -/
theorem validPeerStatus_peerStatus {s : Abstract} {n : ℕ}
    (h : NodeOk serverCluster s n server.node) (hs : server.node.stopped = false) (a : Fin 2) :
    validPeerStatus server.status (server.peerStatus (server.node.peerIds a)) = true := by
  have hrun := h.running hs
  by_cases hrole : server.node.role = .leader
  · obtain ⟨leader, hl⟩ := Option.isSome_iff_exists.1 (hrun.invariant.exists_leader hrole)
    have hok := hrun.leader hl
    obtain ⟨j, hj⟩ := Option.ne_none_iff_exists'.1 (hok.findPeer (i := a))
    have hmatch := (hok.peer j).match_lt
    have hnext := (hok.peer j).next_le
    rw [PersistentLog.length_log] at hnext
    have hprogress : server.node.peerProgress (server.node.peerIds a) =
        some (leader.peers j).progress := by
      simp only [RaftNode.peerProgress, hl, hrun.invariant.active hl, if_true,
        RaftLeaderReplication.progress, hj, Option.map_some]
    have hlast : server.status.lastIndex = server.node.log.lastIndex := rfl
    rw [validPeerStatus, if_pos (by simp [status, hrole, clientRole]), peerStatus, hprogress, hlast]
    simp only [Bool.and_eq_true, decide_eq_true_eq]
    omega
  · have hl := hrun.invariant.leader_none hrole
    have hprogress : server.node.peerProgress (server.node.peerIds a) = none := by
      simp only [RaftNode.peerProgress, hl]
    have hclient : server.status.role ≠ .leader := by
      change clientRole server.node.role ≠ .leader
      cases hr : server.node.role with
      | leader => exact absurd hr hrole
      | follower | candidate => simp [clientRole]
    rw [validPeerStatus, if_neg hclient, peerStatus, hprogress]
    simp

/-- **The status of a node that runs** is a valid reply. -/
theorem validStatusReply_status {s : Abstract} {n : ℕ} (hn : n ∈ serverCluster.members)
    (h : NodeOk serverCluster s n server.node) (hs : server.node.stopped = false) :
    validStatusReply server.status = true := by
  have hrun := h.running hs
  have hid : server.node.selfId = n := h.selfId
  have hpeer : ∀ a, server.node.peerIds a ∈ serverCluster.members ∧ server.node.peerIds a ≠ n := by
    rw [h.peerIds]
    exact fun a => ⟨serverCluster.peerIds_mem n hn a, serverCluster.peerIds_ne_self n hn a⟩
  have hne : server.node.peerIds 0 ≠ server.node.peerIds 1 := by
    rw [h.peerIds]
    exact serverCluster.peerIds_ne n hn
  have h0 : ∀ p ∈ serverCluster.members, p ≠ 0 := by decide
  have happlied : server.node.lastApplied = server.node.commitIndex := hrun.invariant.lastApplied
  have hcommit : server.node.commitIndex ≤ server.node.lastIndex := h.commit_le
  have hpeerId : ∀ p, (server.peerStatus p).id = p := fun p => by
    rw [peerStatus]
    split <;> rfl
  have hrole : ¬(clientRole server.node.role).byte < ClientNodeRole.follower.byte ∧
      ¬ClientNodeRole.leader.byte < (clientRole server.node.role).byte := by
    cases server.node.role <;> decide
  have hleader : ¬(clientRole server.node.role = .leader ∧ server.leaderHint ≠ n) := by
    rintro ⟨hr, hhint⟩
    have hlead : server.node.role = .leader := by
      cases hr' : server.node.role <;> simp [hr', clientRole] at hr ⊢
    obtain ⟨leader, hl⟩ := Option.isSome_iff_exists.1 (hrun.invariant.exists_leader hlead)
    rw [leaderHint, hrun.invariant.knownLeader hl, hid] at hhint
    exact hhint rfl
  have hstatus : server.status.status = .ok := rfl
  rw [validStatusReply, if_neg (by simp [hstatus]), if_neg, if_neg]
  · rw [Bool.and_eq_true]
    exact ⟨validPeerStatus_peerStatus h hs 0, validPeerStatus_peerStatus h hs 1⟩
  · change ¬(clientRole server.node.role = .leader ∧ server.leaderHint ≠ server.node.selfId)
    rwa [hid]
  · simp only [status, ne_eq, not_true_eq_false, hpeerId, h0 n hn, hrole.1, hrole.2, happlied,
      lt_irrefl, h0 _ (hpeer 0).1, h0 _ (hpeer 1).1, hne, hid, (hpeer 0).2, (hpeer 1).2,
      not_lt.2 hcommit, or_self, not_false_eq_true]

end Server

namespace Service.Run

variable {r : Run} {i n k : ℕ} {server server' : Server} {event : Server.Event} {faults : Faults}
  {input : Input} {c : NodeCall}

theorem short_of_feeds (r : Run) (hi : i ≤ r.length) (hslot : (r.state i).slots n = .up server)
    {command : Command} (hfeeds : server.silent.Feeds event (.propose command)) :
    command.Short := by
  have hconsole : server.silent.consoleLine.length ≤ maxConsoleLine :=
    (r.server_invariant hi hslot).consoleLine
  exact hfeeds.short hconsole

/-- The nodes are given short commands. -/
theorem Traced.short {r' : serverCluster.Run} {f : ℕ → ℕ} (h : r.Traced r' f) :
    r'.Proposes Command.Short :=
  h.proposes fun _ hi _ _ _ _ _ _ hslot hfeeds => r.short_of_feeds (Nat.le_of_lt hi) hslot hfeeds

/-- **Every message of a node has a frame.** -/
theorem messages_encode (r : Run) (hi : i ≤ r.length) (hslot : (r.state i).slots n = .up server)
    (ha : (r.state i).admits n event = true) (faults : Faults)
    (hfeeds : server.silent.Feeds event input) (hc : input.call = some c) :
    ∀ m ∈ messages (server.resultOf faults c), (envelope n input.repliedTo m).Encodes := by
  obtain ⟨r', f, ht⟩ := r.exists_trace
  obtain ⟨hfi, hshadows⟩ := ht.shadows i hi
  -- the run of the nodes with the call at its end
  obtain ⟨hnext, -⟩ := next_call (ht.slot hi hslot) hc (hshadows.admits hslot ha hfeeds) faults
  obtain ⟨r'', hlength, -, hlast, hactions, haction⟩ := r'.exists_extension hfi hnext
  obtain ⟨g, hg⟩ := Cluster.Run.exists_ghost r''
  have hshort : Cluster.Run.Proposes r'' Command.Short := by
    intro j hj p command faults' hh
    rcases Nat.lt_or_eq_of_le (Nat.le_of_lt_succ (hlength ▸ hj)) with hlt | rfl
    · rw [hactions j hlt] at hh
      exact ht.short j (hlt.trans_le hfi) p command faults' hh
    · rw [haction] at hh
      obtain ⟨rfl, rfl, rfl⟩ := (by simpa [Action.handler] using hh : _ ∧ _ ∧ _)
      exact r.short_of_feeds hi hslot hfeeds
  intro m hm
  refine hg.encodes (by decide) hshort hlength.ge ?_
  rw [hlast]
  refine List.mem_append_right _ ?_
  change m ∈ messages ((server.node.withFaults faults).call c).2 at hm
  revert hm
  generalize ((server.node.withFaults faults).call c).2 = result
  intro hm
  cases result with
  | error e => cases hm
  | ok actions => exact List.mem_map_of_mem hm

/-! ## Replies -/

theorem encodes_write {reply : ClientWriteReply}
    (h : reply.status = .committed → reply.index ≠ 0) : (ClientReply.write reply).Encodes :=
  isOk_iff.2 ⟨_, encodeClientReply_eq_ok_iff.2 ⟨fun hr => h hr.1 hr.2, rfl⟩⟩

theorem encodes_read {reply : ClientReadReply} (h : reply.Valid)
    (hlen : (reply.value.getD []).length ≤ maxClientRequestSize) :
    (ClientReply.read reply).Encodes := by
  refine isOk_iff.2 ⟨_, encodeClientReadReply_eq_ok_iff.2 ⟨h, ?_, rfl⟩⟩
  rw [maxClientRequestSize] at hlen
  rw [length_withChecksum, length_replyContent, List.length_append, ByteCodec.length_digits,
    maxClientFrameSize, checksumSize]
  omega

theorem encodes_status {reply : ClientStatusReply} (h : validStatusReply reply = true) :
    (ClientReply.status reply).Encodes :=
  isOk_iff.2 ⟨_, encodeClientStatusReply_eq_ok_iff.2 ⟨h, rfl⟩⟩

theorem batched (r : Run) (hi : i ≤ r.length) (hslot : (r.state i).slots n = .up server) :
    server.node.Batched := by
  obtain ⟨r', f, ht⟩ := r.exists_trace
  exact r'.batched (f i) (ht.shadows i hi).1 (ht.slot hi hslot)

/-- What has been applied is short. -/
theorem applied_short (r : Run) (hi : i ≤ r.length) (hslot : (r.state i).slots n = .up server) :
    ∀ e ∈ server.applied, e.command.Short := by
  obtain ⟨r', f, ht⟩ := r.exists_trace
  obtain ⟨g, h⟩ := r'.exists_ghost
  intro e he
  rw [Server.applied, r.lastApplied_eq hi hslot] at he
  exact h.committed_sourced (Nat.zero_le _) ht.short (ht.shadows i hi).1 (ht.slot hi hslot) e he

/-- What a read finds is short. -/
theorem length_get_le (r : Run) (hi : i ≤ r.length) (hslot : (r.state i).slots n = .up server)
    {key value : Bytes} (h : server.node.get key = some value) :
    value.length ≤ maxClientRequestSize := by
  rw [RaftNode.get, KvStateMachine.get, (r.applied_executed hi hslot).1] at h
  obtain ⟨e, he, rfl⟩ := KvStateMachine.mem_of_dataAfter h
  have hshort := r.applied_short hi hslot e ((KvStateMachine.executed_sublist _).subset he)
  exact (Nat.le_add_left _ _).trans hshort

/-- The index in a `Committed` reply is that of an entry. -/
theorem index_ne_zero_of_committed (r : Run) (hi : i ≤ r.length)
    (hslot : (r.state i).slots n = .up server) {command : Command}
    (h : (server.requestReply (server.prior command) command).status = .committed) :
    (server.requestReply (server.prior command) command).index ≠ 0 := by
  cases hprior : server.prior command with
  | none =>
    rw [hprior] at h
    cases h
  | some prior =>
    rw [hprior] at h
    obtain ⟨id, -, -, hfind⟩ := r.prior_entry hi hslot hprior
    obtain ⟨-, t, hlog⟩ := r.applied_logInvariant hi hslot
    obtain ⟨k, hk⟩ := List.mem_iff_getElem?.1 (List.mem_of_find?_eq_some hfind)
    have hindex := hlog.index hk
    rw [requestReply_committed h] at hindex
    dsimp only at hindex
    omega

theorem Handles.write_encodes (hh : r.Handles i n event faults server server')
    {reply : ClientWriteReply} (hr : (k, .write reply) ∈ server'.replies) :
    (ClientReply.write reply).Encodes := by
  refine encodes_write fun hs => ?_
  cases hh.stepEnd.writeAnswer hh.invariant rfl hr with
  | immediate _ himm =>
    cases himm with
    | malformedWrite | notLeaderWrite | conflictingWrite | busyWrite => cases hs
    | priorWrite _ _ hp =>
      change server.prior _ = _ at hp
      rw [← hp] at hs ⊢
      exact r.index_ne_zero_of_committed hh.lt.le hh.slot hs
  | refused _ _ _ hne => exact absurd hs hne
  | unknown hunknown => rcases hunknown with h | h <;> simp [h] at hs
  | applied => exact r.index_ne_zero_of_committed hh.lt hh.slot' hs

theorem Handles.read_encodes (hh : r.Handles i n event faults server server')
    {reply : ClientReadReply} (hr : (k, .read reply) ∈ server'.replies) :
    (ClientReply.read reply).Encodes := by
  rcases hh.stepEnd.readAnswer rfl (fun c hx => hh.not_ready hx) hr with
    ⟨htells, hvalue⟩ | ⟨c, ready, pending, ha⟩
  · have hstatus : reply.status ≠ .found := fun h => htells (Or.inl h)
    exact encodes_read ⟨by simp [hvalue, hstatus], fun h => htells h.1⟩ (by simp [hvalue])
  · obtain ⟨-, s, hok⟩ := r.nodeOk hh.lt.le hh.slot
    have hbatched := (r.batched hh.lt.le hh.slot).withFaults faults
    have hindex : ready.index ≠ 0 :=
      ((hok.withFaults faults).callFacts c).ready_index_ne_zero hbatched ha.reported
    have hfound : reply.value.isSome = true ↔ reply.status = .found := by
      rw [ha.answer, Server.readReply]
      dsimp only
      split_ifs with h <;> simp [h]
    have hreply : reply.index = ready.index := by
      rw [ha.answer]
      rfl
    refine encodes_read ⟨hfound, fun h => hindex (hreply ▸ h.2)⟩ ?_
    cases hvalue : reply.value with
    | none => exact Nat.zero_le _
    | some value =>
      rw [ha.answer] at hvalue
      exact r.length_get_le hh.lt hh.slot' hvalue

theorem Handles.status_encodes (hh : r.Handles i n event faults server server')
    {reply : ClientStatusReply} (hr : (k, .status reply) ∈ server'.replies) :
    (ClientReply.status reply).Encodes := by
  obtain ⟨⟨bytes, rfl⟩, rfl | rfl⟩ := hh.stepEnd.statusReply rfl hr
  · exact encodes_status (by decide)
  · obtain ⟨hn, s, hok⟩ := r.nodeOk hh.lt.le hh.slot
    have hrunning : server.running = true := Server.running_of_accept hh.step
    exact encodes_status (Server.validStatusReply_status hn hok
      ((r.server_invariant hh.lt.le hh.slot).running hrunning))

/-- **Every reply to a client has a frame.** -/
theorem Handles.replies_encode (hh : r.Handles i n event faults server server') :
    ∀ x ∈ server'.replies, x.2.Encodes := by
  rintro ⟨k, reply | reply | reply⟩ hx
  · exact hh.write_encodes hx
  · exact hh.read_encodes hx
  · exact hh.status_encodes hx

/-- An event that can reach a server may be the next one. -/
theorem exists_handles (r : Run) (hi : i ≤ r.length) (hslot : (r.state i).slots n = .up server)
    (ha : (r.state i).admits n event = true)
    (hstep : server.step (r.state i).clients.length faults event = some server') :
    ∃ r' : Run, r'.Handles i n event faults server server' := by
  have hnext : (r.state i).next (.handle n event faults) = some
      { (r.state i).setSlot n (.up server') with
        sent := (r.state i).sent ++ server'.sent
        clients := (r.state i).clients ++ event.client.toList
        replies := (r.state i).replies ++ server'.replies } := by
    simp [Service.next, hslot, ha, hstep]
  obtain ⟨r', hlength, hstate, hlast, -, haction⟩ := r.exists_extension hi hnext
  refine ⟨r', by omega, haction, ?_, ?_, ?_⟩
  · rw [hstate i le_rfl]
    exact hslot
  · rw [hstate i le_rfl]
    exact hstep
  · rw [hlast]
    exact setSlot_self ..

/-- **A server can encode what it builds.** Whatever event a server meets in a run, every message
in the result of its node has a frame, and so has every reply to a client. So a server that gives
up does so for an error of its node or of the poll, and not for a message. -/
theorem always_encodes (r : Run) (hi : i ≤ r.length) (hslot : (r.state i).slots n = .up server)
    (ha : (r.state i).admits n event = true)
    (hstep : server.step (r.state i).clients.length faults event = some server') :
    (∀ input c, server.silent.Feeds event input → input.call = some c →
      ∀ m ∈ messages (server.resultOf faults c), (envelope n input.repliedTo m).Encodes) ∧
    (∀ x ∈ server'.replies, x.2.Encodes) ∧
    (server'.fatal = true → server.fatal = true ∨ event = .pollFailure ∨
      ∃ input c e, server.silent.Feeds event input ∧ input.call = some c ∧
        server.resultOf faults c = .error e ∧ e.isFatal = true) := by
  have hmessages : ∀ input c, server.silent.Feeds event input → input.call = some c →
      ∀ m ∈ messages (server.resultOf faults c), (envelope n input.repliedTo m).Encodes :=
    fun input c hfeeds hc => r.messages_encode hi hslot ha faults hfeeds hc
  obtain ⟨r', hh⟩ := r.exists_handles hi hslot ha hstep
  refine ⟨hmessages, hh.replies_encode, fun hfatal => ?_⟩
  cases hh.stepEnd.moves with
  | idle _ _ hsame => exact (hsame hfatal).imp_right Or.inl
  | @called input c hfeeds hc hn hs =>
    rcases hs.fatal hfatal with hold | ⟨e, he, hef⟩ | ⟨m, hm, hframe⟩
    · exact Or.inl hold
    · exact Or.inr (Or.inr ⟨input, c, e, hfeeds, hc, he, hef⟩)
    · -- the message would not have a frame
      obtain ⟨-, s, hok⟩ := r'.nodeOk hh.lt hh.slot'
      have hself : (server.silent.called faults c).node.selfId = n := hn ▸ hok.selfId
      rw [Server.frame, hself] at hframe
      exact absurd (hmessages input c hfeeds hc m hm) (Bool.not_eq_true _ ▸ hframe)

/-- The frame of a status request. -/
def statusFrame : Bytes := [2, 9, 10, 51, 200, 217]

theorem decode_statusFrame : decodeClientStatusRequest statusFrame = .ok {} := by
  decide +kernel

set_option maxRecDepth 20000 in
theorem committedRun_leads : (match (committedRun.state 10).slots 1 with
    | .up server => decide (server.returned = false ∧ server.running = true ∧
        server.status.role = .leader)
    | .down _ => false) = true := by
  decide +kernel

/-- The frame of a peer's message. -/
def raftFrame (sender : ℕ) (message : RaftMessage) (repliedTo : Option AppendEntries) : Bytes :=
  (encodeRaftEnvelope ⟨sender, message, repliedTo⟩).toOption.getD []

/-- The server takes the frame, and its node puts out the message in the call. -/
def sendsNow (w : Service) (n : ℕ) (bytes : Bytes) (c : NodeCall) (m : OutboundRaftMessage) :
    Bool :=
  match w.slots n with
  | .up server => (server.step w.clients.length {} (.accept (some bytes))).isSome ∧
      m ∈ messages (server.resultOf {} c)
  | .down _ => false

theorem exists_of_sendsNow {w : Service} {bytes : Bytes} {m : OutboundRaftMessage}
    (h : sendsNow w n bytes c m = true) : ∃ server server', w.slots n = .up server ∧
      server.step w.clients.length {} (.accept (some bytes)) = some server' ∧
        m ∈ messages (server.resultOf {} c) := by
  unfold sendsNow at h
  split at h
  · next server hslot =>
    obtain ⟨hstep, hm⟩ := of_decide_eq_true h
    obtain ⟨server', hstep⟩ := Option.isSome_iff_exists.1 hstep
    exact ⟨server, server', hslot, hstep, hm⟩
  · cases h

set_option maxRecDepth 20000 in
/-- The leader can send the put to the second server, which can answer and echo it, and then the
leader can tell a client about its peers. -/
theorem always_encodes_put :
    (envelope 1 none ⟨2, .appendEntries commandAppend⟩).Encodes ∧
    (envelope 2 (some commandAppend) ⟨1, .appendEntriesReply ⟨1, true⟩⟩).Encodes ∧
    ∃ server, (committedRun.state 10).slots 1 = .up server ∧
      server.status.role = .leader ∧ (ClientReply.status server.status).Encodes := by
  refine ⟨?_, ?_, ?_⟩
  · have hframe : (committedRun.state 7).admits 1 (.accept (some
        (raftFrame 2 (.appendEntriesReply ⟨1, true⟩) (some electionAppend)))) = true ∧
        sendsNow (committedRun.state 7) 1
          (raftFrame 2 (.appendEntriesReply ⟨1, true⟩) (some electionAppend))
          (.appendReply 2 electionAppend ⟨1, true⟩) ⟨2, .appendEntries commandAppend⟩ = true := by
      decide +kernel
    obtain ⟨server, server', hslot, hstep, hm⟩ := exists_of_sendsNow hframe.2
    exact (always_encodes committedRun (i := 7) (by decide) hslot hframe.1 hstep).1 _ _
      (@Server.Feeds.peer _ _ ⟨2, .appendEntriesReply ⟨1, true⟩, some electionAppend⟩
        (by decide +kernel) (by decide +kernel)) rfl _ hm
  · have hframe : (committedRun.state 8).admits 2 (.accept (some
        (raftFrame 1 (.appendEntries commandAppend) none))) = true ∧
        sendsNow (committedRun.state 8) 2 (raftFrame 1 (.appendEntries commandAppend) none)
          (.appendEntries 1 commandAppend) ⟨1, .appendEntriesReply ⟨1, true⟩⟩ = true := by
      decide +kernel
    obtain ⟨server, server', hslot, hstep, hm⟩ := exists_of_sendsNow hframe.2
    exact (always_encodes committedRun (i := 8) (by decide) hslot hframe.1 hstep).1 _ _
      (@Server.Feeds.peer _ _ ⟨1, .appendEntries commandAppend, none⟩ (by decide +kernel)
        (by decide +kernel)) rfl _ hm
  · have hadmits : (committedRun.state 10).admits 1 (.accept (some statusFrame)) = true := by
      decide +kernel
    have hup := committedRun_leads
    cases hslot : (committedRun.state 10).slots 1 with
    | down disk =>
      rw [hslot] at hup
      cases hup
    | up server =>
      rw [hslot] at hup
      obtain ⟨hreturned, hrunning, hrole⟩ := of_decide_eq_true hup
      change server.silent.returned = false at hreturned
      change server.silent.running = true at hrunning
      have hstep : server.step (committedRun.state 10).clients.length {}
          (.accept (some statusFrame)) = some (server.silent.reply
            (committedRun.state 10).clients.length (.status server.silent.status)) := by
        have hkind : statusFrame[1]? = some 9 := rfl
        simp [Server.step, hreturned, hrunning, Server.receiveOne, hkind,
          Server.handleClientStatus, decode_statusFrame]
      have h := always_encodes committedRun (i := 10) le_rfl hslot hadmits hstep
      exact ⟨server, rfl, hrole, h.2.1 _ (List.mem_singleton_self _)⟩

end Service.Run

end DistributedKV
