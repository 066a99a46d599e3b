import DistributedKV.Server.Server

/-!
# Pending requests

`process` moves clients from the pending requests to the replies and does nothing else to them.
The clients that wait and those that have been answered are together the same before and after
(`Drains.accounted`), every reply answers a pending request (`Answer`), and what is still pending
afterwards was accepted in the term that the node leads and has not been applied.
-/

namespace DistributedKV.Server

variable {server server' server'' : Server} {result : RaftNodeResult}

/-- The clients that wait for a reply. -/
def waiting (server : Server) : List ℕ :=
  server.pendingWrites.flatMap (fun p => p.2.connections) ++
    server.pendingReads.map fun p => p.2.connection

/-- The clients that wait, and those that the last event has answered. -/
def accounted (server : Server) : List ℕ := server.replies.map Prod.fst ++ server.waiting

/-- The pending requests stand in key order. -/
structure Ordered (server : Server) : Prop where
  writes : OrderedMap.Sorted server.pendingWrites
  reads : OrderedMap.Sorted server.pendingReads

/-- The replies that `process` may send for the pending requests of a server. -/
inductive Answer (server : Server) (result : RaftNodeResult) : ℕ × ClientReply → Prop
  | unknown {index connection : ℕ} {pending : PendingWrite}
      (hp : (index, pending) ∈ server.pendingWrites) (hc : connection ∈ pending.connections) :
      Answer server result
        (connection, .write ⟨.outcomeUnknown, pending.term, index, server.leaderHint⟩)
  | applied {index connection : ℕ} {pending : PendingWrite}
      (hp : (index, pending) ∈ server.pendingWrites) (hc : connection ∈ pending.connections)
      (ht : server.current pending.term = true) {actions : RaftNodeActions}
      (hr : result = .ok actions) (hi : index ∈ actions.applied.map AppliedLogEntry.index) :
      Answer server result
        (connection, .write (server.requestReply (server.prior pending.command) pending.command))
  | lost {id : ℕ} {pending : PendingRead} (hp : (id, pending) ∈ server.pendingReads)
      {status : ClientReadStatus} (hs : status = .internalError ∨ status = .notLeader) (term : ℕ) :
      Answer server result (pending.connection, .read ⟨status, term, 0, server.leaderHint, none⟩)
  | ready {ready : ReadyRead} {pending : PendingRead}
      (hp : (ready.id, pending) ∈ server.pendingReads)
      (ht : server.current pending.term = true) {actions : RaftNodeActions}
      (hr : result = .ok actions) (hx : ready ∈ actions.readyReads) :
      Answer server result (pending.connection, .read (server.readReply pending ready))

/-- `server'` has answered some of the clients that wait in `server`. -/
structure Drains (result : RaftNodeResult) (server server' : Server) : Prop where
  node : server'.node = server.node
  returned : server'.returned = server.returned
  writes : ∀ x ∈ server'.pendingWrites, x ∈ server.pendingWrites
  reads : ∀ x ∈ server'.pendingReads, x ∈ server.pendingReads
  ordered : server.Ordered → server'.Ordered
  accounted : server.Ordered → server'.accounted.Perm server.accounted
  replies : ∃ new, server'.replies = server.replies ++ new ∧ ∀ x ∈ new, server.Answer result x

/-- What a server answers depends on its node and its pending requests. -/
theorem Answer.of_subset (hn : server'.node = server.node)
    (hw : ∀ x ∈ server'.pendingWrites, x ∈ server.pendingWrites)
    (hr : ∀ x ∈ server'.pendingReads, x ∈ server.pendingReads) {x : ℕ × ClientReply}
    (h : server'.Answer result x) : server.Answer result x := by
  cases h with
  | unknown hp hc =>
    rw [leaderHint, hn]
    exact .unknown (hw _ hp) hc
  | applied hp hc ht hres hi =>
    rw [current, hn] at ht
    simp only [requestReply, prior, hn]
    exact .applied (hw _ hp) hc ht hres hi
  | lost hp hs term =>
    rw [leaderHint, hn]
    exact .lost (hr _ hp) hs term
  | ready hp ht hres hx =>
    rw [current, hn] at ht
    rw [readReply, hn]
    exact .ready (hr _ hp) ht hres hx

theorem Drains.refl (result : RaftNodeResult) (server : Server) : Drains result server server :=
  ⟨rfl, rfl, fun _ h => h, fun _ h => h, fun h => h, fun _ => .refl _, [], by simp, by simp⟩

theorem Drains.trans (h : Drains result server server') (h' : Drains result server' server'') :
    Drains result server server'' where
  node := h'.node.trans h.node
  returned := h'.returned.trans h.returned
  writes x hx := h.writes x (h'.writes x hx)
  reads x hx := h.reads x (h'.reads x hx)
  ordered ho := h'.ordered (h.ordered ho)
  accounted ho := (h'.accounted (h.ordered ho)).trans (h.accounted ho)
  replies := by
    obtain ⟨new, hnew, hanswer⟩ := h.replies
    obtain ⟨new', hnew', hanswer'⟩ := h'.replies
    refine ⟨new ++ new', by rw [hnew', hnew, List.append_assoc], fun x hx => ?_⟩
    rcases List.mem_append.1 hx with hx | hx
    · exact hanswer x hx
    · exact (hanswer' x hx).of_subset h.node h.writes h.reads

/-- What does not concern clients may change. -/
theorem Drains.of_eq (h : Drains result server server') (hn : server''.node = server'.node)
    (hret : server''.returned = server'.returned)
    (hw : server''.pendingWrites = server'.pendingWrites)
    (hr : server''.pendingReads = server'.pendingReads)
    (hreplies : server''.replies = server'.replies) : Drains result server server'' := by
  refine h.trans ⟨hn, hret, fun x hx => hw ▸ hx, fun x hx => hr ▸ hx, fun ho => ?_, fun _ => ?_,
    [], by simp [hreplies], by simp⟩
  · exact ⟨hw ▸ ho.writes, hr ▸ ho.reads⟩
  · rw [Server.accounted, Server.accounted, waiting, waiting, hw, hr, hreplies]

/-! ## Expiry and failure -/

theorem fst_answers (pending : PendingWrite) (reply : ClientWriteReply) :
    (pending.answers reply).map Prod.fst = pending.connections := by
  simp [PendingWrite.answers, Function.comp_def]

theorem fst_unknownOutcomes (server : Server) (writes : List (ℕ × PendingWrite)) :
    (server.unknownOutcomes writes).map Prod.fst = writes.flatMap fun p => p.2.connections := by
  simp [unknownOutcomes, List.map_flatMap, fst_answers]

theorem answer_of_unknownOutcomes {writes : List (ℕ × PendingWrite)}
    (hw : ∀ p ∈ writes, p ∈ server.pendingWrites) {x : ℕ × ClientReply}
    (hx : x ∈ server.unknownOutcomes writes) : server.Answer result x := by
  obtain ⟨⟨index, pending⟩, hp, hx⟩ := List.mem_flatMap.1 hx
  obtain ⟨connection, hc, rfl⟩ := List.mem_map.1 hx
  exact .unknown (hw _ hp) hc

/-- The common part of `expire_pending` and `fail_pending`: the requests of which `keep` does not
hold are answered. -/
theorem Drains.of_filter (keep : ℕ → Bool) {status : ClientReadStatus}
    (hs : status = .internalError ∨ status = .notLeader) (term : PendingRead → ℕ) :
    Drains result server
      { server.replyAll
          (server.unknownOutcomes (server.pendingWrites.filter fun p => !keep p.2.term) ++
            (server.pendingReads.filter fun p => !keep p.2.term).map fun p => (p.2.connection,
              .read ⟨status, term p.2, 0, server.leaderHint, none⟩)) with
        pendingWrites := server.pendingWrites.filter fun p => keep p.2.term
        pendingReads := server.pendingReads.filter fun p => keep p.2.term } where
  node := rfl
  returned := rfl
  writes _ hx := List.mem_of_mem_filter hx
  reads _ hx := List.mem_of_mem_filter hx
  ordered ho := ⟨ho.writes.filter _, ho.reads.filter _⟩
  accounted _ := by
    have hw := (List.filter_append_perm (fun p : ℕ × PendingWrite => keep p.2.term)
      server.pendingWrites).flatMap_right fun p => p.2.connections
    have hr := (List.filter_append_perm (fun p : ℕ × PendingRead => keep p.2.term)
      server.pendingReads).map fun p => p.2.connection
    rw [List.flatMap_append] at hw
    rw [List.map_append] at hr
    simp only [Server.accounted, waiting, replyAll, List.map_append, fst_unknownOutcomes,
      List.map_map, Function.comp_def, List.append_assoc]
    refine List.Perm.append_left _ (List.Perm.trans ?_ (hw.append hr))
    refine List.perm_iff_count.2 fun connection => ?_
    simp only [List.count_append]
    omega
  replies := by
    refine ⟨_, rfl, fun x hx => ?_⟩
    rcases List.mem_append.1 hx with hx | hx
    · exact answer_of_unknownOutcomes (fun p hp => List.mem_of_mem_filter hp) hx
    · obtain ⟨⟨id, pending⟩, hp, rfl⟩ := List.mem_map.1 hx
      exact .lost (List.mem_of_mem_filter hp) hs _

theorem expirePending_drains (server : Server) : Drains result server server.expirePending :=
  .of_filter server.current (Or.inr rfl) fun _ => server.node.term

theorem failPending_drains (server : Server) : Drains result server server.failPending := by
  have h : Drains result server _ := .of_filter (fun _ => false) (Or.inl rfl) PendingRead.term
  simpa [failPending] using h

theorem fail_drains (server : Server) : Drains result server server.fail :=
  (failPending_drains server).of_eq rfl rfl rfl rfl rfl

/-! ## Entries and reads -/

theorem answerWrite_drains {actions : RaftNodeActions} (hr : result = .ok actions)
    (hcur : ∀ p ∈ server.pendingWrites, server.current p.2.term = true) {entry : AppliedLogEntry}
    (he : entry ∈ actions.applied) : Drains result server (server.answerWrite entry) := by
  rw [answerWrite]
  cases hf : OrderedMap.find entry.index server.pendingWrites with
  | none => exact .refl _ _
  | some pending =>
    have hp := OrderedMap.mem_of_find hf
    refine ⟨rfl, rfl, fun x hx => (OrderedMap.mem_erase.1 hx).1, fun _ h => h,
      fun ho => ⟨ho.writes.erase _, ho.reads⟩, fun ho => ?_, _, rfl, fun x hx => ?_⟩
    · have hperm := (ho.writes.perm_erase hf).flatMap_right fun p => p.2.connections
      simp only [accounted, waiting, replyAll, List.map_append, fst_answers, List.append_assoc]
      refine List.Perm.append_left _ ?_
      rw [← List.append_assoc]
      exact hperm.symm.append_right _
    · obtain ⟨connection, hc, rfl⟩ := List.mem_map.1 hx
      exact .applied hp hc (hcur _ hp) hr (List.mem_map_of_mem he)

theorem answerRead_drains {actions : RaftNodeActions} (hr : result = .ok actions)
    (hcur : ∀ p ∈ server.pendingReads, server.current p.2.term = true) {ready : ReadyRead}
    (hx : ready ∈ actions.readyReads) : Drains result server (server.answerRead ready) := by
  rw [answerRead]
  cases hf : OrderedMap.find ready.id server.pendingReads with
  | none => exact .refl _ _
  | some pending =>
    have hp := OrderedMap.mem_of_find hf
    refine ⟨rfl, rfl, fun _ h => h, fun x hx => (OrderedMap.mem_erase.1 hx).1,
      fun ho => ⟨ho.writes, ho.reads.erase _⟩, fun ho => ?_, _, rfl, fun x hx' => ?_⟩
    · have hperm := (ho.reads.perm_erase hf).map fun p => p.2.connection
      refine List.perm_iff_count.2 fun connection => ?_
      have hcount := hperm.count_eq connection
      simp only [accounted, waiting, reply, List.map_append, List.map_cons, List.map_nil,
        List.count_append, List.count_cons, List.count_nil] at hcount ⊢
      omega
    · obtain rfl := List.mem_singleton.1 hx'
      exact .ready hp (hcur _ hp) hr hx

/-- The two loops of `process` over what has been applied and what is ready. -/
theorem answers_drains {actions : RaftNodeActions} (hr : result = .ok actions)
    (hw : ∀ p ∈ server.pendingWrites, server.current p.2.term = true)
    (hreads : ∀ p ∈ server.pendingReads, server.current p.2.term = true) :
    Drains result server
      (actions.readyReads.foldl answerRead (actions.applied.foldl answerWrite server)) := by
  have hwrites : ∀ entries : List AppliedLogEntry, (∀ e ∈ entries, e ∈ actions.applied) →
      Drains result server (entries.foldl answerWrite server) := by
    intro entries
    induction entries using List.reverseRecOn with
    | nil => exact fun _ => .refl _ _
    | append_singleton entries entry ih =>
      intro hmem
      have h := ih fun e he => hmem e (by simp [he])
      rw [List.foldl_append]
      refine h.trans (answerWrite_drains hr (fun p hp => ?_) (hmem entry (by simp)))
      rw [current, h.node]
      exact hw p (h.writes p hp)
  have hstart := hwrites actions.applied fun _ h => h
  revert hstart
  generalize actions.applied.foldl answerWrite server = server'
  intro hstart
  suffices ∀ reads : List ReadyRead, (∀ x ∈ reads, x ∈ actions.readyReads) →
      Drains result server' (reads.foldl answerRead server') from
    hstart.trans (this _ fun _ h => h)
  intro reads
  induction reads using List.reverseRecOn with
  | nil => exact fun _ => .refl _ _
  | append_singleton reads ready ih =>
    intro hmem
    have h := ih fun x hx => hmem x (by simp [hx])
    rw [List.foldl_append]
    refine h.trans (answerRead_drains hr (fun p hp => ?_) (hmem ready (by simp)))
    rw [current, h.node, hstart.node]
    exact hreads p (hstart.reads p (h.reads p hp))

/-! ## Messages -/

theorem sendMessages_drains (repliedTo : Option AppendEntries)
    (messages : List OutboundRaftMessage) :
    Drains result server (server.sendMessages repliedTo messages) := by
  induction messages generalizing server with
  | nil => exact .refl _ _
  | cons outbound messages ih =>
    rw [sendMessages]
    split_ifs
    · exact ih
    · dsimp only
      split
      · exact fail_drains server
      · have hsent : Drains result server { server with
            sent := server.sent ++ [envelope server.node.selfId repliedTo outbound] } :=
          (Drains.refl result server).of_eq rfl rfl rfl rfl rfl
        exact hsent.trans ih

/-! ## Process -/

/-- **What `process` does to the clients.** -/
theorem process_drains (server : Server) (result : RaftNodeResult)
    (repliedTo : Option AppendEntries) :
    Drains result server (server.process result repliedTo) := by
  have hexp : Drains result server server.expirePending := expirePending_drains server
  have hw : ∀ p ∈ server.expirePending.pendingWrites,
      server.expirePending.current p.2.term = true := fun p hp => (List.mem_filter.1 hp).2
  have hr : ∀ p ∈ server.expirePending.pendingReads,
      server.expirePending.current p.2.term = true := fun p hp => (List.mem_filter.1 hp).2
  unfold process
  generalize server.expirePending = server₁ at hexp hw hr
  cases result with
  | error e =>
    dsimp only
    split_ifs
    · exact hexp.trans (fail_drains server₁)
    · exact hexp
  | ok actions =>
    exact hexp.trans ((answers_drains rfl hw hr).trans (sendMessages_drains repliedTo _))

@[simp] theorem node_process (server : Server) (result : RaftNodeResult)
    (repliedTo : Option AppendEntries) : (server.process result repliedTo).node = server.node :=
  (process_drains server result repliedTo).node

/-- What is pending after `process`: requests of the term that the node leads, for entries that have
not been applied. -/
structure Remaining (server : Server) (result : RaftNodeResult) (server' : Server) : Prop where
  writes : ∀ p ∈ server'.pendingWrites, server.current p.2.term = true ∧
    ∀ actions, result = .ok actions → p.1 ∉ actions.applied.map AppliedLogEntry.index
  reads : ∀ p ∈ server'.pendingReads, server.current p.2.term = true
  fatal : ∀ e, result = .error e → e.isFatal = true →
    server'.pendingWrites = [] ∧ server'.pendingReads = []

theorem Remaining.mono (h : Remaining server result server')
    (hd : Drains result server' server'') : Remaining server result server'' where
  writes p hp := h.writes p (hd.writes p hp)
  reads p hp := h.reads p (hd.reads p hp)
  fatal e he hf := by
    obtain ⟨hw, hr⟩ := h.fatal e he hf
    exact ⟨List.eq_nil_iff_forall_not_mem.2 fun x hx => by simpa [hw] using hd.writes x hx,
      List.eq_nil_iff_forall_not_mem.2 fun x hx => by simpa [hr] using hd.reads x hx⟩

/-- An entry that was applied has no pending write any more. -/
theorem not_mem_foldl_answerWrite (server : Server) (entries : List AppliedLogEntry) :
    ∀ p ∈ (entries.foldl answerWrite server).pendingWrites,
      p.1 ∉ entries.map AppliedLogEntry.index := by
  induction entries using List.reverseRecOn with
  | nil => simp
  | append_singleton entries entry ih =>
    rw [List.foldl_append, List.foldl_cons, List.foldl_nil]
    revert ih
    generalize entries.foldl answerWrite server = server'
    intro ih
    -- the last round removes the entry of its index and no others
    have hlast : ∀ p ∈ (server'.answerWrite entry).pendingWrites,
        p ∈ server'.pendingWrites ∧ p.1 ≠ entry.index := by
      rw [answerWrite]
      cases hf : OrderedMap.find entry.index server'.pendingWrites with
      | none => exact fun p hp => ⟨hp, fun heq => OrderedMap.find_eq_none_iff.1 hf
          (heq ▸ OrderedMap.mem_keys_iff.2 ⟨p.2, hp⟩)⟩
      | some pending => exact fun p hp => OrderedMap.mem_erase.1 hp
    intro p hp
    obtain ⟨hmem, hne⟩ := hlast p hp
    rw [List.map_append, List.mem_append, not_or]
    exact ⟨ih p hmem, by simpa using hne⟩

theorem pendingWrites_foldl_answerRead (server : Server) (reads : List ReadyRead) :
    (reads.foldl answerRead server).pendingWrites = server.pendingWrites := by
  induction reads generalizing server with
  | nil => rfl
  | cons ready reads ih =>
    rw [List.foldl_cons, ih, answerRead]
    split <;> rfl

/-- **What `process` leaves pending.** -/
theorem process_remaining (server : Server) (result : RaftNodeResult)
    (repliedTo : Option AppendEntries) :
    Remaining server result (server.process result repliedTo) := by
  have hw : ∀ p ∈ server.expirePending.pendingWrites, server.current p.2.term = true :=
    fun p hp => (List.mem_filter.1 hp).2
  have hr : ∀ p ∈ server.expirePending.pendingReads, server.current p.2.term = true :=
    fun p hp => (List.mem_filter.1 hp).2
  have hexp : server.expirePending.node = server.node := rfl
  unfold process
  generalize server.expirePending = server₁ at hw hr hexp
  cases result with
  | error e =>
    have hcur : Remaining server (.error e) server₁.fail := by
      refine ⟨fun p hp => ?_, fun p hp => ?_, fun _ _ _ => ⟨rfl, rfl⟩⟩
      · cases hp
      · cases hp
    dsimp only
    split_ifs with hf
    · exact hcur
    · exact ⟨fun p hp => ⟨hw p hp, by simp⟩, hr, fun e' he hf' => by
        obtain rfl := Except.error.inj he
        exact absurd hf' hf⟩
  | ok actions =>
    have hcur : ∀ t, server₁.current t = server.current t := fun t => by
      rw [current, current, hexp]
    have hreads : Drains (.ok actions) server₁ _ := answers_drains rfl
      (fun p hp => (hcur _).trans (hw p hp)) (fun p hp => (hcur _).trans (hr p hp))
    have hleft : Remaining server (.ok actions)
        (actions.readyReads.foldl answerRead (actions.applied.foldl answerWrite server₁)) := by
      refine ⟨fun p hp => ⟨hw p (hreads.writes p hp), fun actions' ha => ?_⟩,
        fun p hp => hr p (hreads.reads p hp), by simp⟩
      obtain rfl := Except.ok.inj ha
      rw [pendingWrites_foldl_answerRead] at hp
      exact not_mem_foldl_answerWrite server₁ _ p hp
    exact hleft.mono (sendMessages_drains repliedTo _)

end DistributedKV.Server
