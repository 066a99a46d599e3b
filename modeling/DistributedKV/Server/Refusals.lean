import DistributedKV.Server.Agreement
import DistributedKV.Server.Session

/-!
# Refusals of writes

A submission that a server refuses with `NotLeader`, `Busy` or `InvalidRequest` never changes the
data: either no log holds an entry of it, or the one entry that a log holds comes after another
entry for the same request (`Service.Run.refusal_truthful`). And `InvalidRequest` is only sent where
another command was submitted under the same request id.
-/

namespace DistributedKV

open KvStateMachine (executed dataAfter)
open Session (putCommand putFrame decode_putFrame freshCommand freshFrame peerFrame electionAppend
  commandAppend)

namespace Service.Run

variable {r : Run} {i j n k : ℕ} {server server' : Server} {e e' : LogEntry} {event : Server.Event}
  {faults : Faults}

/-- In step `i` the run accepts the client `k`, whose submission thereby comes to stand in the
entry: it is new on the disk, or the client waits for it. -/
def Enters (r : Run) (i k : ℕ) (e : LogEntry) : Prop :=
  i < r.length ∧ ∃ n event faults server server',
    (r.action i).handler = some (n, event, faults) ∧ (r.state i).slots n = .up server ∧
    (r.state i).clients.length = k ∧ event.client.isSome ∧
    server.step k faults event = some server' ∧
    (server'.Awaits k e ∨ e ∈ server'.node.disk.log ∧ e ∉ server.node.disk.log)

/-- The submission of client `k` stands in the entry. -/
def Carries (r : Run) (k : ℕ) (e : LogEntry) : Prop := ∃ i, r.Enters i k e

/-! ## Waiting clients -/

/-- A client enters in the step that accepts it. -/
theorem Enters.lt (h : r.Enters i k e) (hij : i < j) (hj : j ≤ r.length) :
    k < (r.state j).clients.length := by
  obtain ⟨hi, n, event, faults, server, server', ha, -, rfl, hclient, -⟩ := h
  refine lt_of_lt_of_le ?_ (r.clients_mono hij hj).length_le
  obtain ⟨bytes, hb⟩ := Option.isSome_iff_exists.1 hclient
  simp [r.clients_succ hi, ha, hb]

/-- A client that waits was accepted with the command of the entry, and its submission stands in no
other entry. -/
structure Waits (r : Run) (i k : ℕ) (e : LogEntry) : Prop where
  client : ∃ bytes, (r.state i).clients[k]? = some bytes ∧
    decodeClientRequest bytes = .ok ⟨e.command⟩
  unique : ∀ j < i, ∀ e', r.Enters j k e' → e' = e

theorem Waits.lt (h : r.Waits i k e) : k < (r.state i).clients.length := by
  obtain ⟨bytes, hb, -⟩ := h.client
  exact (List.getElem?_eq_some_iff.1 hb).1

theorem Waits.succ (h : r.Waits i k e) (hi : i < r.length) : r.Waits (i + 1) k e where
  client := by
    obtain ⟨bytes, hb, hd⟩ := h.client
    exact ⟨bytes, Replication.getElem?_of_prefix (r.clients_mono (Nat.le_succ i) hi) hb, hd⟩
  unique j hj e' he' := by
    rcases Nat.lt_or_eq_of_le (Nat.le_of_lt_succ hj) with hlt | rfl
    · exact h.unique j hlt e' he'
    · obtain ⟨-, n, event, faults, server, server', -, -, hk, -⟩ := he'
      exact absurd h.lt (by omega)

/-- The server before the step that accepts a client does not know the client. -/
theorem awaits_step (hi : i < r.length)
    (ih : ∀ {n server}, (r.state i).slots n = .up server → ∀ {k e}, server.Awaits k e →
      r.Waits i k e)
    (hh : r.Handles i n event faults server server') (ha : server'.Awaits k e) :
    r.Waits (i + 1) k e := by
  have hold : ∀ {k e}, server.silent.Awaits k e → r.Waits i k e := fun h => ih hh.slot h
  rcases hh.stepEnd.awaits hh.invariant ha with h | ⟨rfl, bytes, rfl, h⟩
  · exact (hold h).succ hi
  have hclient : (Server.Event.accept (some bytes)).client = some bytes := by
    rw [Server.Event.client, if_pos (Or.inl h.kind)]
  refine ⟨⟨bytes, ?_, h.decoded⟩, fun j hj e' he' => ?_⟩
  · simp [r.clients_succ hi, hh.action, ServiceAction.handler, hclient]
  · rcases Nat.lt_or_eq_of_le (Nat.le_of_lt_succ hj) with hlt | rfl
    · exact absurd (he'.lt hlt hi.le) (lt_irrefl _)
    obtain ⟨-, n', event', faults', before, after, hhandler, hslot, -, -, hstep, he'⟩ := he'
    rw [hh.action] at hhandler
    obtain ⟨rfl, rfl, rfl⟩ := (by simpa [ServiceAction.handler] using hhandler)
    obtain rfl := ServerSlot.up.inj (hh.slot.symm.trans hslot)
    obtain rfl := Option.some.inj (hh.step.symm.trans hstep)
    rcases he' with he' | ⟨hnew, hnot⟩
    · exact (h.unique e' he').resolve_left fun h => absurd (hold h).lt (lt_irrefl _)
    · exact (h.disk e' hnew).resolve_left hnot

/-- **Whoever waits for an entry** has submitted its command, and has no other entry. -/
theorem awaits (r : Run) (hi : i ≤ r.length) (hslot : (r.state i).slots n = .up server)
    (ha : server.Awaits k e) : r.Waits i k e := by
  induction i generalizing n server k e with
  | zero =>
    rw [r.state_zero] at hslot
    cases hslot
  | succ i ih =>
    rcases r.slot_succ hi hslot with hsame | ⟨event, faults, before, hh⟩ | ⟨node, rfl⟩
    · exact (ih (by omega) hsame ha).succ hi
    · exact awaits_step hi (fun hslot _ _ ha => ih (by omega) hslot ha) hh ha
    · obtain ⟨index, pending, hp, -⟩ := ha
      cases hp

/-- A client that enters later is another one. -/
theorem Waits.eq_of_carries (h : r.Waits i k e) (he : r.Carries k e') : e' = e := by
  obtain ⟨j, he⟩ := he
  rcases Nat.lt_or_ge j i with hlt | hle
  · exact h.unique j hlt e' he
  · obtain ⟨hj, n, event, faults, server, server', -, -, hk, -⟩ := he
    have hlt := h.lt.trans_le (r.clients_mono hle hj.le).length_le
    omega

/-- The submission of a client that is accepted without an effect stands in no entry. -/
theorem Handles.not_carries (hh : r.Handles j n event faults server server')
    (hclient : event.client.isSome) (hd : server'.node.disk = server.node.disk)
    (hw : server'.pendingWrites = server.pendingWrites) :
    ¬ r.Carries (r.state j).clients.length e := by
  rintro ⟨i, he⟩
  rcases Nat.lt_trichotomy i j with hlt | rfl | hlt
  · exact absurd (he.lt hlt hh.lt.le) (lt_irrefl _)
  · obtain ⟨-, n', event', faults', before, after, hhandler, hslot, -, -, hstep, he⟩ := he
    rw [hh.action] at hhandler
    obtain ⟨rfl, rfl, rfl⟩ := (by simpa [ServiceAction.handler] using hhandler)
    obtain rfl := ServerSlot.up.inj (hh.slot.symm.trans hslot)
    obtain rfl := Option.some.inj (hh.step.symm.trans hstep)
    rcases he with he | ⟨hnew, hnot⟩
    · have he : server.Awaits (r.state i).clients.length e := he.of_subset fun x hx => hw ▸ hx
      exact absurd (r.awaits hh.lt.le hh.slot he).lt (lt_irrefl _)
    · exact hnot (hd ▸ hnew)
  · obtain ⟨hi, n', event', faults', before, after, -, -, hk, -⟩ := he
    obtain ⟨bytes, hb⟩ := Option.isSome_iff_exists.1 hclient
    have hle := (r.clients_mono hlt hi.le).length_le
    rw [r.clients_succ hh.lt, hh.action] at hle
    simp [ServiceAction.handler, hb] at hle
    omega

/-! ## Entries that are not executed -/

/-- An entry that comes after another one for the same request is never executed. -/
theorem not_mem_executed (r : Run) (hi : i ≤ r.length) (hslot : (r.state i).slots n = .up server)
    {id : RequestId} (he : e.carries id = true) {x : LogEntry}
    (hx : server.applied.find? (LogEntry.carries id) = some x) (hne : x ≠ e) (hj : j ≤ r.length)
    {p : ℕ} (hslot' : (r.state j).slots p = .up server') : e ∉ executed server'.applied := by
  intro hmem
  have hfilter : e ∈ (executed server'.applied).filter (LogEntry.carries id) :=
    List.mem_filter.2 ⟨hmem, he⟩
  rw [KvStateMachine.filter_executed, Option.mem_toList] at hfilter
  exact hne (r.find_applied hi hj hslot hslot' hx hfilter)

/-- The entry that the table of a state machine holds for a request has been applied. -/
theorem prior_entry (r : Run) (hi : i ≤ r.length) (hslot : (r.state i).slots n = .up server)
    {command : Command} {prior : AppliedRequest} (hp : server.prior command = some prior) :
    ∃ id, command.requestId = some id ∧ prior.command.requestId = some id ∧
      server.applied.find? (LogEntry.carries id) = some prior.entry := by
  obtain ⟨id, hid, hresult⟩ := Option.bind_eq_some_iff.1 hp
  have hfind := (r.applied_executed hi hslot).2 id
  rw [hresult, Option.map_some] at hfind
  have hcarries : prior.entry.carries id = true := List.find?_some hfind.symm
  exact ⟨id, hid, of_decide_eq_true hcarries, hfind.symm⟩

/-- The entry that a client waits for, when it has been applied. -/
theorem Waits.applied (h : r.Waits j k e) (hi : i ≤ r.length)
    (hslot : (r.state i).slots n = .up server) (hle : e.index ≤ server.node.lastApplied)
    (he : server.node.log.entryAt e.index = some e) :
    ∃ id prior, e.command.requestId = some id ∧ server.prior e.command = some prior ∧
      server.applied.find? (LogEntry.carries id) = some prior.entry := by
  obtain ⟨bytes, -, hd⟩ := h.client
  obtain ⟨id, hid⟩ := Option.ne_none_iff_exists'.1 (encodable_of_decodeClientRequest hd).2.1
  have hmem : e ∈ server.applied := by
    obtain ⟨-, he⟩ := PersistentLog.entryAt_of_prefix (List.prefix_refl _) hle he
    exact List.mem_of_getElem? he
  have hsome : (server.applied.find? (LogEntry.carries id)).isSome :=
    List.find?_isSome.2 ⟨e, hmem, decide_eq_true hid⟩
  have hprior : server.prior e.command = server.node.requestResult id := by
    rw [Server.prior, hid, Option.bind_some]
  rw [← (r.applied_executed hi hslot).2 id, Option.isSome_map] at hsome
  obtain ⟨prior, hresult⟩ := Option.isSome_iff_exists.1 hsome
  refine ⟨id, prior, hid, hprior.trans hresult, ?_⟩
  rw [← (r.applied_executed hi hslot).2 id, hresult, Option.map_some]

/-- The client that a step accepts, later on. -/
theorem Handles.frame {bytes bytes' : Bytes}
    (hh : r.Handles j n (.accept (some bytes')) faults server server')
    (hclient : (Server.Event.accept (some bytes')).client = some bytes') (hj : j < i)
    (hi : i ≤ r.length) (hk : (r.state i).clients[(r.state j).clients.length]? = some bytes) :
    bytes' = bytes := by
  have hmono := r.clients_mono hj hi
  rw [r.clients_succ hh.lt, hh.action] at hmono
  have hnew : (r.state i).clients[(r.state j).clients.length]? = some bytes' := by
    refine Replication.getElem?_of_prefix hmono ?_
    simp [ServiceAction.handler, hclient]
  exact Option.some.inj (hnew.symm.trans hk)

/-- An answer that is not `Committed` names another command. -/
theorem requestReply_of_ne (server : Server) {prior : AppliedRequest} {command : Command}
    (h : (server.requestReply (some prior) command).status ≠ .committed) :
    prior.command ≠ command := by
  rw [Server.requestReply] at h
  split_ifs at h with heq
  · exact absurd rfl h
  · exact heq

/-- **A refused submission** stands in no entry, or in one that is never executed. -/
theorem refused_carries (r : Run) (hi : i ≤ r.length) {reply : ClientWriteReply}
    (hr : (k, .write reply) ∈ (r.state i).replies)
    (hs : reply.status = .notLeader ∨ reply.status = .busy ∨ reply.status = .invalidRequest)
    (he : r.Carries k e) (hj : j ≤ r.length) (hslot : (r.state j).slots n = .up server) :
    e ∉ executed server.applied := by
  obtain ⟨m, hm, p, event, faults, before, after, hh, hx⟩ := r.reply_sent hi hr
  cases hh.stepEnd.writeAnswer hh.invariant rfl hx with
  | @immediate bytes _ hevent himm hn hw =>
    subst hevent
    have hclient : (Server.Event.accept (some bytes)).client.isSome := by
      rw [himm.client]
      rfl
    exact absurd he (hh.not_carries hclient (by rw [hn]; rfl) hw)
  | @refused bytes _ _ hevent hc _ _ hn hw =>
    subst hevent
    have hclient : (Server.Event.accept (some bytes)).client.isSome := by
      cases hc with
      | write hb => simp [Server.Event.client, hb]
    exact absurd he (hh.not_carries hclient (by rw [hn]; rfl) hw)
  | unknown hunknown =>
    rcases hunknown with h | h <;> simp [h] at hs
  | @applied _ index pending hp hk hstop hle hentry =>
    have hwaits : r.Waits m k ⟨index, pending.term, pending.command⟩ :=
      r.awaits hh.lt.le hh.slot ⟨index, pending, hp, hk, rfl⟩
    obtain rfl := hwaits.eq_of_carries he
    obtain ⟨id, prior, hid, hprior, hfind⟩ := hwaits.applied hh.lt hh.slot' hle hentry
    refine r.not_mem_executed hh.lt hh.slot' (decide_eq_true hid) hfind (fun heq => ?_) hj hslot
    rw [hprior] at hs
    have hne : prior.command ≠ pending.command := by
      refine requestReply_of_ne after fun hc => ?_
      rw [hc] at hs
      simp at hs
    exact hne (congrArg LogEntry.command heq)

/-- **`InvalidRequest` names a conflict**: a client whose frame is well formed gets it only if
another command was submitted under the same request id. -/
theorem conflict_of_invalidRequest (r : Run) (hi : i ≤ r.length) {reply : ClientWriteReply}
    (hr : (k, .write reply) ∈ (r.state i).replies) (hs : reply.status = .invalidRequest)
    {bytes : Bytes} {command : Command} (hk : (r.state i).clients[k]? = some bytes)
    (hd : decodeClientRequest bytes = .ok ⟨command⟩) :
    ∃ bytes' ∈ (r.state r.length).clients, ∃ command',
      decodeClientRequest bytes' = .ok ⟨command'⟩ ∧ command'.requestId = command.requestId ∧
        command' ≠ command := by
  obtain ⟨m, hm, p, event, faults, before, after, hh, hx⟩ := r.reply_sent hi hr
  have hid := (encodable_of_decodeClientRequest hd).2.1
  -- a command for the same request, on a disk or applied, was submitted
  have hconflict : ∀ {command' : Command}, r.Submitted command' →
      command'.requestId = command.requestId → command' ≠ command →
      ∃ bytes' ∈ (r.state r.length).clients, ∃ command',
        decodeClientRequest bytes' = .ok ⟨command'⟩ ∧ command'.requestId = command.requestId ∧
          command' ≠ command := fun hsub heq hne => by
    obtain ⟨bytes', hmem, hd'⟩ := hsub (heq ▸ hid)
    exact ⟨bytes', hmem, _, hd', heq, hne⟩
  cases hh.stepEnd.writeAnswer hh.invariant rfl hx with
  | @immediate bytes' _ hevent himm hn hw =>
    subst hevent
    obtain rfl := hh.frame himm.client hm hi hk
    cases himm with
    | malformedWrite _ hd' => simp [hd] at hd'
    | notLeaderWrite | busyWrite => cases hs
    | priorWrite _ hd' hp =>
      obtain rfl := ClientWriteRequest.mk.inj (Except.ok.inj (hd.symm.trans hd'))
      obtain ⟨id, hid', hpid, hfind⟩ := r.prior_entry hh.lt.le hh.slot hp
      refine hconflict ((r.submitted hh.lt.le hh.slot).2 _ (List.mem_of_find?_eq_some hfind))
        (hpid.trans hid'.symm) (requestReply_of_ne before.silent (by simp [hs]))
    | conflictingWrite _ hd' hp hpid hne =>
      obtain rfl := ClientWriteRequest.mk.inj (Except.ok.inj (hd.symm.trans hd'))
      have hstop : before.silent.node.stopped = false := by
        by_contra hstop
        have hnil := (hh.invariant.stopped (by simpa using hstop)).1
        rw [hnil] at hp
        cases hp
      have hentry := (hh.invariant.writes hp).2.2
      have hdisk : before.node.disk.log = before.node.log.log :=
        (hh.invariant.invariant hstop).logSynced.durable
      have hmem := PersistentLog.mem_log_of_entryAt hentry
      exact hconflict ((r.submitted hh.lt.le hh.slot).1 _ (hdisk ▸ hmem)) hpid hne
  | refused _ _ hne => exact absurd hs hne
  | unknown hunknown => rcases hunknown with h | h <;> simp [h] at hs
  | @applied _ index pending hp hk' hstop hle hentry =>
    have hwaits : r.Waits m k ⟨index, pending.term, pending.command⟩ :=
      r.awaits hh.lt.le hh.slot ⟨index, pending, hp, hk', rfl⟩
    obtain ⟨id, prior, hid', hprior, hfind⟩ := hwaits.applied hh.lt hh.slot' hle hentry
    obtain ⟨bytes', hb, hd'⟩ := hwaits.client
    obtain rfl := Option.some.inj
      ((Replication.getElem?_of_prefix (r.clients_mono hm.le hi) hb).symm.trans hk)
    obtain rfl := ClientWriteRequest.mk.inj (Except.ok.inj (hd.symm.trans hd'))
    have hcarries : prior.entry.carries id = true := List.find?_some hfind
    rw [hprior] at hs
    refine hconflict ((r.submitted hh.lt hh.slot').2 _ (List.mem_of_find?_eq_some hfind))
      ((of_decide_eq_true hcarries).trans hid'.symm)
      (requestReply_of_ne after (by simp [hs]))

/-- **Definite refusals are truthful.** A submission that was answered with `NotLeader`, `Busy` or
`InvalidRequest` stands in no entry that any server ever executes, and the data of every server are
those of the entries it has executed. And a client whose frame is well formed does not get
`InvalidRequest` if no other command is ever submitted under its request id. -/
theorem refusal_truthful (r : Run) (hi : i ≤ r.length) {reply : ClientWriteReply}
    (hr : (k, .write reply) ∈ (r.state i).replies) :
    (reply.status = .notLeader ∨ reply.status = .busy ∨ reply.status = .invalidRequest →
      ∀ e, r.Carries k e → ∀ j ≤ r.length, ∀ n server, (r.state j).slots n = .up server →
        server.node.state.data = dataAfter (executed server.applied) ∧
          e ∉ executed server.applied) ∧
    ∀ bytes command, (r.state i).clients[k]? = some bytes →
      decodeClientRequest bytes = .ok ⟨command⟩ →
      (∀ bytes' ∈ (r.state r.length).clients, ∀ command',
        decodeClientRequest bytes' = .ok ⟨command'⟩ →
          command'.requestId = command.requestId → command' = command) →
      reply.status ≠ .invalidRequest := by
  refine ⟨fun hs e he j hj n server hslot => ⟨(r.applied_executed hj hslot).1,
    r.refused_carries hi hr hs he hj hslot⟩, fun bytes command hk hd honly hs => ?_⟩
  obtain ⟨bytes', hmem, command', hd', hid, hne⟩ := r.conflict_of_invalidRequest hi hr hs hk hd
  exact hne (honly bytes' hmem command' hd' hid)

/-- Another value under the same request id, and its frame. -/
def otherCommand : Command := { putCommand with value := [119] }

def otherFrame : Bytes :=
  [2, 5, 2, 1, 0, 0, 0, 1, 0, 0, 0, 1, 1, 1, 1, 1, 1, 1, 1, 1, 1, 1, 1, 1, 1, 1, 1, 1, 107, 119,
    157, 65, 129, 195]

/-- The requests of a second leader, for its first entry and for the other value. -/
def noOpAppend : AppendEntries := ⟨2, 2, 2, 1, [⟨3, 2, {}⟩], 1, 0⟩

def otherAppend : AppendEntries := ⟨2, 2, 3, 2, [⟨4, 2, otherCommand⟩], 3, 0⟩

/-- The first server is elected and takes a put, which reaches the second one. This is elected
before the put is committed, and takes another value under the same request id. A third client asks
the first server. In the end both entries are committed. -/
def conflictActions : List ServiceAction :=
  [.restart 1, .restart 2, .handle 1 .deadline {},
    .handle 2 (peerFrame 1 (.requestVote ⟨1, 1, 0, 0⟩) none) {},
    .handle 1 (peerFrame 2 (.requestVoteReply ⟨1, true⟩) none) {},
    .handle 1 (.accept (some putFrame)) {},
    .handle 2 (peerFrame 1 (.appendEntries electionAppend) none) {},
    .handle 1 (peerFrame 2 (.appendEntriesReply ⟨1, true⟩) (some electionAppend)) {},
    .handle 2 (peerFrame 1 (.appendEntries commandAppend) none) {},
    .handle 2 .deadline {},
    .handle 1 (peerFrame 2 (.requestVote ⟨2, 2, 2, 1⟩) none) {},
    .handle 2 (peerFrame 1 (.requestVoteReply ⟨2, true⟩) none) {},
    .handle 2 (.accept (some otherFrame)) {},
    .handle 1 (.accept (some freshFrame)) {},
    .handle 1 (peerFrame 2 (.appendEntries noOpAppend) none) {},
    .handle 2 (peerFrame 1 (.appendEntriesReply ⟨2, true⟩) (some noOpAppend)) {},
    .handle 1 (peerFrame 2 (.appendEntries otherAppend) none) {},
    .handle 2 (peerFrame 1 (.appendEntriesReply ⟨2, true⟩) (some otherAppend)) {}]

set_option maxRecDepth 20000 in
theorem conflictActions_possible : (conflictActions.foldlM next init).isSome := by
  decide +kernel

def conflictRun : Run := .ofActions conflictActions conflictActions_possible

/-- The command of the entry has been appended by a server that accepts its client. -/
def entersNow (w : Service) (n : ℕ) (bytes : Bytes) (e : LogEntry) : Bool :=
  match w.slots n with
  | .up server =>
    match server.step w.clients.length {} (.accept (some bytes)) with
    | some server' => e ∈ server'.node.disk.log ∧ e ∉ server.node.disk.log
    | none => false
  | .down _ => false

theorem enters_of_entersNow {bytes : Bytes} (hi : i < r.length)
    (ha : r.action i = .handle n (.accept (some bytes)) {})
    (hclient : (Server.Event.accept (some bytes)).client.isSome)
    (h : entersNow (r.state i) n bytes e = true) : r.Enters i (r.state i).clients.length e := by
  unfold entersNow at h
  split at h
  · next server hslot =>
    split at h
    · next server' hstep =>
      exact ⟨hi, n, _, {}, server, server', by rw [ha]; rfl, hslot, rfl, hclient, hstep,
        Or.inr (of_decide_eq_true h)⟩
    · cases h
  · cases h

set_option maxRecDepth 20000 in
/-- The submission of the other value stands in an entry. -/
theorem conflictRun_carries : conflictRun.Carries 1 ⟨4, 2, otherCommand⟩ := by
  have hnow : (conflictRun.state 12).clients.length = 1 ∧
      entersNow (conflictRun.state 12) 2 otherFrame ⟨4, 2, otherCommand⟩ = true := by
    decide +kernel
  have henters := enters_of_entersNow (r := conflictRun) (by decide) rfl (by decide) hnow.2
  rw [hnow.1] at henters
  exact ⟨12, henters⟩

set_option maxRecDepth 20000 in
theorem conflictRun_end :
    (conflictRun.state 18).clients = [putFrame, otherFrame, freshFrame] ∧
      (conflictRun.state 18).replies = [(0, .write ⟨.outcomeUnknown, 1, 2, 0⟩),
        (2, .write ⟨.notLeader, 2, 0, 0⟩), (1, .write ⟨.invalidRequest, 2, 0, 2⟩)] ∧
      (match (conflictRun.state 18).slots 2 with
        | .up server => decide (⟨4, 2, otherCommand⟩ ∈ server.applied)
        | .down _ => false) = true := by
  decide +kernel

set_option maxRecDepth 20000 in
/-- The other value is in the log, committed and applied, and is refused: no server executes it.
The third client is not told that its request is invalid. -/
theorem refusal_truthful_conflict :
    (∃ server, (conflictRun.state 18).slots 2 = .up server ∧
        ⟨4, 2, otherCommand⟩ ∈ server.applied) ∧
      (∀ j ≤ 18, ∀ n server, (conflictRun.state j).slots n = .up server →
        server.node.state.data = dataAfter (executed server.applied) ∧
          ⟨4, 2, otherCommand⟩ ∉ executed server.applied) ∧
      ClientWriteStatus.notLeader ≠ .invalidRequest := by
  obtain ⟨hclients, hreplies, happlied⟩ := conflictRun_end
  have hrefused : (1, .write ⟨.invalidRequest, 2, 0, 2⟩) ∈ (conflictRun.state 18).replies := by
    rw [hreplies]
    decide
  have hfresh : (2, .write ⟨.notLeader, 2, 0, 0⟩) ∈ (conflictRun.state 18).replies := by
    rw [hreplies]
    decide
  have hdecode : decodeClientRequest freshFrame = .ok ⟨freshCommand⟩ := by decide +kernel
  refine ⟨?_, (refusal_truthful conflictRun (i := 18) le_rfl hrefused).1 (Or.inr (Or.inr rfl)) _
    conflictRun_carries, (refusal_truthful conflictRun (i := 18) le_rfl hfresh).2 freshFrame _
      (by rw [hclients]; rfl) hdecode fun bytes' hmem command' hd' hid => ?_⟩
  · cases hslot : (conflictRun.state 18).slots 2 with
    | down disk =>
      rw [hslot] at happlied
      cases happlied
    | up server =>
      rw [hslot] at happlied
      exact ⟨server, rfl, of_decide_eq_true happlied⟩
  · change bytes' ∈ (conflictRun.state 18).clients at hmem
    rw [hclients] at hmem
    have hother : decodeClientRequest otherFrame = .ok ⟨otherCommand⟩ := by decide +kernel
    simp only [List.mem_cons, List.not_mem_nil, or_false] at hmem
    rcases hmem with rfl | rfl | rfl
    · rw [decode_putFrame] at hd'
      obtain rfl := ClientWriteRequest.mk.inj (Except.ok.inj hd')
      exact absurd hid (by decide)
    · rw [hother] at hd'
      obtain rfl := ClientWriteRequest.mk.inj (Except.ok.inj hd')
      exact absurd hid (by decide)
    · rw [hdecode] at hd'
      exact (ClientWriteRequest.mk.inj (Except.ok.inj hd')).symm

end Service.Run

end DistributedKV
