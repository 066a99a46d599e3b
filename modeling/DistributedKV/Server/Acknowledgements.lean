import DistributedKV.Server.Refusals

/-!
# Acknowledged writes

A `Committed` reply names the first entry for its request in the one log that all servers apply, so
all such replies for a request name the same entry, and every state machine executes the request
there and nowhere else (`Service.Run.acknowledged_once`).
-/

namespace DistributedKV

open KvStateMachine (executed dataAfter)
open Session (putCommand putFrame decode_putFrame peerFrame electionAppend commandAppend)

namespace Service.Run

variable {r : Run} {i j n k : ℕ} {server server' : Server} {e : LogEntry} {id : RequestId}
  {reply : ClientWriteReply} {bytes : Bytes} {command : Command}

/-- The entry is the first for its request in what some server has applied. -/
def Settles (r : Run) (id : RequestId) (e : LogEntry) : Prop :=
  ∃ i ≤ r.length, ∃ n server, (r.state i).slots n = .up server ∧
    server.applied.find? (LogEntry.carries id) = some e

/-- What a `Committed` reply says. -/
theorem requestReply_committed {server : Server} {prior : AppliedRequest}
    (h : (server.requestReply (some prior) command).status = .committed) :
    prior.entry = ⟨(server.requestReply (some prior) command).index,
      (server.requestReply (some prior) command).term, command⟩ := by
  rw [Server.requestReply] at h ⊢
  split_ifs at h ⊢ with heq
  rw [← heq]
  rfl

/-- **What a `Committed` reply is based on.** -/
theorem settles_of_committed (r : Run) (hi : i ≤ r.length)
    (hr : (k, .write reply) ∈ (r.state i).replies) (hs : reply.status = .committed)
    (hk : (r.state i).clients[k]? = some bytes) (hd : decodeClientRequest bytes = .ok ⟨command⟩)
    (hid : command.requestId = some id) :
    r.Settles id ⟨reply.index, reply.term, command⟩ := by
  obtain ⟨m, hm, p, event, faults, before, after, hh, hx⟩ := r.reply_sent hi hr
  cases hh.stepEnd.writeAnswer hh.invariant rfl hx with
  | @immediate bytes' _ hevent himm hn hw =>
    subst hevent
    obtain rfl := hh.frame himm.client hm hi hk
    cases himm with
    | malformedWrite | notLeaderWrite | conflictingWrite | busyWrite => cases hs
    | priorWrite _ hd' hp =>
      obtain rfl := ClientWriteRequest.mk.inj (Except.ok.inj (hd.symm.trans hd'))
      obtain ⟨id', hid', -, hfind⟩ := r.prior_entry hh.lt.le hh.slot hp
      obtain rfl := Option.some.inj (hid.symm.trans hid')
      exact ⟨m, hh.lt.le, p, before, hh.slot, requestReply_committed hs ▸ hfind⟩
  | refused _ _ _ hne => exact absurd hs hne
  | unknown hunknown => rcases hunknown with h | h <;> simp [h] at hs
  | @applied _ index pending hp hk' hstop hle hentry =>
    have hwaits : r.Waits m k ⟨index, pending.term, pending.command⟩ :=
      r.awaits hh.lt.le hh.slot ⟨index, pending, hp, hk', rfl⟩
    obtain ⟨id', prior, hid', hprior, hfind⟩ := hwaits.applied hh.lt hh.slot' hle hentry
    obtain ⟨bytes', hb, hd'⟩ := hwaits.client
    obtain rfl := Option.some.inj
      ((Replication.getElem?_of_prefix (r.clients_mono hm.le hi) hb).symm.trans hk)
    obtain rfl := ClientWriteRequest.mk.inj (Except.ok.inj (hd.symm.trans hd'))
    obtain rfl := Option.some.inj (hid.symm.trans hid')
    rw [hprior] at hs
    have hanswer := requestReply_committed hs
    rw [← hprior] at hanswer
    exact ⟨m + 1, hh.lt, p, after, hh.slot', hanswer ▸ hfind⟩

/-- Only one entry settles a request. -/
theorem Settles.unique {e' : LogEntry} (h : r.Settles id e) (h' : r.Settles id e') : e = e' := by
  obtain ⟨i, hi, n, server, hslot, hfind⟩ := h
  obtain ⟨j, hj, p, server', hslot', hfind'⟩ := h'
  exact r.find_applied hi hj hslot hslot' hfind hfind'

/-- Who has applied the index of the entry has applied the entry, as the first of its request. -/
theorem Settles.applied (h : r.Settles id e) (hj : j ≤ r.length)
    (hslot : (r.state j).slots n = .up server) (hle : e.index ≤ server.node.lastApplied) :
    server.node.log.entryAt e.index = some e ∧
      server.applied.find? (LogEntry.carries id) = some e := by
  obtain ⟨i, hi, p, server', hslot', hfind⟩ := h
  -- the place of the entry in what the first server has applied
  obtain ⟨-, t, hlog⟩ := r.applied_logInvariant hi hslot'
  obtain ⟨k, hk⟩ := List.mem_iff_getElem?.1 (List.mem_of_find?_eq_some hfind)
  have hindex := hlog.index hk
  have hlength : server.applied.length = server.node.lastApplied := by
    obtain ⟨hstate, t, hlog⟩ := r.applied_logInvariant hj hslot
    rw [RaftNode.lastApplied, hstate, KvStateMachine.lastApplied_replay hlog.wellFormed]
  have hplace : server.applied[k]? = some e := by
    rcases r.applied_comparable hi hj hslot' hslot with hpre | hpre
    · exact Replication.getElem?_of_prefix hpre hk
    · have hlt : k < server.applied.length := by omega
      have hsame := Replication.getElem?_of_prefix hpre (List.getElem?_eq_getElem hlt)
      rw [List.getElem?_eq_getElem hlt, ← hk, hsame]
  constructor
  · rw [hindex, PersistentLog.entryAt_succ, ← hplace, Server.applied,
      List.getElem?_take_of_lt (by omega)]
  · have hsome : (server.applied.find? (LogEntry.carries id)).isSome :=
      List.find?_isSome.2 ⟨e, List.mem_of_getElem? hplace, List.find?_some hfind⟩
    obtain ⟨x, hx⟩ := Option.isSome_iff_exists.1 hsome
    rw [hx, r.find_applied hi hj hslot' hslot hfind hx]

/-- **Acknowledged writes are executed exactly once, and stably.** All `Committed` replies to
submissions under a request id, by whatever server, name the same term and index, and are for the
same command. Every server that has committed that index holds the command there, and every state
machine that has applied it has executed just that one of all entries for the request. -/
theorem acknowledged_once (r : Run) (hi : i ≤ r.length)
    (hr : (k, .write reply) ∈ (r.state i).replies) (hs : reply.status = .committed)
    (hk : (r.state i).clients[k]? = some bytes) (hd : decodeClientRequest bytes = .ok ⟨command⟩)
    (hid : command.requestId = some id) :
    (∀ j ≤ r.length, ∀ k' reply' bytes' command', (k', .write reply') ∈ (r.state j).replies →
      reply'.status = .committed → (r.state j).clients[k']? = some bytes' →
      decodeClientRequest bytes' = .ok ⟨command'⟩ → command'.requestId = some id →
        reply'.term = reply.term ∧ reply'.index = reply.index ∧ command' = command) ∧
    ∀ j ≤ r.length, ∀ n server, (r.state j).slots n = .up server →
      (reply.index ≤ server.node.commitIndex →
        server.node.log.entryAt reply.index = some ⟨reply.index, reply.term, command⟩) ∧
      (reply.index ≤ server.node.lastApplied →
        server.node.state.data = dataAfter (executed server.applied) ∧
          (executed server.applied).filter (LogEntry.carries id) =
            [⟨reply.index, reply.term, command⟩]) := by
  have hsettles := r.settles_of_committed hi hr hs hk hd hid
  refine ⟨fun j hj k' reply' bytes' command' hr' hs' hk' hd' hid' => ?_,
    fun j hj n server hslot => ⟨fun hle => ?_, fun hle => ?_⟩⟩
  · have heq := (r.settles_of_committed hj hr' hs' hk' hd' hid').unique hsettles
    obtain ⟨hindex, hterm, hcommand⟩ := LogEntry.mk.inj heq
    exact ⟨hterm, hindex, hcommand⟩
  · rw [← r.lastApplied_eq hj hslot] at hle
    exact (hsettles.applied hj hslot hle).1
  · refine ⟨(r.applied_executed hj hslot).1, ?_⟩
    rw [KvStateMachine.filter_executed, (hsettles.applied hj hslot hle).2, Option.toList_some]

/-- The first server is elected and commits a put with the second one. -/
def committedActions : List ServiceAction :=
  [.restart 1, .restart 2, .handle 1 .deadline {},
    .handle 2 (peerFrame 1 (.requestVote ⟨1, 1, 0, 0⟩) none) {},
    .handle 1 (peerFrame 2 (.requestVoteReply ⟨1, true⟩) none) {},
    .handle 1 (.accept (some putFrame)) {},
    .handle 2 (peerFrame 1 (.appendEntries electionAppend) none) {},
    .handle 1 (peerFrame 2 (.appendEntriesReply ⟨1, true⟩) (some electionAppend)) {},
    .handle 2 (peerFrame 1 (.appendEntries commandAppend) none) {},
    .handle 1 (peerFrame 2 (.appendEntriesReply ⟨1, true⟩) (some commandAppend)) {}]

set_option maxRecDepth 20000 in
theorem committedActions_possible : (committedActions.foldlM next init).isSome := by
  decide +kernel

def committedRun : Run := .ofActions committedActions committedActions_possible

set_option maxRecDepth 20000 in
theorem committedRun_applied : (match (committedRun.state 10).slots 1 with
    | .up server => decide (2 ≤ server.node.lastApplied)
    | .down _ => false) = true := by
  decide +kernel

set_option maxRecDepth 20000 in
theorem acknowledged_once_put : ∃ server, (committedRun.state 10).slots 1 = .up server ∧
    (executed server.applied).filter (LogEntry.carries ⟨List.replicate 16 1, rfl⟩) =
      [⟨2, 1, putCommand⟩] := by
  have hreply : (0, .write ⟨.committed, 1, 2, 1⟩) ∈ (committedRun.state 10).replies := by
    decide +kernel
  have hclient : (committedRun.state 10).clients[0]? = some putFrame := by decide +kernel
  have h := acknowledged_once committedRun (i := 10) le_rfl hreply rfl hclient decode_putFrame rfl
  have hup := committedRun_applied
  cases hslot : (committedRun.state 10).slots 1 with
  | down disk =>
    rw [hslot] at hup
    cases hup
  | up server =>
    rw [hslot] at hup
    exact ⟨server, rfl, ((h.2 10 le_rfl 1 server hslot).2 (of_decide_eq_true hup)).2⟩

end Service.Run

end DistributedKV
