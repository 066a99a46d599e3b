import DistributedKV.Server.History

/-!
# The servers as one store

In every run of the servers, whatever crashes and whichever messages are lost, the writes that were
acknowledged and the reads that were answered with a value can be put in an order, with some of the
operations that got no such reply, in which the store, used by one client at a time, gives the same
answers, in which an operation that was answered before another one was submitted stands before it,
and in which no write stands that was refused (`Service.Run.linearizable`).

A write has the place of its entry in the log, and a retry of a write that has been executed sees
what the log was when it was answered. A read sees the log up to the index that its value is from.
-/

namespace DistributedKV

open KvObject (Effective after)

namespace Service.Run

variable {r : Run} {r' : serverCluster.Run} {f : ℕ → ℕ} {g : ℕ → Abstract} {i j k m n s t : ℕ}
  {server server' : Server} {log : List LogEntry} {e : LogEntry} {id : RequestId}
  {bytes : Bytes} {command : Command}

/-! ## The log -/

/-- An entry that a server has applied has its place in the agreed log, and if it is the first of
its request there, it is so in all of the log. -/
theorem Agreed.find? (hlog : r.Agreed log) (hi : i ≤ r.length)
    (hslot : (r.state i).slots n = .up server)
    (hfind : server.applied.find? (LogEntry.carries id) = some e) :
    e.index ≤ server.node.commitIndex ∧
      ∀ m, e.index ≤ m → (log.take m).find? (LogEntry.carries id) = some e := by
  obtain ⟨happlied, hlength⟩ := hlog.applied hi hslot
  obtain ⟨-, term, hinv⟩ := r.applied_logInvariant hi hslot
  obtain ⟨k, hk⟩ := List.mem_iff_getElem?.1 (List.mem_of_find?_eq_some hfind)
  have hindex := hinv.index hk
  have hlt := (List.getElem?_eq_some_iff.1 hk).1
  refine ⟨by omega, fun m hm => ?_⟩
  rw [happlied] at hk hfind
  -- the first entries, up to the place and no further
  have hplace : (log.take (k + 1)).find? (LogEntry.carries id) = some e := by
    have hget : (log.take (k + 1))[k]? = some e := by
      rw [List.getElem?_take_of_lt (Nat.lt_succ_self k), ← hk, List.getElem?_take_of_lt (by omega)]
    have hsome : ((log.take (k + 1)).find? (LogEntry.carries id)).isSome :=
      List.find?_isSome.2 ⟨e, List.mem_of_getElem? hget, List.find?_some hfind⟩
    obtain ⟨x, hx⟩ := Option.isSome_iff_exists.1 hsome
    have hpre : log.take (k + 1) <+: log.take server.node.commitIndex :=
      List.take_prefix_take_left (by omega)
    rw [hx, ← hfind, hpre.find?_eq_some hx]
  exact (List.take_prefix_take_left (by omega)).find?_eq_some hplace

/-- An entry of the log that is known was created before. -/
theorem Agreed.exists_author (hlog : r.Agreed log) (ht : r.Traced r' f) (hg : r'.Ghost g)
    (he : log[m]? = some e) (hm : m < r.known t) : ∃ j < t, r.Author r' f j e := by
  obtain ⟨i, n, server, hit, hi, hslot, hlt⟩ := exists_of_lt_known hm
  have hmem : e ∈ server.node.log.log.take server.node.commitIndex := by
    rw [(hlog i hi n server hslot).1]
    exact List.mem_of_getElem? ((List.getElem?_take_of_lt hlt).trans he)
  obtain ⟨k, hk, p, hcreates⟩ :=
    hg.committed_created (ht.shadows i hi).1 (ht.slot hi hslot) e hmem
  obtain ⟨j, rfl, hauthor⟩ := ht.author hcreates
  refine ⟨j, Nat.lt_of_not_le fun hle => ?_, hauthor⟩
  have hmono := ht.mono (hit.trans hle) hauthor.lt.le
  omega

theorem Agreed.index (hlog : r.Agreed log) (he : log[m]? = some e) (hm : m < r.known t) :
    e.index = m + 1 ∧ e.command.WellFormed := by
  obtain ⟨-, term, hinv⟩ := hlog.take hm
  have hget : (log.take (m + 1))[m]? = some e :=
    (List.getElem?_take_of_lt (Nat.lt_succ_self m)).trans he
  exact ⟨hinv.index hget, hinv.wellFormed e (List.mem_of_getElem? hget)⟩

theorem Agreed.getElem? (hlog : r.Agreed log) (hm : m < r.known t) : ∃ e, log[m]? = some e := by
  obtain ⟨hle, -⟩ := hlog.take hm
  exact ⟨_, List.getElem?_eq_getElem hle⟩

/-! ## Replies -/

/-- The client that is answered. -/
theorem Answers.le {reply : ClientReply} (h : r.Answers t k reply) (ha : r.Accepts j n k bytes) :
    j ≤ t := by
  obtain ⟨s, hs, p, bytes', ha', -⟩ := h.accepted
  rwa [(ha.unique ha').1]

/-- Only a submission is acknowledged. -/
theorem Answers.decoded {reply : ClientWriteReply} (h : r.Answers t k (.write reply))
    (hs : reply.status = .committed) (ha : r.Accepts j n k bytes) :
    ∃ command, decodeClientRequest bytes = .ok ⟨command⟩ := by
  have hclient := ha.client (Nat.lt_succ_of_le (h.le ha)) h.replies.1
  obtain ⟨p, event, faults, before, after, hh, hr⟩ := h
  cases hh.stepEnd.writeAnswer hh.invariant rfl hr with
  | @immediate bytes' _ hevent himm hn hw =>
    subst hevent
    obtain rfl := hh.frame himm.client (Nat.lt_succ_self t) hh.lt hclient
    cases himm with
    | malformedWrite | notLeaderWrite | conflictingWrite | busyWrite => cases hs
    | priorWrite _ hd => exact ⟨_, hd⟩
  | refused _ _ _ hne => exact absurd hs hne
  | unknown hunknown => rcases hunknown with h | h <;> simp [h] at hs
  | @applied _ index pending hp hk =>
    obtain ⟨bytes', hb, hd⟩ := (r.awaits hh.lt.le hh.slot ⟨index, pending, hp, hk, rfl⟩).client
    obtain rfl := Option.some.inj
      ((Replication.getElem?_of_prefix (r.clients_mono (Nat.le_succ t) hh.lt) hb).symm.trans
        hclient)
    exact ⟨_, hd⟩

/-- **An acknowledged write** has an entry in the log that is the first of its request and that is
known when the reply is sent. -/
theorem Answers.committed {reply : ClientWriteReply} (h : r.Answers t k (.write reply))
    (hs : reply.status = .committed) (ha : r.Accepts j n k bytes) (hlog : r.Agreed log) :
    ∃ command id e, decodeClientRequest bytes = .ok ⟨command⟩ ∧ command.requestId = some id ∧
      e.command = command ∧ e.index ≤ r.known (t + 1) ∧
        ∀ m, e.index ≤ m → (log.take m).find? (LogEntry.carries id) = some e := by
  obtain ⟨command, hd⟩ := h.decoded hs ha
  obtain ⟨id, hid⟩ := Option.ne_none_iff_exists'.1 (encodable_of_decodeClientRequest hd).2.1
  obtain ⟨ht, new, hnew, hmem⟩ := h.replies
  have hreply : (k, .write reply) ∈ ((r.upTo ht).state (t + 1)).replies := by
    change _ ∈ (r.state (t + 1)).replies
    rw [hnew]
    exact List.mem_append_right _ hmem
  have hclient := ha.client (Nat.lt_succ_of_le (h.le ha)) ht
  -- the run up to the reply knows why it is sent
  obtain ⟨i, hi, p, server, hslot, hfind⟩ :=
    settles_of_committed (r.upTo ht) le_rfl hreply hs hclient hd hid
  have hi : i ≤ t + 1 := hi
  obtain ⟨hle, hall⟩ := hlog.find? (hi.trans ht) hslot hfind
  exact ⟨command, id, _, hd, hid, rfl, hle.trans (r.le_known (hi.trans ht) hi hslot), hall⟩

/-- **A read that is answered** sees a front of the log that was known when the reply is sent, and
that has all that was known when the request came. -/
theorem Answers.seen {reply : ClientReadReply} (h : r.Answers t k (.read reply))
    (hs : Server.Tells reply) (ha : r.Accepts j n k bytes) (hlog : r.Agreed log) :
    ∃ key m, bytes[1]? = some 7 ∧ decodeClientReadRequest bytes = .ok ⟨key⟩ ∧ r.known j ≤ m ∧
      m ≤ r.known (t + 1) ∧ reply.value = (after (log.take m)).data key := by
  obtain ⟨r', f, ht⟩ := r.exists_trace
  obtain ⟨g, hg⟩ := r'.exists_ghost
  obtain ⟨p, event, faults, before, after', hh, hr⟩ := h
  obtain ⟨c, ready, pending, hread⟩ := (hh.stepEnd.readAnswer rfl (fun _ => hh.not_ready)
    hr).resolve_left fun hrefuses => hrefuses.1 hs
  have hreport := ht.reports hg hh hread
  -- the read was started by the same process, for the same client
  obtain ⟨s, hst, ⟨event₀, faults₀, before₀, after₀, hh₀, hb⟩, hup⟩ :=
    r.exists_began hh.lt.le hh.slot hread.waiting
  obtain ⟨hsucc, hstart⟩ := ht.starts hg hh₀ hb
  have hlt : f s < f t := by
    have hle : f (s + 1) ≤ f t := ht.mono hst hh.lt.le
    omega
  have hall := hg.reports hstart hlt (ht.stays hh₀.lt.le hh.lt.le hup) hreport hread.reported rfl
  have happlied : ready.index ≤ after'.node.lastApplied := hread.node ▸ hall.applied
  obtain ⟨bytes', rfl, hkind, hd⟩ := hb.frame
  have haccepts : r.Accepts s p k bytes' :=
    ⟨hh₀.lt, hb.connection.symm.trans hread.client.symm,
      by rw [Server.Event.client, if_pos (Or.inr (Or.inl hkind))], faults₀, by
        rw [hh₀.action]
        rfl⟩
  obtain ⟨rfl, rfl, rfl⟩ := ha.unique haccepts
  obtain ⟨_, _, _, _, hh', -, m, hindex, hm, hvalue, -⟩ :=
    replies_of_readAnswer hlog hh hr hread.answer happlied
  have hle : m ≤ r.known (t + 1) := hm.trans (r.le_known hh'.lt le_rfl hh'.slot')
  refine ⟨pending.key, m, hkind, hd, Nat.le_of_not_lt fun hless => ?_, hle, ?_⟩
  · -- someone had committed more when the request came
    obtain ⟨i, q, server, hij, hi, hslot, hcommit⟩ := exists_of_lt_known hless
    have hcovers := hall.covers _ (ht.commits hh₀.lt.le ⟨q, server, rfl, Or.inl ⟨i, hij, hslot⟩⟩)
    rw [hread.answer] at hindex
    have hindex : ready.index ≤ m := hindex
    omega
  · obtain ⟨-, term, hinv⟩ := hlog.take hle
    rw [hvalue]
    exact congrFun (KvStateMachine.replay_executed hinv.wellFormed hinv.index).1 _

/-! ## The order -/

/-- The frame of a submission is no read request. -/
theorem kind_of_decodeClientRequest (h : decodeClientRequest bytes = .ok ⟨command⟩) :
    bytes[1]? = some 5 := by
  obtain ⟨-, -, commandBytes, -, rfl, -⟩ :=
    encodeClientRequest_eq_ok_iff.1 (decodeClientRequest_eq_ok_iff.1 h)
  rfl

theorem Accepts.step_unique {p k' : ℕ} {bytes' : Bytes} (h : r.Accepts j n k bytes)
    (h' : r.Accepts j p k' bytes') : k' = k ∧ bytes' = bytes := by
  have hk : k' = k := h'.number.symm.trans h.number
  subst hk
  exact ⟨rfl, (h'.unique h).2.2⟩

/-- Who has submitted an entry and is answered gets the answer to the submission. -/
theorem Author.accepts (h : r.Author r' f j e) (he : e.command ≠ {}) (ha : r.Accepts j n k bytes) :
    decodeClientRequest bytes = .ok ⟨e.command⟩ := by
  rcases h.calls with hnoOp | hcalls
  · exact absurd hnoOp he
  generalize hop : KvOperation.write e.command = operation at hcalls
  cases hcalls with
  | write ha' hd =>
    obtain ⟨-, rfl⟩ := ha.step_unique ha'
    rw [KvOperation.write.inj hop]
    exact hd
  | read => cases hop
  | console _ hact =>
    obtain ⟨faults, ha'⟩ := ha.action
    rw [hact] at ha'
    cases ha'

theorem known_le (r : Run) (t : ℕ) : r.known t ≤ r.known r.length :=
  Finset.sup_mono (Finset.product_subset_product_left
    (Finset.range_mono (by omega : min t r.length + 1 ≤ min r.length r.length + 1)))

/-- Who submits the entries of the log. -/
structure Authors (r : Run) (log : List LogEntry) (r' : serverCluster.Run) (f : ℕ → ℕ)
    (author : ℕ → ℕ) : Prop where
  agreed : r.Agreed log
  traced : r.Traced r' f
  ghost : ∃ g, r'.Ghost g
  author : ∀ m < r.known r.length, ∀ e, log[m]? = some e → r.Author r' f (author m) e

/-- The operation of an entry. -/
def owner (log : List LogEntry) (author : ℕ → ℕ) (m : ℕ) :
    Option (Performed ℕ KvOperation KvAnswer) :=
  match log[m]? with
  | some e => if Effective log m e then some ⟨author m, .write e.command, .done⟩ else none
  | none => none

variable {author : ℕ → ℕ} {x : Performed ℕ KvOperation KvAnswer}

theorem effective_of_owner (h : owner log author m = some x) :
    ∃ e, Effective log m e ∧ x = ⟨author m, .write e.command, .done⟩ := by
  unfold owner at h
  cases he : log[m]? with
  | none => simp [he] at h
  | some e =>
    simp only [he] at h
    split_ifs at h with heffective
    exact ⟨e, heffective, (Option.some.inj h).symm⟩

namespace Authors

variable (h : r.Authors log r' f author)

include h

theorem state_succ (hm : m < r.known r.length) (hnone : owner log author m = none) :
    after (log.take (m + 1)) = after (log.take m) := by
  obtain ⟨e, he⟩ := h.agreed.getElem? hm
  refine KvObject.after_of_not_effective he fun heffective => ?_
  simp [owner, he, heffective] at hnone

theorem step_owner (hm : m < r.known r.length) (hx : owner log author m = some x) :
    KvObject.object.step (after (log.take m)) x.operation = (after (log.take (m + 1)), x.answer) := by
  obtain ⟨e, he, rfl⟩ := effective_of_owner hx
  exact he.perform (h.agreed.index he.get hm).2

theorem calls_owner (hm : m < r.known r.length) (hx : owner log author m = some x) :
    r.Calls x.name x.operation := by
  obtain ⟨e, he, rfl⟩ := effective_of_owner hx
  exact (h.author m hm e he.get).calls.resolve_left he.write

/-- A refused write is none of those that have an effect. -/
theorem refuses_owner (hm : m < r.known r.length) (hx : owner log author m = some x) :
    ¬ r.history.Refuses x.name := by
  obtain ⟨e, he, rfl⟩ := effective_of_owner hx
  rintro ⟨n, k, bytes, t, reply, haccepts, hanswers, hrefuses⟩
  obtain ⟨ht, new, hnew, hmem⟩ := hanswers.replies
  have hreply : (k, reply) ∈ (r.state (t + 1)).replies := by
    rw [hnew]
    exact List.mem_append_right _ hmem
  cases reply with
  | write reply =>
    obtain ⟨i, p, server, -, hi, hslot, hlt⟩ := exists_of_lt_known hm
    refine r.refused_carries ht hreply hrefuses
      ((h.author m hm e he.get).carries n k bytes haccepts) hi hslot ?_
    rw [(h.agreed.applied hi hslot).1]
    exact he.mem_executed hlt
  | read | status => exact hrefuses

theorem owner_injective (hm : m < r.known r.length) (hk : k < r.known r.length)
    {y : Performed ℕ KvOperation KvAnswer} (hx : owner log author m = some x)
    (hy : owner log author k = some y) (hname : x.name = y.name) : m = k := by
  obtain ⟨e, he, rfl⟩ := effective_of_owner hx
  obtain ⟨e', he', rfl⟩ := effective_of_owner hy
  have hauthor := h.author m hm e he.get
  rw [show author m = author k from hname] at hauthor
  obtain rfl := hauthor.unique (h.author k hk e' he'.get)
  have hindex := (h.agreed.index he.get hm).1
  have hindex' := (h.agreed.index he'.get hk).1
  omega

/-- An entry is known only after it was submitted. -/
theorem known_owner (hm : m < r.known r.length) (hx : owner log author m = some x) :
    r.known x.name ≤ m := by
  obtain ⟨e, he, rfl⟩ := effective_of_owner hx
  obtain ⟨g, hg⟩ := h.ghost
  refine Nat.le_of_not_lt fun hlt => ?_
  obtain ⟨j, hj, hauthor⟩ := h.agreed.exists_author h.traced hg he.get hlt
  have heq := hauthor.step_unique h.traced hg (h.author m hm e he.get)
  dsimp only at hj
  omega

/-- The submission whose entry has an effect is answered after the entry is known. -/
theorem returns_owner (hm : m < r.known r.length) (hx : owner log author m = some x)
    {answer : KvAnswer} (hreturns : r.history.Returns x.name answer t) :
    x.answer = answer ∧ m < r.known (t + 1) := by
  obtain ⟨e, he, rfl⟩ := effective_of_owner hx
  obtain ⟨n, k, bytes, reply, haccepts, hanswers, houtcome⟩ := hreturns
  have hdecode := (h.author m hm e he.get).accepts he.write haccepts
  cases reply with
  | write reply =>
    unfold ClientReply.outcome at houtcome
    dsimp only at houtcome
    split_ifs at houtcome with hs
    refine ⟨Option.some.inj houtcome, ?_⟩
    obtain ⟨command, id, e', hd, hid, rfl, hknown, hall⟩ :=
      hanswers.committed hs haccepts h.agreed
    -- both entries are the first of the request
    rw [hdecode] at hd
    rw [← ClientWriteRequest.mk.inj (Except.ok.inj hd)] at hid
    have hfind := he.find? hid (Nat.lt_of_lt_of_le (Nat.lt_succ_self m) (le_max_left _ e'.index))
    rw [hall _ (le_max_right _ _)] at hfind
    obtain rfl := Option.some.inj hfind
    have hindex := (h.agreed.index he.get hm).1
    omega
  | read reply =>
    unfold ClientReply.outcome at houtcome
    dsimp only at houtcome
    split_ifs at houtcome with hs
    obtain ⟨-, -, hkind, -⟩ := hanswers.seen hs haccepts h.agreed
    rw [kind_of_decodeClientRequest hdecode] at hkind
    cases hkind
  | status => cases houtcome

end Authors

/-- A reply that refuses tells nothing else. -/
theorem outcome_of_refuses {reply : ClientReply} (h : reply.Refuses) : reply.outcome = none := by
  cases reply with
  | write reply => rcases h with h | h | h <;> simp [ClientReply.outcome, h]
  | read | status => cases h

/-- An operation returns once. -/
theorem returns_unique {answer : KvAnswer} (h : r.history.Returns j answer t) :
    j ≤ t ∧ ¬ r.history.Refuses j ∧ ∀ answer' t', r.history.Returns j answer' t' →
      answer' = answer ∧ t' = t := by
  obtain ⟨n, k, bytes, reply, haccepts, hanswers, houtcome⟩ := h
  refine ⟨hanswers.le haccepts, ?_, ?_⟩
  · rintro ⟨n', k', bytes', t', reply', haccepts', hanswers', hrefuses⟩
    obtain ⟨rfl, -⟩ := haccepts.step_unique haccepts'
    obtain ⟨-, rfl⟩ := hanswers.unique hanswers'
    rw [outcome_of_refuses hrefuses] at houtcome
    cases houtcome
  · rintro answer' t' ⟨n', k', bytes', reply', haccepts', hanswers', houtcome'⟩
    obtain ⟨rfl, -⟩ := haccepts.step_unique haccepts'
    obtain ⟨rfl, rfl⟩ := hanswers.unique hanswers'
    exact ⟨Option.some.inj (houtcome'.symm.trans houtcome), rfl⟩

/-- **What an answered operation sees.** -/
theorem Agreed.returns_sees (hlog : r.Agreed log) {answer : KvAnswer}
    (h : r.history.Returns j answer t) : ∃ m, r.known j ≤ m ∧ m ≤ r.known (t + 1) ∧
      ∃ operation, r.Calls j operation ∧
        KvObject.object.step (after (log.take m)) operation = (after (log.take m), answer) := by
  obtain ⟨n, k, bytes, reply, haccepts, hanswers, houtcome⟩ := h
  cases reply with
  | write reply =>
    unfold ClientReply.outcome at houtcome
    dsimp only at houtcome
    split_ifs at houtcome with hs
    obtain rfl := Option.some.inj houtcome
    obtain ⟨command, id, e, hd, hid, rfl, hknown, hall⟩ := hanswers.committed hs haccepts hlog
    have hmono : r.known j ≤ r.known (t + 1) :=
      r.known_mono ((hanswers.le haccepts).trans (Nat.le_succ t))
    refine ⟨max e.index (r.known j), le_max_right _ _, max_le hknown hmono, _,
      .write haccepts hd, KvObject.perform_repeated hid ?_⟩
    rw [KvObject.done_after, hall _ (le_max_left _ _), Option.map_some]
  | read reply =>
    unfold ClientReply.outcome at houtcome
    dsimp only at houtcome
    split_ifs at houtcome with hs
    obtain rfl := Option.some.inj houtcome
    obtain ⟨key, m, -, hd, hbase, hle, hvalue⟩ := hanswers.seen hs haccepts hlog
    refine ⟨m, hbase, hle, _, .read haccepts hd, ?_⟩
    rw [hvalue]
    rfl
  | status => cases houtcome

/-- The operations of the run in the log. -/
def Authors.logOrder (h : r.Authors log r' f author) : LogOrder KvObject.object r.history where
  size := r.known r.length
  state m := after (log.take m)
  owner := owner log author
  known := r.known
  names := List.range r.length
  state_zero := KvObject.after_nil
  state_succ _ := h.state_succ
  step_owner _ hm _ := h.step_owner hm
  calls_owner _ hm _ := h.calls_owner hm
  refuses_owner _ hm _ := h.refuses_owner hm
  owner_injective _ hm _ hk _ _ := h.owner_injective hm hk
  known_mono := r.known_mono
  known_le := r.known_le
  known_owner _ hm _ := h.known_owner hm
  returns_owner _ hm _ hx _ _ := h.returns_owner hm hx
  returns_unique _ _ _ := returns_unique
  returns_sees _ _ _ hreturns := Or.inr (h.agreed.returns_sees hreturns)
  mem_names _ _ hcalls := by
    cases hcalls with
    | write ha | read ha => exact List.mem_range.2 ha.lt
    | console hj => exact List.mem_range.2 hj
  nodup_names := List.nodup_range
  sorted_names := List.pairwise_lt_range.imp Nat.le_of_lt

/-- **The servers are one linearizable store.** -/
theorem linearizable (r : Run) : ∃ order, r.history.Linearizes KvObject.object order := by
  obtain ⟨log, hlog⟩ := r.exists_agreed
  obtain ⟨r', f, ht⟩ := r.exists_trace
  obtain ⟨g, hg⟩ := r'.exists_ghost
  have hauthor : ∀ m, ∃ j, m < r.known r.length → ∀ e, log[m]? = some e → r.Author r' f j e := by
    intro m
    by_cases hm : m < r.known r.length
    · obtain ⟨e, he⟩ := hlog.getElem? hm
      obtain ⟨j, -, hj⟩ := hlog.exists_author ht hg he hm
      exact ⟨j, fun _ e' he' => Option.some.inj (he.symm.trans he') ▸ hj⟩
    · exact ⟨0, fun hlt => absurd hlt hm⟩
  choose author hauthor using hauthor
  have h : r.Authors log r' f author := ⟨hlog, ht, ⟨g, hg⟩, hauthor⟩
  exact ⟨_, h.logOrder.linearizes⟩

end Service.Run

end DistributedKV
