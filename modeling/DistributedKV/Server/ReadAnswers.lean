import Mathlib.Data.Finset.Max
import DistributedKV.Cluster.Reading
import DistributedKV.Server.Acknowledgements

/-!
# What a client is told about a read

A read is answered with the value that the server finds when its node reports the read. The read
was started when the client's request arrived, by the same process, so what was committed by then
is part of what the server has applied (`Service.Run.reads_linearizable`).
-/

namespace DistributedKV

open RaftNodeResult
open Session (peerFrame)

namespace Server

variable {server server' : Server} {connection k id : ℕ} {faults : Faults} {event : Event}
  {reply : ClientReadReply} {pending : PendingRead}

/-! ## Replies -/

/-- The reply tells about the value of a key. -/
def Tells (reply : ClientReadReply) : Prop := reply.status = .found ∨ reply.status = .notFound

/-- The reply tells nothing about the value of a key. -/
def Refuses (reply : ClientReadReply) : Prop := ¬ Tells reply ∧ reply.value = none

theorem refuses_of_status {status : ClientReadStatus} {term index hint : ℕ}
    (h : status ≠ .found ∧ status ≠ .notFound) : Refuses ⟨status, term, index, hint, none⟩ :=
  ⟨fun ht => ht.elim h.1 h.2, rfl⟩

/-- The replies to reads among the answers to pending requests. -/
theorem Drains.readReply {result : RaftNodeResult} (h : Drains result server server')
    (hr : (k, .read reply) ∈ server'.replies) :
    (k, .read reply) ∈ server.replies ∨ Refuses reply ∨ ∃ ready pending,
      ready ∈ readyReads result ∧ (ready.id, pending) ∈ server.pendingReads ∧
      k = pending.connection ∧ reply = server.readReply pending ready := by
  obtain ⟨new, hnew, hanswer⟩ := h.replies
  rw [hnew, List.mem_append] at hr
  refine hr.imp_right fun hr => ?_
  have hx := hanswer _ hr
  revert hx
  generalize hpair : (k, ClientReply.read reply) = pair
  rintro (⟨hp, hc⟩ | ⟨hp, hc, -, hres, hi⟩ | ⟨hp, hs, term⟩ | ⟨hp, -, hres, hx⟩)
  · cases (Prod.mk.inj hpair).2
  · cases (Prod.mk.inj hpair).2
  · obtain ⟨-, hreply⟩ := Prod.mk.inj hpair
    rw [ClientReply.read.inj hreply]
    refine Or.inl (refuses_of_status ?_)
    rcases hs with rfl | rfl <;> simp
  · obtain ⟨rfl, hreply⟩ := Prod.mk.inj hpair
    subst hres
    exact Or.inr ⟨_, _, hx, hp, rfl, ClientReply.read.inj hreply⟩

/-- What a reply with a value is based on: the node has reported a pending read. -/
structure ReadAnswer (server : Server) (faults : Faults) (event : Event) (server' : Server)
    (k : ℕ) (reply : ClientReadReply) (c : NodeCall) (ready : ReadyRead) (pending : PendingRead) :
    Prop where
  feeds : ∃ input, server.Feeds event input ∧ input.call = some c
  reported : ready ∈ readyReads (server.resultOf faults c)
  waiting : (ready.id, pending) ∈ server.pendingReads
  client : k = pending.connection
  answer : reply = server'.readReply pending ready
  node : server'.node = (server.called faults c).node

/-- **Every reply that tells about a key** comes from a read that the node reports. -/
theorem StepEnd.readAnswer (hnone : server.replies = [])
    (hready : ∀ c, (∃ x, x ∈ readyReads (server.resultOf faults c)) →
      c ≠ .readBarrier ∧ ∀ command, c ≠ .propose command)
    (h : StepEnd server connection faults event server')
    (hr : (k, .read reply) ∈ server'.replies) : Refuses reply ∨
      ∃ c ready pending, ReadAnswer server faults event server' k reply c ready pending := by
  have hempty : ∀ {x}, x ∉ server.replies := fun hx => by simp [hnone] at hx
  cases h with
  | quiet _ hsame => exact absurd (hsame.replies ▸ hr) hempty
  | @performed _ _ input c hfeeds hc _ hsame =>
    rw [hsame.replies] at hr
    rcases (process_drains _ _ _).readReply hr with
      hold | hrefuses | ⟨ready, pending, hx, hp, hk, rfl⟩
    · exact absurd hold hempty
    · exact Or.inl hrefuses
    · have hnode := hsame.node.trans (node_process _ _ _)
      refine Or.inr ⟨c, ready, pending, ⟨_, hfeeds, hc⟩, hx, hp, hk, ?_, hnode⟩
      rw [readReply, readReply, hnode]
  | drained =>
    have hdrains : Drains (.error .stopped) server server.failPending := failPending_drains server
    rcases hdrains.readReply hr with hold | hrefuses | ⟨ready, pending, hx, -⟩
    · exact absurd hold hempty
    · exact Or.inl hrefuses
    · cases hx
  | answered himm =>
    obtain ⟨rfl, heq⟩ := Prod.mk.inj (eq_of_mem_reply hnone hr)
    subst heq
    cases himm <;> exact Or.inl (refuses_of_status (by simp))
  | joined => exact absurd hr hempty
  | @refused bytes c _ hc href =>
    obtain ⟨rfl, heq⟩ := Prod.mk.inj (eq_of_mem_reply hnone hr)
    subst heq
    generalize server.resultOf faults c = result at href
    cases href <;> exact Or.inl (refuses_of_status (by simp))
  | @failed bytes c e answer hc he hfail =>
    rcases (process_drains _ _ _).readReply hr with hold | hrefuses | ⟨ready, pending, hx, -⟩
    · obtain ⟨-, heq⟩ := Prod.mk.inj (eq_of_mem_reply hnone hold)
      subst heq
      cases hfail
      exact Or.inl (refuses_of_status (by simp))
    · exact Or.inl hrefuses
    · cases hx
  | @proposed bytes command actions index hc ha hi =>
    rcases (process_drains _ _ _).readReply hr with hold | hrefuses | ⟨ready, pending, hx, -⟩
    · exact absurd hold hempty
    · exact Or.inl hrefuses
    · exact absurd rfl ((hready _ ⟨ready, ha ▸ hx⟩).2 command)
  | @reading bytes key actions id hc hd ha hi =>
    rcases (process_drains _ _ _).readReply hr with hold | hrefuses | ⟨ready, pending, hx, -⟩
    · exact absurd hold hempty
    · exact Or.inl hrefuses
    · exact absurd rfl (hready _ ⟨ready, ha ▸ hx⟩).1

/-! ## Pending reads -/

/-- The client of the event has come to wait for the read, which the node has started for it. -/
structure Begins (server : Server) (connection : ℕ) (faults : Faults) (event : Event)
    (server' : Server) (id : ℕ) (pending : PendingRead) : Prop where
  connection : pending.connection = connection
  frame : ∃ bytes, event = .accept (some bytes) ∧ bytes[1]? = some 7 ∧
    decodeClientReadRequest bytes = .ok ⟨pending.key⟩
  started : startedReadId (server.resultOf faults .readBarrier) = some id
  node : server'.node = (server.called faults .readBarrier).node

/-- **Which reads are pending after a step**: they were before, or the step has begun them. -/
theorem StepEnd.pendingRead (h : StepEnd server connection faults event server')
    (hp : (id, pending) ∈ server'.pendingReads) : (id, pending) ∈ server.pendingReads ∨
      server.Begins connection faults event server' id pending := by
  cases h with
  | quiet _ hsame => exact Or.inl (hsame.pendingReads ▸ hp)
  | @performed _ _ input c _ _ _ hsame =>
    rw [hsame.pendingReads] at hp
    have hold := (process_drains _ _ _).reads _ hp
    exact Or.inl hold
  | drained => cases hp
  | answered => exact Or.inl hp
  | joined => exact Or.inl hp
  | refused => exact Or.inl hp
  | failed =>
    have hold := (process_drains _ _ _).reads _ hp
    exact Or.inl hold
  | proposed =>
    have hold := (process_drains _ _ _).reads _ hp
    exact Or.inl hold
  | @reading bytes key actions id' hc hd ha hi =>
    rcases OrderedMap.mem_emplace ((process_drains _ _ _).reads _ hp) with heq | hold
    · obtain ⟨rfl, rfl⟩ := Prod.mk.inj heq
      have hb : bytes[1]? = some 7 := by
        cases hc with
        | read hb => exact hb
      refine Or.inr ⟨rfl, ⟨bytes, rfl, hb, hd⟩, ?_, node_process _ _ _⟩
      rw [ha]
      exact hi
    · exact Or.inl hold

/-- An event that is no client's feeds the node one input at most that is a message. -/
theorem Feeds.unique_deliver {input input' : Input} {envelope : Envelope}
    (h : server.Feeds event input) (h' : server.Feeds event input')
    (hi : input = .deliver envelope) : input' = input := by
  subst hi
  cases h with
  | peer hclient hd =>
    cases h' with
    | peer hclient' hd' => rw [Except.ok.inj (hd.symm.trans hd')]
    | write hb => simp [Event.client, hb] at hclient
    | read hb => simp [Event.client, hb] at hclient

/-- The frame of a read request feeds the node a read barrier. -/
theorem Feeds.eq_readBarrier {input : Input} {bytes : Bytes}
    (h : server.Feeds (.accept (some bytes)) input) (hb : bytes[1]? = some 7) :
    input = .readBarrier := by
  cases h with
  | read => rfl
  | write hb' => simp [hb] at hb'
  | peer hclient => simp [Event.client, hb] at hclient

end Server

open Replication (CommittedBy)

namespace Service.Run

variable {r : Run} {r' : serverCluster.Run} {f : ℕ → ℕ} {g : ℕ → Abstract} {i j n k s id : ℕ}
  {server server' : Server} {event : Server.Event} {faults : Faults} {pending : PendingRead}

/-! ## The calls of the nodes -/

/-- The states of the nodes are those inside the states of the servers. -/
theorem Traced.exists_index (h : r.Traced r' f) (hj : j ≤ r.length) {m : ℕ} (hm : m ≤ f j) :
    ∃ i ≤ j, f i = m := by
  induction j with
  | zero =>
    rw [h.zero] at hm
    exact ⟨0, le_rfl, h.zero.trans (Nat.le_zero.1 hm).symm⟩
  | succ j ih =>
    by_cases hle : m ≤ f j
    · obtain ⟨i, hi, him⟩ := ih (by omega) hle
      exact ⟨i, by omega, him⟩
    · refine ⟨j + 1, le_rfl, ?_⟩
      rcases h.step j hj with heq | ⟨heq, -⟩ <;> omega

/-- **An event that changes the node of its server is a call of the node.** -/
theorem Traced.call (h : r.Traced r' f) (hi : i < r.length)
    (ha : (r.action i).handler = some (n, event, faults))
    (hslot : (r.state i).slots n = .up server)
    (hstep : server.step (r.state i).clients.length faults event = some server')
    (hne : server'.node ≠ server.node) : f (i + 1) = f i + 1 ∧ ∃ input c,
      server.silent.Feeds event input ∧ input.call = some c ∧
        server'.node = ((server.node.withFaults faults).call c).1 ∧
          r'.Handles (f i) n (server.node.withFaults faults) c := by
  obtain ⟨hle, hshadows⟩ := h.shadows i hi.le
  obtain ⟨hle', hshadows'⟩ := h.shadows (i + 1) hi
  have hup := hshadows.up hslot
  rcases h.step i hi with hsame | ⟨hsucc, htraces⟩
  · -- the node has not moved, but the server's slot has another node or none
    refine absurd ?_ hne
    rw [hsame] at hshadows'
    have hslots := hshadows'.slots n
    rw [hup] at hslots
    have hnext := step_of_next (r.next_state i hi)
    generalize r.state (i + 1) = w at hnext hslots
    generalize hact : r.action i = action at hnext ha
    cases hnext with
    | handle faults' hslot' _ hstep' =>
      obtain ⟨rfl, rfl, rfl⟩ := (by simpa [ServiceAction.handler] using ha : _ ∧ _ ∧ _)
      obtain rfl := ServerSlot.up.inj (hslot.symm.trans hslot')
      obtain rfl := Option.some.inj (hstep.symm.trans hstep')
      dsimp only at hslots
      rw [setSlot_self] at hslots
      exact (Slot.up.inj hslots).symm
    | crash faults' hslot' _ hstep' =>
      obtain ⟨rfl, rfl, rfl⟩ := (by simpa [ServiceAction.handler] using ha : _ ∧ _ ∧ _)
      dsimp only at hslots
      rw [setSlot_self] at hslots
      cases hslots
    | halt | restart => cases ha
  · obtain ⟨input, c, hhandler, hfeeds, hc, hn⟩ := htraces.call n event faults server server' ha
      hslot hstep hne
    exact ⟨hsucc, input, c, hfeeds, hc, hn, by omega, server.node, input, faults, hhandler, hup, hc,
      rfl⟩

/-! ## From the request to the reply -/

/-- Only the reply to a probe makes a node report a read. -/
theorem Handles.not_ready (hh : r.Handles j n event faults server server') {c : NodeCall}
    (hx : ∃ x, x ∈ readyReads (server.silent.resultOf faults c)) :
    c ≠ .readBarrier ∧ ∀ command, c ≠ .propose command := by
  obtain ⟨x, hx⟩ := hx
  obtain ⟨-, s, hok⟩ := r.nodeOk hh.lt.le hh.slot
  obtain ⟨_, _, _, rfl, -⟩ := ((hok.withFaults faults).callFacts c).ready x hx
  exact ⟨NodeCall.noConfusion, fun command => NodeCall.noConfusion⟩

/-- In step `s`, server `n` has started the pending read for the client of the step, and it has
been up from then on until state `i`. -/
structure Began (r : Run) (s i n id : ℕ) (pending : PendingRead) : Prop where
  lt : s < i
  begins : ∃ event faults server server', r.Handles s n event faults server server' ∧
    server.silent.Begins (r.state s).clients.length faults event server' id pending
  up : ∀ m, s < m → m ≤ i → ∃ server, (r.state m).slots n = .up server

/-- **Every pending read has been started by the process in which it is pending.** -/
theorem exists_began (r : Run) (hi : i ≤ r.length) (hslot : (r.state i).slots n = .up server)
    (hp : (id, pending) ∈ server.pendingReads) : ∃ s, r.Began s i n id pending := by
  induction i generalizing server with
  | zero =>
    rw [r.state_zero] at hslot
    cases hslot
  | succ i ih =>
    -- a read that was pending before
    have hold : ∀ {before : Server}, (r.state i).slots n = .up before →
        (id, pending) ∈ before.pendingReads → ∃ s, r.Began s (i + 1) n id pending := by
      intro before hslot₀ hp
      obtain ⟨s, hlt, hbegins, hup⟩ := ih (by omega) hslot₀ hp
      refine ⟨s, by omega, hbegins, fun m h1 h2 => ?_⟩
      rcases Nat.lt_or_eq_of_le h2 with hlt | rfl
      · exact hup m h1 (Nat.le_of_lt_succ hlt)
      · exact ⟨server, hslot⟩
    rcases r.slot_succ hi hslot with hsame | ⟨event, faults, before, hh⟩ | ⟨node, rfl⟩
    · exact hold hsame hp
    · rcases hh.stepEnd.pendingRead hp with hbefore | hbegins
      · exact hold hh.slot hbefore
      · refine ⟨i, Nat.lt_succ_self i, ⟨event, faults, before, server, hh, hbegins⟩,
          fun m h1 h2 => ?_⟩
        obtain rfl : m = i + 1 := by omega
        exact ⟨server, hslot⟩
    · cases hp

/-- The process of a server that has been up is the process of its node. -/
theorem Traced.stays (h : r.Traced r' f) (hs : s ≤ r.length) (hj : j ≤ r.length)
    (hup : ∀ m, s < m → m ≤ j → ∃ server, (r.state m).slots n = .up server) :
    r'.Stays (f s) (f j) n := by
  intro m h1 h2
  obtain ⟨i, hij, rfl⟩ := h.exists_index hj h2
  have hsi : s < i := by
    by_contra hle
    exact absurd h1 (Nat.not_lt.2 (h.mono (Nat.le_of_not_lt hle) hs))
  obtain ⟨server, hslot⟩ := hup i hsi hij
  exact ⟨server.node, h.slot (hij.trans hj) hslot⟩

/-- A server that starts a read makes its node start it. -/
theorem Traced.starts (h : r.Traced r' f) (hg : r'.Ghost g)
    (hh : r.Handles s n event faults server server')
    (hb : server.silent.Begins k faults event server' id pending) : f (s + 1) = f s + 1 ∧
      r'.Starts (f s) n id (server.node.withFaults faults) := by
  obtain ⟨bytes, rfl, hkind, -⟩ := hb.frame
  have hok := (hg.slot (h.shadows s hh.lt.le).1 (h.slot hh.lt.le hh.slot)).2.withFaults faults
  have hids := r'.readIds (f s) (h.shadows s hh.lt.le).1 (h.slot hh.lt.le hh.slot)
  have hissued := (hok.callFacts .readBarrier).issued_started hids.lt hb.started
  have hne : server'.node ≠ server.node := by
    intro heq
    have hnew : server'.node.Issued id := hb.node ▸ hissued.1
    rw [heq] at hnew
    exact hissued.2 hnew
  obtain ⟨hsucc, input, c, hfeeds, hc, -, hhandles⟩ :=
    h.call hh.lt (hh.action ▸ rfl) hh.slot hh.step hne
  obtain rfl := hfeeds.eq_readBarrier hkind
  obtain rfl := Option.some.inj hc
  exact ⟨hsucc, hhandles, hb.started⟩

/-- A server that answers a read makes its node report it. -/
theorem Traced.reports (h : r.Traced r' f) (hg : r'.Ghost g)
    (hh : r.Handles j n event faults server server') {reply : ClientReadReply} {c : NodeCall}
    {ready : ReadyRead}
    (ha : server.silent.ReadAnswer faults event server' k reply c ready pending) :
    r'.Handles (f j) n (server.node.withFaults faults) c := by
  have hok := (hg.slot (h.shadows j hh.lt.le).1 (h.slot hh.lt.le hh.slot)).2.withFaults faults
  obtain ⟨peerId, sent, answer, hcall, -, -, -, -, -, -, hbefore, hafter, -⟩ :=
    (hok.callFacts c).ready ready ha.reported
  have hne : server'.node ≠ server.node := by
    intro heq
    have hnode : server'.node = ((server.node.withFaults faults).call c).1 := ha.node
    rw [← hnode, heq] at hafter
    exact hafter hbefore
  obtain ⟨-, input, c', hfeeds, hc, -, hhandles⟩ :=
    h.call hh.lt (hh.action ▸ rfl) hh.slot hh.step hne
  obtain ⟨input', hfeeds', hc'⟩ := ha.feeds
  -- the call is that of a reply, which only a message leads to
  have hdeliver : ∃ envelope, input' = .deliver envelope := by
    subst hcall
    cases input' with
    | deliver envelope => exact ⟨envelope, rfl⟩
    | electionTimeout | heartbeatTimeout | propose | readBarrier => cases hc'
  obtain ⟨envelope, hinput⟩ := hdeliver
  obtain rfl := hfeeds'.unique_deliver hfeeds hinput
  obtain rfl := Option.some.inj (hc.symm.trans hc')
  exact hhandles

/-! ## The agreed log -/

/-- All servers apply the log, at any time up to their commit index. -/
def Agreed (r : Run) (log : List LogEntry) : Prop :=
  ∀ i ≤ r.length, ∀ n server, (r.state i).slots n = .up server →
    server.node.log.log.take server.node.commitIndex = log.take server.node.commitIndex ∧
      server.node.state = .replay (log.take server.node.commitIndex)

/-- What a server has applied by a state of the run, if there is one. -/
def appliedAt (r : Run) (p : ℕ × ℕ) : List LogEntry :=
  match (r.state p.1).slots p.2 with
  | .up server => server.applied
  | .down _ => []

/-- **There is one log that all servers apply.** -/
theorem exists_agreed (r : Run) : ∃ log, r.Agreed log := by
  have happlied : ∀ {i n server}, (r.state i).slots n = .up server →
      r.appliedAt (i, n) = server.applied := fun hslot => by simp only [appliedAt, hslot]
  let states := Finset.range (r.length + 1) ×ˢ serverCluster.members
  obtain ⟨⟨j, p⟩, hmem, hmax⟩ := states.exists_max_image (fun p => (r.appliedAt p).length)
    ⟨(0, 1), by simp [states, serverCluster]⟩
  have hj : j ≤ r.length := Nat.le_of_lt_succ (Finset.mem_range.1 (Finset.mem_product.1 hmem).1)
  refine ⟨r.appliedAt (j, p), fun i hi n server hslot => ?_⟩
  have hlen := hmax (i, n) (Finset.mem_product.2
    ⟨Finset.mem_range.2 (Nat.lt_succ_of_le hi), (r.nodeOk hi hslot).1⟩)
  rw [happlied hslot] at hlen
  -- the longest one extends it
  have hle : server.applied <+: r.appliedAt (j, p) := by
    cases hslot' : (r.state j).slots p with
    | down disk =>
      have hnil : r.appliedAt (j, p) = [] := by simp only [appliedAt, hslot']
      rw [hnil, List.length_nil, Nat.le_zero, List.length_eq_zero_iff] at hlen
      rw [hlen]
      exact List.nil_prefix
    | up server' =>
      rw [happlied hslot'] at hlen ⊢
      refine (r.applied_comparable hi hj hslot hslot').elim id fun hpre => ?_
      rw [hpre.eq_of_length_le hlen]
  obtain ⟨hstate, t, hlog⟩ := r.applied_logInvariant hi hslot
  have hcommit := r.lastApplied_eq hi hslot
  have hlength : server.applied.length = server.node.commitIndex := by
    rw [← hcommit, RaftNode.lastApplied, hstate, KvStateMachine.lastApplied_replay hlog.wellFormed]
  have htake : server.applied = (r.appliedAt (j, p)).take server.node.commitIndex := by
    rw [← hlength]
    exact List.prefix_iff_eq_take.1 hle
  refine ⟨?_, htake ▸ hstate⟩
  rw [← htake, Server.applied, hcommit]

/-! ## Reads -/

/-- Up to state `s`, some server has had the commit index, be it in an event in which it died. -/
def Commits (r : Run) (s index : ℕ) : Prop :=
  ∃ p server, server.node.commitIndex = index ∧ ((∃ i ≤ s, (r.state i).slots p = .up server) ∨
    ∃ i < s, ∃ event faults before, (r.action i).handler = some (p, event, faults) ∧
      (r.state i).slots p = .up before ∧
        before.step (r.state i).clients.length faults event = some server)

theorem Traced.commits (h : r.Traced r' f) (hs : s ≤ r.length) {index : ℕ}
    (hc : r.Commits s index) : r'.Commits (f s) index := by
  obtain ⟨p, server, rfl, ⟨i, hi, hslot⟩ | ⟨i, hi, event, faults, before, ha, hslot, hstep⟩⟩ := hc
  · exact ⟨p, server.node, rfl, Or.inl ⟨f i, h.mono hi hs, h.slot (hi.trans hs) hslot⟩⟩
  · refine ⟨p, server.node, rfl, ?_⟩
    by_cases hsame : server.node = before.node
    · rw [hsame]
      exact Or.inl ⟨f i, h.mono hi.le hs, h.slot (hi.le.trans hs) hslot⟩
    · obtain ⟨hsucc, input, c, -, -, hn, hhandles⟩ := h.call (hi.trans_le hs) ha hslot hstep hsame
      have hle : f (i + 1) ≤ f s := h.mono hi hs
      exact Or.inr ⟨f i, by omega, _, c, hhandles, hn⟩

/-- In step `s`, server `n` accepts client `k`, which asks for the key. -/
def Requests (r : Run) (s n k : ℕ) (key : Bytes) : Prop :=
  (r.state s).clients.length = k ∧ ∃ bytes faults server server',
    r.Handles s n (.accept (some bytes)) faults server server' ∧ bytes[1]? = some 7 ∧
      decodeClientReadRequest bytes = .ok ⟨key⟩

/-- In step `j`, server `n` tells client `k` what the key had after the first `m` entries of the
log, with `m` between the index of the reply and the commit index of the server. -/
def Replies (r : Run) (log : List LogEntry) (j n k : ℕ) (key : Bytes)
    (reply : ClientReadReply) : Prop :=
  ∃ event faults server server', r.Handles j n event faults server server' ∧
    (k, .read reply) ∈ server'.replies ∧ ∃ m, reply.index ≤ m ∧ m ≤ server'.node.commitIndex ∧
      reply.value = (KvStateMachine.replay (log.take m)).get key ∧
        (reply.status = .found ↔ reply.value.isSome)

/-- The reply says what the server finds. -/
theorem replies_of_readAnswer {log : List LogEntry} (hlog : r.Agreed log)
    (hh : r.Handles j n event faults server server') {reply : ClientReadReply}
    (hr : (k, .read reply) ∈ server'.replies) {ready : ReadyRead}
    (heq : reply = server'.readReply pending ready)
    (hle : ready.index ≤ server'.node.lastApplied) : r.Replies log j n k pending.key reply := by
  refine ⟨event, faults, server, server', hh, hr, server'.node.commitIndex, ?_, le_rfl, ?_, ?_⟩
  · rw [heq, ← r.lastApplied_eq hh.lt hh.slot']
    exact hle
  · rw [heq, ← (hlog (j + 1) hh.lt n server' hh.slot').2]
    rfl
  · subst heq
    unfold Server.readReply
    dsimp only
    split_ifs with hsome <;> simp [hsome]

/-- **Linearizable reads.** A process that has returned the id of a read and then reports it has
led one term all along, has applied everything up to the index that it reports, and reports the
read once; the index is at least every commit index that any node had when the id was returned. So
a reply that tells about a key, whichever server sends it and whatever has crashed, is what the key
had in a prefix of the log that all servers apply, and the prefix covers what had been committed
when the request arrived. -/
theorem reads_linearizable :
    (∀ (cluster : Cluster) (r : cluster.Run) (k j n : ℕ) (node₀ node : RaftNode) (c : NodeCall)
      (x : ReadyRead), r.Starts k n x.id node₀ → k < j → r.Stays k j n → r.Handles j n node c →
        x ∈ readyReads (node.call c).2 → r.Reports k j n node c x) ∧
    ∀ r : Run, ∃ log, r.Agreed log ∧ ∀ i ≤ r.length, ∀ k reply,
      (k, .read reply) ∈ (r.state i).replies → Server.Tells reply →
        ∃ s j n key, s < j ∧ j < i ∧ r.Requests s n k key ∧ r.Replies log j n k key reply ∧
          ∀ index, r.Commits s index → index ≤ reply.index := by
  refine ⟨fun cluster r k j n node₀ node c x hstart hkj hup hh hx => ?_, fun r => ?_⟩
  · obtain ⟨g, h⟩ := r.exists_ghost
    exact h.reports hstart hkj hup hh hx rfl
  obtain ⟨log, hlog⟩ := r.exists_agreed
  refine ⟨log, hlog, fun i hi k reply hr htells => ?_⟩
  obtain ⟨r', f, h⟩ := r.exists_trace
  obtain ⟨g, hg⟩ := r'.exists_ghost
  obtain ⟨j, hji, n, event, faults, before, after, hh, hx⟩ := r.reply_sent hi hr
  -- the node reports a read that is pending
  obtain ⟨c, ready, pending, ha⟩ := (hh.stepEnd.readAnswer rfl (fun _ => hh.not_ready)
    hx).resolve_left fun hrefuses => hrefuses.1 htells
  have hreport := h.reports hg hh ha
  -- it was started by the same process
  obtain ⟨s, hsj, ⟨event₀, faults₀, before₀, after₀, hh₀, hb⟩, hup⟩ :=
    r.exists_began hh.lt.le hh.slot ha.waiting
  obtain ⟨hsucc, hstart⟩ := h.starts hg hh₀ hb
  have hlt : f s < f j := by
    have hle : f (s + 1) ≤ f j := h.mono hsj hh.lt.le
    omega
  have hall := hg.reports hstart hlt (h.stays hh₀.lt.le hh.lt.le hup) hreport ha.reported rfl
  have happlied : ready.index ≤ after.node.lastApplied := ha.node ▸ hall.applied
  obtain ⟨bytes, rfl, hkind, hd⟩ := hb.frame
  refine ⟨s, j, n, pending.key, hsj, hji, ⟨?_, bytes, faults₀, before₀, after₀, hh₀, hkind, hd⟩,
    replies_of_readAnswer hlog hh hx ha.answer happlied, fun index hc => ?_⟩
  · rw [ha.client, hb.connection]
  · rw [ha.answer]
    exact hall.covers index (h.commits hh₀.lt.le hc)

/-- A request for the key of the put, and the probe for it. -/
def readFrame : Bytes := [2, 7, 0, 0, 0, 1, 107, 212, 141, 119, 126]

def readProbe : AppendEntries := ⟨1, 1, 0, 0, [], 2, 1⟩

/-- After the put has been committed, a client reads the key. -/
def readActions : List ServiceAction := committedActions ++
  [.handle 1 (.accept (some readFrame)) {},
    .handle 2 (peerFrame 1 (.appendEntries readProbe) none) {},
    .handle 1 (peerFrame 2 (.appendEntriesReply ⟨1, true⟩) (some readProbe)) {}]

set_option maxRecDepth 20000 in
theorem readActions_possible : (readActions.foldlM next init).isSome := by
  decide +kernel

def readRun : Run := .ofActions readActions readActions_possible

set_option maxRecDepth 20000 in
theorem reads_linearizable_put : ∃ log, readRun.Agreed log ∧ ∃ s j n key,
    readRun.Requests s n 1 key ∧
      readRun.Replies log j n 1 key ⟨.found, 1, 2, 1, some [118]⟩ := by
  have hreply : (1, .read ⟨.found, 1, 2, 1, some [118]⟩) ∈ (readRun.state 13).replies := by
    decide +kernel
  obtain ⟨log, hlog, hreads⟩ := reads_linearizable.2 readRun
  obtain ⟨s, j, n, key, -, -, hrequest, hreplies, -⟩ := hreads 13 le_rfl 1 _ hreply (Or.inl rfl)
  exact ⟨log, hlog, s, j, n, key, hrequest, hreplies⟩

end Service.Run

namespace Cluster.Run

/-- The request for the entry of the second election, and the probe after it. -/
def secondAppend : AppendEntries := ⟨2, 1, 1, 1, [⟨2, 2, {}⟩], 0, 0⟩

def secondProbe : AppendEntries := ⟨2, 1, 0, 0, [], 2, 1⟩

/-- Node 1 leads term 1 and starts a read. Then it is restarted, leads term 2, and starts another
read, to which it gives the same id. -/
def reissuedActions : List Action :=
  [.restart 1, .restart 2, .call 1 .electionTimeout {},
    .call 2 (.deliver ⟨1, 2, .requestVote ⟨1, 1, 0, 0⟩, none⟩) {},
    .call 1 (.deliver ⟨2, 1, .requestVoteReply ⟨1, true⟩, none⟩) {},
    .call 1 .readBarrier {},
    .call 2 (.deliver ⟨1, 2, .appendEntries ⟨1, 1, 0, 0, [⟨1, 1, {}⟩], 0, 0⟩, none⟩) {},
    .halt 1, .restart 1, .call 1 .electionTimeout {},
    .call 2 (.deliver ⟨1, 2, .requestVote ⟨2, 1, 1, 1⟩, none⟩) {},
    .call 1 (.deliver ⟨2, 1, .requestVoteReply ⟨2, true⟩, none⟩) {},
    .call 1 .readBarrier {},
    .call 2 (.deliver ⟨1, 2, .appendEntries secondAppend, none⟩) {},
    .call 1 (.deliver ⟨2, 1, .appendEntriesReply ⟨2, true⟩, some secondAppend⟩) {},
    .call 2 (.deliver ⟨1, 2, .appendEntries secondProbe, none⟩) {},
    .call 1 (.deliver ⟨2, 1, .appendEntriesReply ⟨2, true⟩, some secondProbe⟩) {}]

theorem reissuedActions_possible :
    (reissuedActions.foldlM (World.next serverCluster) World.init).isSome := by
  decide +kernel

def reissuedRun : serverCluster.Run := .ofActions reissuedActions reissuedActions_possible

/-- A node that has been restarted reports an id that an earlier process has returned. -/
theorem not_reads_linearizable : ¬ ∀ (r : serverCluster.Run) (k j n : ℕ) (node₀ node : RaftNode)
    (c : NodeCall) (x : ReadyRead), r.Starts k n x.id node₀ → k < j → r.Handles j n node c →
      x ∈ readyReads (node.call c).2 → r.Reports k j n node c x := by
  intro h
  obtain ⟨node₀, hstart⟩ : ∃ node₀, reissuedRun.Starts 5 1 1 node₀ :=
    ⟨_, ⟨by decide, _, _, _, rfl, rfl, rfl, rfl⟩, rfl⟩
  obtain ⟨node, hh, hx⟩ : ∃ node, reissuedRun.Handles 16 1 node
      (.appendReply 2 secondProbe ⟨2, true⟩) ∧
      readyReads (node.call (.appendReply 2 secondProbe ⟨2, true⟩)).2 = [⟨1, 2⟩] :=
    ⟨_, ⟨by decide, _, _, _, rfl, rfl, rfl, rfl⟩, rfl⟩
  obtain ⟨T, hleads, -⟩ :=
    (h reissuedRun 5 16 1 node₀ node _ ⟨1, 2⟩ hstart (by decide) hh (by simp [hx])).leads
  -- in between the node was down
  obtain ⟨node', hslot, -⟩ := hleads 8 (by decide) (by decide)
  have hdown : ∃ disk, (reissuedRun.state 8).slots 1 = .down disk := ⟨_, rfl⟩
  obtain ⟨disk, hdown⟩ := hdown
  rw [hdown] at hslot
  cases hslot

end Cluster.Run

end DistributedKV
