import DistributedKV.Cluster.Simulation
import DistributedKV.Raft.NodeRank

/-!
# The exchange of messages settles

A cluster that is left alone with the messages in flight: no timer fires, nothing is proposed or
read, and the network loses messages but duplicates none. Every message that is delivered lowers
the rank of its receiver or is answered by less than its weight, so the exchange ends.
-/

namespace DistributedKV

variable {cluster : Cluster} {s : Abstract} {n : ℕ} {node : RaftNode}

theorem LeaderOk.bounds {T c : ℕ} {log : List LogEntry} {ids : Fin 2 → ℕ}
    {leader : RaftLeaderReplication} (h : LeaderOk s n T log c ids leader) (i : Fin 2) :
    PeerBounds log.length (leader.peers i) where
  match_lt := (h.peer i).match_lt
  next_le := (h.peer i).next_le
  pending {request} hp := by
    obtain ⟨⟨L, hL⟩, hid, hterm, hnext, -⟩ := (h.peer i).pending hp
    obtain rfl : L = log := by
      have hlead := hL.leader
      rw [hterm, h.lead] at hlead
      exact (Prod.mk.inj (Option.some.inj hlead)).2.symm
    refine ⟨hnext, ?_⟩
    have hlen := hL.entries.length_le
    rw [List.length_drop] at hlen
    have hprev := hL.prev_le
    omega

/-- A message that reaches a process of the cluster. -/
theorem NodeOk.settles (h : NodeOk cluster s n node) {c : NodeCall} (hc : 0 < c.weight) :
    node.Settles c.weight (node.call c) := by
  cases hs : node.stopped with
  | true =>
    rw [RaftNode.call_of_stopped hs]
    exact .of_kept (.of_eq rfl rfl) (Or.inr ⟨rfl, rfl, rfl⟩) hc
  | false =>
    refine RaftNode.call_settles (h.running hs).invariant hs (fun hl i => ?_) hc
    rw [RaftNode.lastIndex, ← PersistentLog.length_log]
    exact ((h.running hs).leader hl).bounds i

/-! ## Worlds -/

def Slot.rank : Slot → ℕ ×ₗ ℕ
  | .down _ => 0
  | .up node => node.rank

def Envelope.weight (envelope : Envelope) : ℕ := envelope.message.weight

theorem Envelope.weight_pos (envelope : Envelope) : 0 < envelope.weight := by
  rw [weight]
  cases envelope.message with
  | requestVote | appendEntries => exact Nat.two_pos
  | requestVoteReply | appendEntriesReply => exact Nat.one_pos

theorem Input.weight_call {envelope : Envelope} {c : NodeCall}
    (h : (deliver envelope).call = some c) : c.weight = envelope.weight := by
  rw [call] at h
  rw [Envelope.weight]
  cases hm : envelope.message with
  | appendEntriesReply reply =>
    rw [hm] at h
    obtain ⟨sent, -, rfl⟩ := Option.map_eq_some_iff.1 h
    rfl
  | requestVote | requestVoteReply | appendEntries =>
    rw [hm] at h
    obtain rfl := Option.some.inj h
    rfl

namespace World

/-- What the processes of the cluster have left to do. -/
def rank (cluster : Cluster) (w : World) : ℕ ×ₗ ℕ := ∑ n ∈ cluster.members, (w.slots n).rank

theorem weight_outgoing (n : ℕ) (repliedTo : Option AppendEntries) (result : RaftNodeResult) :
    ((outgoing n repliedTo result).map Envelope.weight).sum = result.weight := by
  cases result with
  | error e => rfl
  | ok actions =>
    rw [outgoing, List.map_map]
    rfl

end World

/-- A run reaches the state. -/
def Cluster.Reached (cluster : Cluster) (w : World) : Prop :=
  ∃ r : cluster.Run, r.state r.length = w

theorem Cluster.Reached.next {w w' : World} {action : Action} (h : cluster.Reached w)
    (hnext : w.next cluster action = some w') : cluster.Reached w' := by
  obtain ⟨r, rfl⟩ := h
  exact ⟨r.extend hnext, r.extend_state_last hnext⟩

/-- Delivering an envelope takes the cluster from a state that a run reaches to another one and
sends envelopes. -/
def Cluster.Delivers (cluster : Cluster) (w : {w // cluster.Reached w}) (envelope : Envelope)
    (w' : {w // cluster.Reached w}) (sent : List Envelope) : Prop :=
  ∃ faults, w.1.next cluster (.call envelope.receiver (.deliver envelope) faults) = some w'.1 ∧
    w'.1.sent = w.1.sent ++ sent

/-- **One delivery** lowers the rank of the cluster, or leaves it and sends less than it takes. -/
theorem Cluster.Reached.settles {w w' : World} (h : cluster.Reached w) {envelope : Envelope}
    {faults : Faults} {sent : List Envelope}
    (hnext : w.next cluster (.call envelope.receiver (.deliver envelope) faults) = some w')
    (hsent : w'.sent = w.sent ++ sent) :
    w'.rank cluster < w.rank cluster ∨ w'.rank cluster = w.rank cluster ∧
      (sent.map Envelope.weight).sum < envelope.weight := by
  obtain ⟨r, rfl⟩ := h
  obtain ⟨g, hg⟩ := r.exists_ghost
  cases World.step_of_next hnext with
  | call _ hslot hc ha =>
    rename_i node c
    obtain ⟨hn, hnode⟩ := hg.slot le_rfl hslot
    have hweight := Input.weight_call hc
    have hsettles := (hnode.withFaults faults).settles (hweight ▸ envelope.weight_pos)
    have hother : ∀ p ≠ envelope.receiver,
        (((r.state r.length).setSlot envelope.receiver
          (.up ((node.withFaults faults).call c).1)).slots p).rank =
          ((r.state r.length).slots p).rank := fun p hp => by
      rw [World.setSlot_of_ne _ hp]
    have hself : (((r.state r.length).setSlot envelope.receiver
          (.up ((node.withFaults faults).call c).1)).slots envelope.receiver).rank =
        ((node.withFaults faults).call c).1.rank := by
      rw [World.setSlot_self]
      rfl
    have hbefore : ((r.state r.length).slots envelope.receiver).rank =
        (node.withFaults faults).rank := by
      rw [hslot]
      rfl
    rw [← List.append_cancel_left hsent, World.weight_outgoing, ← hweight]
    rcases hsettles with hlt | ⟨heq, hlt⟩
    · refine Or.inl (sum_ranks_lt hn hother ?_)
      rwa [hself, hbefore]
    · refine Or.inr ⟨sum_ranks_eq hother ?_, hlt⟩
      rw [hself, hbefore, heq]

/-! ## Messages in flight -/

/-- A cluster in a state that a run reaches, and the messages in flight: some of those sent. -/
structure Traffic (cluster : Cluster) where
  world : World
  flight : Multiset Envelope
  reached : cluster.Reached world
  sent : ∀ envelope ∈ flight, envelope ∈ world.sent

namespace Traffic

/-- One message in flight is lost, or delivered, with any failures of the receiver's writes. -/
inductive Step : Traffic cluster → Traffic cluster → Prop
  | drop {x y : Traffic cluster} (envelope : Envelope) (hflight : x.flight = envelope ::ₘ y.flight)
      (hworld : y.world = x.world) : Step x y
  | deliver {x y : Traffic cluster} (envelope : Envelope) (rest : Multiset Envelope)
      (faults : Faults) (sent : List Envelope) (hflight : x.flight = envelope ::ₘ rest)
      (hnext : x.world.next cluster (.call envelope.receiver (.deliver envelope) faults) =
        some y.world)
      (hsent : y.world.sent = x.world.sent ++ sent)
      (hrest : y.flight = rest + (sent : Multiset Envelope)) : Step x y

theorem Step.messageStep {x y : Traffic cluster} (h : Step x y) :
    MessageStep cluster.Delivers (⟨x.world, x.reached⟩, x.flight)
      (⟨y.world, y.reached⟩, y.flight) := by
  cases h with
  | drop envelope hflight hworld =>
    have hparties : (⟨y.world, y.reached⟩ : {w // cluster.Reached w}) = ⟨x.world, x.reached⟩ :=
      Subtype.ext hworld
    rw [hflight, hparties]
    exact .drop _ envelope _
  | deliver envelope rest faults sent hflight hnext hsent hrest =>
    rw [hflight, hrest]
    exact .deliver ⟨faults, hnext, hsent⟩ rest

/-- What a delivery leads to is traffic again. -/
theorem exists_deliver (x : Traffic cluster) {envelope : Envelope} {rest : Multiset Envelope}
    (hflight : x.flight = envelope ::ₘ rest) {faults : Faults} {w : World}
    (hnext : x.world.next cluster (.call envelope.receiver (.deliver envelope) faults) = some w) :
    ∃ y, Step x y ∧ y.world = w := by
  obtain ⟨sent, hsent⟩ : ∃ sent, w.sent = x.world.sent ++ sent := by
    cases World.step_of_next hnext with
    | call => exact ⟨_, rfl⟩
  have hmem : ∀ e ∈ rest + (sent : Multiset Envelope), e ∈ w.sent := by
    intro e he
    rw [hsent, List.mem_append]
    rcases Multiset.mem_add.1 he with he | he
    · refine Or.inl (x.sent e ?_)
      rw [hflight]
      exact Multiset.mem_cons_of_mem he
    · exact Or.inr (Multiset.mem_coe.1 he)
  exact ⟨⟨w, rest + (sent : Multiset Envelope), x.reached.next hnext, hmem⟩,
    .deliver envelope rest faults sent hflight hnext hsent rfl, rfl⟩

end Traffic

/-- **The exchange of messages settles**: delivering and losing the messages in flight is well
founded, whatever the state that a run has reached, and so there is no infinite sequence of it. -/
theorem exchange_settles (cluster : Cluster) :
    WellFounded (fun after before : Traffic cluster => Traffic.Step before after) ∧
      ¬ ∃ x : ℕ → Traffic cluster, ∀ i, Traffic.Step (x i) (x (i + 1)) := by
  have hwf : WellFounded fun after before : Traffic cluster => Traffic.Step before after := by
    refine Subrelation.wf Traffic.Step.messageStep (InvImage.wf
      (fun x : Traffic cluster => ((⟨x.world, x.reached⟩ : {w // cluster.Reached w}), x.flight))
      (wellFounded_messageStep (fun w : {w // cluster.Reached w} => w.1.rank cluster)
        Envelope.weight Envelope.weight_pos ?_))
    rintro w envelope w' sent ⟨faults, hnext, hsent⟩
    exact w.2.settles hnext hsent
  refine ⟨hwf, ?_⟩
  rintro ⟨x, hx⟩
  exact (wellFounded_iff_isEmpty_descending_chain.1 hwf).elim ⟨x, hx⟩

end DistributedKV
