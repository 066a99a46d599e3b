import DistributedKV.Server.Service
import DistributedKV.Server.WriteAnswers
import DistributedKV.Store.Executed

/-!
# What the servers have applied

The state machines of all servers, at all times, have applied prefixes of one log: of two of them
one is a prefix of the other (`Service.Run.applied_comparable`). What they hold is given by the
entries of that prefix that are executed. Besides, the bookkeeping that a run of the servers needs:
when a reply was sent, where a server was one action ago, and which clients have been accepted.
-/

namespace DistributedKV

open Replication (CommittedBy)
open KvStateMachine (executed dataAfter)

/-- What a node has committed is a log in good order, and its state machine has applied just
that. -/
theorem Cluster.Run.Ghost.applied {cluster : Cluster} {r : cluster.Run} {g : ℕ → Abstract}
    (h : r.Ghost g) {i n : ℕ} (hi : i ≤ r.length) {node : RaftNode}
    (hslot : (r.state i).slots n = .up node) :
    node.lastApplied = node.commitIndex ∧
      node.state = .replay (node.log.log.take node.lastApplied) ∧
      ∃ t, LogInvariant (node.log.log.take node.lastApplied) t := by
  obtain ⟨-, hnode⟩ := h.slot hi hslot
  have hs := (h.refines i hi).sound
  have hlog : ∃ t, LogInvariant (node.log.log.take node.commitIndex) t := by
    obtain ⟨t, ht⟩ := hnode.committed
    by_cases hnil : node.log.log.take node.commitIndex = []
    · rw [hnil]
      exact ⟨0, .nil 0⟩
    obtain ⟨Q, hQ, htake⟩ := hs.invariant.committedBy_quorum ht hnil
    obtain ⟨p, -, hp, -⟩ := QuorumSystem.exists_pair_of_majority cluster.card_members hQ
    rw [List.prefix_iff_eq_take.1 (htake p hp)]
    exact ⟨_, (hs.logInvariant_node p).take _⟩
  have hlast : node.lastApplied = node.commitIndex := by
    obtain ⟨t, ht⟩ := hlog
    have hle := hnode.commit_le
    rw [RaftNode.lastApplied, hnode.applied, KvStateMachine.lastApplied_replay ht.wellFormed,
      List.length_take, PersistentLog.length_log]
    rw [RaftNode.lastIndex] at hle
    omega
  exact ⟨hlast, hlast ▸ hnode.applied, hlast ▸ hlog⟩

/-- The entries that the server's state machine has applied. -/
def Server.applied (server : Server) : List LogEntry :=
  server.node.log.log.take server.node.lastApplied

namespace Service.Run

variable {r : Run} {i j n k : ℕ} {server server' : Server} {e : LogEntry}

/-! ## State machines -/

/-- The node of a server is that of a member, and in order. -/
theorem nodeOk (r : Run) (hi : i ≤ r.length) (hslot : (r.state i).slots n = .up server) :
    n ∈ serverCluster.members ∧ ∃ s, NodeOk serverCluster s n server.node := by
  obtain ⟨r', f, ht⟩ := r.exists_trace
  obtain ⟨g, h⟩ := r'.exists_ghost
  obtain ⟨hn, hok⟩ := h.slot (ht.shadows i hi).1 (ht.slot hi hslot)
  exact ⟨hn, _, hok⟩

/-- **The servers apply one log.** -/
theorem applied_comparable (r : Run) (hi : i ≤ r.length) (hj : j ≤ r.length) {n p : ℕ}
    (hslot : (r.state i).slots n = .up server) (hslot' : (r.state j).slots p = .up server') :
    server.applied <+: server'.applied ∨ server'.applied <+: server.applied := by
  obtain ⟨r', f, ht⟩ := r.exists_trace
  obtain ⟨g, h⟩ := r'.exists_ghost
  obtain ⟨hfi, -⟩ := ht.shadows i hi
  obtain ⟨hfj, -⟩ := ht.shadows j hj
  obtain ⟨t, hc⟩ := h.committed hfi le_rfl (ht.slot hi hslot)
  obtain ⟨t', hc'⟩ := h.committed hfj le_rfl (ht.slot hj hslot')
  rw [Server.applied, Server.applied, (h.applied hfi (ht.slot hi hslot)).1,
    (h.applied hfj (ht.slot hj hslot')).1]
  exact (h.refines r'.length le_rfl).sound.invariant.committedBy_comparable hc hc'

/-- A state machine has applied what its node has committed. -/
theorem lastApplied_eq (r : Run) (hi : i ≤ r.length) (hslot : (r.state i).slots n = .up server) :
    server.node.lastApplied = server.node.commitIndex := by
  obtain ⟨r', f, ht⟩ := r.exists_trace
  obtain ⟨g, h⟩ := r'.exists_ghost
  exact (h.applied (ht.shadows i hi).1 (ht.slot hi hslot)).1

/-- What a state machine has applied is a log in good order. -/
theorem applied_logInvariant (r : Run) (hi : i ≤ r.length)
    (hslot : (r.state i).slots n = .up server) :
    server.node.state = .replay server.applied ∧ ∃ t, LogInvariant server.applied t := by
  obtain ⟨r', f, ht⟩ := r.exists_trace
  obtain ⟨g, h⟩ := r'.exists_ghost
  exact (h.applied (ht.shadows i hi).1 (ht.slot hi hslot)).2

/-- **What a state machine holds**: the data of the entries that were executed, and for each
request the first entry that carries it. -/
theorem applied_executed (r : Run) (hi : i ≤ r.length)
    (hslot : (r.state i).slots n = .up server) :
    server.node.state.data = dataAfter (executed server.applied) ∧
      ∀ id, (server.node.requestResult id).map AppliedRequest.entry =
        server.applied.find? (LogEntry.carries id) := by
  obtain ⟨hstate, t, hlog⟩ := r.applied_logInvariant hi hslot
  simp only [RaftNode.requestResult, hstate]
  exact KvStateMachine.replay_executed hlog.wellFormed hlog.index

/-- The first entry for a request is the same everywhere. -/
theorem find_applied (r : Run) (hi : i ≤ r.length) (hj : j ≤ r.length) {n p : ℕ}
    (hslot : (r.state i).slots n = .up server) (hslot' : (r.state j).slots p = .up server')
    {id : RequestId} {x y : LogEntry} (hx : server.applied.find? (LogEntry.carries id) = some x)
    (hy : server'.applied.find? (LogEntry.carries id) = some y) : x = y := by
  rcases r.applied_comparable hi hj hslot hslot' with h | h
  · exact Option.some.inj ((h.find?_eq_some hx).symm.trans hy)
  · exact Option.some.inj (hx.symm.trans (h.find?_eq_some hy))

/-! ## Steps -/

/-- Step `j` of the run is an event on server `n`, which outlives it. -/
structure Handles (r : Run) (j n : ℕ) (event : Server.Event) (faults : Faults)
    (server server' : Server) : Prop where
  lt : j < r.length
  action : r.action j = .handle n event faults
  slot : (r.state j).slots n = .up server
  step : server.step (r.state j).clients.length faults event = some server'
  slot' : (r.state (j + 1)).slots n = .up server'

theorem Handles.stepEnd {event : Server.Event} {faults : Faults}
    (h : r.Handles j n event faults server server') :
    Server.StepEnd server.silent (r.state j).clients.length faults event server' :=
  Server.step_cases h.step

theorem Handles.invariant {event : Server.Event} {faults : Faults}
    (h : r.Handles j n event faults server server') : server.silent.Invariant :=
  (r.server_invariant h.lt.le h.slot).invariant.of_eq rfl rfl rfl

/-- Where a server was one action ago: it has not moved, or it has met an event, or it has just
been started. -/
theorem slot_succ (r : Run) (hi : i < r.length) (hslot : (r.state (i + 1)).slots n = .up server') :
    (r.state i).slots n = .up server' ∨
      (∃ event faults server, r.Handles i n event faults server server') ∨
        ∃ node, server' = { node } := by
  have hnext := step_of_next (r.next_state i hi)
  generalize hw : r.state (i + 1) = w at hnext
  generalize ha : r.action i = action at hnext
  -- the slot of the action, and the others
  have hset : ∀ {p : ℕ} {slot : ServerSlot}, w.slots = ((r.state i).setSlot p slot).slots →
      (p = n ∧ slot = .up server') ∨ (r.state i).slots n = .up server' := by
    intro p slot hslots
    rw [hw, hslots] at hslot
    by_cases hp : n = p
    · subst hp
      rw [setSlot_self] at hslot
      exact Or.inl ⟨rfl, hslot⟩
    · rw [setSlot_of_ne _ hp] at hslot
      exact Or.inr hslot
  cases hnext with
  | handle faults hslot₀ hadmits hstep =>
    rcases hset rfl with ⟨rfl, hup⟩ | hsame
    · obtain rfl := ServerSlot.up.inj hup
      exact Or.inr (Or.inl ⟨_, faults, _, hi, ha, hslot₀, hstep, hslot⟩)
    · exact Or.inl hsame
  | crash | halt =>
    rcases hset rfl with ⟨-, hup⟩ | hsame
    · cases hup
    · exact Or.inl hsame
  | @restart _ _ node _ _ _ =>
    rcases hset rfl with ⟨-, hup⟩ | hsame
    · exact Or.inr (Or.inr ⟨node, (ServerSlot.up.inj hup).symm⟩)
    · exact Or.inl hsame

/-- A reply was sent in a step. -/
theorem reply_sent (r : Run) (hi : i ≤ r.length) {x : ℕ × ClientReply}
    (hx : x ∈ (r.state i).replies) : ∃ j < i, ∃ n event faults server server',
      r.Handles j n event faults server server' ∧ x ∈ server'.replies := by
  induction i with
  | zero =>
    rw [r.state_zero] at hx
    cases hx
  | succ i ih =>
    have hold : x ∈ (r.state i).replies → ∃ j < i + 1, ∃ n event faults server server',
        r.Handles j n event faults server server' ∧ x ∈ server'.replies := fun hx => by
      obtain ⟨j, hj, h⟩ := ih (by omega) hx
      exact ⟨j, by omega, h⟩
    have hnext := step_of_next (r.next_state i hi)
    generalize hw : r.state (i + 1) = w at hnext hx
    generalize ha : r.action i = action at hnext
    cases hnext with
    | handle faults hslot hadmits hstep =>
      rcases List.mem_append.1 hx with hx | hx
      · exact hold hx
      · refine ⟨i, Nat.lt_succ_self i, _, _, faults, _, _, ⟨hi, ha, hslot, hstep, ?_⟩, hx⟩
        rw [hw]
        exact setSlot_self ..
    | crash | halt | restart => exact hold hx

/-! ## Clients -/

/-- The clients that an action accepts. -/
theorem clients_succ (r : Run) (hi : i < r.length) : (r.state (i + 1)).clients =
    (r.state i).clients ++ ((r.action i).handler.bind fun h => h.2.1.client).toList := by
  have hnext := step_of_next (r.next_state i hi)
  generalize r.state (i + 1) = w at hnext
  generalize r.action i = action at hnext
  cases hnext with
  | handle | crash => rfl
  | halt | restart => exact (List.append_nil _).symm

theorem clients_mono (r : Run) (hij : i ≤ j) (hj : j ≤ r.length) :
    (r.state i).clients <+: (r.state j).clients := by
  induction j, hij using Nat.le_induction with
  | base => exact List.prefix_refl _
  | succ j hij ih =>
    rw [r.clients_succ hj]
    exact (ih (by omega)).trans (List.prefix_append _ _)

/-- The command is that of a client, or it came from the console or an election. -/
def Submitted (r : Run) (command : Command) : Prop :=
  command.requestId ≠ none → ∃ bytes ∈ (r.state r.length).clients,
    decodeClientRequest bytes = .ok ⟨command⟩

/-- **Where commands come from**: what is on a disk, and what has been applied. -/
theorem submitted (r : Run) (hi : i ≤ r.length) (hslot : (r.state i).slots n = .up server) :
    (∀ e ∈ server.node.disk.log, r.Submitted e.command) ∧
      ∀ e ∈ server.applied, r.Submitted e.command := by
  obtain ⟨r', f, ht⟩ := r.exists_trace
  obtain ⟨g, h⟩ := r'.exists_ghost
  have hP : r'.Proposes r.Submitted := by
    refine ht.proposes fun i hi n event faults server command ha hslot hfeeds hid => ?_
    cases hfeeds with
    | console hnone => exact absurd hnone hid
    | @write bytes command hb hd =>
      refine ⟨bytes, (r.clients_mono hi le_rfl).subset ?_, hd⟩
      rw [r.clients_succ hi, ha]
      simp [Server.Event.client, hb]
  have h0 : r.Submitted {} := fun h => absurd rfl h
  have hfi := (ht.shadows i hi).1
  have hup := ht.slot hi hslot
  constructor
  · intro e he
    refine (h.sourced h0 hP hfi).disk n e ?_
    rw [hup]
    exact he
  · intro e he
    rw [Server.applied, (h.applied hfi hup).1] at he
    exact h.committed_sourced h0 hP hfi hup e he

end Service.Run

end DistributedKV
