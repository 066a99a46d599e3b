import DistributedKV.Raft.Node
import Mathlib.Order.Lattice
import Mathlib.Data.Fin.Tuple.Basic

/-!
# The invariant of one node

What holds of a node between two events as long as it is not stopped, whatever it is told: its
stores agree with the disk, its log is well formed, it has applied exactly what is committed, and
its replication object exists exactly while it leads. `Advances` is what one event may change.
-/

namespace DistributedKV

/-- A log as a node keeps it: consecutive indices, encodable entries, terms that never decrease
and stay within the node's term. -/
structure LogInvariant (log : List LogEntry) (term : ℕ) : Prop where
  index : ∀ {i e}, log[i]? = some e → e.index = i + 1
  encodable : ∀ e ∈ log, e.Encodable
  sorted : log.Pairwise fun e e' => e.term ≤ e'.term
  term_le : ∀ e ∈ log, e.term ≤ term

namespace LogInvariant

variable {log : List LogEntry} {term : ℕ}

theorem nil (term : ℕ) : LogInvariant [] term :=
  ⟨by simp, by simp, List.Pairwise.nil, by simp⟩

theorem mono (h : LogInvariant log term) {term' : ℕ} (ht : term ≤ term') :
    LogInvariant log term' :=
  { h with term_le := fun e he => (h.term_le e he).trans ht }

theorem take (h : LogInvariant log term) (k : ℕ) : LogInvariant (log.take k) term where
  index {i e} he := by
    rw [List.getElem?_take] at he
    split_ifs at he
    exact h.index he
  encodable e he := h.encodable e (List.mem_of_mem_take he)
  sorted := h.sorted.sublist (List.take_sublist k log)
  term_le e he := h.term_le e (List.mem_of_mem_take he)

theorem concat (h : LogInvariant log term) {e : LogEntry} (hi : e.index = log.length + 1)
    (he : e.Encodable) (hl : ∀ e' ∈ log, e'.term ≤ e.term) (ht : e.term ≤ term) :
    LogInvariant (log ++ [e]) term where
  index {i e'} he' := by
    rcases Nat.lt_trichotomy i log.length with hlt | rfl | hlt
    · rw [List.getElem?_append_left hlt] at he'
      exact h.index he'
    · simp only [List.getElem?_concat_length, Option.some.injEq] at he'
      rw [← he', hi]
    · rw [List.getElem?_eq_none (by simp; omega)] at he'
      cases he'
  encodable e' he' := by
    rcases List.mem_append.1 he' with he' | he'
    · exact h.encodable e' he'
    · rwa [List.mem_singleton.1 he']
  sorted := List.pairwise_append.2 ⟨h.sorted, List.pairwise_singleton _ _, fun e' he' x hx => by
    rw [List.mem_singleton.1 hx]
    exact hl e' he'⟩
  term_le e' he' := by
    rcases List.mem_append.1 he' with he' | he'
    · exact h.term_le e' he'
    · rwa [List.mem_singleton.1 he']

theorem wellFormed (h : LogInvariant log term) : ∀ e ∈ log, e.command.WellFormed :=
  fun e he => (h.encodable e he).fields.2.2

/-- The last entry has the largest term. -/
theorem term_le_last (h : LogInvariant log term) {k : ℕ} (hk : log.length = k + 1) {x : LogEntry}
    (hx : log[k]? = some x) : ∀ e ∈ log, e.term ≤ x.term := by
  intro e he
  obtain ⟨i, hi⟩ := List.mem_iff_getElem?.1 he
  obtain ⟨hi', rfl⟩ := List.getElem?_eq_some_iff.1 hi
  obtain ⟨hk', rfl⟩ := List.getElem?_eq_some_iff.1 hx
  rcases Nat.lt_or_eq_of_le (by omega : i ≤ k) with hlt | rfl
  · exact List.pairwise_iff_getElem.1 h.sorted i k hi' hk' hlt
  · exact le_rfl

end LogInvariant

namespace RaftNode

/-- The stores of a node, its commit index and its state machine. -/
structure StoreInvariant (node : RaftNode) : Prop where
  metadata : node.metadata.Synced
  logSynced : node.log.Synced
  log : LogInvariant node.log.log node.term
  commit_le : node.commitIndex ≤ node.lastIndex
  applied : node.state = .replay (node.log.log.take node.commitIndex)
  vote_term : node.metadata.state.votedFor.isSome → node.term ≠ 0

/-- The election object of a node. -/
structure ElectionInvariant (node : RaftNode) : Prop where
  selfId : node.election.selfId = node.selfId
  peerIds : node.election.peerIds = node.peerIds
  peerIds_ne : node.peerIds 0 ≠ node.peerIds 1
  selfId_ne : ∀ i, node.peerIds i ≠ node.selfId
  usable : node.election.unusable = false
  votes : node.election.cachedRole = .candidate → node.election.grantedVotes = 1

/-- The replication object of a node and what goes with it. -/
structure LeadershipInvariant (node : RaftNode) : Prop where
  active : ∀ {leader}, node.leader = some leader → node.leaderActive leader = true
  exists_leader : node.role = .leader → node.leader.isSome
  knownLeader : ∀ {leader}, node.leader = some leader → node.knownLeader = some node.selfId
  reads : node.leader = none → node.readRounds = []

structure Invariant (node : RaftNode) : Prop extends
  StoreInvariant node, ElectionInvariant node, LeadershipInvariant node

/-- What one event may do to the term, the vote, the commit index and the committed entries. -/
structure Advances (node node' : RaftNode) : Prop where
  term_le : node.term ≤ node'.term
  commit_le : node.commitIndex ≤ node'.commitIndex
  committed : node'.log.log.take node.commitIndex = node.log.log.take node.commitIndex
  vote : node'.term = node.term → ∀ {c}, node.metadata.state.votedFor = some c →
    node'.metadata.state.votedFor = some c

theorem Advances.refl (node : RaftNode) : Advances node node :=
  ⟨le_rfl, le_rfl, rfl, fun _ _ h => h⟩

/-- Nothing but volatile members changed. -/
theorem Advances.of_eq {node node' : RaftNode} (hm : node'.metadata = node.metadata)
    (hl : node'.log = node.log) (hc : node'.commitIndex = node.commitIndex) :
    Advances node node' := by
  refine ⟨?_, hc.ge, by rw [hl], fun _ c h => by rw [hm, h]⟩
  rw [term, term, hm]

/-! ## Roles -/

theorem role_eq_leader_iff {node : RaftNode} :
    node.role = .leader ↔ node.election.cachedRole = .leader ∧
      node.term = node.election.electionTerm ∧
      node.metadata.state.votedFor = some node.election.selfId := by
  unfold role RaftElection.role RaftElection.stale term
  split_ifs with h
  · simp only [decide_eq_true_eq] at h
    simp only [false_iff, not_and]
    intro _ h1 h2
    rcases h.2 with h3 | h3
    · exact h3 h1
    · exact h3 h2
  · simp only [decide_eq_true_eq, not_and, not_or, not_not, ne_eq] at h
    refine ⟨fun hl => ⟨hl, h (by simp [hl])⟩, fun hl => hl.1⟩

theorem leaderActive_iff {node : RaftNode} {leader : RaftLeaderReplication} :
    node.leaderActive leader = true ↔ leader.stopped = false ∧ node.role = .leader ∧
      node.term = leader.term ∧ node.metadata.state.votedFor = some leader.selfId := by
  simp [leaderActive, RaftLeaderReplication.active, role, term]

namespace Invariant

variable {node : RaftNode}

/-- An active leader leads its own term, as itself. -/
theorem leader_facts (h : node.Invariant) {leader : RaftLeaderReplication}
    (hl : node.leader = some leader) : leader.stopped = false ∧ node.role = .leader ∧
      leader.term = node.term ∧ leader.selfId = node.selfId ∧
      node.metadata.state.votedFor = some node.selfId := by
  obtain ⟨h1, h2, h3, h4⟩ := leaderActive_iff.1 (h.active hl)
  obtain ⟨-, -, h5⟩ := role_eq_leader_iff.1 h2
  rw [h.selfId] at h5
  refine ⟨h1, h2, h3.symm, ?_, h5⟩
  rw [h4] at h5
  exact Option.some.inj h5

theorem leader_none (h : node.Invariant) (hr : node.role ≠ .leader) : node.leader = none := by
  cases hl : node.leader with
  | none => rfl
  | some leader => exact absurd (h.leader_facts hl).2.1 hr

theorem lastApplied (h : node.Invariant) : node.lastApplied = node.commitIndex := by
  have hc := h.commit_le
  rw [RaftNode.lastApplied, h.applied, KvStateMachine.lastApplied_replay fun e he =>
    h.log.wellFormed e (List.mem_of_mem_take he), List.length_take, PersistentLog.length_log]
  exact Nat.min_eq_left hc

end Invariant

/-- The leadership part for a node that has no replication object and no waiting reads. -/
theorem leadershipInvariant_of_none {node : RaftNode} (hl : node.leader = none)
    (hr : node.readRounds = []) (hrole : node.role ≠ .leader) : node.LeadershipInvariant where
  active h := by simp [hl] at h
  exists_leader h := absurd h hrole
  knownLeader h := by simp [hl] at h
  reads _ := hr

/-- The node of a data directory. -/
theorem openFrom_eq {selfId : ℕ} {peerIds : Fin 2 → ℕ} {disk : Disk} {node : RaftNode}
    (h : openFrom selfId peerIds disk = some node) :
    node =
      { selfId
        peerIds
        metadata := .openFrom disk.metadata
        log := .openFrom disk.log
        election := { selfId, peerIds } } := by
  unfold openFrom at h
  split_ifs at h
  exact (Option.some.inj h).symm

theorem openFrom_invariant {selfId : ℕ} {peerIds : Fin 2 → ℕ} {disk : Disk} {node : RaftNode}
    (h : openFrom selfId peerIds disk = some node)
    (hl : LogInvariant disk.log disk.metadata.currentTerm)
    (hv : disk.metadata.votedFor.isSome → disk.metadata.currentTerm ≠ 0) :
    node.Invariant ∧ node.stopped = false := by
  unfold openFrom at h
  split_ifs at h with hids
  simp only [not_or] at hids
  obtain rfl := Option.some.inj h
  refine ⟨⟨⟨?_, ?_, ?_, Nat.zero_le _, ?_, hv⟩,
    ⟨rfl, rfl, hids.1, Fin.forall_fin_two.2 ⟨hids.2.1, hids.2.2⟩, rfl, ?_⟩, ?_⟩, rfl⟩
  · exact PersistentMetadata.synced_openFrom _
  · exact PersistentLog.synced_openFrom _
  · simpa [term, PersistentMetadata.openFrom] using hl
  · simp
  · intro hc
    cases hc
  · refine leadershipInvariant_of_none rfl rfl ?_
    rw [Ne, role_eq_leader_iff]
    rintro ⟨hc, -⟩
    cases hc

end RaftNode

end DistributedKV
