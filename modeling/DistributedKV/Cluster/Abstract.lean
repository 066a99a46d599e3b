import DistributedKV.Cluster.World
import DistributedKV.Foundations.Replication.Safety

/-!
# The abstract state of a cluster

The replicated log of `Foundations/Replication`, for the nodes and log entries of a cluster. One
call on a node is some steps of that node (`Effect`): perhaps it enters a term, then it writes in
that term.
-/

namespace DistributedKV

open Replication (Step Grows Frame Backed CommittedBy UpToDate)

/-- The abstract state of a cluster. -/
abbrev Abstract := Replication.State ℕ LogEntry

/-- An entry that may stand at a position of a log. -/
structure Placed (k : ℕ) (e : LogEntry) : Prop where
  index : e.index = k + 1
  encodable : e.Encodable
  lt : e.index < uint64Max

/-- Every entry of a leader's log is in its place. -/
def LeaderLogs (s : Abstract) : Prop :=
  ∀ {T c L}, s.leader T = some (c, L) → ∀ {k e}, L[k]? = some e → Placed k e

/-- What holds of the abstract state between two calls. -/
structure Abstract.Sound (cluster : Cluster) (s : Abstract) : Prop where
  invariant : Replication.Invariant cluster.quorum LogEntry.term s
  leaderLogs : LeaderLogs s
  vote_zero : ∀ n, s.vote n 0 = none

/-- What one call does to the abstract state: the steps it makes, and the votes it casts are in
the node's term. -/
structure Effect (cluster : Cluster) (n : ℕ) (s s' : Abstract) : Prop where
  steps : Replication.Steps cluster.quorum LogEntry.term n s s'
  leaderLogs : LeaderLogs s → LeaderLogs s'
  votes : ∀ {T c}, s'.vote n T = some c → s.vote n T = some c ∨ T = s'.term n ∧ T ≠ 0

variable {cluster : Cluster} {n : ℕ} {s s' s'' : Abstract}

namespace Abstract.Sound

theorem init : Sound cluster Replication.State.init where
  invariant := .init
  leaderLogs h := by simp [Replication.State.init] at h
  vote_zero _ := rfl

theorem effect (h : Sound cluster s) (he : Effect cluster n s s') : Sound cluster s' where
  invariant := (h.invariant.steps he.steps).1
  leaderLogs := he.leaderLogs h.leaderLogs
  vote_zero p := by
    by_cases hp : p = n
    · subst hp
      cases hv : s'.vote p 0 with
      | none => rfl
      | some c =>
        rcases he.votes hv with hv' | ⟨-, h0⟩
        · rw [h.vote_zero] at hv'
          cases hv'
        · exact absurd rfl h0
    · rw [he.steps.frame.vote p hp, h.vote_zero]

/-- Term zero has no leader. -/
theorem leader_zero (h : Sound cluster s) : s.leader 0 = none := by
  cases hl : s.leader 0 with
  | none => rfl
  | some cL =>
    obtain ⟨c, L⟩ := cL
    obtain ⟨l, -, -, Q, hQ, hv⟩ := h.invariant.leader_elected hl
    obtain ⟨p, -, hp, -⟩ := QuorumSystem.exists_pair_of_majority cluster.card_members hQ
    have := (hv p hp).1
    rw [h.vote_zero] at this
    cases this

/-- The entries of a backed log are in their places. -/
theorem placed (h : Sound cluster s) {l : List LogEntry} (hb : Backed LogEntry.term s l) {k : ℕ}
    {e : LogEntry} (he : l[k]? = some e) : Placed k e := by
  obtain ⟨c, L, hL, hp⟩ := hb k e he
  refine h.leaderLogs hL (Replication.getElem?_of_prefix hp ?_)
  rw [List.getElem?_take, if_pos (Nat.lt_succ_self k), he]

/-- A backed log is well formed. -/
theorem logInvariant (h : Sound cluster s) {l : List LogEntry} (hb : Backed LogEntry.term s l)
    {t : ℕ} (ht : ∀ e ∈ l, e.term ≤ t) : LogInvariant l t := by
  refine ⟨fun he => (h.placed hb he).index, fun e he => ?_, ?_, ht⟩
  · obtain ⟨k, hk⟩ := List.mem_iff_getElem?.1 he
    exact (h.placed hb hk).encodable
  · refine List.pairwise_iff_getElem.2 fun i j hi hj hij => ?_
    exact h.invariant.backed_sorted hb hij.le (List.getElem?_eq_getElem hi)
      (List.getElem?_eq_getElem hj)

theorem logInvariant_node (h : Sound cluster s) (p : ℕ) : LogInvariant (s.log p) (s.term p) :=
  h.logInvariant (h.invariant.log_backed p) (h.invariant.log_term p)

theorem logInvariant_leader (h : Sound cluster s) {T c : ℕ} {L : List LogEntry}
    (hL : s.leader T = some (c, L)) : LogInvariant L T :=
  h.logInvariant (h.invariant.leader_backed hL) (h.invariant.leader_term hL)

end Abstract.Sound

/-! ## Effects -/

namespace Effect

theorem refl (cluster : Cluster) (n : ℕ) (s : Abstract) : Effect cluster n s s :=
  ⟨Relation.ReflTransGen.refl, fun h => h, fun h => Or.inl h⟩

theorem trans (h : Effect cluster n s s') (h' : Effect cluster n s' s'')
    (ht : s''.term n = s'.term n) : Effect cluster n s s'' where
  steps := h.steps.trans h'.steps
  leaderLogs hl := h'.leaderLogs (h.leaderLogs hl)
  votes hv := by
    rcases h'.votes hv with hv | hv
    · rcases h.votes hv with hv | hv
      · exact Or.inl hv
      · exact Or.inr (by rwa [ht])
    · exact Or.inr hv

theorem grows (hs : s.Sound cluster) (h : Effect cluster n s s') : Grows LogEntry.term s s' :=
  (hs.invariant.steps h.steps).2

/-- A step that neither votes nor touches a leader's log. -/
theorem of_step (h : Step cluster.quorum LogEntry.term n s s') (hl : s'.leader = s.leader)
    (hv : s'.vote = s.vote) : Effect cluster n s s' where
  steps := Relation.ReflTransGen.single h
  leaderLogs h := by
    intro T c L hL
    rw [hl] at hL
    exact h hL
  votes hv' := Or.inl (by rwa [hv] at hv')

/-- Appending an entry to a leader's log, in terms of the entry's index. -/
theorem of_leader {L : List LogEntry} (h : Step cluster.quorum LogEntry.term n s s')
    (hl : s'.leader = Function.update s.leader (s.term n) (some (n, L)))
    (hL : LeaderLogs s → ∀ {k e}, L[k]? = some e → Placed k e)
    (hv : s'.vote = s.vote) : Effect cluster n s s' where
  steps := Relation.ReflTransGen.single h
  leaderLogs h := by
    intro T c L' hL'
    rw [hl] at hL'
    by_cases hT : T = s.term n
    · subst hT
      simp only [Function.update_self, Option.some.injEq, Prod.mk.injEq] at hL'
      rw [← hL'.2]
      exact hL h
    · rw [Function.update_of_ne hT] at hL'
      exact h hL'
  votes hv' := Or.inl (by rwa [hv] at hv')

end Effect

/-! ## The durable record -/

/-- A durable record is that of the node in the abstract state. -/
structure Recorded (s : Abstract) (n : ℕ) (m : RaftMetadata) : Prop where
  term : s.term n = m.currentTerm
  vote : s.vote n m.currentTerm = m.votedFor

/-- Nothing changed but terms and votes. -/
structure Quiet (s s' : Abstract) : Prop where
  log : s'.log = s.log
  candidacy : s'.candidacy = s.candidacy
  leader : s'.leader = s.leader
  ack : s'.ack = s.ack
  committed : s'.committed = s.committed

theorem Quiet.refl (s : Abstract) : Quiet s s := ⟨rfl, rfl, rfl, rfl, rfl⟩

theorem Quiet.trans (h : Quiet s s') (h' : Quiet s' s'') : Quiet s s'' :=
  ⟨h'.log.trans h.log, h'.candidacy.trans h.candidacy, h'.leader.trans h.leader,
    h'.ack.trans h.ack, h'.committed.trans h.committed⟩

/-- The record `m` can be written in an event that starts in the state `s`. -/
def Writes (cluster : Cluster) (n : ℕ) (s : Abstract) (m : RaftMetadata) : Prop :=
  ∃ s', Effect cluster n s s' ∧ Quiet s s' ∧ Recorded s' n m

namespace Writes

variable {m : RaftMetadata} {t c : ℕ}

theorem refl (h : Recorded s n m) : Writes cluster n s m :=
  ⟨s, .refl cluster n s, .refl s, h⟩

theorem enter (hs : s.Sound cluster) (h : Recorded s n m) (ht : m.currentTerm < t) :
    Writes cluster n s ⟨t, none⟩ := by
  rw [← h.term] at ht
  refine ⟨_, .of_step (.advanceTerm s t ht) rfl rfl, ⟨rfl, rfl, rfl, rfl, rfl⟩, ?_, ?_⟩
  · exact Function.update_self ..
  · cases hv : s.vote n t with
    | none => rfl
    | some c => exact absurd (hs.invariant.vote_le hv) (not_le.2 ht)

theorem grant (h : Writes cluster n s ⟨t, none⟩) (ht : t ≠ 0) {l : List LogEntry}
    (hc : s.candidacy c t = some l) (hu : UpToDate LogEntry.term l (s.log n)) :
    Writes cluster n s ⟨t, some c⟩ := by
  obtain ⟨s', he, hq, hr⟩ := h
  have hterm : s'.term n = t := hr.term
  have hstep : Step cluster.quorum LogEntry.term n s' (s'.castVote n c) := by
    refine .grant s' c l ?_ ?_ ?_
    · rw [hterm]
      exact hr.vote
    · rw [hterm, hq.candidacy, hc]
    · rwa [hq.log]
  have hcast : Effect cluster n s' (s'.castVote n c) := by
    refine ⟨Relation.ReflTransGen.single hstep, fun h => h, fun {T x} hv => ?_⟩
    simp only [Replication.State.castVote, Replication.update₂_apply] at hv
    split_ifs at hv with hT
    · exact Or.inr ⟨hT.2, by rw [hT.2, hterm]; exact ht⟩
    · exact Or.inl hv
  refine ⟨_, he.trans hcast rfl, hq.trans ⟨rfl, rfl, rfl, rfl, rfl⟩, hterm, ?_⟩
  simp [Replication.State.castVote, Replication.update₂_apply, hterm]

end Writes

end DistributedKV
