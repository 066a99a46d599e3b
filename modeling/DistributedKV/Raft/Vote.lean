import DistributedKV.Store.PersistentLog

/-!
# Granting votes

`raft_vote.cpp`.
-/

namespace DistributedKV

structure RequestVote where
  term : ℕ := 0
  candidateId : ℕ := 0
  lastLogIndex : ℕ := 0
  lastLogTerm : ℕ := 0
  deriving DecidableEq

structure RequestVoteReply where
  term : ℕ := 0
  voteGranted : Bool := false
  deriving DecidableEq

inductive RequestVoteHandleError
  | persistenceError
  deriving DecidableEq, Repr

def candidateLogIsUpToDate (request : RequestVote) (log : PersistentLog) : Bool :=
  if request.lastLogTerm ≠ log.lastTerm then log.lastTerm < request.lastLogTerm
  else log.lastIndex ≤ request.lastLogIndex

def handleRequestVote (metadata : PersistentMetadata) (log : PersistentLog)
    (request : RequestVote) :
    PersistentMetadata × Except RequestVoteHandleError RequestVoteReply :=
  match metadata.advanceTerm request.term with
  | (metadata, .ioError) => (metadata, .error .persistenceError)
  | (metadata, _) =>
    let state := metadata.state
    if request.term = 0 ∨ request.term < state.currentTerm then
      (metadata, .ok ⟨state.currentTerm, false⟩)
    else if (state.votedFor.isSome ∧ state.votedFor ≠ some request.candidateId) ∨
        candidateLogIsUpToDate request log = false then
      (metadata, .ok ⟨state.currentTerm, false⟩)
    else match metadata.voteFor request.candidateId with
      | (metadata, .persisted) => (metadata, .ok ⟨metadata.state.currentTerm, true⟩)
      | (metadata, .unchanged) => (metadata, .ok ⟨metadata.state.currentTerm, true⟩)
      | (metadata, .voteConflict) => (metadata, .ok ⟨metadata.state.currentTerm, false⟩)
      | (metadata, _) => (metadata, .error .persistenceError)

/-! ## What a vote request can do -/

/-- How `handle_request_vote` ends, in terms of an assertion `A` about the durable record. -/
inductive RequestVoteEnd (metadata : PersistentMetadata) (log : PersistentLog)
    (request : RequestVote) (A : RaftMetadata → Prop) :
    PersistentMetadata × Except RequestVoteHandleError RequestVoteReply → Prop
  | refused (metadata' : PersistentMetadata) (hs : metadata'.Synced)
      (hA : A metadata'.state) :
      RequestVoteEnd metadata log request A
        (metadata', .ok ⟨metadata'.state.currentTerm, false⟩)
  | granted (metadata' : PersistentMetadata) (hs : metadata'.Synced)
      (hn : metadata'.state = ⟨request.term, some request.candidateId⟩)
      (hA : A metadata'.state) :
      RequestVoteEnd metadata log request A (metadata', .ok ⟨request.term, true⟩)
  | persistenceError (metadata' : PersistentMetadata) (hm : A metadata'.state)
      (hA : A metadata'.durable) :
      RequestVoteEnd metadata log request A (metadata', .error .persistenceError)

/-- **The rule of a vote request**: an assertion that entering the request's term and then voting
for an up-to-date candidate preserve holds at the end. -/
theorem handleRequestVote_rule {metadata : PersistentMetadata} (log : PersistentLog)
    (request : RequestVote) {A : RaftMetadata → Prop} (hs : metadata.Synced)
    (h : A metadata.state)
    (hadvance : metadata.state.currentTerm < request.term → A ⟨request.term, none⟩)
    (hvote : request.term ≠ 0 → candidateLogIsUpToDate request log = true →
      A ⟨request.term, none⟩ → A ⟨request.term, some request.candidateId⟩) :
    RequestVoteEnd metadata log request A (handleRequestVote metadata log request) := by
  -- the vote itself, once the record is in the request's term
  have hmain : ∀ {m : PersistentMetadata}, m.Synced → A m.state →
      m.state.currentTerm = request.term → RequestVoteEnd metadata log request A
        (if request.term = 0 ∨ request.term < m.state.currentTerm then
          (m, .ok ⟨m.state.currentTerm, false⟩)
        else if (m.state.votedFor.isSome ∧ m.state.votedFor ≠ some request.candidateId) ∨
            candidateLogIsUpToDate request log = false then
          (m, .ok ⟨m.state.currentTerm, false⟩)
        else match m.voteFor request.candidateId with
          | (m, .persisted) => (m, .ok ⟨m.state.currentTerm, true⟩)
          | (m, .unchanged) => (m, .ok ⟨m.state.currentTerm, true⟩)
          | (m, .voteConflict) => (m, .ok ⟨m.state.currentTerm, false⟩)
          | (m, _) => (m, .error .persistenceError)) := by
    intro m hs hA ht
    split_ifs with h0 hno
    · exact .refused m hs hA
    · exact .refused m hs hA
    · rw [not_or] at h0
      rw [not_or, Bool.not_eq_false] at hno
      have hstate : ∀ v, m.state.votedFor = v → m.state = ⟨request.term, v⟩ := by
        rintro v rfl
        rw [← ht]
      rcases PersistentMetadata.voteFor_cases hs request.candidateId (ht ▸ h0.1) with
        ⟨hv, hr⟩ | ⟨c, hc, hv, -⟩ | ⟨hv, hu⟩
      · rw [hr]
        dsimp only
        rw [ht]
        exact .granted m hs (hstate _ hv) hA
      · exact absurd ⟨by simp [hv], by simpa [hv] using hc⟩ hno.1
      · have hA' := hvote h0.1 hno.2 (hstate _ hv ▸ hA)
        rw [ht] at hu
        revert hu
        generalize m.voteFor request.candidateId = r
        rintro (⟨m', hs', hn⟩ | ⟨m', hn, hd⟩)
        · dsimp only
          rw [hn]
          exact .granted m' hs' hn (hn ▸ hA')
        · refine .persistenceError m' (hn ▸ hA) ?_
          rcases hd with hd | hd
          · exact hd ▸ hA
          · exact hd ▸ hA'
  unfold handleRequestVote
  rcases PersistentMetadata.advanceTerm_cases hs request.term with ⟨ht, hr⟩ | ⟨ht, hr⟩ | ⟨ht, hu⟩
  · rw [hr]
    dsimp only
    rw [if_pos (Or.inr ht)]
    exact .refused metadata hs h
  · rw [hr]
    exact hmain hs h ht.symm
  · have hA := hadvance ht
    revert hu
    generalize metadata.advanceTerm request.term = r
    rintro (⟨m', hs', hn⟩ | ⟨m', hn, hd⟩)
    · exact hmain hs' (hn ▸ hA) (by rw [hn])
    · refine .persistenceError m' (hn ▸ h) ?_
      rcases hd with hd | hd
      · exact hd ▸ h
      · exact hd ▸ hA

end DistributedKV
