import DistributedKV.Store.Command

/-!
# The term and vote store

`persistent_metadata.cpp`. A store keeps its state twice: `state` is what the process remembers
and `durable` is the record that a reopen recovers. A replacement of the record can succeed, fail
before the old record is touched, or fail at the rename or at the directory sync, when the disk
holds either record and the store refuses every later update. Which of these happens is not
decided by the program: `outcomes` lists what becomes of the coming replacements, and once it is
empty every replacement succeeds.
-/

namespace DistributedKV

/-- What becomes of one durable write. -/
inductive WriteOutcome
  /-- The write is on disk before it is reported. -/
  | done
  /-- The write is reported as failed and the disk is as it was. -/
  | failed
  /-- The write is reported as failed; the disk holds the new content exactly when `reached`. -/
  | uncertain (reached : Bool)
  deriving DecidableEq, Repr

/-- The outcome of the next write; a list that has run out stands for working storage. -/
def nextOutcome : List WriteOutcome → WriteOutcome
  | [] => .done
  | o :: _ => o

@[simp] theorem nextOutcome_nil : nextOutcome [] = .done := rfl

structure RaftMetadata where
  currentTerm : ℕ := 0
  votedFor : Option ℕ := none
  deriving DecidableEq

inductive PersistentMetadataUpdateResult
  | persisted
  | unchanged
  | staleTerm
  | voteConflict
  | invalidTerm
  | ioError
  deriving DecidableEq, Repr

structure PersistentMetadata where
  state : RaftMetadata := {}
  ioFailed : Bool := false
  durable : RaftMetadata := {}
  outcomes : List WriteOutcome := []
  deriving DecidableEq

namespace PersistentMetadata

/-- `PersistentMetadata::open` on a readable record, or on no file at all. -/
def openFrom (durable : RaftMetadata) : PersistentMetadata := { state := durable, durable }

/-- `encode_raft_metadata` reports `InvalidState`. -/
def invalidState (m : RaftMetadata) : Bool := m.currentTerm = 0 ∧ m.votedFor.isSome

def persist (store : PersistentMetadata) (next : RaftMetadata) :
    PersistentMetadata × PersistentMetadataUpdateResult :=
  if invalidState next then (store, .ioError)
  else
    let rest := { store with outcomes := store.outcomes.tail }
    match nextOutcome store.outcomes with
    | .done => ({ rest with state := next, durable := next }, .persisted)
    | .failed => (rest, .ioError)
    | .uncertain reached =>
      ({ rest with ioFailed := true, durable := if reached then next else store.durable },
        .ioError)

def advanceTerm (store : PersistentMetadata) (term : ℕ) :
    PersistentMetadata × PersistentMetadataUpdateResult :=
  if store.ioFailed then (store, .ioError)
  else if term < store.state.currentTerm then (store, .staleTerm)
  else if term = store.state.currentTerm then (store, .unchanged)
  else store.persist ⟨term, none⟩

def voteFor (store : PersistentMetadata) (candidate : ℕ) :
    PersistentMetadata × PersistentMetadataUpdateResult :=
  if store.ioFailed then (store, .ioError)
  else if store.state.currentTerm = 0 then (store, .invalidTerm)
  else if store.state.votedFor = some candidate then (store, .unchanged)
  else if store.state.votedFor.isSome then (store, .voteConflict)
  else store.persist ⟨store.state.currentTerm, some candidate⟩

/-- The process remembers what a reopen would recover, and the store takes updates. -/
structure Synced (store : PersistentMetadata) : Prop where
  ioFailed : store.ioFailed = false
  durable : store.durable = store.state

theorem synced_openFrom (m : RaftMetadata) : (openFrom m).Synced := ⟨rfl, rfl⟩

/-! ## What an update can do -/

/-- An update of a synced store towards the record `next`: it is confirmed, or it fails and the
disk holds the old record or `next`. -/
inductive Update (store : PersistentMetadata) (next : RaftMetadata) :
    PersistentMetadata × PersistentMetadataUpdateResult → Prop
  | persisted (store') (hs : store'.Synced) (hn : store'.state = next) :
      Update store next (store', .persisted)
  | ioError (store') (hn : store'.state = store.state)
      (hd : store'.durable = store.state ∨ store'.durable = next) :
        Update store next (store', .ioError)

theorem persist_cases {store : PersistentMetadata} (hs : store.Synced) {next : RaftMetadata}
    (hv : invalidState next = false) : Update store next (store.persist next) := by
  unfold persist
  rw [hv]
  cases ho : store.outcomes with
  | nil => exact .persisted _ ⟨hs.ioFailed, rfl⟩ rfl
  | cons o rest =>
    cases o with
    | done => exact .persisted _ ⟨hs.ioFailed, rfl⟩ rfl
    | failed => exact .ioError _ rfl (Or.inl hs.durable)
    | uncertain reached =>
      refine .ioError _ rfl ?_
      cases reached
      · exact Or.inl hs.durable
      · exact Or.inr rfl

/-- `advance_term` on a synced store: nothing happens up to the current term, and above it the
record with that term and no vote is written. -/
theorem advanceTerm_cases {store : PersistentMetadata} (hs : store.Synced) (term : ℕ) :
    (term < store.state.currentTerm ∧ store.advanceTerm term = (store, .staleTerm)) ∨
    (term = store.state.currentTerm ∧ store.advanceTerm term = (store, .unchanged)) ∨
    (store.state.currentTerm < term ∧ Update store ⟨term, none⟩ (store.advanceTerm term)) := by
  unfold advanceTerm
  simp only [hs.ioFailed, Bool.false_eq_true, if_false]
  rcases Nat.lt_trichotomy term store.state.currentTerm with h | h | h
  · exact Or.inl ⟨h, by simp [h]⟩
  · exact Or.inr (Or.inl ⟨h, by simp [h]⟩)
  · refine Or.inr (Or.inr ⟨h, ?_⟩)
    rw [if_neg (by omega), if_neg (by omega)]
    exact persist_cases hs (by simp [invalidState])

/-- `vote_for` on a synced store in a nonzero term. -/
theorem voteFor_cases {store : PersistentMetadata} (hs : store.Synced) (candidate : ℕ)
    (ht : store.state.currentTerm ≠ 0) :
    (store.state.votedFor = some candidate ∧ store.voteFor candidate = (store, .unchanged)) ∨
    (∃ c, c ≠ candidate ∧ store.state.votedFor = some c ∧
      store.voteFor candidate = (store, .voteConflict)) ∨
    (store.state.votedFor = none ∧
      Update store ⟨store.state.currentTerm, some candidate⟩ (store.voteFor candidate)) := by
  unfold voteFor
  simp only [hs.ioFailed, Bool.false_eq_true, if_false, if_neg ht]
  cases hv : store.state.votedFor with
  | none =>
    refine Or.inr (Or.inr ⟨rfl, ?_⟩)
    simp only [reduceCtorEq, if_false, Option.isSome_none, Bool.false_eq_true]
    exact persist_cases hs (by simp [invalidState, ht])
  | some c =>
    by_cases hc : c = candidate
    · exact Or.inl ⟨by rw [hc], by simp [hc]⟩
    · exact Or.inr (Or.inl ⟨c, hc, rfl, by simp [hc]⟩)

end PersistentMetadata

end DistributedKV
