import DistributedKV.Raft.Vote
import Mathlib.Logic.Function.Basic

/-!
# Standing for election

`raft_election.cpp`. The class keeps references to the node's stores; here a method takes the
stores it reads or writes and returns those it may change.
-/

namespace DistributedKV

inductive RaftRole
  | follower
  | candidate
  | leader
  deriving DecidableEq, Repr

inductive ElectionStartError
  | alreadyLeader
  | termExhausted
  | persistenceError
  deriving DecidableEq, Repr

inductive VoteReplyOutcome
  | ignored
  | recorded
  | becameLeader
  | steppedDown
  | persistenceError
  deriving DecidableEq, Repr

/-- The two positions of the peers. -/
instance (priority := high) neZeroPeers : NeZero 2 := ⟨by decide⟩

structure RaftElection where
  selfId : ℕ
  peerIds : Fin 2 → ℕ
  /-- The member `role_`; `role` corrects it by the metadata. -/
  cachedRole : RaftRole := .follower
  electionTerm : ℕ := 0
  replied : Fin 2 → Bool := fun _ => false
  grantedVotes : ℕ := 0
  unusable : Bool := false

namespace RaftElection

/-- The metadata has moved away from the election this object ran. -/
def stale (election : RaftElection) (metadata : PersistentMetadata) : Bool :=
  metadata.state.currentTerm ≠ election.electionTerm ∨
    metadata.state.votedFor ≠ some election.selfId

def role (election : RaftElection) (metadata : PersistentMetadata) : RaftRole :=
  if election.cachedRole ≠ .follower ∧ election.stale metadata then .follower
  else election.cachedRole

def becomeFollower (election : RaftElection) : RaftElection :=
  { election with
    cachedRole := .follower
    electionTerm := 0
    replied := fun _ => false
    grantedVotes := 0 }

def observeLeader (election : RaftElection) (metadata : PersistentMetadata) (term : ℕ) :
    RaftElection :=
  if term ≠ 0 ∧ term = metadata.state.currentTerm then election.becomeFollower else election

def refreshRoleFromMetadata (election : RaftElection) (metadata : PersistentMetadata) :
    RaftElection × Bool :=
  if election.cachedRole ≠ .follower ∧ election.role metadata = .follower then
    (election.becomeFollower, true)
  else (election, false)

/-- A failed update of the metadata makes the election object useless. -/
def giveUp (election : RaftElection) : RaftElection :=
  { election.becomeFollower with unusable := true }

def startElection (election : RaftElection) (metadata : PersistentMetadata)
    (log : PersistentLog) :
    RaftElection × PersistentMetadata × Except ElectionStartError RequestVote :=
  if election.unusable then (election, metadata, .error .persistenceError)
  else
    let election := (election.refreshRoleFromMetadata metadata).1
    if election.cachedRole = .leader then (election, metadata, .error .alreadyLeader)
    else
      let currentTerm := metadata.state.currentTerm
      if currentTerm = uint64Max then (election, metadata, .error .termExhausted)
      else
        let nextTerm := currentTerm + 1
        match metadata.advanceTerm nextTerm with
        | (metadata, .persisted) =>
          match metadata.voteFor election.selfId with
          | (metadata, voteResult) =>
            if voteResult ≠ .persisted ∧ voteResult ≠ .unchanged then
              (election.giveUp, metadata, .error .persistenceError)
            else
              ({ election with
                  cachedRole := .candidate
                  electionTerm := nextTerm
                  replied := fun _ => false
                  grantedVotes := 1 },
                metadata, .ok ⟨nextTerm, election.selfId, log.lastIndex, log.lastTerm⟩)
        | (metadata, _) => (election.giveUp, metadata, .error .persistenceError)

/-- The loop over `peer_ids_`: the last position that holds the id. -/
def peerIndex (election : RaftElection) (peerId : ℕ) : Option (Fin 2) :=
  if election.peerIds 1 = peerId then some 1
  else if election.peerIds 0 = peerId then some 0
  else none

def handleVoteReply (election : RaftElection) (metadata : PersistentMetadata) (peerId : ℕ)
    (reply : RequestVoteReply) : RaftElection × PersistentMetadata × VoteReplyOutcome :=
  if election.unusable then (election, metadata, .persistenceError)
  else match election.refreshRoleFromMetadata metadata with
    | (election, true) => (election, metadata, .steppedDown)
    | (election, false) =>
      match election.peerIndex peerId with
      | none => (election, metadata, .ignored)
      | some peer =>
        if metadata.state.currentTerm < reply.term then
          let election := election.becomeFollower
          match metadata.advanceTerm reply.term with
          | (metadata, .persisted) => (election, metadata, .steppedDown)
          | (metadata, _) => ({ election with unusable := true }, metadata, .persistenceError)
        else if election.cachedRole ≠ .candidate ∨ reply.term ≠ election.electionTerm ∨
            election.replied peer then
          (election, metadata, .ignored)
        else
          let election :=
            { election with replied := Function.update election.replied peer true }
          if reply.voteGranted = false then (election, metadata, .recorded)
          else
            let election := { election with grantedVotes := election.grantedVotes + 1 }
            if 2 ≤ election.grantedVotes then
              ({ election with cachedRole := .leader }, metadata, .becameLeader)
            else (election, metadata, .recorded)

/-! ## What an election can do -/

variable {election : RaftElection} {metadata : PersistentMetadata}

theorem refreshRoleFromMetadata_cases (election : RaftElection) (metadata : PersistentMetadata) :
    (election.refreshRoleFromMetadata metadata = (election, false) ∧
      election.role metadata = election.cachedRole) ∨
    (election.refreshRoleFromMetadata metadata = (election.becomeFollower, true) ∧
      election.cachedRole ≠ .follower ∧ election.role metadata = .follower) := by
  unfold refreshRoleFromMetadata role
  by_cases hf : election.cachedRole = .follower
  · simp [hf]
  · cases hs : election.stale metadata <;> simp [hf]

/-- How `start_election` ends, in terms of an assertion `A` about the durable record. -/
inductive StartElectionEnd (election : RaftElection) (metadata : PersistentMetadata)
    (log : PersistentLog) (A : RaftMetadata → Prop) :
    RaftElection × PersistentMetadata × Except ElectionStartError RequestVote → Prop
  | alreadyLeader (hr : election.role metadata = .leader) :
      StartElectionEnd election metadata log A (election, metadata, .error .alreadyLeader)
  | termExhausted (election' : RaftElection)
      (he : election' = election ∨ election' = election.becomeFollower) :
      StartElectionEnd election metadata log A (election', metadata, .error .termExhausted)
  | persistenceError (metadata' : PersistentMetadata) (hm : A metadata'.state)
      (hA : A metadata'.durable) (election' : RaftElection)
      (he : election'.cachedRole = .follower) :
      StartElectionEnd election metadata log A (election', metadata', .error .persistenceError)
  | started (metadata' : PersistentMetadata) (hs : metadata'.Synced)
      (hr : election.role metadata ≠ .leader)
      (hn : metadata'.state = ⟨metadata.state.currentTerm + 1, some election.selfId⟩)
      (hA : A metadata'.state) :
      StartElectionEnd election metadata log A
        ({ election with
            cachedRole := .candidate
            electionTerm := metadata.state.currentTerm + 1
            replied := fun _ => false
            grantedVotes := 1 },
          metadata', .ok ⟨metadata.state.currentTerm + 1, election.selfId, log.lastIndex,
            log.lastTerm⟩)

/-- **The rule of starting an election**: an assertion that entering the next term and then voting
for oneself preserve holds at the end. -/
theorem startElection_rule (log : PersistentLog) {A : RaftMetadata → Prop}
    (hu : election.unusable = false) (hs : metadata.Synced) (h : A metadata.state)
    (hadvance : A ⟨metadata.state.currentTerm + 1, none⟩)
    (hvote : A ⟨metadata.state.currentTerm + 1, some election.selfId⟩) :
    StartElectionEnd election metadata log A (election.startElection metadata log) := by
  -- the two writes, after the role has been refreshed
  have hmain : ∀ {e' : RaftElection}, e' = election ∨ e' = election.becomeFollower →
      election.role metadata ≠ .leader → StartElectionEnd election metadata log A
        (if metadata.state.currentTerm = uint64Max then (e', metadata, .error .termExhausted)
        else match metadata.advanceTerm (metadata.state.currentTerm + 1) with
          | (metadata', .persisted) =>
            match metadata'.voteFor e'.selfId with
            | (metadata', voteResult) =>
              if voteResult ≠ .persisted ∧ voteResult ≠ .unchanged then
                (e'.giveUp, metadata', .error .persistenceError)
              else
                ({ e' with
                    cachedRole := .candidate
                    electionTerm := metadata.state.currentTerm + 1
                    replied := fun _ => false
                    grantedVotes := 1 },
                  metadata', .ok ⟨metadata.state.currentTerm + 1, e'.selfId, log.lastIndex,
                    log.lastTerm⟩)
          | (metadata', _) => (e'.giveUp, metadata', .error .persistenceError)) := by
    intro e' he' hr
    obtain ⟨hself, hpeer, hunusable⟩ : e'.selfId = election.selfId ∧
        e'.peerIds = election.peerIds ∧ e'.unusable = election.unusable := by
      rcases he' with rfl | rfl <;> exact ⟨rfl, rfl, rfl⟩
    split_ifs with hmax
    · exact .termExhausted e' he'
    rcases PersistentMetadata.advanceTerm_cases hs (metadata.state.currentTerm + 1) with
      ⟨ht, -⟩ | ⟨ht, -⟩ | ⟨-, hup⟩
    · omega
    · omega
    · revert hup
      generalize metadata.advanceTerm (metadata.state.currentTerm + 1) = r
      rintro (⟨m, hs', hn⟩ | ⟨m, hn, hd⟩)
      · dsimp only
        rw [hself]
        rcases PersistentMetadata.voteFor_cases hs' election.selfId (by simp [hn]) with
          ⟨hv, -⟩ | ⟨c, -, hv, -⟩ | ⟨-, hup⟩
        · simp [hn] at hv
        · simp [hn] at hv
        · revert hup
          rw [hn]
          generalize m.voteFor election.selfId = r
          rintro (⟨m', hs'', hn'⟩ | ⟨m', hn', hd'⟩)
          · simp only [ne_eq, not_true_eq_false, false_and, if_false]
            rw [hpeer, hunusable]
            exact .started m' hs'' hr hn' (hn' ▸ hvote)
          · rw [if_pos ⟨by simp, by simp⟩]
            refine .persistenceError m' (by rwa [hn', hn]) ?_ _ rfl
            rcases hd' with hd' | hd'
            · rwa [hd', hn]
            · rwa [hd']
      · refine .persistenceError m (by rwa [hn]) ?_ _ rfl
        rcases hd with hd | hd
        · rwa [hd]
        · rwa [hd]
  unfold startElection
  rw [if_neg (by simp [hu])]
  rcases refreshRoleFromMetadata_cases election metadata with ⟨hr, hrole⟩ | ⟨hr, -, hrole⟩
  · rw [hr]
    dsimp only
    split_ifs with hl hmax
    · exact .alreadyLeader (hrole.trans hl)
    · simpa [hmax] using hmain (Or.inl rfl) (by rwa [hrole])
    · simpa [hmax] using hmain (Or.inl rfl) (by rwa [hrole])
  · rw [hr]
    have := hmain (Or.inr rfl) (by rw [hrole]; simp)
    simpa [becomeFollower] using this

/-- A role other than follower is one of the current term, with the own vote. -/
theorem facts_of_role (h : election.role metadata ≠ .follower) :
    election.role metadata = election.cachedRole ∧
      metadata.state.currentTerm = election.electionTerm ∧
      metadata.state.votedFor = some election.selfId := by
  unfold role stale at *
  split_ifs at h ⊢ with hs
  · exact absurd rfl h
  · simpa [h] using hs

theorem cachedRole_observeLeader {t : ℕ} (h0 : t ≠ 0) (ht : metadata.state.currentTerm = t) :
    (election.observeLeader metadata t).cachedRole = .follower := by
  rw [observeLeader, if_pos ⟨h0, ht.symm⟩]
  rfl

/-- How `handle_vote_reply` ends, in terms of an assertion `A` about the durable record. -/
inductive VoteReplyEnd (election : RaftElection) (metadata : PersistentMetadata) (peerId : ℕ)
    (reply : RequestVoteReply) (A : RaftMetadata → Prop) :
    RaftElection × PersistentMetadata × VoteReplyOutcome → Prop
  | ignored (hr : election.role metadata = election.cachedRole) :
      VoteReplyEnd election metadata peerId reply A (election, metadata, .ignored)
  | steppedDown (metadata' : PersistentMetadata) (hs : metadata'.Synced) (hA : A metadata'.state) :
      VoteReplyEnd election metadata peerId reply A
        (election.becomeFollower, metadata', .steppedDown)
  | persistenceError (election' : RaftElection) (he : election'.cachedRole = .follower)
      (metadata' : PersistentMetadata) (hm : A metadata'.state) (hA : A metadata'.durable) :
      VoteReplyEnd election metadata peerId reply A (election', metadata', .persistenceError)
  | recorded (replied : Fin 2 → Bool) (hr : election.role metadata = .candidate) :
      VoteReplyEnd election metadata peerId reply A
        ({ election with replied }, metadata, .recorded)
  | becameLeader (replied : Fin 2 → Bool) (votes : ℕ) (hr : election.role metadata = .candidate)
      (hp : election.peerIndex peerId ≠ none) (ht : reply.term = metadata.state.currentTerm)
      (hg : reply.voteGranted = true) :
      VoteReplyEnd election metadata peerId reply A
        ({ election with replied, grantedVotes := votes, cachedRole := .leader }, metadata,
          .becameLeader)

/-- **The rule of a vote reply**: an assertion that entering the reply's term preserves holds at
the end, and a candidate with its own vote only becomes leader on the first granted vote. -/
theorem handleVoteReply_rule (peerId : ℕ) (reply : RequestVoteReply) {A : RaftMetadata → Prop}
    (hu : election.unusable = false) (hs : metadata.Synced) (h : A metadata.state)
    (hvotes : election.cachedRole = .candidate → election.grantedVotes = 1)
    (hadvance : metadata.state.currentTerm < reply.term → A ⟨reply.term, none⟩) :
    VoteReplyEnd election metadata peerId reply A
      (election.handleVoteReply metadata peerId reply) := by
  unfold handleVoteReply
  rw [if_neg (by simp [hu])]
  rcases refreshRoleFromMetadata_cases election metadata with ⟨hr, hrole⟩ | ⟨hr, -, -⟩
  · rw [hr]
    dsimp only
    cases hp : election.peerIndex peerId with
    | none => exact .ignored hrole
    | some i =>
      dsimp only
      split_ifs with hlt hign hrej hmaj
      · rcases PersistentMetadata.advanceTerm_cases hs reply.term with
          ⟨ht, -⟩ | ⟨ht, -⟩ | ⟨-, hup⟩
        · omega
        · omega
        · have hA := hadvance hlt
          revert hup
          generalize metadata.advanceTerm reply.term = r
          rintro (⟨m, hs', hn⟩ | ⟨m, hn, hd⟩)
          · exact .steppedDown m hs' (hn ▸ hA)
          · refine .persistenceError _ rfl m (hn ▸ h) ?_
            rcases hd with hd | hd
            · exact hd ▸ h
            · exact hd ▸ hA
      · exact .ignored hrole
      all_goals
        simp only [not_or, not_not, ne_eq, Bool.not_eq_true] at hign
        have hcand : election.role metadata = .candidate := hrole.trans hign.1
        have hne : election.role metadata ≠ .follower := by rw [hcand]; simp
        have hterm := (facts_of_role hne).2.1
      · exact .recorded _ hcand
      · exact .becameLeader _ _ hcand (by simp [hp]) (by rw [hign.2.1, hterm])
          (by simpa using hrej)
      · exact absurd (by simp [hvotes hign.1]) hmaj
  · rw [hr]
    exact .steppedDown metadata hs h

end RaftElection

end DistributedKV
