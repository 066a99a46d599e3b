import DistributedKV.Raft.Append
import DistributedKV.Raft.Election

/-!
# Replicating the log

`raft_leader.cpp`. The object refers to the node's election, stores and commit index; as for the
election, a method takes what it reads and returns what it may change.
-/

namespace DistributedKV

structure PeerProgress where
  nextIndex : ℕ := 1
  matchIndex : ℕ := 0
  deriving DecidableEq

inductive LeaderReplicationError
  | notLeader
  | unknownPeer
  | invalidBatchSize
  | invalidCommand
  | indexExhausted
  | persistenceError
  | inconsistentState
  deriving DecidableEq, Repr

inductive AppendReplyOutcome
  | ignored
  | retry
  | recorded
  | committed
  | steppedDown
  | inconsistentFollower
  | persistenceError
  deriving DecidableEq, Repr

structure PeerState where
  id : ℕ := 0
  progress : PeerProgress := {}
  pending : Option AppendEntries := none
  deriving DecidableEq

structure RaftLeaderReplication where
  selfId : ℕ
  term : ℕ
  peers : Fin 2 → PeerState
  stopped : Bool := false

namespace RaftLeaderReplication

/-- The constructor; `none` where it throws. -/
def create (election : RaftElection) (metadata : PersistentMetadata) (log : PersistentLog)
    (commitIndex : ℕ) : Option RaftLeaderReplication :=
  let term := metadata.state.currentTerm
  if term = 0 ∨ uint64Max - 1 ≤ log.lastIndex ∨ log.lastIndex < commitIndex ∨
      election.role metadata ≠ .leader ∨ metadata.state.votedFor ≠ some election.selfId then none
  else some
    { selfId := election.selfId
      term
      peers := fun i => ⟨election.peerIds i, ⟨log.lastIndex + 1, 0⟩, none⟩ }

def active (leader : RaftLeaderReplication) (election : RaftElection)
    (metadata : PersistentMetadata) : Bool :=
  leader.stopped = false ∧ election.role metadata = .leader ∧
    metadata.state.currentTerm = leader.term ∧ metadata.state.votedFor = some leader.selfId

/-- The loop over `peers_`: the first position that holds the id. -/
def findPeer (leader : RaftLeaderReplication) (peerId : ℕ) : Option (Fin 2) :=
  if (leader.peers 0).id = peerId then some 0
  else if (leader.peers 1).id = peerId then some 1
  else none

def progress (leader : RaftLeaderReplication) (peerId : ℕ) : Option PeerProgress :=
  (leader.findPeer peerId).map fun i => (leader.peers i).progress

def setPeer (leader : RaftLeaderReplication) (i : Fin 2) (peer : PeerState) :
    RaftLeaderReplication :=
  { leader with peers := Function.update leader.peers i peer }

/-- The loop of `make_request`, with room for that many more entries. -/
def collectEntries (log : PersistentLog) : ℕ → ℕ → Option (List LogEntry)
  | 0, _ => some []
  | room + 1, index =>
    if log.lastIndex < index then some []
    else match log.entryAt index with
      | none => none
      | some entry =>
        if index = log.lastIndex then some [entry]
        else (collectEntries log room (index + 1)).map (entry :: ·)

/-- The term that a request names for the entry before `next`. -/
def previousTerm (log : PersistentLog) (previousIndex : ℕ) : Option ℕ :=
  if previousIndex = 0 then some 0 else (log.entryAt previousIndex).map LogEntry.term

def makeRequest (leader : RaftLeaderReplication) (election : RaftElection)
    (metadata : PersistentMetadata) (log : PersistentLog) (commitIndex peerId maxEntries : ℕ) :
    RaftLeaderReplication × Except LeaderReplicationError AppendEntries :=
  match leader.findPeer peerId with
  | none => (leader, .error .unknownPeer)
  | some i =>
    let peer := leader.peers i
    if leader.active election metadata = false then (leader, .error .notLeader)
    else if maxEntries = 0 then (leader, .error .invalidBatchSize)
    else if log.lastIndex < commitIndex then (leader, .error .inconsistentState)
    else match peer.pending with
      | some pending => (leader, .ok pending)
      | none =>
        let next := peer.progress.nextIndex
        if next = 0 ∨ log.lastIndex + 1 < next then (leader, .error .inconsistentState)
        else match previousTerm log (next - 1), collectEntries log maxEntries next with
          | some previousTerm, some entries =>
            let request : AppendEntries :=
              ⟨leader.term, leader.selfId, next - 1, previousTerm, entries, commitIndex, 0⟩
            (leader.setPeer i { peer with pending := some request }, .ok request)
          | _, _ => (leader, .error .inconsistentState)

def appendCommand (leader : RaftLeaderReplication) (election : RaftElection)
    (metadata : PersistentMetadata) (log : PersistentLog) (command : Command) :
    RaftLeaderReplication × PersistentLog × Except LeaderReplicationError ℕ :=
  if leader.active election metadata = false then (leader, log, .error .notLeader)
  else if uint64Max - 1 ≤ log.lastIndex then (leader, log, .error .indexExhausted)
  else
    let index := log.lastIndex + 1
    match log.append ⟨index, leader.term, command⟩ with
    | (log, .appended) => (leader, log, .ok index)
    | (log, .invalidEntry) => (leader, log, .error .invalidCommand)
    | (log, .ioError) => ({ leader with stopped := true }, log, .error .persistenceError)
    | (log, .unexpectedIndex) => (leader, log, .error .inconsistentState)

/-- The loop of `advance_commit_index`, downwards from an index. -/
def commitCandidate (leader : RaftLeaderReplication) (log : PersistentLog) (commitIndex : ℕ) :
    ℕ → Option ℕ
  | 0 => none
  | index + 1 =>
    if index + 1 ≤ commitIndex then none
    else match log.entryAt (index + 1) with
      | none => commitCandidate leader log commitIndex index
      | some entry =>
        if entry.term = leader.term ∧
            (index + 1 ≤ (leader.peers 0).progress.matchIndex ∨
              index + 1 ≤ (leader.peers 1).progress.matchIndex) then some (index + 1)
        else commitCandidate leader log commitIndex index

/-- The new commit index, if it moves. -/
def advanceCommitIndex (leader : RaftLeaderReplication) (log : PersistentLog)
    (commitIndex : ℕ) : Option ℕ :=
  leader.commitCandidate log commitIndex log.lastIndex

/-- What `handle_reply` updates by reference, and its result. -/
structure ReplyOutcome where
  leader : RaftLeaderReplication
  metadata : PersistentMetadata
  commitIndex : ℕ
  outcome : AppendReplyOutcome

def handleReply (leader : RaftLeaderReplication) (election : RaftElection)
    (metadata : PersistentMetadata) (log : PersistentLog) (commitIndex peerId : ℕ)
    (sentRequest : AppendEntries) (reply : AppendEntriesReply) : ReplyOutcome :=
  match leader.findPeer peerId with
  | none => ⟨leader, metadata, commitIndex, .ignored⟩
  | some i =>
    if leader.active election metadata = false then ⟨leader, metadata, commitIndex, .ignored⟩
    else if leader.term < reply.term then
      let leader := { leader with stopped := true }
      match metadata.advanceTerm reply.term with
      | (metadata, .persisted) => ⟨leader, metadata, commitIndex, .steppedDown⟩
      | (metadata, _) => ⟨leader, metadata, commitIndex, .persistenceError⟩
    else
      let peer := leader.peers i
      if reply.term ≠ leader.term ∨ peer.pending ≠ some sentRequest then
        ⟨leader, metadata, commitIndex, .ignored⟩
      else
        let peer := { peer with pending := none }
        if reply.success = false then
          let lowestNext := peer.progress.matchIndex + 1
          if peer.progress.nextIndex ≤ lowestNext then
            ⟨leader.setPeer i peer, metadata, commitIndex, .inconsistentFollower⟩
          else
            let progress := { peer.progress with nextIndex := peer.progress.nextIndex - 1 }
            ⟨leader.setPeer i { peer with progress }, metadata, commitIndex, .retry⟩
        else
          let matchedIndex := sentRequest.prevLogIndex + sentRequest.entries.length
          let matchIndex := max peer.progress.matchIndex matchedIndex
          let leader := leader.setPeer i { peer with progress := ⟨matchIndex + 1, matchIndex⟩ }
          match leader.advanceCommitIndex log commitIndex with
          | some commitIndex => ⟨leader, metadata, commitIndex, .committed⟩
          | none => ⟨leader, metadata, commitIndex, .recorded⟩

/-! ## What building a request can do -/

variable {leader : RaftLeaderReplication} {election : RaftElection}
  {metadata : PersistentMetadata} {log : PersistentLog} {commitIndex peerId : ℕ}

/-- The request that a leader with log `l` builds after the first `k` entries. -/
def requestFrom (leader : RaftLeaderReplication) (l : List LogEntry) (commitIndex k : ℕ)
    (maxEntries : ℕ) : AppendEntries :=
  ⟨leader.term, leader.selfId, k, PersistentLog.termAt l k, (l.drop k).take maxEntries,
    commitIndex, 0⟩

theorem collectEntries_eq (log : PersistentLog) (room i : ℕ) :
    collectEntries log room (i + 1) = some ((log.log.drop i).take room) := by
  induction room generalizing i with
  | zero => simp [collectEntries]
  | succ room ih =>
    rw [collectEntries]
    have hget : ∀ h : i < log.log.length, (log.log.drop i).take (room + 1) =
        log.log[i] :: (log.log.drop (i + 1)).take room := fun h => by
      rw [List.drop_eq_getElem_cons h, List.take_succ_cons]
    rw [PersistentLog.entryAt_succ, ← PersistentLog.length_log]
    split_ifs with hlast heq
    · rw [List.drop_eq_nil_of_le (by omega), List.take_nil]
    · rw [hget (by omega), List.getElem?_eq_getElem (by omega)]
      rw [List.drop_eq_nil_of_le (by omega), List.take_nil]
    · rw [hget (by omega), List.getElem?_eq_getElem (by omega)]
      rw [ih]
      rfl

theorem previousTerm_eq {k : ℕ} (hk : k ≤ log.lastIndex) :
    previousTerm log k = some (PersistentLog.termAt log.log k) := by
  unfold previousTerm PersistentLog.termAt
  cases k with
  | zero => simp
  | succ k =>
    have hk' : k < log.log.length := by
      rw [PersistentLog.length_log]
      omega
    simp [PersistentLog.entryAt_succ, List.getElem?_eq_getElem hk']

@[simp] theorem setPeer_self (i : Fin 2) (peer : PeerState) :
    (leader.setPeer i peer).peers i = peer := by
  simp [setPeer]

theorem setPeer_of_ne {i j : Fin 2} (h : j ≠ i) (peer : PeerState) :
    (leader.setPeer i peer).peers j = leader.peers j := by
  simp [setPeer, Function.update_of_ne h]

theorem findPeer_setPeer {i : Fin 2} {peer : PeerState} (h : peer.id = (leader.peers i).id)
    (peerId : ℕ) :
    (leader.setPeer i peer).findPeer peerId = leader.findPeer peerId := by
  have hid : ∀ j, ((leader.setPeer i peer).peers j).id = (leader.peers j).id := by
    intro j
    by_cases hj : j = i
    · rw [hj, setPeer_self, h]
    · rw [setPeer_of_ne hj]
  rw [findPeer, findPeer, hid, hid]

/-- The progress of the peer that has just been set. -/
theorem progress_setPeer {i : Fin 2} (hi : leader.findPeer peerId = some i) {peer : PeerState}
    (h : peer.id = (leader.peers i).id) :
    (leader.setPeer i peer).progress peerId = some peer.progress := by
  rw [progress, findPeer_setPeer h, hi, Option.map_some, setPeer_self]

theorem create_eq_some (h : create election metadata log commitIndex = some leader) :
    leader = ⟨election.selfId, metadata.state.currentTerm,
      fun i => ⟨election.peerIds i, ⟨log.lastIndex + 1, 0⟩, none⟩, false⟩ := by
  unfold create at h
  dsimp only at h
  split_ifs at h
  exact (Option.some.inj h).symm

/-- How `make_request` ends. -/
inductive MakeRequestEnd (leader : RaftLeaderReplication) (election : RaftElection)
    (metadata : PersistentMetadata) (log : PersistentLog) (commitIndex peerId maxEntries : ℕ) :
    RaftLeaderReplication × Except LeaderReplicationError AppendEntries → Prop
  | error (e : LeaderReplicationError)
      (h : leader.findPeer peerId = none ∨ leader.active election metadata = false ∨
        maxEntries = 0 ∨ log.lastIndex < commitIndex ∨
        ∃ i, leader.findPeer peerId = some i ∧ ((leader.peers i).progress.nextIndex = 0 ∨
          log.lastIndex + 1 < (leader.peers i).progress.nextIndex)) :
      MakeRequestEnd leader election metadata log commitIndex peerId maxEntries
        (leader, .error e)
  | pending (i : Fin 2) (hi : leader.findPeer peerId = some i) (request : AppendEntries)
      (h : (leader.peers i).pending = some request) :
      MakeRequestEnd leader election metadata log commitIndex peerId maxEntries
        (leader, .ok request)
  | fresh (i : Fin 2) (hi : leader.findPeer peerId = some i)
      (h : (leader.peers i).pending = none) (k : ℕ)
      (hk : (leader.peers i).progress.nextIndex = k + 1) (hl : k ≤ log.lastIndex) :
      MakeRequestEnd leader election metadata log commitIndex peerId maxEntries
        (leader.setPeer i { leader.peers i with
            pending := some (leader.requestFrom log.log commitIndex k maxEntries) },
          .ok (leader.requestFrom log.log commitIndex k maxEntries))

theorem makeRequest_rule (leader : RaftLeaderReplication) (election : RaftElection)
    (metadata : PersistentMetadata) (log : PersistentLog) (commitIndex peerId maxEntries : ℕ) :
    MakeRequestEnd leader election metadata log commitIndex peerId maxEntries
      (leader.makeRequest election metadata log commitIndex peerId maxEntries) := by
  unfold makeRequest
  cases hi : leader.findPeer peerId with
  | none => exact .error _ (Or.inl hi)
  | some i =>
    dsimp only
    split_ifs with hact hmax hcommit hnext
    · exact .error _ (Or.inr (Or.inl hact))
    · exact .error _ (Or.inr (Or.inr (Or.inl hmax)))
    · exact .error _ (Or.inr (Or.inr (Or.inr (Or.inl hcommit))))
    · cases hp : (leader.peers i).pending with
      | some request => exact .pending i hi request hp
      | none => exact .error _ (Or.inr (Or.inr (Or.inr (Or.inr ⟨i, hi, hnext⟩))))
    · cases hp : (leader.peers i).pending with
      | some request => exact .pending i hi request hp
      | none =>
        obtain ⟨k, hk⟩ : ∃ k, (leader.peers i).progress.nextIndex = k + 1 :=
          Nat.exists_eq_succ_of_ne_zero fun h => hnext (Or.inl h)
        have hl : k ≤ log.lastIndex := by
          rw [hk] at hnext
          omega
        rw [hk, Nat.add_sub_cancel, previousTerm_eq hl, collectEntries_eq]
        exact .fresh i hi hp k hk hl

/-- Why `make_request` fails. -/
theorem MakeRequestEnd.why {maxEntries : ℕ}
    {r : RaftLeaderReplication × Except LeaderReplicationError AppendEntries}
    (h : leader.MakeRequestEnd election metadata log commitIndex peerId maxEntries r)
    {e : LeaderReplicationError} (he : r.2 = .error e) :
    leader.findPeer peerId = none ∨ leader.active election metadata = false ∨ maxEntries = 0 ∨
      log.lastIndex < commitIndex ∨
      ∃ i, leader.findPeer peerId = some i ∧ ((leader.peers i).progress.nextIndex = 0 ∨
        log.lastIndex + 1 < (leader.peers i).progress.nextIndex) := by
  cases h with
  | error _ h => exact h
  | pending => cases he
  | fresh => cases he

/-! ## What appending a command can do -/

/-- How `append_command` ends. -/
inductive AppendCommandEnd (leader : RaftLeaderReplication) (election : RaftElection)
    (metadata : PersistentMetadata) (log : PersistentLog) (command : Command) :
    RaftLeaderReplication × PersistentLog × Except LeaderReplicationError ℕ → Prop
  | refused (e : LeaderReplicationError) (he : e ≠ .persistenceError)
      (h : e ≠ .invalidCommand → leader.active election metadata = false ∨
        uint64Max - 1 ≤ log.lastIndex)
      (henc : e = .invalidCommand →
        ¬ (LogEntry.mk (log.lastIndex + 1) leader.term command).Encodable) :
      AppendCommandEnd leader election metadata log command (leader, log, .error e)
  | failed (log' : PersistentLog) (hmax : log.lastIndex + 1 < uint64Max)
      (he : (LogEntry.mk (log.lastIndex + 1) leader.term command).Encodable)
      (h : log.Failed (log.log ++ [⟨log.lastIndex + 1, leader.term, command⟩]) log') :
      AppendCommandEnd leader election metadata log command
        ({ leader with stopped := true }, log', .error .persistenceError)
  | appended (log' : PersistentLog) (hs : log'.Synced) (hmax : log.lastIndex + 1 < uint64Max)
      (he : (LogEntry.mk (log.lastIndex + 1) leader.term command).Encodable)
      (h : log'.log = log.log ++ [⟨log.lastIndex + 1, leader.term, command⟩]) :
      AppendCommandEnd leader election metadata log command
        (leader, log', .ok (log.lastIndex + 1))

theorem appendCommand_rule (leader : RaftLeaderReplication) (election : RaftElection)
    (metadata : PersistentMetadata) (hs : log.Synced) (command : Command) :
    AppendCommandEnd leader election metadata log command
      (leader.appendCommand election metadata log command) := by
  unfold appendCommand
  split_ifs with hact hmax
  · exact .refused _ (by simp) (fun _ => Or.inl hact) (by simp)
  · exact .refused _ (by simp) (fun _ => Or.inr hmax) (by simp)
  · rcases PersistentLog.append_cases hs ⟨log.lastIndex + 1, leader.term, command⟩ with
      ⟨h, -⟩ | ⟨henc, h⟩ | ⟨-, he, ⟨log', h, hs', hl⟩ | ⟨log', h, hf⟩⟩
    · exact absurd rfl h
    · simp only [h]
      exact .refused _ (by simp) (fun h => absurd rfl h) fun _ => henc
    · simp only [h]
      exact .appended log' hs' (by omega) he hl
    · simp only [h]
      exact .failed log' (by omega) he hf

/-! ## What a reply can do -/

/-- The new commit index is that of an entry of the own term which a peer is known to hold. -/
theorem advanceCommitIndex_eq_some {i : ℕ}
    (h : leader.advanceCommitIndex log commitIndex = some i) :
    ∃ k e, i = k + 1 ∧ commitIndex ≤ k ∧ log.log[k]? = some e ∧ e.term = leader.term ∧
      ∃ j, i ≤ (leader.peers j).progress.matchIndex := by
  suffices ∀ n, leader.commitCandidate log commitIndex n = some i →
      ∃ k e, i = k + 1 ∧ commitIndex ≤ k ∧ log.log[k]? = some e ∧ e.term = leader.term ∧
        ∃ j, i ≤ (leader.peers j).progress.matchIndex from this _ h
  intro n hn
  induction n with
  | zero => cases hn
  | succ n ih =>
    rw [commitCandidate, PersistentLog.entryAt_succ] at hn
    split_ifs at hn with hle
    cases he : log.log[n]? with
    | none =>
      rw [he] at hn
      exact ih hn
    | some e =>
      rw [he] at hn
      dsimp only at hn
      split_ifs at hn with hmatch
      · obtain rfl := Option.some.inj hn
        refine ⟨n, e, rfl, by omega, he, hmatch.1, ?_⟩
        rcases hmatch.2 with h0 | h1
        · exact ⟨0, h0⟩
        · exact ⟨1, h1⟩
      · exact ih hn

/-- The progress of a peer after an acceptance that reaches up to `matched`. -/
def accepted (peer : PeerState) (matched : ℕ) : PeerState :=
  ⟨peer.id, ⟨max peer.progress.matchIndex matched + 1, max peer.progress.matchIndex matched⟩, none⟩

/-- How `handle_reply` ends, in terms of an assertion `A` about the durable record. -/
inductive HandleReplyEnd (leader : RaftLeaderReplication) (metadata : PersistentMetadata)
    (log : PersistentLog) (commitIndex peerId : ℕ) (sentRequest : AppendEntries)
    (reply : AppendEntriesReply) (A : RaftMetadata → Prop) : ReplyOutcome → Prop
  | ignored :
      HandleReplyEnd leader metadata log commitIndex peerId sentRequest reply A
        ⟨leader, metadata, commitIndex, .ignored⟩
  | steppedDown (metadata' : PersistentMetadata) (hs : metadata'.Synced)
      (hn : metadata'.state = ⟨reply.term, none⟩) (ht : leader.term < reply.term)
      (hA : A metadata'.state) :
      HandleReplyEnd leader metadata log commitIndex peerId sentRequest reply A
        ⟨{ leader with stopped := true }, metadata', commitIndex, .steppedDown⟩
  | persistenceError (metadata' : PersistentMetadata) (hm : metadata'.state = metadata.state)
      (hA : A metadata'.durable) :
      HandleReplyEnd leader metadata log commitIndex peerId sentRequest reply A
        ⟨{ leader with stopped := true }, metadata', commitIndex, .persistenceError⟩
  | inconsistentFollower (i : Fin 2) (hi : leader.findPeer peerId = some i)
      (ht : reply.term = leader.term) (hr : reply.success = false)
      (hp : (leader.peers i).pending = some sentRequest)
      (hn : (leader.peers i).progress.nextIndex ≤ (leader.peers i).progress.matchIndex + 1) :
      HandleReplyEnd leader metadata log commitIndex peerId sentRequest reply A
        ⟨leader.setPeer i { leader.peers i with pending := none }, metadata, commitIndex,
          .inconsistentFollower⟩
  | retry (i : Fin 2) (hi : leader.findPeer peerId = some i)
      (ht : reply.term = leader.term) (hr : reply.success = false)
      (hp : (leader.peers i).pending = some sentRequest) (k : ℕ)
      (hn : (leader.peers i).progress.nextIndex = k + 1)
      (hm : (leader.peers i).progress.matchIndex < k) :
      HandleReplyEnd leader metadata log commitIndex peerId sentRequest reply A
        ⟨leader.setPeer i { leader.peers i with
            progress := { (leader.peers i).progress with nextIndex := k }, pending := none },
          metadata, commitIndex, .retry⟩
  | recorded (i : Fin 2) (hi : leader.findPeer peerId = some i)
      (ht : reply.term = leader.term) (hr : reply.success = true)
      (hp : (leader.peers i).pending = some sentRequest)
      (leader' : RaftLeaderReplication)
      (hl : leader' = leader.setPeer i
        (accepted (leader.peers i) (sentRequest.prevLogIndex + sentRequest.entries.length))) :
      HandleReplyEnd leader metadata log commitIndex peerId sentRequest reply A
        ⟨leader', metadata, commitIndex, .recorded⟩
  | committed (i : Fin 2) (hi : leader.findPeer peerId = some i)
      (ht : reply.term = leader.term) (hr : reply.success = true)
      (hp : (leader.peers i).pending = some sentRequest)
      (leader' : RaftLeaderReplication)
      (hl : leader' = leader.setPeer i
        (accepted (leader.peers i) (sentRequest.prevLogIndex + sentRequest.entries.length)))
      (c : ℕ) (hc : leader'.advanceCommitIndex log commitIndex = some c) :
      HandleReplyEnd leader metadata log commitIndex peerId sentRequest reply A
        ⟨leader', metadata, c, .committed⟩

/-- **The rule of an append reply**: an assertion that entering the reply's term preserves holds
at the end. -/
theorem handleReply_rule (leader : RaftLeaderReplication) (election : RaftElection)
    (log : PersistentLog) (commitIndex peerId : ℕ) (sentRequest : AppendEntries)
    (reply : AppendEntriesReply) {A : RaftMetadata → Prop} (hs : metadata.Synced)
    (h : A metadata.state)
    (hadvance : leader.active election metadata = true → leader.term < reply.term →
      A ⟨reply.term, none⟩) :
    HandleReplyEnd leader metadata log commitIndex peerId sentRequest reply A
      (leader.handleReply election metadata log commitIndex peerId sentRequest reply) := by
  unfold handleReply
  cases hi : leader.findPeer peerId with
  | none => exact .ignored
  | some i =>
    dsimp only
    split_ifs with hact hlt hign hrej hlow
    · exact .ignored
    · have hterm : metadata.state.currentTerm = leader.term := by
        simp only [active, Bool.not_eq_false, decide_eq_true_eq] at hact
        exact hact.2.2.1
      rcases PersistentMetadata.advanceTerm_cases hs reply.term with ⟨ht, -⟩ | ⟨ht, -⟩ | ⟨-, hup⟩
      · omega
      · omega
      · have hA := hadvance (by simpa using hact) hlt
        revert hup
        generalize metadata.advanceTerm reply.term = r
        rintro (⟨m, hs', hn⟩ | ⟨m, hn, hd⟩)
        · exact .steppedDown m hs' hn hlt (hn ▸ hA)
        · refine .persistenceError m hn ?_
          rcases hd with hd | hd
          · exact hd ▸ h
          · exact hd ▸ hA
    · exact .ignored
    all_goals
      simp only [not_or, not_not, ne_eq] at hign
    · exact .inconsistentFollower i hi hign.1 hrej hign.2 hlow
    · obtain ⟨k, hk⟩ : ∃ k, (leader.peers i).progress.nextIndex = k + 1 :=
        Nat.exists_eq_succ_of_ne_zero (by omega)
      rw [hk, Nat.add_sub_cancel]
      exact .retry i hi hign.1 hrej hign.2 k hk (by omega)
    · have hacc : reply.success = true := by simpa using hrej
      split
      · next c hc => exact .committed i hi hign.1 hacc hign.2 _ rfl c hc
      · exact .recorded i hi hign.1 hacc hign.2 _ rfl

end RaftLeaderReplication

end DistributedKV
