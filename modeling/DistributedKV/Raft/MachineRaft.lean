import DistributedKV.Foundations.Checked
import DistributedKV.Raft.Leader
import DistributedKV.Raft.Apply

/-!
# Index and term arithmetic

The functions behind the handlers of a node, with every sum, difference and increment of an index or
a term as the source computes it on 64-bit words. Each of them has the result of its counterpart
over the natural numbers; what a function needs for that is a condition of its rule, and mostly
there is none, because the source checks before it computes.
-/

namespace DistributedKV.Machine

open Checked

/-! ## The log -/

def entryAt (log : PersistentLog) (index : ℕ) : Checked (Option LogEntry) :=
  if index = 0 ∨ log.lastIndex < index then .ok none
  else do
    let position ← sub index 1
    let stored ← read log.entries position
    .ok (some stored.logEntry)

/-- `append`, as far as it computes an index. -/
def append (log : PersistentLog) (entry : LogEntry) :
    Checked (PersistentLog × PersistentLogAppendResult) :=
  if log.ioFailed then .ok (log, .ioError)
  else do
    let nextIndex ← add log.lastIndex 1
    if entry.index ≠ nextIndex then .ok (log, .unexpectedIndex) else .ok (log.append entry)

/-- `truncate_suffix`, as far as it computes an index. -/
def truncateSuffix (log : PersistentLog) (firstIndexToRemove : ℕ) :
    Checked (PersistentLog × PersistentLogTruncateResult) :=
  if log.ioFailed then .ok (log, .ioError)
  else do
    let nextIndex ← add log.lastIndex 1
    if firstIndexToRemove = 0 ∨ nextIndex < firstIndexToRemove then .ok (log, .invalidIndex)
    else if firstIndexToRemove = nextIndex then .ok (log, .truncated)
    else
      let position ← sub firstIndexToRemove 1
      let _stored ← read log.entries position
      .ok (log.truncateSuffix firstIndexToRemove)

theorem entryAt_eq (log : PersistentLog) (index : ℕ) :
    entryAt log index = .ok (log.entryAt index) := by
  rw [entryAt, PersistentLog.entryAt]
  refine ite_eq_ok fun hindex => ?_
  rw [PersistentLog.lastIndex] at hindex
  have hlt : index - 1 < log.entries.length := by omega
  rw [sub_eq (by omega), ok_bind, read_getElem hlt, ok_bind, List.getElem?_eq_getElem hlt,
    Option.map_some]

theorem append_eq {log : PersistentLog} (h : log.lastIndex + 1 < 2 ^ 64) (entry : LogEntry) :
    append log entry = .ok (log.append entry) := by
  rw [append, PersistentLog.append]
  refine ite_eq_ok fun hfailed => ?_
  rw [add_eq h, ok_bind, if_neg hfailed]
  split_ifs <;> rfl

theorem truncateSuffix_eq {log : PersistentLog} (h : log.lastIndex + 1 < 2 ^ 64) (first : ℕ) :
    truncateSuffix log first = .ok (log.truncateSuffix first) := by
  rw [truncateSuffix, PersistentLog.truncateSuffix]
  refine ite_eq_ok fun hfailed => ?_
  rw [add_eq h, ok_bind, if_neg hfailed]
  refine ite_eq_ok fun hrange => ite_eq_ok fun hnext => ?_
  have hlt : first - 1 < log.entries.length := by
    rw [PersistentLog.lastIndex] at hrange hnext
    omega
  rw [sub_eq (by omega), ok_bind, read_getElem hlt, ok_bind, if_neg hrange,
    if_neg hnext]

theorem lastIndex_of_appended {log log' : PersistentLog} {entry : LogEntry}
    (h : log.append entry = (log', .appended)) :
    entry.index = log.lastIndex + 1 ∧ log'.lastIndex = log.lastIndex + 1 := by
  unfold PersistentLog.append at h
  split_ifs at h with hfailed hindex
  · cases h
  · cases h
  · rw [not_not] at hindex
    cases he : encodeLogEntry entry with
    | error e => simp [he] at h
    | ok bytes =>
      rw [he] at h
      dsimp only at h
      split_ifs at h
      · cases h
      cases ho : nextOutcome log.outcomes with
      | done =>
        rw [ho] at h
        obtain ⟨rfl, -⟩ := Prod.mk.inj h
        exact ⟨hindex, by simp [PersistentLog.lastIndex]⟩
      | failed | uncertain reached => simp [ho] at h

theorem lastIndex_of_truncated {log log' : PersistentLog} {first : ℕ}
    (h : log.truncateSuffix first = (log', .truncated)) : log'.lastIndex = first - 1 := by
  unfold PersistentLog.truncateSuffix at h
  dsimp only at h
  split_ifs at h with hfailed hrange hnext
  · cases h
  · cases h
  · obtain ⟨rfl, -⟩ := Prod.mk.inj h
    rw [hnext]
    rfl
  · cases ho : nextOutcome log.outcomes with
    | done =>
      rw [ho] at h
      obtain ⟨rfl, -⟩ := Prod.mk.inj h
      rw [PersistentLog.lastIndex, List.length_take]
      rw [PersistentLog.lastIndex] at hrange
      omega
    | failed | uncertain reached => simp [ho] at h

/-! ## Following -/

/-- The loop of `valid_entries`. -/
def validEntriesFrom (requestTerm : ℕ) : ℕ → ℕ → List LogEntry → Checked Bool
  | _, _, [] => .ok true
  | nextIndex, previousTerm, entry :: entries => do
    let nextIndex ← add nextIndex 1
    if entry.index ≠ nextIndex ∨ entry.term < previousTerm ∨ requestTerm < entry.term ∨
        ¬ entry.Encodable then .ok false
    else validEntriesFrom requestTerm nextIndex entry.term entries

def validEntries (request : AppendEntries) : Checked Bool :=
  if (decide (request.prevLogIndex = 0) != decide (request.prevLogTerm = 0)) ∨
      request.term < request.prevLogTerm ∨
      (request.readContext ≠ 0 ∧ (request.prevLogIndex ≠ 0 ∨ request.entries ≠ [])) then .ok false
  else do
    let room ← sub uint64Max request.prevLogIndex
    if room < request.entries.length then .ok false
    else validEntriesFrom request.term request.prevLogIndex request.prevLogTerm request.entries

/-- The second loop of `handle_append_entries`. -/
def appendLoop (commitIndex : ℕ) : PersistentLog → List LogEntry →
    Checked (PersistentLog × Except AppendEntriesHandleError Unit)
  | log, [] => .ok (log, .ok ())
  | log, entry :: entries => do
    match ← entryAt log entry.index with
    | some existing =>
      if existing.term = entry.term then
        if existing.command ≠ entry.command then .ok (log, .error .invalidRequest)
        else appendLoop commitIndex log entries
      else if entry.index ≤ commitIndex then .ok (log, .error .committedConflict)
      else
        match ← truncateSuffix log entry.index with
        | (log, .truncated) =>
          match ← append log entry with
          | (log, .appended) => appendLoop commitIndex log entries
          | (log, _) => .ok (log, .error .persistenceError)
        | (log, _) => .ok (log, .error .persistenceError)
    | none =>
      match ← append log entry with
      | (log, .appended) => appendLoop commitIndex log entries
      | (log, _) => .ok (log, .error .persistenceError)

def previousMismatch (log : PersistentLog) (request : AppendEntries) : Checked Bool :=
  if request.prevLogIndex = 0 then .ok false
  else do
    match ← entryAt log request.prevLogIndex with
    | none => .ok true
    | some previous => .ok (previous.term ≠ request.prevLogTerm)

def handleAppendEntries (metadata : PersistentMetadata) (log : PersistentLog) (commitIndex : ℕ)
    (request : AppendEntries) : Checked AppendOutcome :=
  match metadata.advanceTerm request.term with
  | (metadata, .ioError) => .ok ⟨metadata, log, commitIndex, .error .persistenceError⟩
  | (metadata, _) =>
    let currentTerm := metadata.state.currentTerm
    if request.term = 0 ∨ request.term < currentTerm then
      .ok ⟨metadata, log, commitIndex, .ok ⟨currentTerm, false⟩⟩
    else do
      let valid ← validEntries request
      if valid = false ∨ log.lastIndex < commitIndex then
        .ok ⟨metadata, log, commitIndex, .error .invalidRequest⟩
      else
        let mismatch ← previousMismatch log request
        if mismatch then .ok ⟨metadata, log, commitIndex, .ok ⟨currentTerm, false⟩⟩
        else
          match ← appendLoop commitIndex log request.entries with
          | (log, .error e) => .ok ⟨metadata, log, commitIndex, .error e⟩
          | (log, .ok ()) =>
            let matchedIndex ← add request.prevLogIndex request.entries.length
            .ok ⟨metadata, log, max commitIndex (min request.leaderCommit matchedIndex),
              .ok ⟨currentTerm, true⟩⟩

theorem validEntriesFrom_eq (requestTerm : ℕ) {nextIndex : ℕ} {entries : List LogEntry}
    (h : nextIndex + entries.length < 2 ^ 64) (previousTerm : ℕ) :
    validEntriesFrom requestTerm nextIndex previousTerm entries =
      .ok (DistributedKV.validEntriesFrom requestTerm nextIndex previousTerm entries) := by
  induction entries generalizing nextIndex previousTerm with
  | nil => rfl
  | cons entry entries ih =>
    rw [List.length_cons] at h
    rw [validEntriesFrom, DistributedKV.validEntriesFrom, add_eq (by omega), ok_bind]
    exact ite_eq_ok fun _ => ih (by omega) _

theorem validEntries_eq {request : AppendEntries} (h : request.prevLogIndex < 2 ^ 64) :
    validEntries request = .ok (DistributedKV.validEntries request) := by
  rw [validEntries, DistributedKV.validEntries]
  split_ifs with hfirst hall hall
  · rfl
  · exact absurd (by tauto) hall
  · rw [sub_eq (by rw [uint64Max]; omega), ok_bind, if_pos (by tauto)]
  · rw [sub_eq (by rw [uint64Max]; omega), ok_bind, if_neg (by tauto)]
    refine validEntriesFrom_eq _ ?_ _
    have hroom : ¬ uint64Max - request.prevLogIndex < request.entries.length := by tauto
    rw [uint64Max] at hroom
    omega

/-- The request's entries behind position `k` have indices that are 64-bit numbers, and the log ends
at that position or has room for one more. -/
structure LoopRoom (k : ℕ) (entries : List LogEntry) (log : PersistentLog) : Prop where
  entries : k + entries.length < 2 ^ 64
  log : log.lastIndex = k ∨ log.lastIndex + 1 < 2 ^ 64

theorem LoopRoom.room {k : ℕ} {entry : LogEntry} {entries : List LogEntry} {log : PersistentLog}
    (h : LoopRoom k (entry :: entries) log) : log.lastIndex + 1 < 2 ^ 64 := by
  have hentries := h.entries
  rw [List.length_cons] at hentries
  rcases h.log with hlog | hlog
  · omega
  · exact hlog

/-- **The loop over the entries** computes no index that does not fit, and a log that it leaves as
it was still has room. -/
theorem appendLoop_eq (commitIndex : ℕ) {requestTerm k previousTerm : ℕ} {entries : List LogEntry}
    {log : PersistentLog}
    (hvalid : DistributedKV.validEntriesFrom requestTerm k previousTerm entries = true)
    (h : LoopRoom k entries log) :
    appendLoop commitIndex log entries = .ok (DistributedKV.appendLoop commitIndex log entries) ∧
      ((DistributedKV.appendLoop commitIndex log entries).2 = .error .invalidRequest →
        (DistributedKV.appendLoop commitIndex log entries).1.lastIndex + 1 < 2 ^ 64) := by
  induction entries generalizing k previousTerm log with
  | nil => exact ⟨rfl, fun h => by cases h⟩
  | cons entry entries ih =>
    rw [DistributedKV.validEntriesFrom] at hvalid
    split_ifs at hvalid with hentry
    have hindex : entry.index = k + 1 := by tauto
    have hlength := h.entries
    rw [List.length_cons] at hlength
    -- the append of both branches
    have happend : ∀ {log : PersistentLog}, log.lastIndex + 1 < 2 ^ 64 →
        (do
          match ← append log entry with
          | (log, .appended) => appendLoop commitIndex log entries
          | (log, _) => .ok (log, .error .persistenceError)) =
          .ok (match log.append entry with
            | (log, .appended) => DistributedKV.appendLoop commitIndex log entries
            | (log, _) => (log, .error .persistenceError)) ∧
        ((match log.append entry with
            | (log, .appended) => DistributedKV.appendLoop commitIndex log entries
            | (log, _) => (log, .error .persistenceError)).2 = .error .invalidRequest →
          (match log.append entry with
            | (log, .appended) => DistributedKV.appendLoop commitIndex log entries
            | (log, _) => (log, .error .persistenceError)).1.lastIndex + 1 < 2 ^ 64) := by
      intro log hroom
      rw [append_eq hroom, ok_bind]
      have happended : ∀ {log'}, log.append entry = (log', .appended) →
          LoopRoom (k + 1) entries log' := fun heq => by
        obtain ⟨hnext, hlast⟩ := lastIndex_of_appended heq
        exact ⟨by omega, Or.inl (by omega)⟩
      revert happended
      generalize log.append entry = r
      obtain ⟨log', result⟩ := r
      intro happended
      cases result with
      | appended => exact ih hvalid (happended rfl)
      | unexpectedIndex | invalidEntry | ioError => exact ⟨rfl, fun h => by cases h⟩
    rw [appendLoop, DistributedKV.appendLoop, entryAt_eq, ok_bind]
    cases hexisting : log.entryAt entry.index with
    | none => exact happend h.room
    | some existing =>
      dsimp only
      split_ifs with hterm hcommand hcommit
      · exact ⟨rfl, fun _ => h.room⟩
      · -- an entry that the log has lies within it
        refine ih hvalid ⟨by omega, Or.inr h.room⟩
      · exact ⟨rfl, fun h => by cases h⟩
      · rw [truncateSuffix_eq h.room, ok_bind]
        have htruncated : ∀ {log'}, log.truncateSuffix entry.index = (log', .truncated) →
            log'.lastIndex + 1 < 2 ^ 64 := fun heq => by
          rw [lastIndex_of_truncated heq]
          omega
        revert htruncated
        generalize log.truncateSuffix entry.index = r
        obtain ⟨log', result⟩ := r
        intro htruncated
        cases result with
        | truncated => exact happend (htruncated rfl)
        | invalidIndex | ioError => exact ⟨rfl, fun h => by cases h⟩

theorem previousMismatch_eq (log : PersistentLog) (request : AppendEntries) :
    previousMismatch log request = .ok (DistributedKV.previousMismatch log request) := by
  rw [previousMismatch, DistributedKV.previousMismatch]
  split_ifs with h0
  · simp [h0]
  · rw [entryAt_eq, ok_bind]
    cases log.entryAt request.prevLogIndex <;> simp [h0]

/-- A valid request of 64-bit numbers names indices that are 64-bit numbers. -/
theorem loopRoom_of_valid {request : AppendEntries} {log : PersistentLog}
    (h : DistributedKV.validEntries request = true) (hprev : request.prevLogIndex < 2 ^ 64)
    (hlog : log.lastIndex + 1 < 2 ^ 64) :
    DistributedKV.validEntriesFrom request.term request.prevLogIndex request.prevLogTerm
        request.entries = true ∧ LoopRoom request.prevLogIndex request.entries log := by
  rw [DistributedKV.validEntries] at h
  split_ifs at h with hguard
  have hroom : ¬ uint64Max - request.prevLogIndex < request.entries.length := by tauto
  rw [uint64Max] at hroom
  exact ⟨h, by omega, Or.inr hlog⟩

/-- **Append requests** of 64-bit numbers are handled without a fault. -/
theorem handleAppendEntries_eq (metadata : PersistentMetadata) {log : PersistentLog}
    (commitIndex : ℕ) {request : AppendEntries} (hprev : request.prevLogIndex < 2 ^ 64)
    (hlog : log.lastIndex + 1 < 2 ^ 64) :
    handleAppendEntries metadata log commitIndex request =
      .ok (DistributedKV.handleAppendEntries metadata log commitIndex request) := by
  rw [handleAppendEntries, DistributedKV.handleAppendEntries]
  generalize metadata.advanceTerm request.term = r
  obtain ⟨metadata', result⟩ := r
  cases result with
  | ioError => rfl
  | persisted | unchanged | staleTerm | voteConflict | invalidTerm =>
    refine ite_eq_ok fun _ => ?_
    rw [validEntries_eq hprev, ok_bind]
    refine ite_eq_ok fun hguard => ?_
    rw [previousMismatch_eq, ok_bind]
    refine ite_eq_ok fun _ => ?_
    have hvalid : DistributedKV.validEntries request = true := by
      rw [← Bool.not_eq_false]
      exact fun h => hguard (Or.inl h)
    obtain ⟨hfrom, hroom⟩ := loopRoom_of_valid hvalid hprev hlog
    rw [(appendLoop_eq commitIndex hfrom hroom).1, ok_bind]
    rcases DistributedKV.appendLoop commitIndex log request.entries with ⟨log', e | _⟩
    · rfl
    · have hsum := hroom.entries
      dsimp only
      rw [add_eq hsum]
      rfl

/-! ## Leading -/

/-- The constructor, which computes the next index before it checks the state. -/
def create (election : RaftElection) (metadata : PersistentMetadata) (log : PersistentLog)
    (commitIndex : ℕ) : Checked (Option RaftLeaderReplication) := do
  let _nextIndex ← add log.lastIndex 1
  .ok (RaftLeaderReplication.create election metadata log commitIndex)

/-- The loop of `make_request`. -/
def collectEntries (log : PersistentLog) : ℕ → ℕ → Checked (Option (List LogEntry))
  | 0, _ => .ok (some [])
  | room + 1, index =>
    if log.lastIndex < index then .ok (some [])
    else do
      match ← entryAt log index with
      | none => .ok none
      | some entry =>
        if index = log.lastIndex then .ok (some [entry])
        else
          let next ← add index 1
          let rest ← collectEntries log room next
          .ok (rest.map (entry :: ·))

def previousTerm (log : PersistentLog) (previousIndex : ℕ) : Checked (Option ℕ) :=
  if previousIndex = 0 then .ok (some 0)
  else do
    let previous ← entryAt log previousIndex
    .ok (previous.map LogEntry.term)

def makeRequest (leader : RaftLeaderReplication) (election : RaftElection)
    (metadata : PersistentMetadata) (log : PersistentLog) (commitIndex peerId maxEntries : ℕ) :
    Checked (RaftLeaderReplication × Except LeaderReplicationError AppendEntries) :=
  match leader.findPeer peerId with
  | none => .ok (leader, .error .unknownPeer)
  | some i =>
    let peer := leader.peers i
    if leader.active election metadata = false then .ok (leader, .error .notLeader)
    else if maxEntries = 0 then .ok (leader, .error .invalidBatchSize)
    else if log.lastIndex < commitIndex then .ok (leader, .error .inconsistentState)
    else match peer.pending with
      | some pending => .ok (leader, .ok pending)
      | none => do
        let next := peer.progress.nextIndex
        let limit ← add log.lastIndex 1
        if next = 0 ∨ limit < next then .ok (leader, .error .inconsistentState)
        else
          let previousIndex ← sub next 1
          let term ← previousTerm log previousIndex
          let entries ← collectEntries log maxEntries next
          match term, entries with
          | some previousTerm, some entries =>
            let request : AppendEntries :=
              ⟨leader.term, leader.selfId, previousIndex, previousTerm, entries, commitIndex, 0⟩
            .ok (leader.setPeer i { peer with pending := some request }, .ok request)
          | _, _ => .ok (leader, .error .inconsistentState)

def appendCommand (leader : RaftLeaderReplication) (election : RaftElection)
    (metadata : PersistentMetadata) (log : PersistentLog) (command : Command) :
    Checked (RaftLeaderReplication × PersistentLog × Except LeaderReplicationError ℕ) :=
  if leader.active election metadata = false then .ok (leader, log, .error .notLeader)
  else do
    let limit ← sub uint64Max 1
    if limit ≤ log.lastIndex then .ok (leader, log, .error .indexExhausted)
    else
      let index ← add log.lastIndex 1
      match ← append log ⟨index, leader.term, command⟩ with
      | (log, .appended) => .ok (leader, log, .ok index)
      | (log, .invalidEntry) => .ok (leader, log, .error .invalidCommand)
      | (log, .ioError) => .ok ({ leader with stopped := true }, log, .error .persistenceError)
      | (log, .unexpectedIndex) => .ok (leader, log, .error .inconsistentState)

/-- One round of the loop of `advance_commit_index`. -/
def commitRound (leader : RaftLeaderReplication) (log : PersistentLog) (commitIndex index : ℕ) :
    Checked (ℕ ⊕ Option ℕ) :=
  if commitIndex < index then do
    let entry ← entryAt log index
    if entry.any (fun entry => entry.term = leader.term) ∧
        (index ≤ (leader.peers 0).progress.matchIndex ∨
          index ≤ (leader.peers 1).progress.matchIndex) then .ok (.inr (some index))
    else
      let index ← sub index 1
      .ok (.inl index)
  else .ok (.inr none)

def advanceCommitIndex (leader : RaftLeaderReplication) (log : PersistentLog) (commitIndex : ℕ) :
    Checked (Option ℕ) :=
  loop (commitRound leader log commitIndex) (log.lastIndex + 1) log.lastIndex

def handleReply (leader : RaftLeaderReplication) (election : RaftElection)
    (metadata : PersistentMetadata) (log : PersistentLog) (commitIndex peerId : ℕ)
    (sentRequest : AppendEntries) (reply : AppendEntriesReply) :
    Checked RaftLeaderReplication.ReplyOutcome :=
  match leader.findPeer peerId with
  | none => .ok ⟨leader, metadata, commitIndex, .ignored⟩
  | some i =>
    if leader.active election metadata = false then .ok ⟨leader, metadata, commitIndex, .ignored⟩
    else if leader.term < reply.term then
      let leader := { leader with stopped := true }
      match metadata.advanceTerm reply.term with
      | (metadata, .persisted) => .ok ⟨leader, metadata, commitIndex, .steppedDown⟩
      | (metadata, _) => .ok ⟨leader, metadata, commitIndex, .persistenceError⟩
    else
      let peer := leader.peers i
      if reply.term ≠ leader.term ∨ peer.pending ≠ some sentRequest then
        .ok ⟨leader, metadata, commitIndex, .ignored⟩
      else
        let peer := { peer with pending := none }
        if reply.success = false then do
          let lowestNext ← add peer.progress.matchIndex 1
          if peer.progress.nextIndex ≤ lowestNext then
            .ok ⟨leader.setPeer i peer, metadata, commitIndex, .inconsistentFollower⟩
          else
            let nextIndex ← sub peer.progress.nextIndex 1
            let progress := { peer.progress with nextIndex }
            .ok ⟨leader.setPeer i { peer with progress }, metadata, commitIndex, .retry⟩
        else do
          let matchedIndex ← add sentRequest.prevLogIndex sentRequest.entries.length
          let matchIndex := max peer.progress.matchIndex matchedIndex
          let nextIndex ← add matchIndex 1
          let leader := leader.setPeer i { peer with progress := ⟨nextIndex, matchIndex⟩ }
          match ← advanceCommitIndex leader log commitIndex with
          | some commitIndex => .ok ⟨leader, metadata, commitIndex, .committed⟩
          | none => .ok ⟨leader, metadata, commitIndex, .recorded⟩

variable {leader : RaftLeaderReplication} {log : PersistentLog}

theorem create_eq (election : RaftElection) (metadata : PersistentMetadata) (commitIndex : ℕ)
    (h : log.lastIndex + 1 < 2 ^ 64) : create election metadata log commitIndex =
      .ok (RaftLeaderReplication.create election metadata log commitIndex) := by
  rw [create, add_eq h, ok_bind]

theorem collectEntries_eq (h : log.lastIndex < 2 ^ 64) (room index : ℕ) :
    collectEntries log room index = .ok (RaftLeaderReplication.collectEntries log room index) := by
  induction room generalizing index with
  | zero => rfl
  | succ room ih =>
    rw [collectEntries, RaftLeaderReplication.collectEntries]
    refine ite_eq_ok fun hlast => ?_
    rw [entryAt_eq, ok_bind]
    cases log.entryAt index with
    | none => rfl
    | some entry =>
      refine ite_eq_ok fun hne => ?_
      rw [add_eq (by omega), ok_bind, ih, ok_bind]

theorem previousTerm_eq (log : PersistentLog) (previousIndex : ℕ) :
    previousTerm log previousIndex =
      .ok (RaftLeaderReplication.previousTerm log previousIndex) := by
  rw [previousTerm, RaftLeaderReplication.previousTerm]
  refine ite_eq_ok fun _ => ?_
  rw [entryAt_eq, ok_bind]

/-- **Requests** are made without a fault. -/
theorem makeRequest_eq (election : RaftElection) (metadata : PersistentMetadata)
    (commitIndex peerId maxEntries : ℕ) (h : log.lastIndex + 1 < 2 ^ 64) :
    makeRequest leader election metadata log commitIndex peerId maxEntries =
      .ok (leader.makeRequest election metadata log commitIndex peerId maxEntries) := by
  rw [makeRequest, RaftLeaderReplication.makeRequest]
  cases leader.findPeer peerId with
  | none => rfl
  | some i =>
    refine ite_eq_ok fun _ => ite_eq_ok fun _ => ite_eq_ok fun _ => ?_
    cases (leader.peers i).pending with
    | some request => rfl
    | none =>
      dsimp only
      rw [add_eq h, ok_bind]
      refine ite_eq_ok fun hnext => ?_
      rw [sub_eq (by omega), ok_bind, previousTerm_eq, ok_bind, collectEntries_eq (by omega),
        ok_bind]
      cases RaftLeaderReplication.previousTerm log ((leader.peers i).progress.nextIndex - 1) with
      | none => rfl
      | some term =>
        cases RaftLeaderReplication.collectEntries log maxEntries
          (leader.peers i).progress.nextIndex <;> rfl

/-- **Commands** are appended without a fault. -/
theorem appendCommand_eq (leader : RaftLeaderReplication) (election : RaftElection)
    (metadata : PersistentMetadata) (log : PersistentLog) (command : Command) :
    appendCommand leader election metadata log command =
      .ok (leader.appendCommand election metadata log command) := by
  rw [appendCommand, RaftLeaderReplication.appendCommand]
  refine ite_eq_ok fun _ => ?_
  rw [sub_eq (by decide), ok_bind]
  refine ite_eq_ok fun hmax => ?_
  rw [uint64Max] at hmax
  rw [add_eq (by omega), ok_bind, append_eq (by omega), ok_bind]
  dsimp only
  rcases log.append ⟨log.lastIndex + 1, leader.term, command⟩ with ⟨log', _ | _ | _ | _⟩ <;> rfl

/-- The search for a commit index goes down without a fault, and ends. -/
theorem advanceCommitIndex_eq (leader : RaftLeaderReplication) (log : PersistentLog)
    (commitIndex : ℕ) : advanceCommitIndex leader log commitIndex =
      .ok (leader.advanceCommitIndex log commitIndex) := by
  refine loop_eq (fun _ => True) (fun index => index) (leader.commitCandidate log commitIndex)
    (fun index _ => ?_) trivial (Nat.lt_succ_self _)
  rw [commitRound]
  cases index with
  | zero => exact Or.inl rfl
  | succ index =>
    rw [RaftLeaderReplication.commitCandidate]
    by_cases hlt : commitIndex < index + 1
    swap
    · rw [if_neg hlt, if_pos (by omega)]
      exact Or.inl rfl
    rw [if_pos hlt, if_neg (by omega), entryAt_eq, ok_bind, sub_eq (by omega), ok_bind]
    have hnext : index < index + 1 := Nat.lt_succ_self index
    cases log.entryAt (index + 1) with
    | none => exact Or.inr ⟨index, rfl, trivial, hnext, rfl⟩
    | some entry =>
      simp only [Option.any_some, decide_eq_true_eq]
      split_ifs with hfound
      · exact Or.inl rfl
      · exact Or.inr ⟨index, rfl, trivial, hnext, rfl⟩

/-- What a leader has recorded about a peer leaves room for one more index. -/
structure PeerWords (peer : PeerState) : Prop where
  matchIndex : peer.progress.matchIndex + 1 < 2 ^ 64
  pending : ∀ {request}, peer.pending = some request →
    request.prevLogIndex + request.entries.length + 1 < 2 ^ 64

/-- **Replies** are handled without a fault. -/
theorem handleReply_eq (h : ∀ i, PeerWords (leader.peers i)) (election : RaftElection)
    (metadata : PersistentMetadata) (log : PersistentLog) (commitIndex peerId : ℕ)
    (sentRequest : AppendEntries) (reply : AppendEntriesReply) :
    handleReply leader election metadata log commitIndex peerId sentRequest reply =
      .ok (leader.handleReply election metadata log commitIndex peerId sentRequest reply) := by
  rw [handleReply, RaftLeaderReplication.handleReply]
  cases leader.findPeer peerId with
  | none => rfl
  | some i =>
    refine ite_eq_ok fun _ => ?_
    have hmatch := (h i).matchIndex
    dsimp only
    by_cases hlater : leader.term < reply.term
    · rw [if_pos hlater, if_pos hlater]
      rcases metadata.advanceTerm reply.term with ⟨metadata', _ | _ | _ | _ | _ | _⟩ <;> rfl
    rw [if_neg hlater, if_neg hlater]
    refine ite_eq_ok fun hignored => ?_
    by_cases hsuccess : reply.success = false
    · rw [if_pos hsuccess, if_pos hsuccess, add_eq hmatch, ok_bind]
      refine ite_eq_ok fun hnext => ?_
      rw [sub_eq (by omega), ok_bind]
    · rw [if_neg hsuccess, if_neg hsuccess]
      -- the reply is to the request that the leader has kept
      have hpending : (leader.peers i).pending = some sentRequest := by tauto
      have hsum := (h i).pending hpending
      rw [add_eq (by omega), ok_bind, add_eq (by omega), ok_bind, advanceCommitIndex_eq, ok_bind]
      generalize (leader.setPeer i _).advanceCommitIndex log commitIndex = advanced
      cases advanced <;> rfl

/-! ## Standing for election -/

def startElection (election : RaftElection) (metadata : PersistentMetadata)
    (log : PersistentLog) :
    Checked (RaftElection × PersistentMetadata × Except ElectionStartError RequestVote) :=
  if election.unusable then .ok (election, metadata, .error .persistenceError)
  else
    let election := (election.refreshRoleFromMetadata metadata).1
    if election.cachedRole = .leader then .ok (election, metadata, .error .alreadyLeader)
    else
      let currentTerm := metadata.state.currentTerm
      if currentTerm = uint64Max then .ok (election, metadata, .error .termExhausted)
      else do
        let nextTerm ← add currentTerm 1
        match metadata.advanceTerm nextTerm with
        | (metadata, .persisted) =>
          match metadata.voteFor election.selfId with
          | (metadata, voteResult) =>
            if voteResult ≠ .persisted ∧ voteResult ≠ .unchanged then
              .ok (election.giveUp, metadata, .error .persistenceError)
            else
              .ok ({ election with
                  cachedRole := .candidate
                  electionTerm := nextTerm
                  replied := fun _ => false
                  grantedVotes := 1 },
                metadata, .ok ⟨nextTerm, election.selfId, log.lastIndex, log.lastTerm⟩)
        | (metadata, _) => .ok (election.giveUp, metadata, .error .persistenceError)

/-- **Elections** are started without a fault. -/
theorem startElection_eq (election : RaftElection) {metadata : PersistentMetadata}
    (log : PersistentLog) (h : metadata.state.currentTerm < 2 ^ 64) :
    startElection election metadata log = .ok (election.startElection metadata log) := by
  rw [startElection, RaftElection.startElection]
  refine ite_eq_ok fun _ => ite_eq_ok fun _ => ite_eq_ok fun hmax => ?_
  rw [uint64Max] at hmax
  rw [add_eq (by omega), ok_bind]
  dsimp only
  rcases metadata.advanceTerm (metadata.state.currentTerm + 1) with
    ⟨metadata', _ | _ | _ | _ | _ | _⟩
  · exact ite_eq_ok fun _ => rfl
  all_goals rfl

/-! ## Applying -/

/-- `apply`, as far as it computes an index. -/
def apply (state : KvStateMachine) (logIndex : ℕ) (command : Command) (logTerm : ℕ) :
    Checked (KvStateMachine × ApplyResult) := do
  let next ← add state.lastApplied 1
  if logIndex ≠ next then .ok (state, .unexpectedIndex)
  else .ok (state.apply logIndex command logTerm)

/-- One round of the loop of `apply_committed`. -/
def applyRound (log : PersistentLog) (commitIndex : ℕ) : KvStateMachine × List AppliedLogEntry →
    Checked ((KvStateMachine × List AppliedLogEntry) ⊕
      (KvStateMachine × Except ApplyCommittedError (List AppliedLogEntry)))
  | (state, applied) =>
    if state.lastApplied < commitIndex then do
      let index ← add state.lastApplied 1
      match ← entryAt log index with
      | none => .ok (.inr (state, .error .missingEntry))
      | some entry =>
        match ← apply state index entry.command entry.term with
        | (state, .invalidCommand) => .ok (.inr (state, .error .invalidCommand))
        | (state, .unexpectedIndex) => .ok (.inr (state, .error .unexpectedIndex))
        | (state, result) => .ok (.inl (state, applied ++ [⟨index, result⟩]))
    else .ok (.inr (state, .ok applied))

def applyCommitted (log : PersistentLog) (state : KvStateMachine) (commitIndex : ℕ) :
    Checked (KvStateMachine × Except ApplyCommittedError (List AppliedLogEntry)) :=
  if log.lastIndex < commitIndex then .ok (state, .error .commitBeyondLog)
  else if commitIndex < state.lastApplied then .ok (state, .error .stateAheadOfCommit)
  else do
    let count ← sub commitIndex state.lastApplied
    loop (applyRound log commitIndex) (count + 1) (state, [])

theorem apply_eq {state : KvStateMachine} (h : state.lastApplied + 1 < 2 ^ 64) (logIndex : ℕ)
    (command : Command) (logTerm : ℕ) :
    apply state logIndex command logTerm = .ok (state.apply logIndex command logTerm) := by
  rw [apply, add_eq h, ok_bind]
  split_ifs with hindex
  · rw [KvStateMachine.apply, if_pos hindex]
  · rfl

/-- An application that does not fail moves `last_applied` to the index. -/
theorem lastApplied_of_apply {state state' : KvStateMachine} {logIndex logTerm : ℕ}
    {command : Command} {result : ApplyResult}
    (h : state.apply logIndex command logTerm = (state', result))
    (hindex : result ≠ .unexpectedIndex) (hcommand : result ≠ .invalidCommand) :
    state'.lastApplied = logIndex := by
  unfold KvStateMachine.apply at h
  split_ifs at h
  · exact absurd (Prod.mk.inj h).2.symm hindex
  · exact absurd (Prod.mk.inj h).2.symm hcommand
  cases hprior : state.prior command with
  | some p =>
    rw [hprior] at h
    obtain ⟨rfl, -⟩ := Prod.mk.inj h
    rfl
  | none =>
    rw [hprior] at h
    dsimp only at h
    split at h
    · exact absurd (Prod.mk.inj h).2.symm hcommand
    · obtain ⟨rfl, -⟩ := Prod.mk.inj h
      rfl

/-- The rounds that are left, over the natural numbers. -/
def remainingRounds (log : PersistentLog) (commitIndex : ℕ) :
    KvStateMachine × List AppliedLogEntry →
    KvStateMachine × Except ApplyCommittedError (List AppliedLogEntry)
  | (state, applied) => applyLoop log (commitIndex - state.lastApplied) state applied

/-- **The committed prefix** is applied without a fault, and the loop ends. -/
theorem applyCommitted_eq {commitIndex : ℕ} (h : commitIndex < 2 ^ 64) (log : PersistentLog)
    (state : KvStateMachine) : applyCommitted log state commitIndex =
      .ok (DistributedKV.applyCommitted log state commitIndex) := by
  rw [applyCommitted, DistributedKV.applyCommitted]
  refine ite_eq_ok fun hlog => ite_eq_ok fun hstate => ?_
  rw [sub_eq (by omega), ok_bind]
  refine loop_eq (fun s => s.1.lastApplied ≤ commitIndex) (fun s => commitIndex - s.1.lastApplied)
    (remainingRounds log commitIndex) ?_ (by dsimp only; omega) (Nat.lt_succ_self _)
  rintro ⟨state, applied⟩ hle
  dsimp only at hle ⊢
  rw [applyRound, remainingRounds]
  by_cases hlt : state.lastApplied < commitIndex
  swap
  · rw [if_neg hlt, Nat.sub_eq_zero_of_le (by omega), applyLoop]
    exact Or.inl rfl
  obtain ⟨rounds, hrounds⟩ : ∃ rounds, commitIndex - state.lastApplied = rounds + 1 :=
    ⟨commitIndex - state.lastApplied - 1, by omega⟩
  rw [if_pos hlt, hrounds, applyLoop, add_eq (by omega), ok_bind, entryAt_eq, ok_bind]
  cases log.entryAt (state.lastApplied + 1) with
  | none => exact Or.inl rfl
  | some entry =>
    dsimp only
    rw [apply_eq (by omega), ok_bind]
    cases happly : state.apply (state.lastApplied + 1) entry.command entry.term with
    | mk state' result =>
      have hnext : result ≠ .unexpectedIndex → result ≠ .invalidCommand →
          state'.lastApplied = state.lastApplied + 1 := lastApplied_of_apply happly
      have hgoes : ∀ {applied' : List AppliedLogEntry},
          state'.lastApplied = state.lastApplied + 1 →
          state'.lastApplied ≤ commitIndex ∧
            commitIndex - state'.lastApplied < rounds + 1 ∧
            remainingRounds log commitIndex (state', applied') =
              applyLoop log rounds state' applied' := by
        intro applied' heq
        rw [remainingRounds]
        have hleft : commitIndex - state'.lastApplied = rounds := by omega
        rw [hleft]
        exact ⟨by omega, Nat.lt_succ_self _, rfl⟩
      cases result with
      | invalidCommand | unexpectedIndex => exact Or.inl rfl
      | applied | keyNotFound | requestConflict =>
        obtain ⟨hle', hlt', hresult⟩ := hgoes (hnext (by simp) (by simp))
        exact Or.inr ⟨_, rfl, hle', hlt', hresult⟩

end DistributedKV.Machine
