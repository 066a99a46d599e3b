import DistributedKV.Store.PersistentLog

/-!
# Following a leader

`raft_append.cpp`: the follower's half of log replication.
-/

namespace DistributedKV

structure AppendEntries where
  term : ℕ := 0
  leaderId : ℕ := 0
  prevLogIndex : ℕ := 0
  prevLogTerm : ℕ := 0
  entries : List LogEntry := []
  leaderCommit : ℕ := 0
  /-- Nonzero only for a read-only heartbeat round. -/
  readContext : ℕ := 0
  deriving DecidableEq

structure AppendEntriesReply where
  term : ℕ := 0
  success : Bool := false
  deriving DecidableEq

inductive AppendEntriesHandleError
  | invalidRequest
  | committedConflict
  | persistenceError
  deriving DecidableEq, Repr

/-- The loop of `valid_entries`, after the entries up to `nextIndex`, of term `previousTerm`. -/
def validEntriesFrom (requestTerm : ℕ) : ℕ → ℕ → List LogEntry → Bool
  | _, _, [] => true
  | nextIndex, previousTerm, entry :: entries =>
    if entry.index ≠ nextIndex + 1 ∨ entry.term < previousTerm ∨ requestTerm < entry.term ∨
        ¬ entry.Encodable then false
    else validEntriesFrom requestTerm (nextIndex + 1) entry.term entries

def validEntries (request : AppendEntries) : Bool :=
  if (decide (request.prevLogIndex = 0) != decide (request.prevLogTerm = 0)) ∨
      request.term < request.prevLogTerm ∨
      (request.readContext ≠ 0 ∧ (request.prevLogIndex ≠ 0 ∨ request.entries ≠ [])) ∨
      uint64Max - request.prevLogIndex < request.entries.length then false
  else validEntriesFrom request.term request.prevLogIndex request.prevLogTerm request.entries

/-- The second loop of `handle_append_entries`: skip the entries the log has, and from the first
one it lacks, truncate and append. -/
def appendLoop (commitIndex : ℕ) : PersistentLog → List LogEntry →
    PersistentLog × Except AppendEntriesHandleError Unit
  | log, [] => (log, .ok ())
  | log, entry :: entries =>
    match log.entryAt entry.index with
    | some existing =>
      if existing.term = entry.term then
        -- Equal index and term imply the same command in a valid Raft history.
        if existing.command ≠ entry.command then (log, .error .invalidRequest)
        else appendLoop commitIndex log entries
      else if entry.index ≤ commitIndex then (log, .error .committedConflict)
      else match log.truncateSuffix entry.index with
        | (log, .truncated) =>
          match log.append entry with
          | (log, .appended) => appendLoop commitIndex log entries
          | (log, _) => (log, .error .persistenceError)
        | (log, _) => (log, .error .persistenceError)
    | none =>
      match log.append entry with
      | (log, .appended) => appendLoop commitIndex log entries
      | (log, _) => (log, .error .persistenceError)

/-- The state that `handle_append_entries` updates by reference, and its result. -/
structure AppendOutcome where
  metadata : PersistentMetadata
  log : PersistentLog
  commitIndex : ℕ
  result : Except AppendEntriesHandleError AppendEntriesReply

/-- The preceding entry of a request is missing or has another term. -/
def previousMismatch (log : PersistentLog) (request : AppendEntries) : Bool :=
  request.prevLogIndex ≠ 0 &&
    match log.entryAt request.prevLogIndex with
    | none => true
    | some previous => previous.term ≠ request.prevLogTerm

def handleAppendEntries (metadata : PersistentMetadata) (log : PersistentLog) (commitIndex : ℕ)
    (request : AppendEntries) : AppendOutcome :=
  match metadata.advanceTerm request.term with
  | (metadata, .ioError) => ⟨metadata, log, commitIndex, .error .persistenceError⟩
  | (metadata, _) =>
    let currentTerm := metadata.state.currentTerm
    if request.term = 0 ∨ request.term < currentTerm then
      ⟨metadata, log, commitIndex, .ok ⟨currentTerm, false⟩⟩
    else if validEntries request = false ∨ log.lastIndex < commitIndex then
      ⟨metadata, log, commitIndex, .error .invalidRequest⟩
    else if previousMismatch log request then
      ⟨metadata, log, commitIndex, .ok ⟨currentTerm, false⟩⟩
    else match appendLoop commitIndex log request.entries with
      | (log, .error e) => ⟨metadata, log, commitIndex, .error e⟩
      | (log, .ok ()) =>
        let matchedIndex := request.prevLogIndex + request.entries.length
        ⟨metadata, log, max commitIndex (min request.leaderCommit matchedIndex),
          .ok ⟨currentTerm, true⟩⟩

/-! ## What the loop can do -/

/-- How the loop ends, in terms of an assertion `I k entries log` that holds when the entries up
to position `k` are dealt with, `entries` are left and the log is `log`. A write that failed may
have reached the disk. -/
inductive AppendLoopEnd (commitIndex : ℕ) (I : ℕ → List LogEntry → List LogEntry → Prop) :
    PersistentLog × Except AppendEntriesHandleError Unit → Prop
  | ok (log : PersistentLog) (k : ℕ) (hs : log.Synced) (h : I k [] log.log) :
      AppendLoopEnd commitIndex I (log, .ok ())
  | invalidRequest (log : PersistentLog) (k : ℕ) (e x : LogEntry) (es : List LogEntry)
      (hs : log.Synced) (h : I k (e :: es) log.log) (hx : log.log[k]? = some x)
      (ht : x.term = e.term) (hc : x.command ≠ e.command) :
      AppendLoopEnd commitIndex I (log, .error .invalidRequest)
  | committedConflict (log : PersistentLog) (k : ℕ) (e x : LogEntry) (es : List LogEntry)
      (hs : log.Synced) (h : I k (e :: es) log.log) (hx : log.log[k]? = some x)
      (ht : x.term ≠ e.term) (hk : k < commitIndex) :
      AppendLoopEnd commitIndex I (log, .error .committedConflict)
  | persistenceError (log : PersistentLog) (hm : ∃ k es, I k es log.log)
      (hd : ∃ k es, I k es log.durable) :
      AppendLoopEnd commitIndex I (log, .error .persistenceError)

/-- **The rule of the loop**: an assertion that skipping, truncating and appending preserve holds
at the end, and of what the disk holds when a write has failed. -/
theorem appendLoop_rule {commitIndex : ℕ} {I : ℕ → List LogEntry → List LogEntry → Prop}
    (hindex : ∀ {k e es l}, I k (e :: es) l → e.index = k + 1 ∧ k ≤ l.length)
    (hskip : ∀ {k e es l x}, I k (e :: es) l → l[k]? = some x → x.term = e.term →
      x.command = e.command → I (k + 1) es l)
    (htruncate : ∀ {k e es l x}, I k (e :: es) l → l[k]? = some x → x.term ≠ e.term →
      commitIndex ≤ k → I k (e :: es) (l.take k))
    (happend : ∀ {k e es l}, I k (e :: es) l → l.length = k → e.Encodable →
      I (k + 1) es (l ++ [e]))
    (entries : List LogEntry) {k : ℕ} {log : PersistentLog} (hs : log.Synced)
    (h : I k entries log.log) :
    AppendLoopEnd commitIndex I (appendLoop commitIndex log entries) := by
  induction entries generalizing k log with
  | nil => exact .ok log k hs h
  | cons e es ih =>
    obtain ⟨hi, hk⟩ := hindex h
    -- the append that both the truncating and the plain branch make
    have happ : ∀ {log : PersistentLog}, log.Synced → I k (e :: es) log.log →
        log.log.length = k → AppendLoopEnd commitIndex I
          (match log.append e with
            | (log, .appended) => appendLoop commitIndex log es
            | (log, _) => (log, .error .persistenceError)) := by
      intro log hs h hlen
      rcases PersistentLog.append_cases hs e with ⟨h1, -⟩ | ⟨-, h2⟩ | ⟨-, he, h3⟩
      · rw [← PersistentLog.length_log, hlen] at h1
        exact absurd hi h1
      · rw [h2]
        exact .persistenceError log ⟨k, _, h⟩ ⟨k, _, hs.durable ▸ h⟩
      · have hnext := happend h hlen he
        obtain ⟨log', ha, hs', hl'⟩ | ⟨log', ha, hf⟩ := h3
        · rw [ha]
          exact ih hs' (hl' ▸ hnext)
        · rw [ha]
          refine .persistenceError log' ⟨k, _, hf.log ▸ h⟩ ?_
          rcases hf.durable with hd | hd
          · exact ⟨k, _, hd ▸ h⟩
          · exact ⟨k + 1, _, hd ▸ hnext⟩
    rw [appendLoop, hi, PersistentLog.entryAt_succ]
    cases hx : log.log[k]? with
    | none =>
      have hlen : log.log.length = k :=
        Nat.le_antisymm (List.getElem?_eq_none_iff.1 hx) hk
      exact happ hs h hlen
    | some x =>
      have hlt : k < log.log.length := (List.getElem?_eq_some_iff.1 hx).1
      dsimp only
      split_ifs with ht hc hcommit
      · exact .invalidRequest log k e x es hs h hx ht hc
      · exact ih hs (hskip h hx ht (not_not.1 hc))
      · exact .committedConflict log k e x es hs h hx ht (by omega)
      · have hcut := htruncate h hx ht (by omega)
        rw [PersistentLog.length_log] at hlt
        obtain ⟨log', ha, hs', hl'⟩ | ⟨log', ha, hf⟩ := PersistentLog.truncateSuffix_cases hs hlt
        · rw [ha]
          refine happ hs' (hl' ▸ hcut) ?_
          rw [hl', List.length_take, PersistentLog.length_log]
          omega
        · rw [ha]
          refine .persistenceError log' ⟨k, _, hf.log ▸ h⟩ ?_
          rcases hf.durable with hd | hd
          · exact ⟨k, _, hd ▸ h⟩
          · exact ⟨k, _, hd ▸ hcut⟩

theorem validEntriesFrom_cons {T k t : ℕ} {e : LogEntry} {es : List LogEntry}
    (h : validEntriesFrom T k t (e :: es) = true) :
    e.index = k + 1 ∧ t ≤ e.term ∧ e.term ≤ T ∧ e.Encodable ∧
      validEntriesFrom T (k + 1) e.term es = true := by
  rw [validEntriesFrom] at h
  split_ifs at h with hbad
  simp only [not_or, not_not, ne_eq] at hbad
  exact ⟨hbad.1, by omega, by omega, hbad.2.2.2, h⟩

theorem validEntries_fields {request : AppendEntries} (h : validEntries request = true) :
    (request.prevLogIndex = 0 ↔ request.prevLogTerm = 0) ∧ request.prevLogTerm ≤ request.term ∧
      validEntriesFrom request.term request.prevLogIndex request.prevLogTerm request.entries =
        true := by
  rw [validEntries] at h
  split_ifs at h with hbad
  simp only [not_or, bne_iff_ne, ne_eq, not_not, decide_eq_decide] at hbad
  exact ⟨hbad.1, by omega, h⟩

/-- How `handle_append_entries` ends, in terms of an assertion `A` about the durable record. The
last case leaves the loop to `appendLoop_rule`. -/
inductive AppendEntriesEnd (metadata : PersistentMetadata) (log : PersistentLog) (commitIndex : ℕ)
    (request : AppendEntries) (A : RaftMetadata → Prop) : AppendOutcome → Prop
  | persistenceError (metadata' : PersistentMetadata) (hm : metadata'.state = metadata.state)
      (hA : A metadata'.durable) :
      AppendEntriesEnd metadata log commitIndex request A
        ⟨metadata', log, commitIndex, .error .persistenceError⟩
  | stale (h : request.term = 0 ∨ request.term < metadata.state.currentTerm) :
      AppendEntriesEnd metadata log commitIndex request A
        ⟨metadata, log, commitIndex, .ok ⟨metadata.state.currentTerm, false⟩⟩
  | invalidRequest (metadata' : PersistentMetadata) (hs : metadata'.Synced)
      (hA : A metadata'.state) (ht : metadata'.state.currentTerm = request.term)
      (h : validEntries request = false ∨ log.lastIndex < commitIndex) :
      AppendEntriesEnd metadata log commitIndex request A
        ⟨metadata', log, commitIndex, .error .invalidRequest⟩
  | mismatch (metadata' : PersistentMetadata) (hs : metadata'.Synced) (hA : A metadata'.state)
      (ht : metadata'.state.currentTerm = request.term) (h0 : request.term ≠ 0)
      (h : previousMismatch log request = true) :
      AppendEntriesEnd metadata log commitIndex request A
        ⟨metadata', log, commitIndex, .ok ⟨request.term, false⟩⟩
  | conflict (metadata' : PersistentMetadata) (hs : metadata'.Synced) (hA : A metadata'.state)
      (ht : metadata'.state.currentTerm = request.term) (h0 : request.term ≠ 0)
      (hv : validEntries request = true) (hp : previousMismatch log request = false)
      (log' : PersistentLog) (e : AppendEntriesHandleError)
      (h : appendLoop commitIndex log request.entries = (log', .error e)) :
      AppendEntriesEnd metadata log commitIndex request A
        ⟨metadata', log', commitIndex, .error e⟩
  | appended (metadata' : PersistentMetadata) (hs : metadata'.Synced) (hA : A metadata'.state)
      (ht : metadata'.state.currentTerm = request.term) (h0 : request.term ≠ 0)
      (hv : validEntries request = true) (hp : previousMismatch log request = false)
      (log' : PersistentLog)
      (h : appendLoop commitIndex log request.entries = (log', .ok ())) :
      AppendEntriesEnd metadata log commitIndex request A
        ⟨metadata', log',
          max commitIndex (min request.leaderCommit
            (request.prevLogIndex + request.entries.length)),
          .ok ⟨request.term, true⟩⟩

/-- **The rule of an append request**: an assertion that entering the request's term preserves
holds at the end. -/
theorem handleAppendEntries_rule {metadata : PersistentMetadata} (log : PersistentLog)
    (commitIndex : ℕ) (request : AppendEntries) {A : RaftMetadata → Prop} (hs : metadata.Synced)
    (h : A metadata.state)
    (hadvance : metadata.state.currentTerm < request.term → A ⟨request.term, none⟩) :
    AppendEntriesEnd metadata log commitIndex request A
      (handleAppendEntries metadata log commitIndex request) := by
  -- what follows once the record is in the request's term
  have hmain : ∀ {m : PersistentMetadata}, m.Synced → A m.state →
      m.state.currentTerm = request.term →
      (request.term = 0 → m = metadata) → AppendEntriesEnd metadata log commitIndex request A
        (if request.term = 0 ∨ request.term < m.state.currentTerm then
          ⟨m, log, commitIndex, .ok ⟨m.state.currentTerm, false⟩⟩
        else if validEntries request = false ∨ log.lastIndex < commitIndex then
          ⟨m, log, commitIndex, .error .invalidRequest⟩
        else if previousMismatch log request then
          ⟨m, log, commitIndex, .ok ⟨m.state.currentTerm, false⟩⟩
        else match appendLoop commitIndex log request.entries with
          | (log, .error e) => ⟨m, log, commitIndex, .error e⟩
          | (log, .ok ()) =>
            ⟨m, log, max commitIndex (min request.leaderCommit
              (request.prevLogIndex + request.entries.length)),
              .ok ⟨m.state.currentTerm, true⟩⟩) := by
    intro m hs hA ht hzero
    rw [ht]
    split_ifs with h0 hv hp
    · rw [or_iff_left (Nat.lt_irrefl _)] at h0
      obtain rfl := hzero h0
      rw [← ht]
      exact .stale (Or.inl h0)
    · exact .invalidRequest m hs hA ht hv
    · exact .mismatch m hs hA ht (fun h => h0 (Or.inl h)) hp
    · simp only [not_or, Bool.not_eq_false, Bool.not_eq_true] at h0 hv hp
      cases hl : appendLoop commitIndex log request.entries with
      | mk log' result =>
        cases result with
        | error e => exact .conflict m hs hA ht h0.1 hv.1 hp log' e hl
        | ok u => exact .appended m hs hA ht h0.1 hv.1 hp log' hl
  unfold handleAppendEntries
  rcases PersistentMetadata.advanceTerm_cases hs request.term with ⟨ht, hr⟩ | ⟨ht, hr⟩ | ⟨ht, hu⟩
  · rw [hr]
    dsimp only
    rw [if_pos (Or.inr ht)]
    exact .stale (Or.inr ht)
  · rw [hr]
    exact hmain hs h ht.symm fun _ => rfl
  · have hA := hadvance ht
    revert hu
    generalize metadata.advanceTerm request.term = r
    rintro (⟨m, hs', hn⟩ | ⟨m, hn, hd⟩)
    · exact hmain hs' (hn ▸ hA) (by rw [hn]) fun h0 => by omega
    · refine .persistenceError m hn ?_
      rcases hd with hd | hd
      · exact hd ▸ h
      · exact hd ▸ hA

end DistributedKV
