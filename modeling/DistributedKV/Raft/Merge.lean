import DistributedKV.Raft.Append

/-!
# What a request does to a log

`handle_append_entries` on any follower: a request that is answered with success leaves the log
that `merge` names, whatever the log was (`append_merges`), and one that is refused leaves the log
as it was (`refused_no_trace`).
-/

namespace DistributedKV

/-- The log with the entries put in after the first `p`: as it is if it holds them there, and
otherwise with nothing after them. -/
def merge (log : List LogEntry) (p : ℕ) (entries : List LogEntry) : List LogEntry :=
  if (log.drop p).take entries.length = entries then log else log.take p ++ entries

section Merge

variable {log entries es : List LogEntry} {p : ℕ} {e x : LogEntry}

theorem merge_of_holds (h : (log.drop p).take entries.length = entries) :
    merge log p entries = log := if_pos h

@[simp] theorem merge_nil (log : List LogEntry) (p : ℕ) : merge log p [] = log := by
  simp [merge]

/-- An entry that the log holds can be left out. -/
theorem merge_cons_of_holds (h : log[p]? = some e) :
    merge log p (e :: es) = merge log (p + 1) es := by
  have hdrop : log.drop p = e :: log.drop (p + 1) := by
    obtain ⟨hlt, he⟩ := List.getElem?_eq_some_iff.1 h
    rw [List.drop_eq_getElem_cons hlt, he]
  have htake : log.take p ++ e :: es = log.take (p + 1) ++ es := by
    rw [List.take_add_one, h, Option.toList_some, List.append_assoc, List.singleton_append]
  simp only [merge, hdrop, List.length_cons, List.take_succ_cons, List.cons.injEq, true_and, htake]

/-- From the first entry on that the log does not hold, it is cut. -/
theorem merge_cons_of_ne (h : log[p]? ≠ some e) :
    merge log p (e :: es) = log.take p ++ e :: es := by
  refine if_neg fun heq => h ?_
  have hfirst := congrArg (fun l => l[0]?) heq
  simpa using hfirst

theorem take_merge (h : p ≤ log.length) : (merge log p entries).take p = log.take p := by
  rw [merge]
  split_ifs
  · rfl
  · rw [List.take_append_of_le_length (by simp [h]), List.take_take, Nat.min_self]

theorem getElem?_of_take_drop (h : (log.drop p).take entries.length = entries) {i : ℕ}
    (he : entries[i]? = some e) : log[p + i]? = some e := by
  rw [← h, List.getElem?_take] at he
  split_ifs at he
  rwa [List.getElem?_drop] at he

/-- The merged log holds the entries. -/
theorem merge_holds (h : p ≤ log.length) :
    ((merge log p entries).drop p).take entries.length = entries := by
  rw [merge]
  split_ifs with hholds
  · exact hholds
  · rw [List.drop_append_of_le_length (by simp [h]), List.drop_take_self, List.nil_append,
      List.take_length]

/-- A log that is cut ends with the last entry. -/
theorem length_merge_of_ne (h : p ≤ log.length) (hne : (log.drop p).take entries.length ≠ entries) :
    (merge log p entries).length = p + entries.length := by
  rw [merge, if_neg hne, List.length_append, List.length_take, Nat.min_eq_left h]

theorem length_merge (h : p ≤ log.length) : p + entries.length ≤ (merge log p entries).length := by
  by_cases hholds : (log.drop p).take entries.length = entries
  · have hlength := congrArg List.length hholds
    rw [List.length_take, List.length_drop] at hlength
    rw [merge_of_holds hholds]
    omega
  · exact Nat.le_of_eq (length_merge_of_ne h hholds).symm

/-- What follows is kept by a log that holds the entries, or is too short for them. -/
theorem drop_merge (h : p ≤ log.length) (hshort : (log.drop p).take entries.length = entries ∨
    log.length < p + entries.length) :
    (merge log p entries).drop (p + entries.length) = log.drop (p + entries.length) := by
  by_cases hholds : (log.drop p).take entries.length = entries
  · rw [merge_of_holds hholds]
  · rw [List.drop_eq_nil_of_le (Nat.le_of_eq (length_merge_of_ne h hholds)),
      List.drop_eq_nil_of_le (Nat.le_of_lt (hshort.resolve_left hholds))]

end Merge

/-! ## The loop -/

/-- The entries have the indices after `k`, and all can be encoded. -/
def Consecutive (k : ℕ) (entries : List LogEntry) : Prop :=
  ∀ {i e}, entries[i]? = some e → e.index = k + i + 1 ∧ e.Encodable

theorem Consecutive.cons {k : ℕ} {e : LogEntry} {es : List LogEntry} (h : Consecutive k (e :: es)) :
    e.index = k + 1 ∧ Consecutive (k + 1) es := by
  refine ⟨(h (i := 0) rfl).1, fun {i x} hx => ?_⟩
  obtain ⟨hi, he⟩ := h (i := i + 1) hx
  exact ⟨by omega, he⟩

theorem consecutive_of_validEntriesFrom {T k t : ℕ} {entries : List LogEntry}
    (h : validEntriesFrom T k t entries = true) : Consecutive k entries := by
  induction entries generalizing k t with
  | nil =>
    intro i e he
    cases he
  | cons x es ih =>
    obtain ⟨hx, -, -, henc, hrest⟩ := validEntriesFrom_cons h
    intro i e he
    cases i with
    | zero =>
      obtain rfl := Option.some.inj he
      exact ⟨hx, henc⟩
    | succ i =>
      obtain ⟨hi, he⟩ := ih hrest he
      exact ⟨by omega, he⟩

/-- Some entry that the log has after position `k` is of another term than the one that is to be
put in at its index. -/
def Conflicting (log : List LogEntry) (k : ℕ) (entries : List LogEntry) : Prop :=
  ∃ i x e, log[k + i]? = some x ∧ entries[i]? = some e ∧ x.term ≠ e.term

theorem Conflicting.cons {log es : List LogEntry} {k : ℕ} {e : LogEntry}
    (h : Conflicting log (k + 1) es) : Conflicting log k (e :: es) := by
  obtain ⟨i, x, y, hx, hy, hne⟩ := h
  refine ⟨i + 1, x, y, ?_, hy, hne⟩
  rwa [show k + (i + 1) = k + 1 + i by omega]

/-- A log that holds the entries is in no conflict with them. -/
theorem not_conflicting_of_holds {log entries : List LogEntry} {k : ℕ}
    (h : (log.drop k).take entries.length = entries) : ¬ Conflicting log k entries := by
  rintro ⟨i, x, e, hx, he, hne⟩
  rw [getElem?_of_take_drop h he] at hx
  exact hne (Option.some.inj hx ▸ rfl)

/-- The log has some entry at the index and of the term of another one, or of another term where
it is committed. -/
def Refusable (commitIndex : ℕ) (log : List LogEntry) (k : ℕ) (entries : List LogEntry) : Prop :=
  ∃ i x e, log[k + i]? = some x ∧ entries[i]? = some e ∧
    (x.term = e.term ∧ x.command ≠ e.command ∨ x.term ≠ e.term ∧ k + i < commitIndex)

theorem Refusable.cons {commitIndex k : ℕ} {log es : List LogEntry} {e : LogEntry}
    (h : Refusable commitIndex log (k + 1) es) : Refusable commitIndex log k (e :: es) := by
  obtain ⟨i, x, y, hx, hy, hwhy⟩ := h
  refine ⟨i + 1, x, y, ?_, hy, hwhy.imp_right (And.imp_right fun hlt => ?_)⟩
  · rwa [show k + (i + 1) = k + 1 + i by omega]
  · omega

namespace PersistentLog

variable {store store' : PersistentLog} {entry : LogEntry} {k : ℕ}

theorem log_of_append (h : store.append entry = (store', .appended)) :
    store'.log = store.log ++ [entry] := by
  unfold append at h
  split_ifs at h
  · simp at h
  · simp at h
  cases he : encodeLogEntry entry with
  | error e => simp [he] at h
  | ok bytes =>
    rw [he] at h
    dsimp only at h
    split_ifs at h
    · simp at h
    cases ho : nextOutcome store.outcomes with
    | done =>
      simp only [ho, Prod.mk.injEq, and_true] at h
      rw [← h]
      simp [log]
    | failed | uncertain => simp [ho] at h

theorem log_of_truncateSuffix (h : store.truncateSuffix (k + 1) = (store', .truncated)) :
    store'.log = store.log.take k := by
  unfold truncateSuffix at h
  dsimp only at h
  split_ifs at h with hfailed hindex hnext
  · simp at h
  · simp at h
  · obtain rfl := (Prod.mk.inj h).1
    rw [List.take_of_length_le]
    rw [length_log]
    omega
  cases ho : nextOutcome store.outcomes with
  | done =>
    simp only [ho, Prod.mk.injEq, and_true] at h
    rw [← h]
    simp [log, List.map_take]
  | failed | uncertain => simp [ho] at h

end PersistentLog

/-- How the loop ends on consecutive entries after position `k`: it leaves the merged log, or it
refuses the entries before it has written anything, or a write has failed. -/
inductive MergeEnd (commitIndex : ℕ) (log : PersistentLog) (k : ℕ) (entries : List LogEntry) :
    PersistentLog × Except AppendEntriesHandleError Unit → Prop
  | merged (log' : PersistentLog) (h : log'.log = merge log.log k entries)
      (hc : log'.log.take commitIndex = log.log.take commitIndex)
      (hd : (log.log.drop k).take entries.length = entries ∨
        log.log.length < k + entries.length ∨ Conflicting log.log k entries) :
      MergeEnd commitIndex log k entries (log', .ok ())
  | refused (e : AppendEntriesHandleError) (he : e ≠ .persistenceError)
      (h : Refusable commitIndex log.log k entries) :
      MergeEnd commitIndex log k entries (log, .error e)
  | failed (log' : PersistentLog) :
      MergeEnd commitIndex log k entries (log', .error .persistenceError)

/-- The loop at the end of the log only appends. -/
theorem appendLoop_of_length (commitIndex : ℕ) {k : ℕ} {log : PersistentLog}
    {entries : List LogEntry} (h : Consecutive k entries) (hk : log.log.length = k) :
    (∃ log', appendLoop commitIndex log entries = (log', .ok ()) ∧
      log'.log = log.log ++ entries) ∨
      ∃ log', appendLoop commitIndex log entries = (log', .error .persistenceError) := by
  induction entries generalizing k log with
  | nil => exact Or.inl ⟨log, rfl, (List.append_nil _).symm⟩
  | cons e es ih =>
    obtain ⟨hi, hes⟩ := h.cons
    have hnone : log.entryAt e.index = none := by
      rw [hi, PersistentLog.entryAt_succ, List.getElem?_eq_none (by omega)]
    rw [appendLoop, hnone]
    dsimp only
    cases ha : log.append e with
    | mk log' result =>
      cases result with
      | unexpectedIndex | invalidEntry | ioError => exact Or.inr ⟨log', rfl⟩
      | appended =>
        have hlog := PersistentLog.log_of_append ha
        rcases ih hes (by rw [hlog]; simp [hk]) with ⟨log₁, hloop, hlog₁⟩ | ⟨log₁, hloop⟩
        · refine Or.inl ⟨log₁, hloop, ?_⟩
          rw [hlog₁, hlog, List.append_assoc, List.singleton_append]
        · exact Or.inr ⟨log₁, hloop⟩

/-- The loop does nothing on entries that the log holds. -/
theorem appendLoop_of_holds {commitIndex k : ℕ} {log : PersistentLog} {entries : List LogEntry}
    (h : Consecutive k entries) (hholds : (log.log.drop k).take entries.length = entries) :
    appendLoop commitIndex log entries = (log, .ok ()) := by
  induction entries generalizing k with
  | nil => rfl
  | cons e es ih =>
    obtain ⟨hi, hes⟩ := h.cons
    have hx : log.log[k]? = some e := getElem?_of_take_drop hholds (i := 0) rfl
    rw [appendLoop, hi, PersistentLog.entryAt_succ, hx]
    dsimp only
    rw [if_pos rfl, if_neg (fun hne => hne rfl)]
    refine ih hes ?_
    rw [List.drop_eq_getElem_cons (List.getElem?_eq_some_iff.1 hx).1, List.length_cons,
      List.take_succ_cons] at hholds
    exact (List.cons.inj hholds).2

/-- **The loop merges.** -/
theorem appendLoop_merges (commitIndex : ℕ) {k : ℕ} {log : PersistentLog} {entries : List LogEntry}
    (h : Consecutive k entries) (hk : k ≤ log.log.length)
    (hlog : ∀ {i e}, log.log[i]? = some e → e.index = i + 1)
    (hcommit : commitIndex ≤ log.log.length) :
    MergeEnd commitIndex log k entries (appendLoop commitIndex log entries) := by
  induction entries generalizing k with
  | nil => exact .merged log (merge_nil _ _).symm rfl (Or.inl rfl)
  | cons e es ih =>
    obtain ⟨hi, hes⟩ := h.cons
    rw [appendLoop, hi, PersistentLog.entryAt_succ]
    cases hx : log.log[k]? with
    | none =>
      have hlen : log.log.length = k := Nat.le_antisymm (List.getElem?_eq_none_iff.1 hx) hk
      have hmerge : merge log.log k (e :: es) = log.log ++ e :: es := by
        rw [merge_cons_of_ne (by simp [hx]), List.take_of_length_le (Nat.le_of_eq hlen)]
      have hend := appendLoop_of_length commitIndex h hlen
      rw [appendLoop, hi, PersistentLog.entryAt_succ, hx] at hend
      dsimp only at hend ⊢
      rcases hend with ⟨log', hloop, hlog'⟩ | ⟨log', hloop⟩
      · rw [hloop]
        refine .merged log' (hlog'.trans hmerge.symm) ?_ (Or.inr (Or.inl ?_))
        · rw [hlog', List.take_append_of_le_length hcommit]
        · rw [List.length_cons, hlen]
          omega
      · rw [hloop]
        exact .failed log'
    | some x =>
      have hlt := (List.getElem?_eq_some_iff.1 hx).1
      dsimp only
      split_ifs with ht hc hle
      · exact .refused _ (by simp) ⟨0, x, e, hx, rfl, Or.inl ⟨ht, hc⟩⟩
      · -- the log holds the entry
        have hxe : x = e := by
          have hindex := hlog hx
          cases x
          cases e
          simp_all
        subst hxe
        have hend := ih hes hlt
        have hmerge : merge log.log k (x :: es) = merge log.log (k + 1) es :=
          merge_cons_of_holds hx
        revert hend
        generalize appendLoop commitIndex log es = r
        rintro (⟨log', hlog', hcommit', hd⟩ | ⟨e, he, hwhy⟩ | ⟨log'⟩)
        · refine .merged log' (hmerge ▸ hlog') hcommit' ?_
          rcases hd with hholds | hlt' | hconflict
          · refine Or.inl ?_
            rw [List.drop_eq_getElem?_toList_append, hx]
            exact congrArg _ hholds
          · refine Or.inr (Or.inl ?_)
            rw [List.length_cons]
            omega
          · exact Or.inr (Or.inr hconflict.cons)
        · exact .refused e he hwhy.cons
        · exact .failed log'
      · exact .refused _ (by simp) ⟨0, x, e, hx, rfl, Or.inr ⟨ht, by omega⟩⟩
      · have hne : log.log[k]? ≠ some e := fun heq => ht (by
          rw [hx] at heq
          rw [Option.some.inj heq])
        cases hcut : log.truncateSuffix (k + 1) with
        | mk log₁ result =>
          cases result with
          | invalidIndex | ioError => exact .failed log₁
          | truncated =>
            have hlog₁ := PersistentLog.log_of_truncateSuffix hcut
            have hlen₁ : log₁.log.length = k := by
              rw [hlog₁, List.length_take]
              omega
            have hend := appendLoop_of_length commitIndex h hlen₁
            rw [appendLoop, hi, PersistentLog.entryAt_succ,
              List.getElem?_eq_none (by omega)] at hend
            dsimp only at hend ⊢
            rcases hend with ⟨log', hloop, hlog'⟩ | ⟨log', hloop⟩
            · rw [hloop]
              refine .merged log' ?_ ?_ (Or.inr (Or.inr ⟨0, x, e, hx, rfl, ht⟩))
              · rw [merge_cons_of_ne hne, hlog', hlog₁]
              · rw [hlog', hlog₁, List.take_append_of_le_length (by rw [List.length_take]; omega),
                  List.take_take, Nat.min_eq_left (by omega)]
            · rw [hloop]
              exact .failed log'

/-! ## The request -/

/-- The record is as it was, or the process has entered a higher term without a vote and has
written that down. -/
def PersistentMetadata.Adopts (metadata : PersistentMetadata) (term : ℕ)
    (metadata' : PersistentMetadata) : Prop :=
  metadata' = metadata ∨ metadata.state.currentTerm < term ∧
    metadata' = { metadata with
      state := ⟨term, none⟩, durable := ⟨term, none⟩, outcomes := metadata.outcomes.tail }

/-- What `advance_term` leaves when it does not fail. -/
theorem PersistentMetadata.advanceTerm_of_ok {metadata metadata' : PersistentMetadata} {term : ℕ}
    {result : PersistentMetadataUpdateResult} (h : metadata.advanceTerm term = (metadata', result))
    (hr : result ≠ .ioError) : metadata'.ioFailed = false ∧ term ≤ metadata'.state.currentTerm ∧
      metadata.Adopts term metadata' := by
  unfold advanceTerm at h
  split_ifs at h with hfailed hlt heq
  · exact absurd (Prod.mk.inj h).2.symm hr
  · obtain rfl := (Prod.mk.inj h).1
    exact ⟨by simpa using hfailed, Nat.le_of_lt hlt, Or.inl rfl⟩
  · obtain rfl := (Prod.mk.inj h).1
    exact ⟨by simpa using hfailed, Nat.le_of_eq heq, Or.inl rfl⟩
  · have hlt : metadata.state.currentTerm < term := by omega
    unfold persist at h
    rw [if_neg (by simp [invalidState])] at h
    cases ho : nextOutcome metadata.outcomes with
    | done =>
      rw [ho] at h
      obtain rfl := (Prod.mk.inj h).1
      exact ⟨by simpa using hfailed, Nat.le_refl _, Or.inr ⟨hlt, rfl⟩⟩
    | failed | uncertain =>
      rw [ho] at h
      exact absurd (Prod.mk.inj h).2.symm hr

/-- How `handle_append_entries` ends on a log that holds what is committed. -/
inductive RequestEnd (metadata : PersistentMetadata) (log : PersistentLog) (commitIndex : ℕ)
    (request : AppendEntries) : AppendOutcome → Prop
  | unpersisted (metadata' : PersistentMetadata)
      (h : (metadata.advanceTerm request.term).2 = .ioError) :
      RequestEnd metadata log commitIndex request
        ⟨metadata', log, commitIndex, .error .persistenceError⟩
  | refused (metadata' : PersistentMetadata) (hm : metadata.Adopts request.term metadata')
      (result : Except AppendEntriesHandleError AppendEntriesReply)
      (hr : ∀ reply, result = .ok reply → reply.success = false)
      (he : result ≠ .error .persistenceError) :
      RequestEnd metadata log commitIndex request ⟨metadata', log, commitIndex, result⟩
  | failed (metadata' : PersistentMetadata) (log' : PersistentLog)
      (hv : validEntries request = true) (hp : previousMismatch log request = false)
      (h : (appendLoop commitIndex log request.entries).2 = .error .persistenceError) :
      RequestEnd metadata log commitIndex request
        ⟨metadata', log', commitIndex, .error .persistenceError⟩
  | merged (metadata' : PersistentMetadata) (hm : metadata'.ioFailed = false)
      (hc : commitIndex ≤ log.lastIndex)
      (ht : metadata'.state.currentTerm = request.term) (h0 : request.term ≠ 0)
      (hv : validEntries request = true) (hp : previousMismatch log request = false)
      (log' : PersistentLog)
      (h : MergeEnd commitIndex log request.prevLogIndex request.entries (log', .ok ())) :
      RequestEnd metadata log commitIndex request
        ⟨metadata', log',
          max commitIndex
            (min request.leaderCommit (request.prevLogIndex + request.entries.length)),
          .ok ⟨request.term, true⟩⟩

/-- The entry before the first new one is in the log. -/
theorem prevLogIndex_le {log : PersistentLog} {request : AppendEntries}
    (h : previousMismatch log request = false) : request.prevLogIndex ≤ log.log.length := by
  cases hp : request.prevLogIndex with
  | zero => exact Nat.zero_le _
  | succ k =>
    cases hx : log.log[k]? with
    | none => simp [previousMismatch, hp, PersistentLog.entryAt_succ, hx] at h
    | some x => exact (List.getElem?_eq_some_iff.1 hx).1

/-- What is compared lies before the new entries. -/
theorem previousMismatch_of_take {log log' : PersistentLog} {request : AppendEntries}
    (h : log'.log.take request.prevLogIndex = log.log.take request.prevLogIndex) :
    previousMismatch log' request = previousMismatch log request := by
  cases hp : request.prevLogIndex with
  | zero => simp [previousMismatch, hp]
  | succ k =>
    have hk : log'.log[k]? = log.log[k]? := by
      have hget := congrArg (fun l => l[k]?) h
      simpa [hp] using hget
    simp only [previousMismatch, hp, PersistentLog.entryAt_succ, hk]

/-- A request whose term has been entered. -/
theorem requestEnd_of_advance {metadata m : PersistentMetadata} {log : PersistentLog}
    (commitIndex : ℕ) {request : AppendEntries} {result : PersistentMetadataUpdateResult}
    (hlog : ∀ {i e}, log.log[i]? = some e → e.index = i + 1)
    (hadvance : metadata.advanceTerm request.term = (m, result)) (hok : result ≠ .ioError) :
    RequestEnd metadata log commitIndex request
      (if request.term = 0 ∨ request.term < m.state.currentTerm then
        ⟨m, log, commitIndex, .ok ⟨m.state.currentTerm, false⟩⟩
      else if validEntries request = false ∨ log.lastIndex < commitIndex then
        ⟨m, log, commitIndex, .error .invalidRequest⟩
      else if previousMismatch log request then
        ⟨m, log, commitIndex, .ok ⟨m.state.currentTerm, false⟩⟩
      else match appendLoop commitIndex log request.entries with
        | (log, .error e) => ⟨m, log, commitIndex, .error e⟩
        | (log, .ok ()) =>
          ⟨m, log, max commitIndex (min request.leaderCommit
            (request.prevLogIndex + request.entries.length)),
            .ok ⟨m.state.currentTerm, true⟩⟩) := by
  obtain ⟨hfailed, hle, hm⟩ := PersistentMetadata.advanceTerm_of_ok hadvance hok
  split_ifs with hstale hvalid hprevious
  · exact .refused m hm _ (fun reply h => by cases h; rfl) (by simp)
  · exact .refused m hm _ (by simp) (by simp)
  · exact .refused m hm _ (fun reply h => by cases h; rfl) (by simp)
  · simp only [not_or, Nat.not_lt, Bool.not_eq_false] at hstale hvalid
    rw [Bool.not_eq_true] at hprevious
    have hterm : m.state.currentTerm = request.term := Nat.le_antisymm hstale.2 hle
    have hentries := (validEntries_fields hvalid.1).2.2
    have hend := appendLoop_merges commitIndex
      (consecutive_of_validEntriesFrom hentries) (prevLogIndex_le hprevious) hlog
      (PersistentLog.length_log log ▸ hvalid.2)
    rw [hterm]
    cases hloop : appendLoop commitIndex log request.entries with
    | mk log' result' =>
      rw [hloop] at hend
      cases hend with
      | merged _ h hc hd =>
        exact .merged m hfailed hvalid.2 hterm hstale.1 hvalid.1 hprevious log'
          (.merged log' h hc hd)
      | refused e he _ => exact .refused m hm _ (by simp) (by simpa using he)
      | failed => exact .failed m log' hvalid.1 hprevious (by rw [hloop])

/-- **The rule of a request**: on a log with its indices in order it is refused with nothing
written, or the log is merged, or the storage has failed. -/
theorem handleAppendEntries_requestEnd (metadata : PersistentMetadata) {log : PersistentLog}
    (commitIndex : ℕ) (request : AppendEntries)
    (hlog : ∀ {i e}, log.log[i]? = some e → e.index = i + 1) :
    RequestEnd metadata log commitIndex request
      (handleAppendEntries metadata log commitIndex request) := by
  unfold handleAppendEntries
  cases hadvance : metadata.advanceTerm request.term with
  | mk m result =>
    cases result with
    | ioError => exact .unpersisted m (by rw [hadvance])
    | persisted | unchanged | staleTerm | voteConflict | invalidTerm =>
      exact requestEnd_of_advance commitIndex hlog hadvance (fun h => by cases h)

/-- **A successful request merges**: up to the previous entry the log is kept, the entries are
where they belong, after a conflict nothing follows them and without one all that followed does,
nothing committed is touched, and the commit index rises to what the request shows to be
committed. The same request changes nothing when it comes again. -/
theorem append_merges {metadata metadata' : PersistentMetadata} {log log' : PersistentLog}
    {commitIndex commitIndex' : ℕ} {request : AppendEntries} {reply : AppendEntriesReply}
    (hlog : ∀ i e, log.log[i]? = some e → e.index = i + 1)
    (h : handleAppendEntries metadata log commitIndex request =
      ⟨metadata', log', commitIndex', .ok reply⟩)
    (hr : reply.success = true) :
    request.prevLogIndex ≤ log.lastIndex ∧
    log'.log.take request.prevLogIndex = log.log.take request.prevLogIndex ∧
    (log'.log.drop request.prevLogIndex).take request.entries.length = request.entries ∧
    (Conflicting log.log request.prevLogIndex request.entries →
      log'.lastIndex = request.prevLogIndex + request.entries.length) ∧
    (¬ Conflicting log.log request.prevLogIndex request.entries →
      log'.log.drop (request.prevLogIndex + request.entries.length) =
        log.log.drop (request.prevLogIndex + request.entries.length)) ∧
    log'.log.take commitIndex = log.log.take commitIndex ∧
    commitIndex' = max commitIndex
      (min request.leaderCommit (request.prevLogIndex + request.entries.length)) ∧
    commitIndex' ≤ log'.lastIndex ∧
    handleAppendEntries metadata' log' commitIndex' request =
      ⟨metadata', log', commitIndex', .ok reply⟩ := by
  have hend := handleAppendEntries_requestEnd metadata commitIndex request (hlog _ _)
  rw [h] at hend
  cases hend with
  | refused _ _ _ hfalse => exact absurd (hfalse _ rfl) (by simp [hr])
  | merged _ hfailed hcommit hterm h0 hvalid hprevious _ hmerge =>
    cases hmerge with
    | merged _ hmerged hkept hd =>
      have hp := prevLogIndex_le hprevious
      have htake : log'.log.take request.prevLogIndex = log.log.take request.prevLogIndex := by
        rw [hmerged, take_merge hp]
      have hholds : (log'.log.drop request.prevLogIndex).take request.entries.length =
          request.entries := by rw [hmerged, merge_holds hp]
      have hlength : request.prevLogIndex + request.entries.length ≤ log'.lastIndex := by
        rw [← PersistentLog.length_log, hmerged]
        exact length_merge hp
      have hcommit' : commitIndex ≤ log'.lastIndex := by
        have hlen := congrArg List.length hkept
        rw [List.length_take, List.length_take, PersistentLog.length_log,
          PersistentLog.length_log, Nat.min_eq_left hcommit] at hlen
        omega
      refine ⟨PersistentLog.length_log log ▸ hp, htake, hholds, fun hconflict => ?_,
        fun hfree => ?_, hkept, rfl, by omega, ?_⟩
      · -- a log in conflict does not hold the entries
        rw [← PersistentLog.length_log, hmerged]
        exact length_merge_of_ne hp fun hold => not_conflicting_of_holds hold hconflict
      · rw [hmerged]
        exact drop_merge hp (hd.imp_right fun h => h.resolve_right hfree)
      · have hentries : Consecutive request.prevLogIndex request.entries :=
          consecutive_of_validEntriesFrom (validEntries_fields hvalid).2.2
        have hle : ¬ log'.lastIndex < max commitIndex
            (min request.leaderCommit (request.prevLogIndex + request.entries.length)) := by omega
        have hunchanged : metadata'.advanceTerm request.term = (metadata', .unchanged) := by
          simp [PersistentMetadata.advanceTerm, hfailed, hterm]
        simp [handleAppendEntries, hunchanged, hterm, h0, hvalid, hle,
          previousMismatch_of_take htake, hprevious, appendLoop_of_holds hentries hholds]

/-- A log of three entries that a leader of a later term cuts after the first. -/
def divergedLog : PersistentLog := .openFrom [⟨1, 1, {}⟩, ⟨2, 1, {}⟩, ⟨3, 1, {}⟩]

def repairRequest : AppendEntries := ⟨2, 1, 1, 1, [⟨2, 2, {}⟩], 2, 0⟩

theorem append_merges_diverged :
    (handleAppendEntries {} divergedLog 1 repairRequest).log.lastIndex = 2 ∧
      (handleAppendEntries {} divergedLog 1 repairRequest).commitIndex = 2 := by
  have hindex : ∀ i e, divergedLog.log[i]? = some e → e.index = i + 1 := by
    intro i e he
    match i with
    | 0 | 1 | 2 => exact Option.some.inj he ▸ rfl
    | i + 3 => cases he
  have hmerges := @append_merges {} _ divergedLog _ 1 _ repairRequest _ hindex rfl rfl
  exact ⟨hmerges.2.2.2.1 ⟨0, ⟨2, 1, {}⟩, ⟨2, 2, {}⟩, rfl, rfl, by decide⟩, hmerges.2.2.2.2.2.2.1⟩

/-! ## Working storage -/

/-- The store takes updates, and none will fail. -/
structure PersistentMetadata.Working (metadata : PersistentMetadata) : Prop where
  ioFailed : metadata.ioFailed = false
  outcomes : metadata.outcomes = []

theorem PersistentMetadata.Working.advanceTerm {metadata : PersistentMetadata}
    (h : metadata.Working) (term : ℕ) : (metadata.advanceTerm term).2 ≠ .ioError := by
  unfold PersistentMetadata.advanceTerm
  split_ifs with hfailed hlt heq
  · rw [h.ioFailed] at hfailed
    cases hfailed
  · simp
  · simp
  · simp [persist, invalidState, h.outcomes]

/-- No write of the loop has failed. -/
structure LoopWorks (r : PersistentLog × Except AppendEntriesHandleError Unit) : Prop where
  result : r.2 ≠ .error .persistenceError
  working : r.1.Working
  packed : r.1.Packed

/-- The append of both branches of the loop. -/
theorem LoopWorks.append {commitIndex k : ℕ} {log : PersistentLog} {e : LogEntry}
    {es : List LogEntry} (hw : log.Working) (hpacked : log.Packed) (hlen : log.log.length = k)
    (hindex : e.index = k + 1) (he : e.Encodable)
    (hroom : log.fileSize + (PersistentLog.recordSize e + (es.map PersistentLog.recordSize).sum) ≤
      offMax)
    (ih : ∀ {log' : PersistentLog}, k + 1 ≤ log'.log.length → log'.Working → log'.Packed →
      log'.fileSize + (es.map PersistentLog.recordSize).sum ≤ offMax →
        LoopWorks (appendLoop commitIndex log' es)) :
    LoopWorks (match log.append e with
      | (log, .appended) => appendLoop commitIndex log es
      | (log, _) => (log, .error .persistenceError)) := by
  obtain ⟨log', happend, hw', hlog', hsize⟩ := hw.append
    (by rw [hindex, ← PersistentLog.length_log, hlen]) he (by omega)
  have hpacked' := hpacked.append e
  rw [happend] at hpacked' ⊢
  exact ih (by simp [hlog', hlen]) hw' hpacked' (by omega)

/-- The loop has room for the entries wherever it starts to write them. -/
theorem appendLoop_working {commitIndex k : ℕ} {log : PersistentLog} {entries : List LogEntry}
    (h : Consecutive k entries) (hk : k ≤ log.log.length) (hw : log.Working) (hpacked : log.Packed)
    (hroom : log.fileSize + (entries.map PersistentLog.recordSize).sum ≤ offMax) :
    LoopWorks (appendLoop commitIndex log entries) := by
  induction entries generalizing k log with
  | nil => exact ⟨by simp [appendLoop], hw, hpacked⟩
  | cons e es ih =>
    obtain ⟨hi, hes⟩ := h.cons
    rw [List.map_cons, List.sum_cons] at hroom
    have he := (h (i := 0) rfl).2
    rw [appendLoop, hi, PersistentLog.entryAt_succ]
    cases hx : log.log[k]? with
    | none =>
      have hlen := Nat.le_antisymm (List.getElem?_eq_none_iff.1 hx) hk
      exact .append hw hpacked hlen hi he hroom (ih hes)
    | some x =>
      have hlt := (List.getElem?_eq_some_iff.1 hx).1
      dsimp only
      split_ifs
      · exact ⟨by simp, hw, hpacked⟩
      · exact ih hes hlt hw hpacked (by omega)
      · exact ⟨by simp, hw, hpacked⟩
      · rw [PersistentLog.length_log] at hlt
        obtain ⟨log', hcut, hw', hlog', hsize⟩ := hw.truncateSuffix hlt
        have hpacked' := hpacked.truncateSuffix (k + 1)
        rw [hcut] at hpacked' ⊢
        have hsmaller : log'.fileSize ≤ log.fileSize := by
          rw [hsize, hpacked.byteOffset hlt, hpacked.fileSize]
          have hsum := congrArg (fun l => (l.map PersistentLog.recordSize).sum)
            (List.take_append_drop k log.log)
          simp only [List.map_append, List.sum_append] at hsum
          omega
        refine .append hw' hpacked' ?_ hi he (by omega) (ih hes)
        rw [hlog', List.length_take, PersistentLog.length_log]
        omega

/-- A request that is not followed: the reply says so, or there is none. -/
def Refused : Except AppendEntriesHandleError AppendEntriesReply → Prop
  | .ok reply => reply.success = false
  | .error e => e = .invalidRequest ∨ e = .committedConflict

/-- **A request that is refused leaves no trace in the log**: what is committed stays as well, and
the record of term and vote changes only when the process enters the request's term. With storage
that works and room for the entries no write fails, so the log is as it was or holds the whole
request. -/
theorem refused_no_trace {metadata : PersistentMetadata} {log : PersistentLog} {commitIndex : ℕ}
    {request : AppendEntries} (hlog : log.Built) :
    (Refused (handleAppendEntries metadata log commitIndex request).result →
      (handleAppendEntries metadata log commitIndex request).log = log ∧
      (handleAppendEntries metadata log commitIndex request).commitIndex = commitIndex ∧
      metadata.Adopts request.term
        (handleAppendEntries metadata log commitIndex request).metadata) ∧
    (metadata.Working → log.Working →
      log.fileSize + (request.entries.map PersistentLog.recordSize).sum ≤ offMax →
      (handleAppendEntries metadata log commitIndex request).result ≠ .error .persistenceError ∧
      ((handleAppendEntries metadata log commitIndex request).log = log ∨
        (handleAppendEntries metadata log commitIndex request).log.log =
          merge log.log request.prevLogIndex request.entries)) := by
  have hend := handleAppendEntries_requestEnd metadata commitIndex request hlog.sequential.1.index
  refine ⟨fun hrefused => ?_, fun hm hw hroom => ?_⟩
  · revert hrefused hend
    generalize handleAppendEntries metadata log commitIndex request = outcome
    rintro (_ | ⟨m, hm, result, hfalse, he⟩ | _ | _) hrefused
    · simp [Refused] at hrefused
    · exact ⟨rfl, rfl, hm⟩
    · simp [Refused] at hrefused
    · simp [Refused] at hrefused
  · have hpacked := hlog.packed
    revert hend
    generalize handleAppendEntries metadata log commitIndex request = outcome
    rintro (⟨m, h⟩ | ⟨m, -, result, -, he⟩ | ⟨m, log', hv, hp, h⟩ | ⟨m, -, -, -, -, -, -, log', h⟩)
    · exact absurd h (hm.advanceTerm request.term)
    · exact ⟨he, Or.inl rfl⟩
    · exact absurd h (appendLoop_working
        (consecutive_of_validEntriesFrom (validEntries_fields hv).2.2) (prevLogIndex_le hp)
        hw hpacked hroom).result
    · cases h with
      | merged _ h => exact ⟨by simp, Or.inr h⟩

/-- A leader of a later term that would cut what is committed is refused. -/
theorem refused_no_trace_committed :
    (handleAppendEntries {} divergedLog 2 repairRequest).result = .error .committedConflict ∧
      (handleAppendEntries {} divergedLog 2 repairRequest).log = divergedLog ∧
      (handleAppendEntries {} divergedLog 2 repairRequest).result ≠ .error .persistenceError := by
  have hbuilt : divergedLog.Built :=
    .reopened ((((PersistentLog.Built.opened []).append ⟨1, 1, {}⟩).append ⟨2, 1, {}⟩).append
      ⟨3, 1, {}⟩) []
  have hrefused : _ ∧ _ := @refused_no_trace {} _ 2 repairRequest hbuilt
  refine ⟨rfl, (hrefused.1 (Or.inr rfl)).1, ?_⟩
  exact (hrefused.2 ⟨rfl, rfl⟩ ⟨rfl, rfl⟩ (by decide)).1

end DistributedKV
