import DistributedKV.Raft.NodeInvariant

/-!
# Requests that are cut from a log

A leader cuts its requests from its own log, so they are valid, and a follower that holds what
comes before the entries does not reject them.
-/

namespace DistributedKV

/-- The request is a part of the log, or a probe. -/
structure AppendEntries.CutFrom (request : AppendEntries) (L : List LogEntry) : Prop where
  prev_le : request.prevLogIndex ≤ L.length
  prevTerm : request.prevLogTerm = PersistentLog.termAt L request.prevLogIndex
  entries : request.entries <+: L.drop request.prevLogIndex
  probe : request.readContext ≠ 0 → request.prevLogIndex = 0 ∧ request.entries = []

theorem getElem?_of_prefix_drop {L es : List LogEntry} {e : LogEntry} {k : ℕ}
    (h : e :: es <+: L.drop k) : L[k]? = some e ∧ es <+: L.drop (k + 1) := by
  obtain ⟨x, hx⟩ := h
  have he : L[k]? = some e := by
    rw [← Nat.add_zero k, ← List.getElem?_drop, ← hx]
    rfl
  refine ⟨he, x, ?_⟩
  rw [← List.drop_drop, ← hx]
  rfl

/-- The term before a position does not exceed the term there. -/
theorem LogInvariant.termAt_le {L : List LogEntry} {T k : ℕ} {e : LogEntry} (h : LogInvariant L T)
    (he : L[k]? = some e) : PersistentLog.termAt L k ≤ e.term := by
  cases k with
  | zero => exact Nat.zero_le _
  | succ k =>
    obtain ⟨hk, rfl⟩ := List.getElem?_eq_some_iff.1 he
    have hk' : k < L.length := Nat.lt_of_succ_lt hk
    rw [PersistentLog.termAt_succ (List.getElem?_eq_getElem hk')]
    exact List.pairwise_iff_getElem.1 h.sorted k (k + 1) hk' hk (Nat.lt_succ_self k)

theorem validEntriesFrom_of_log {L es : List LogEntry} {T k : ℕ} (h : LogInvariant L T)
    (hes : es <+: L.drop k) : validEntriesFrom T k (PersistentLog.termAt L k) es = true := by
  induction es generalizing k with
  | nil => rfl
  | cons e es ih =>
    obtain ⟨he, hrest⟩ := getElem?_of_prefix_drop hes
    have hmem := List.mem_of_getElem? he
    have hle := h.termAt_le he
    have hT := h.term_le e hmem
    rw [validEntriesFrom, if_neg]
    · rw [← PersistentLog.termAt_succ he]
      exact ih hrest
    · simp only [not_or, not_lt, not_not, ne_eq]
      exact ⟨h.index he, hle, hT, h.encodable e hmem⟩

namespace AppendEntries.CutFrom

variable {request : AppendEntries} {L : List LogEntry}

theorem length_le (h : request.CutFrom L) :
    request.prevLogIndex + request.entries.length ≤ L.length := by
  have hlen := h.entries.length_le
  rw [List.length_drop] at hlen
  have hprev := h.prev_le
  omega

theorem validEntries (h : request.CutFrom L) (hlog : LogInvariant L request.term)
    (hlen : L.length ≤ uint64Max) : validEntries request = true := by
  have hfits := h.length_le
  have hprev : (request.prevLogIndex = 0 ↔ request.prevLogTerm = 0) ∧
      request.prevLogTerm ≤ request.term := by
    rw [h.prevTerm]
    cases hk : request.prevLogIndex with
    | zero => simp
    | succ k =>
      have hle := h.prev_le
      have he : L[k]? = some L[k] := List.getElem?_eq_getElem (by omega)
      have hmem := List.mem_of_getElem? he
      rw [PersistentLog.termAt_succ he]
      exact ⟨iff_of_false (Nat.succ_ne_zero k) (hlog.encodable _ hmem).fields.2.1,
        hlog.term_le _ hmem⟩
  rw [DistributedKV.validEntries, if_neg]
  · rw [h.prevTerm]
    exact validEntriesFrom_of_log hlog h.entries
  · simp only [not_or, bne_iff_ne, ne_eq, not_not, decide_eq_decide, not_lt]
    refine ⟨hprev.1, hprev.2, fun hr => ?_, by omega⟩
    have := h.probe hr.1
    exact hr.2.elim (fun h => h this.1) fun h => h this.2

/-- A node that holds the entries before a request's does not reject it. -/
theorem previousMismatch_eq_false (h : request.CutFrom L) {log : PersistentLog}
    (hp : L.take request.prevLogIndex <+: log.log) : previousMismatch log request = false := by
  cases hk : request.prevLogIndex with
  | zero => simp [previousMismatch, hk]
  | succ k =>
    have hle := h.prev_le
    rw [hk] at hp hle
    have he : L[k]? = some L[k] := List.getElem?_eq_getElem (by omega)
    obtain ⟨rest, hrest⟩ := hp
    have hlog : log.log[k]? = some L[k] := by
      rw [← hrest, List.getElem?_append_left (by rw [List.length_take]; omega),
        List.getElem?_take_of_lt (Nat.lt_succ_self k), he]
    rw [previousMismatch, hk, PersistentLog.entryAt_succ, hlog, h.prevTerm, hk,
      PersistentLog.termAt_succ he]
    simp

end AppendEntries.CutFrom

end DistributedKV
