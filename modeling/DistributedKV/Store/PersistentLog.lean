import DistributedKV.Store.Codec
import DistributedKV.Store.PersistentMetadata

/-!
# The log store

`persistent_log.cpp`, at the level of entries: `durable` is the list of entries that a reopen
recovers from the file, and `entries` are the ones the process remembers, with their byte offsets.
As in the term and vote store, `outcomes` says what becomes of the coming writes.
-/

namespace DistributedKV

structure StoredEntry where
  logEntry : LogEntry
  byteOffset : ℕ
  deriving DecidableEq

inductive PersistentLogAppendResult
  | appended
  | unexpectedIndex
  | invalidEntry
  | ioError
  deriving DecidableEq, Repr

inductive PersistentLogTruncateResult
  | truncated
  | invalidIndex
  | ioError
  deriving DecidableEq, Repr

structure PersistentLog where
  entries : List StoredEntry := []
  fileSize : ℕ := 0
  ioFailed : Bool := false
  durable : List LogEntry := []
  outcomes : List WriteOutcome := []
  deriving DecidableEq

namespace PersistentLog

/-- The length of an entry's record. -/
def recordSize (entry : LogEntry) : ℕ :=
  match encodeLogEntry entry with
  | .ok bytes => bytes.length
  | .error _ => 0

theorem recordSize_eq {e : LogEntry} {record : Bytes} (he : encodeLogEntry e = .ok record) :
    recordSize e = record.length := by
  rw [recordSize, he]

/-- The entries of a file, with the offsets of their records. -/
def storedEntries : ℕ → List LogEntry → List StoredEntry
  | _, [] => []
  | offset, e :: es => ⟨e, offset⟩ :: storedEntries (offset + recordSize e) es

/-- `PersistentLog::open` on a file that holds the records of `durable`. -/
def openFrom (durable : List LogEntry) : PersistentLog where
  entries := storedEntries 0 durable
  fileSize := (durable.map recordSize).sum
  durable := durable

/-- The entries in memory, without their offsets. -/
def log (store : PersistentLog) : List LogEntry := store.entries.map StoredEntry.logEntry

def lastIndex (store : PersistentLog) : ℕ := store.entries.length

def lastTerm (store : PersistentLog) : ℕ :=
  match store.entries.getLast? with
  | none => 0
  | some stored => stored.logEntry.term

def entryAt (store : PersistentLog) (index : ℕ) : Option LogEntry :=
  if index = 0 ∨ store.lastIndex < index then none
  else store.entries[index - 1]?.map StoredEntry.logEntry

def append (store : PersistentLog) (entry : LogEntry) :
    PersistentLog × PersistentLogAppendResult :=
  if store.ioFailed then (store, .ioError)
  else if entry.index ≠ store.lastIndex + 1 then (store, .unexpectedIndex)
  else match encodeLogEntry entry with
    | .error _ => (store, .invalidEntry)
    | .ok bytes =>
      if offMax < store.fileSize ∨ offMax - store.fileSize < bytes.length then (store, .ioError)
      else
        let rest := { store with outcomes := store.outcomes.tail }
        match nextOutcome store.outcomes with
        | .done =>
          ({ rest with
              entries := store.entries ++ [⟨entry, store.fileSize⟩]
              fileSize := store.fileSize + bytes.length
              durable := store.durable ++ [entry] }, .appended)
        | .failed => (rest, .ioError)
        | .uncertain reached =>
          ({ rest with
              ioFailed := true
              durable := if reached then store.durable ++ [entry] else store.durable }, .ioError)

def truncateSuffix (store : PersistentLog) (firstIndexToRemove : ℕ) :
    PersistentLog × PersistentLogTruncateResult :=
  if store.ioFailed then (store, .ioError)
  else
    let nextIndex := store.lastIndex + 1
    if firstIndexToRemove = 0 ∨ nextIndex < firstIndexToRemove then (store, .invalidIndex)
    else if firstIndexToRemove = nextIndex then (store, .truncated)
    else
      let kept := firstIndexToRemove - 1
      let rest := { store with outcomes := store.outcomes.tail }
      match nextOutcome store.outcomes with
      | .done =>
        ({ rest with
            entries := store.entries.take kept
            fileSize := (store.entries[kept]?.map StoredEntry.byteOffset).getD 0
            durable := store.durable.take kept }, .truncated)
      | .failed => ({ rest with ioFailed := true }, .ioError)
      | .uncertain reached =>
        ({ rest with
            ioFailed := true
            durable := if reached then store.durable.take kept else store.durable }, .ioError)

/-! ## Reading -/

@[simp] theorem length_log (store : PersistentLog) : store.log.length = store.lastIndex := by
  simp [log, lastIndex]

@[simp] theorem map_storedEntries (offset : ℕ) (es : List LogEntry) :
    (storedEntries offset es).map StoredEntry.logEntry = es := by
  induction es generalizing offset with
  | nil => rfl
  | cons e es ih => simp [storedEntries, ih]

theorem getElem?_storedEntries (offset : ℕ) (es : List LogEntry) (k : ℕ) :
    (storedEntries offset es)[k]? =
      es[k]?.map fun e => ⟨e, offset + ((es.take k).map recordSize).sum⟩ := by
  induction es generalizing offset k with
  | nil => simp [storedEntries]
  | cons e es ih =>
    cases k with
    | zero => simp [storedEntries]
    | succ k =>
      rw [storedEntries, List.getElem?_cons_succ, List.getElem?_cons_succ, ih,
        List.take_succ_cons, List.map_cons, List.sum_cons, Nat.add_assoc]

theorem storedEntries_append (offset : ℕ) (es es' : List LogEntry) :
    storedEntries offset (es ++ es') =
      storedEntries offset es ++ storedEntries (offset + (es.map recordSize).sum) es' := by
  induction es generalizing offset with
  | nil => simp [storedEntries]
  | cons e es ih =>
    rw [List.cons_append, storedEntries, ih, storedEntries, List.cons_append, List.map_cons,
      List.sum_cons, Nat.add_assoc]

theorem take_storedEntries (offset : ℕ) (es : List LogEntry) (k : ℕ) :
    (storedEntries offset es).take k = storedEntries offset (es.take k) := by
  induction es generalizing offset k with
  | nil => simp [storedEntries]
  | cons e es ih => cases k <;> simp [storedEntries, ih]

@[simp] theorem log_openFrom (es : List LogEntry) : (openFrom es).log = es :=
  map_storedEntries 0 es

theorem entryAt_eq (store : PersistentLog) (index : ℕ) :
    store.entryAt index = if index = 0 then none else store.log[index - 1]? := by
  unfold entryAt
  by_cases h0 : index = 0
  · simp [h0]
  · by_cases h : store.lastIndex < index
    · have : store.log.length ≤ index - 1 := by rw [length_log]; omega
      simp [h0, h, List.getElem?_eq_none this]
    · simp [h0, h, log]

theorem entryAt_succ (store : PersistentLog) (i : ℕ) : store.entryAt (i + 1) = store.log[i]? := by
  simp [entryAt_eq]

@[simp] theorem entryAt_zero (store : PersistentLog) : store.entryAt 0 = none := by
  simp [entryAt_eq]

theorem mem_log_of_entryAt {store : PersistentLog} {index : ℕ} {e : LogEntry}
    (h : store.entryAt index = some e) : e ∈ store.log := by
  rw [entryAt_eq] at h
  split_ifs at h
  exact List.mem_of_getElem? h

/-- The term of the last entry, zero for an empty log. -/
def lastTermOf (log : List LogEntry) : ℕ := (log.getLast?.map LogEntry.term).getD 0

theorem lastTerm_eq (store : PersistentLog) : store.lastTerm = lastTermOf store.log := by
  unfold lastTerm lastTermOf log
  rw [List.getLast?_map]
  cases store.entries.getLast? <;> rfl

/-- The term of the entry at an index, zero at index zero and beyond the end. -/
def termAt (log : List LogEntry) (index : ℕ) : ℕ :=
  if index = 0 then 0 else (log[index - 1]?.map LogEntry.term).getD 0

@[simp] theorem termAt_zero (log : List LogEntry) : termAt log 0 = 0 := rfl

theorem termAt_succ {log : List LogEntry} {k : ℕ} {e : LogEntry} (h : log[k]? = some e) :
    termAt log (k + 1) = e.term := by
  simp [termAt, h]

theorem termAt_take {log : List LogEntry} {j k : ℕ} (h : j ≤ k) :
    termAt (log.take k) j = termAt log j := by
  cases j with
  | zero => rfl
  | succ j => simp [termAt, show j < k by omega]

theorem termAt_append {log : List LogEntry} {k : ℕ} (h : k ≤ log.length) (es : List LogEntry) :
    termAt (log ++ es) k = termAt log k := by
  cases k with
  | zero => rfl
  | succ k => simp [termAt, List.getElem?_append_left (show k < log.length by omega)]

/-! ## What a write can do -/

/-- The process remembers what a reopen would recover, and the store takes writes. -/
structure Synced (store : PersistentLog) : Prop where
  ioFailed : store.ioFailed = false
  durable : store.durable = store.log

theorem synced_openFrom (es : List LogEntry) : (openFrom es).Synced :=
  ⟨rfl, (log_openFrom es).symm⟩

/-- A write of a synced store towards the entries `next` fails: memory is as it was, and the disk
holds the old entries or `next`. -/
structure Failed (store : PersistentLog) (next : List LogEntry) (store' : PersistentLog) :
    Prop where
  log : store'.log = store.log
  durable : store'.durable = store.log ∨ store'.durable = next

theorem failed_self {store : PersistentLog} (hs : store.Synced) (next : List LogEntry) :
    Failed store next store := ⟨rfl, Or.inl hs.durable⟩

/-- The four things `append` can do to a synced store. -/
theorem append_cases {store : PersistentLog} (hs : store.Synced) (entry : LogEntry) :
    (entry.index ≠ store.lastIndex + 1 ∧ store.append entry = (store, .unexpectedIndex)) ∨
    (¬ entry.Encodable ∧ store.append entry = (store, .invalidEntry)) ∨
    (entry.index = store.lastIndex + 1 ∧ entry.Encodable ∧
      ((∃ store', store.append entry = (store', .appended) ∧ store'.Synced ∧
          store'.log = store.log ++ [entry]) ∨
        ∃ store', store.append entry = (store', .ioError) ∧
          Failed store (store.log ++ [entry]) store')) := by
  unfold append
  simp only [hs.ioFailed, Bool.false_eq_true, if_false]
  by_cases hi : entry.index = store.lastIndex + 1
  · rw [if_neg (by simpa using hi)]
    cases he : encodeLogEntry entry with
    | error e =>
      refine Or.inr (Or.inl ⟨?_, rfl⟩)
      simp [LogEntry.Encodable, he, Except.isOk, Except.toBool]
    | ok bytes =>
      refine Or.inr (Or.inr ⟨hi, .of_eq_ok he, ?_⟩)
      dsimp only
      split_ifs with hsize
      · exact Or.inr ⟨_, rfl, failed_self hs _⟩
      · cases nextOutcome store.outcomes with
        | done =>
          refine Or.inl ⟨_, rfl, ⟨rfl, ?_⟩, by simp [log]⟩
          simp [log, hs.durable]
        | failed => exact Or.inr ⟨_, rfl, rfl, Or.inl hs.durable⟩
        | uncertain reached =>
          refine Or.inr ⟨_, rfl, rfl, ?_⟩
          cases reached
          · exact Or.inl hs.durable
          · exact Or.inr (by simp [hs.durable])
  · exact Or.inl ⟨hi, by rw [if_pos hi]⟩

/-- `truncate_suffix` of a synced store inside the log. -/
theorem truncateSuffix_cases {store : PersistentLog} (hs : store.Synced) {k : ℕ}
    (hk : k < store.lastIndex) :
    (∃ store', store.truncateSuffix (k + 1) = (store', .truncated) ∧ store'.Synced ∧
        store'.log = store.log.take k) ∨
      ∃ store', store.truncateSuffix (k + 1) = (store', .ioError) ∧
        Failed store (store.log.take k) store' := by
  unfold truncateSuffix
  simp only [hs.ioFailed, Bool.false_eq_true, if_false]
  rw [if_neg (by omega), if_neg (by omega)]
  cases nextOutcome store.outcomes with
  | done =>
    refine Or.inl ⟨_, rfl, ⟨rfl, ?_⟩, by simp [log, List.map_take]⟩
    simp [log, hs.durable, List.map_take]
  | failed => exact Or.inr ⟨_, rfl, rfl, Or.inl hs.durable⟩
  | uncertain reached =>
    refine Or.inr ⟨_, rfl, rfl, ?_⟩
    cases reached
    · exact Or.inl hs.durable
    · exact Or.inr (by simp [hs.durable])

/-! ## The stores that can be built -/

/-- A store opened on an empty file, or on what an earlier process has left, with appends and
truncations after that, whatever becomes of the writes. -/
inductive Built : PersistentLog → Prop
  | opened (outcomes : List WriteOutcome) : Built { openFrom [] with outcomes }
  | reopened {store : PersistentLog} (h : Built store) (outcomes : List WriteOutcome) :
      Built { openFrom store.durable with outcomes }
  | append {store : PersistentLog} (h : Built store) (entry : LogEntry) :
      Built (store.append entry).1
  | truncated {store : PersistentLog} (h : Built store) (firstIndexToRemove : ℕ) :
      Built (store.truncateSuffix firstIndexToRemove).1

/-- Consecutive indices, and entries that can be encoded. -/
structure Sequential (log : List LogEntry) : Prop where
  index : ∀ {i e}, log[i]? = some e → e.index = i + 1
  encodable : ∀ e ∈ log, e.Encodable

theorem Sequential.nil : Sequential [] := ⟨by simp, by simp⟩

theorem Sequential.take {log : List LogEntry} (h : Sequential log) (k : ℕ) :
    Sequential (log.take k) where
  index he := by
    rw [List.getElem?_take] at he
    split_ifs at he
    exact h.index he
  encodable e he := h.encodable e (List.mem_of_mem_take he)

theorem Sequential.concat {log : List LogEntry} (h : Sequential log) {entry : LogEntry}
    (hi : entry.index = log.length + 1) (he : entry.Encodable) : Sequential (log ++ [entry]) where
  index {i e} hx := by
    rcases Nat.lt_or_ge i log.length with hlt | hge
    · rw [List.getElem?_append_left hlt] at hx
      exact h.index hx
    · rw [List.getElem?_append_right hge, List.getElem?_singleton] at hx
      split_ifs at hx with h0
      rw [← Option.some.inj hx, hi]
      omega
  encodable e hx := by
    rcases List.mem_append.1 hx with hx | hx
    · exact h.encodable e hx
    · rwa [List.mem_singleton.1 hx]

theorem Sequential.wellFormed {log : List LogEntry} (h : Sequential log) :
    ∀ e ∈ log, e.command.WellFormed := fun e he => (h.encodable e he).fields.2.2

/-- **Every store** that can be built holds its entries in sequence, and on disk too. -/
theorem Built.sequential {store : PersistentLog} (h : Built store) :
    Sequential store.log ∧ Sequential store.durable ∧
      (store.ioFailed = false → store.durable = store.log) := by
  induction h with
  | opened => exact ⟨.nil, .nil, fun _ => rfl⟩
  | @reopened store h outcomes ih =>
    have hlog : (openFrom store.durable).log = store.durable := log_openFrom _
    exact ⟨hlog.symm ▸ ih.2.1, ih.2.1, fun _ => hlog.symm⟩
  | @append store h entry ih =>
    obtain ⟨hlog, hdurable, heq⟩ := ih
    unfold PersistentLog.append
    split_ifs with hfailed hindex
    · exact ⟨hlog, hdurable, heq⟩
    · exact ⟨hlog, hdurable, heq⟩
    rw [Bool.not_eq_true] at hfailed
    rw [not_not, ← length_log] at hindex
    cases he : encodeLogEntry entry with
    | error e => exact ⟨hlog, hdurable, heq⟩
    | ok bytes =>
      have hnext := hlog.concat hindex (.of_eq_ok he)
      dsimp only
      split_ifs with hsize
      · exact ⟨hlog, hdurable, heq⟩
      cases nextOutcome store.outcomes with
      | done =>
        rw [← heq hfailed] at hnext
        have hmem : (store.entries ++ [StoredEntry.mk entry store.fileSize]).map
            StoredEntry.logEntry = store.durable ++ [entry] := by simp [heq hfailed, log]
        exact ⟨hmem.symm ▸ hnext, hnext, fun _ => hmem.symm⟩
      | failed => exact ⟨hlog, hdurable, fun _ => heq hfailed⟩
      | uncertain reached =>
        refine ⟨hlog, ?_, fun h => by cases h⟩
        cases reached
        · exact hdurable
        · exact heq hfailed ▸ hnext
  | @truncated store h k ih =>
    obtain ⟨hlog, hdurable, heq⟩ := ih
    unfold truncateSuffix
    dsimp only
    split_ifs with hfailed hindex hnext
    · exact ⟨hlog, hdurable, heq⟩
    · exact ⟨hlog, hdurable, heq⟩
    · exact ⟨hlog, hdurable, heq⟩
    rw [Bool.not_eq_true] at hfailed
    cases nextOutcome store.outcomes with
    | done =>
      have hmem : (store.entries.take (k - 1)).map StoredEntry.logEntry =
          store.durable.take (k - 1) := by rw [heq hfailed, log, List.map_take]
      exact ⟨hmem.symm ▸ hdurable.take _, hdurable.take _, fun _ => hmem.symm⟩
    | failed => exact ⟨hlog, hdurable, fun h => by cases h⟩
    | uncertain reached =>
      refine ⟨hlog, ?_, fun h => by cases h⟩
      cases reached
      · exact hdurable
      · exact hdurable.take _

/-! ## Where the records lie -/

/-- The records lie one after the other from the start of the file to its end. -/
structure Packed (store : PersistentLog) : Prop where
  entries : store.entries = storedEntries 0 store.log
  fileSize : store.fileSize = (store.log.map recordSize).sum

theorem packed_openFrom (es : List LogEntry) : (openFrom es).Packed where
  entries := by rw [log_openFrom, openFrom]
  fileSize := by rw [log_openFrom, openFrom]

theorem Packed.append {store : PersistentLog} (h : store.Packed) (entry : LogEntry) :
    (store.append entry).1.Packed := by
  unfold PersistentLog.append
  split_ifs
  · exact h
  · exact h
  cases he : encodeLogEntry entry with
  | error e => exact h
  | ok bytes =>
    dsimp only
    split_ifs
    · exact h
    cases nextOutcome store.outcomes with
    | done =>
      have hlog : (store.entries ++ [StoredEntry.mk entry store.fileSize]).map
          StoredEntry.logEntry = store.log ++ [entry] := by simp [log]
      refine ⟨?_, ?_⟩
      · rw [log, hlog, storedEntries_append, ← h.entries, Nat.zero_add, ← h.fileSize]
        rfl
      · rw [log, hlog, List.map_append, List.sum_append, ← h.fileSize]
        simp [recordSize_eq he]
    | failed | uncertain => exact ⟨h.entries, h.fileSize⟩

/-- Where a packed log is cut. -/
theorem Packed.byteOffset {store : PersistentLog} (h : store.Packed) {k : ℕ}
    (hk : k < store.lastIndex) : (store.entries[k]?.map StoredEntry.byteOffset).getD 0 =
      ((store.log.take k).map recordSize).sum := by
  rw [← length_log] at hk
  rw [h.entries, getElem?_storedEntries, List.getElem?_eq_getElem hk]
  exact Nat.zero_add _

theorem Packed.truncateSuffix {store : PersistentLog} (h : store.Packed) (index : ℕ) :
    (store.truncateSuffix index).1.Packed := by
  unfold PersistentLog.truncateSuffix
  dsimp only
  split_ifs
  · exact h
  · exact h
  · exact h
  cases nextOutcome store.outcomes with
  | done =>
    have hlog : (store.entries.take (index - 1)).map StoredEntry.logEntry =
        store.log.take (index - 1) := by rw [log, List.map_take]
    refine ⟨?_, ?_⟩
    · rw [log, hlog, h.entries, take_storedEntries]
    · rw [log, hlog]
      exact h.byteOffset (by omega)
  | failed | uncertain => exact ⟨h.entries, h.fileSize⟩

theorem Built.packed {store : PersistentLog} (h : Built store) : store.Packed := by
  induction h with
  | opened => exact ⟨(packed_openFrom []).entries, (packed_openFrom []).fileSize⟩
  | @reopened store =>
    have hopen := packed_openFrom store.durable
    exact ⟨hopen.entries, hopen.fileSize⟩
  | append _ entry ih => exact ih.append entry
  | truncated _ k ih => exact ih.truncateSuffix k

/-! ## Storage that works -/

/-- The store takes writes, and none will fail. -/
structure Working (store : PersistentLog) : Prop where
  ioFailed : store.ioFailed = false
  outcomes : store.outcomes = []

/-- `append` to a store that works, with room in the file. -/
theorem Working.append {store : PersistentLog} (h : store.Working) {entry : LogEntry}
    (hi : entry.index = store.lastIndex + 1) (he : entry.Encodable)
    (hroom : store.fileSize + recordSize entry ≤ offMax) :
    ∃ store', store.append entry = (store', .appended) ∧ store'.Working ∧
      store'.log = store.log ++ [entry] ∧
      store'.fileSize = store.fileSize + recordSize entry := by
  unfold PersistentLog.append
  obtain ⟨bytes, he⟩ := he.exists_bytes
  have hsize := recordSize_eq he
  rw [h.ioFailed, if_neg Bool.false_ne_true, if_neg (not_not.2 hi), he]
  dsimp only
  rw [if_neg (by omega), h.outcomes]
  exact ⟨_, rfl, ⟨rfl, rfl⟩, by simp [log], by rw [hsize]⟩

/-- `truncate_suffix` of a store that works, inside the log. -/
theorem Working.truncateSuffix {store : PersistentLog} (h : store.Working) {k : ℕ}
    (hk : k < store.lastIndex) :
    ∃ store', store.truncateSuffix (k + 1) = (store', .truncated) ∧ store'.Working ∧
      store'.log = store.log.take k ∧
      store'.fileSize = (store.entries[k]?.map StoredEntry.byteOffset).getD 0 := by
  unfold PersistentLog.truncateSuffix
  dsimp only
  rw [h.ioFailed, if_neg Bool.false_ne_true, if_neg (by omega), if_neg (by omega), h.outcomes]
  exact ⟨_, rfl, ⟨rfl, rfl⟩, by simp [log, List.map_take], rfl⟩

end PersistentLog

end DistributedKV
