import DistributedKV.Store.Decode
import DistributedKV.Store.PersistentLog

/-!
# The log file

`PersistentLog::open` at the level of bytes. It succeeds on exactly the concatenations of records
with consecutive indices, and a file that has been cut short either ends between two records or is
reported as truncated.
-/

namespace DistributedKV

inductive PersistentLogOpenError
  | ioError
  | truncatedRecord
  | corruptRecord
  | nonSequentialIndex
  deriving DecidableEq, Repr

/-- The concatenation of the records of some entries. -/
def encodeEntries : List LogEntry → Except LogEntryCodecError Bytes
  | [] => .ok []
  | e :: es =>
    match encodeLogEntry e with
    | .error error => .error error
    | .ok record =>
      match encodeEntries es with
      | .error error => .error error
      | .ok rest => .ok (record ++ rest)

namespace PersistentLog

/-- The loop of `open`: the bytes that remain from `offset` on, and the entries so far. -/
def readRecords (remaining : Bytes) (offset : ℕ) (entries : List StoredEntry) :
    Except PersistentLogOpenError (List StoredEntry) :=
  if remaining = [] then .ok entries
  else match decodeLogEntry remaining with
    | .error codecError =>
      if codecError = .inputTooShort ∨ codecError = .truncatedRecord then .error .truncatedRecord
      else .error .corruptRecord
    | .ok decoded =>
      if decoded.bytesConsumed = 0 ∨ remaining.length < decoded.bytesConsumed then
        .error .corruptRecord
      else if decoded.entry.index ≠ entries.length + 1 then .error .nonSequentialIndex
      else readRecords (remaining.drop decoded.bytesConsumed) (offset + decoded.bytesConsumed)
        (entries ++ [⟨decoded.entry, offset⟩])
termination_by remaining.length
decreasing_by
  rw [List.length_drop]
  omega

/-- `PersistentLog::open` on a file that can be read and synced. -/
def openFile (bytes : Bytes) : Except PersistentLogOpenError PersistentLog :=
  match readRecords bytes 0 [] with
  | .error error => .error error
  | .ok entries =>
    .ok { entries, fileSize := bytes.length, durable := entries.map StoredEntry.logEntry }

/-! ## Files of records -/

/-- The bytes are the records of the entries, whose indices go on from `i`. -/
inductive Records : ℕ → List LogEntry → Bytes → Prop
  | nil (i : ℕ) : Records i [] []
  | cons {i : ℕ} {e : LogEntry} {es : List LogEntry} {record rest : Bytes} (hr : e.InRange)
      (hi : e.index = i + 1) (he : encodeLogEntry e = .ok record) (h : Records (i + 1) es rest) :
      Records i (e :: es) (record ++ rest)

theorem encodeEntries_cons {e : LogEntry} {es : List LogEntry} {bytes : Bytes} :
    encodeEntries (e :: es) = .ok bytes ↔ ∃ record rest, encodeLogEntry e = .ok record ∧
      encodeEntries es = .ok rest ∧ bytes = record ++ rest := by
  rw [encodeEntries]
  cases he : encodeLogEntry e with
  | error error => simp
  | ok record =>
    cases hes : encodeEntries es with
    | error error => simp
    | ok rest => simp [eq_comm]

/-- Entries with an encoding have a file of records. -/
theorem exists_encodeEntries {es : List LogEntry} (h : ∀ e ∈ es, e.Encodable) :
    ∃ bytes, encodeEntries es = .ok bytes := by
  induction es with
  | nil => exact ⟨[], rfl⟩
  | cons e es ih =>
    obtain ⟨record, he⟩ := (h e List.mem_cons_self).exists_bytes
    obtain ⟨rest, hrest⟩ := ih fun e' he' => h e' (List.mem_cons_of_mem _ he')
    exact ⟨record ++ rest, encodeEntries_cons.2 ⟨record, rest, he, hrest, rfl⟩⟩

theorem records_iff {i : ℕ} {es : List LogEntry} {bytes : Bytes} :
    Records i es bytes ↔ (∀ e ∈ es, e.InRange) ∧
      (∀ k e, es[k]? = some e → e.index = i + k + 1) ∧ encodeEntries es = .ok bytes := by
  constructor
  · intro h
    induction h with
    | nil i => simp [encodeEntries]
    | @cons i e es record rest hr hi he _ ih =>
      obtain ⟨hrs, his, hes⟩ := ih
      refine ⟨List.forall_mem_cons.2 ⟨hr, hrs⟩, fun k e' hk => ?_,
        encodeEntries_cons.2 ⟨record, rest, he, hes, rfl⟩⟩
      cases k with
      | zero =>
        obtain rfl := Option.some.inj hk
        exact hi
      | succ k =>
        rw [his k e' hk]
        omega
  · rintro ⟨hrs, his, hes⟩
    induction es generalizing i bytes with
    | nil =>
      obtain rfl := Except.ok.inj hes
      exact .nil i
    | cons e es ih =>
      obtain ⟨record, rest, he, hrest, rfl⟩ := encodeEntries_cons.1 hes
      refine .cons (hrs e List.mem_cons_self) (his 0 e rfl) he
        (ih (fun e' he' => hrs e' (List.mem_cons_of_mem _ he')) (fun k e' hk => ?_) hrest)
      rw [his (k + 1) e' hk]
      omega

theorem Records.length_eq {i : ℕ} {es : List LogEntry} {bytes : Bytes} (h : Records i es bytes) :
    bytes.length = (es.map recordSize).sum := by
  induction h with
  | nil => rfl
  | cons _ _ he _ ih => rw [List.length_append, ih, List.map_cons, List.sum_cons, recordSize_eq he]

theorem encodeLogEntry_length_pos {e : LogEntry} {record : Bytes}
    (he : encodeLogEntry e = .ok record) : 0 < record.length := by
  obtain ⟨-, -, commandBytes, -, -, rfl⟩ := encodeLogEntry_eq_ok_iff.1 he
  rw [length_withChecksum, checksumSize]
  omega

/-! ## The loop -/

/-- One round of the loop, on a file that goes on with a record. -/
theorem readRecords_append {e : LogEntry} {record : Bytes} {entries : List StoredEntry}
    (hr : e.InRange) (he : encodeLogEntry e = .ok record) (hi : e.index = entries.length + 1)
    (rest : Bytes) (offset : ℕ) : readRecords (record ++ rest) offset entries =
      readRecords rest (offset + record.length) (entries ++ [⟨e, offset⟩]) := by
  have hpos := encodeLogEntry_length_pos he
  have hne : record ++ rest ≠ [] := fun hnil => by
    rw [(List.append_eq_nil_iff.1 hnil).1] at hpos
    exact absurd hpos (lt_irrefl 0)
  rw [readRecords, if_neg hne, decodeLogEntry_append hr he rest]
  dsimp only
  rw [List.length_append, if_neg (by omega), if_neg (by simp [hi]), List.drop_left]

/-- The loop reads the records at the front of a file and goes on behind them. -/
theorem Records.readRecords_front {es : List LogEntry} {bytes : Bytes} {entries : List StoredEntry}
    (h : Records entries.length es bytes) (rest : Bytes) (offset : ℕ) :
    readRecords (bytes ++ rest) offset entries =
      readRecords rest (offset + bytes.length) (entries ++ storedEntries offset es) := by
  generalize hi : entries.length = i at h
  induction h generalizing entries offset with
  | nil => rw [storedEntries, List.append_nil, List.nil_append, List.length_nil, Nat.add_zero]
  | @cons i e es record bytes hr hidx he _ ih =>
    subst hi
    have hlen : (entries ++ [⟨e, offset⟩] : List StoredEntry).length = entries.length + 1 :=
      List.length_append
    rw [List.append_assoc, readRecords_append hr he hidx, ih _ hlen, storedEntries,
      recordSize_eq he, List.append_assoc, List.singleton_append, List.length_append, Nat.add_assoc]

/-- The loop reads the records of a file. -/
theorem Records.readRecords {es : List LogEntry} {bytes : Bytes} {entries : List StoredEntry}
    (h : Records entries.length es bytes) (offset : ℕ) :
    readRecords bytes offset entries = .ok (entries ++ storedEntries offset es) := by
  have hfront := h.readRecords_front [] offset
  rw [List.append_nil] at hfront
  rw [hfront, PersistentLog.readRecords, if_pos rfl]

/-- The loop fails on bytes behind the records that are no record. -/
theorem Records.readRecords_torn {es : List LogEntry} {bytes tail : Bytes}
    {entries : List StoredEntry} (h : Records entries.length es bytes) (hne : tail ≠ [])
    (htail : (decodeLogEntry tail).isOk = false) (offset : ℕ) :
    (PersistentLog.readRecords (bytes ++ tail) offset entries).isOk = false := by
  rw [h.readRecords_front, PersistentLog.readRecords, if_neg hne]
  cases hd : decodeLogEntry tail with
  | error codecError =>
    dsimp only
    split_ifs
    · rfl
    · rfl
  | ok decoded =>
    rw [hd] at htail
    cases htail

/-- What the loop accepts is a file of records. -/
theorem records_of_readRecords {bytes : Bytes} {offset : ℕ} {entries out : List StoredEntry}
    (h : readRecords bytes offset entries = .ok out) :
    ∃ es, Records entries.length es bytes ∧ out = entries ++ storedEntries offset es := by
  generalize hlen : bytes.length = n
  induction n using Nat.strong_induction_on generalizing bytes offset entries with
  | h n ih =>
    rw [readRecords] at h
    split_ifs at h with hnil
    · obtain rfl := Except.ok.inj h
      rw [hnil]
      exact ⟨[], .nil _, (List.append_nil _).symm⟩
    split at h
    · split_ifs at h
    next decoded hd =>
    obtain ⟨e, consumed⟩ := decoded
    split_ifs at h with hbad hidx
    obtain ⟨hr, record, rest, he, rfl, rfl⟩ := decodeLogEntry_eq_ok_iff.1 hd
    rw [not_not] at hidx
    rw [List.drop_left] at h
    have hpos := encodeLogEntry_length_pos he
    obtain ⟨es, hes, rfl⟩ := ih rest.length (by rw [← hlen, List.length_append]; omega) h rfl
    rw [List.length_append, List.length_singleton] at hes
    refine ⟨e :: es, .cons hr hidx he hes, ?_⟩
    rw [storedEntries, recordSize_eq he, List.append_assoc, List.singleton_append]

/-- The first bytes of a file of records are the first records, or the file ends in a record. -/
theorem Records.take_cases {i : ℕ} {es : List LogEntry} {bytes : Bytes}
    (h : Records i es bytes) (j : ℕ) :
    (∃ k ≤ es.length, Records i (es.take k) (bytes.take j)) ∨
      ((∀ k, encodeEntries (es.take k) ≠ .ok (bytes.take j)) ∧
        ∀ (entries : List StoredEntry) (offset : ℕ), entries.length = i →
          PersistentLog.readRecords (bytes.take j) offset entries = .error .truncatedRecord) := by
  induction h generalizing j with
  | nil i => exact Or.inl ⟨0, le_rfl, by simpa using .nil i⟩
  | @cons i e es record rest hr hidx he _ ih =>
    have hpos := encodeLogEntry_length_pos he
    rcases Nat.lt_or_ge j record.length with hj | hj
    · rw [List.take_append_of_le_length hj.le]
      rcases Nat.eq_zero_or_pos j with rfl | h0
      · exact Or.inl ⟨0, Nat.zero_le _, by simpa using .nil i⟩
      -- the cut is inside the first record
      have hlen : (record.take j).length = j := List.length_take_of_le hj.le
      refine Or.inr ⟨fun k hk => ?_, fun entries offset _ => ?_⟩
      · cases k with
        | zero =>
          rw [← Except.ok.inj hk, List.length_nil] at hlen
          omega
        | succ k =>
          obtain ⟨record', rest', he', -, heq⟩ := encodeEntries_cons.1 hk
          obtain rfl := Except.ok.inj (he.symm.trans he')
          rw [heq, List.length_append] at hlen
          omega
      · have hne : record.take j ≠ [] := fun hnil => by
          rw [hnil, List.length_nil] at hlen
          omega
        rw [PersistentLog.readRecords, if_neg hne]
        rcases decodeLogEntry_take hr he hj with hd | hd
        · rw [hd]
          rfl
        · rw [hd]
          rfl
    · rw [List.take_append, List.take_of_length_le hj]
      rcases ih (j - record.length) with ⟨k, hk, hrest⟩ | ⟨hno, herror⟩
      · exact Or.inl ⟨k + 1, Nat.succ_le_succ hk, .cons hr hidx he hrest⟩
      · refine Or.inr ⟨fun k hk => ?_, fun entries offset hlen => ?_⟩
        · cases k with
          | zero =>
            have hnil := (List.append_eq_nil_iff.1 (Except.ok.inj hk).symm).1
            rw [hnil] at hpos
            exact absurd hpos (lt_irrefl 0)
          | succ k =>
            obtain ⟨record', rest', he', hrest', heq⟩ := encodeEntries_cons.1 hk
            obtain rfl := Except.ok.inj (he.symm.trans he')
            exact hno k (List.append_cancel_left heq ▸ hrest')
        · subst hlen
          rw [readRecords_append hr he hidx]
          exact herror _ _ (by simp)

/-! ## Opening a file -/

theorem openFile_eq_ok_iff {bytes : Bytes} {store : PersistentLog} :
    openFile bytes = .ok store ↔ ∃ es, Records 0 es bytes ∧ store = openFrom es := by
  have hstore : ∀ {es : List LogEntry}, Records 0 es bytes →
      (⟨storedEntries 0 es, bytes.length, false,
       (storedEntries 0 es).map StoredEntry.logEntry, []⟩ :
        PersistentLog) = openFrom es := fun h => by
    rw [openFrom, map_storedEntries, h.length_eq]
  unfold openFile
  constructor
  · intro h
    split at h
    · cases h
    next entries hread =>
    obtain ⟨es, hes, rfl⟩ := records_of_readRecords hread
    obtain rfl := Except.ok.inj h
    exact ⟨es, hes, hstore hes⟩
  · rintro ⟨es, hes, rfl⟩
    have hread : readRecords bytes 0 [] = .ok (storedEntries 0 es) :=
      Records.readRecords (by exact hes) 0
    rw [hread]
    exact congrArg Except.ok (hstore hes)

/-- A file of records is opened, and recovers the entries. -/
theorem Records.openFile_eq {es : List LogEntry} {bytes : Bytes} (h : Records 0 es bytes) :
    openFile bytes = .ok (openFrom es) := openFile_eq_ok_iff.2 ⟨es, h, rfl⟩

/-- A file with a torn record at its end is not opened. -/
theorem Records.openFile_torn {es : List LogEntry} {bytes tail : Bytes} (h : Records 0 es bytes)
    (hne : tail ≠ []) (htail : (decodeLogEntry tail).isOk = false) :
    (openFile (bytes ++ tail)).isOk = false := by
  have hread : (PersistentLog.readRecords (bytes ++ tail) 0 []).isOk = false :=
    Records.readRecords_torn (by exact h) hne htail 0
  rw [openFile]
  cases hr : PersistentLog.readRecords (bytes ++ tail) 0 [] with
  | error error => rfl
  | ok entries =>
    rw [hr] at hread
    cases hread

/-- **The log file format is exact, and a cut is never misread**: `open` succeeds on exactly the
concatenations of the records of entries with indices from 1 on, and recovers these entries; on a
proper prefix of such a file it recovers the entries up to the cut if the cut is between two
records, and otherwise it reports a truncated record. -/
theorem openFile_exact (bytes : Bytes) :
    (∀ store, openFile bytes = .ok store ↔ ∃ es, (∀ e ∈ es, e.InRange) ∧
      (∀ k e, es[k]? = some e → e.index = k + 1) ∧ encodeEntries es = .ok bytes ∧
        store = openFrom es) ∧
    ∀ es, openFile bytes = .ok (openFrom es) → ∀ cut, cut <+: bytes → cut ≠ bytes →
      (∃ k < es.length, encodeEntries (es.take k) = .ok cut ∧
        openFile cut = .ok (openFrom (es.take k))) ∨
      ((∀ k, encodeEntries (es.take k) ≠ .ok cut) ∧ openFile cut = .error .truncatedRecord) := by
  constructor
  · intro store
    simp only [openFile_eq_ok_iff, records_iff, Nat.zero_add, and_assoc]
  · rintro es hopen cut hcut hne
    obtain ⟨es', hes, heq⟩ := openFile_eq_ok_iff.1 hopen
    have hsame : es = es' := by
      rw [← log_openFrom es, heq, log_openFrom]
    subst hsame
    rw [List.prefix_iff_eq_take.1 hcut] at hne ⊢
    rcases hes.take_cases cut.length with ⟨k, hk, hrec⟩ | ⟨hno, herror⟩
    · refine Or.inl ⟨k, lt_of_le_of_ne hk fun heq => hne ?_, (records_iff.1 hrec).2.2,
        openFile_eq_ok_iff.2 ⟨_, hrec, rfl⟩⟩
      rw [heq, List.take_length] at hrec
      exact Except.ok.inj ((records_iff.1 hrec).2.2.symm.trans (records_iff.1 hes).2.2)
    · exact Or.inr ⟨hno, by rw [openFile, herror [] 0 rfl]⟩

/-- A file with one record, cut after its first nine bytes. -/
theorem openFile_exact_cut : ∃ bytes, encodeEntries [⟨1, 1, {}⟩] = .ok bytes ∧
    ((∃ k < 1, encodeEntries ([⟨1, 1, {}⟩].take k) = .ok (bytes.take 9) ∧
        openFile (bytes.take 9) = .ok (openFrom ([⟨1, 1, {}⟩].take k))) ∨
      ((∀ k, encodeEntries ([⟨1, 1, {}⟩].take k) ≠ .ok (bytes.take 9)) ∧
        openFile (bytes.take 9) = .error .truncatedRecord)) := by
  have henc : LogEntry.Encodable ⟨1, 1, {}⟩ := encodable_noOp one_ne_zero one_ne_zero
  obtain ⟨record, hrecord⟩ := henc.exists_bytes
  have hfile : encodeEntries [⟨1, 1, {}⟩] = .ok record :=
    encodeEntries_cons.2 ⟨record, [], hrecord, rfl, (List.append_nil _).symm⟩
  have hopen : openFile record = .ok (openFrom [⟨1, 1, {}⟩]) := by
    refine ((openFile_exact record).1 _).2 ⟨_, ?_, ?_, hfile, rfl⟩
    · simp [LogEntry.InRange]
    · rintro (_ | k) e he
      · obtain rfl := Option.some.inj he
        rfl
      · cases he
  refine ⟨record, hfile,
    (openFile_exact record).2 _ hopen _ (List.take_prefix 9 record) fun heq => ?_⟩
  have hlen := congrArg List.length heq
  obtain ⟨-, -, commandBytes, -, -, rfl⟩ := encodeLogEntry_eq_ok_iff.1 hrecord
  rw [length_withChecksum, length_recordBody, List.length_take, length_withChecksum,
    length_recordBody, prefixSize, checksumSize] at hlen
  omega

end PersistentLog

end DistributedKV
