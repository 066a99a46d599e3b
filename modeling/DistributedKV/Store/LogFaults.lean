import DistributedKV.Foundations.FaultyFile
import DistributedKV.Store.LogFile

/-!
# The log store and its system calls

`PersistentLog::append` and `PersistentLog::truncate_suffix` down to the calls on the file, with
the loops that write, sync and cut it. `script` says what becomes of the coming calls; once it is
used up, calls succeed. Whatever the calls do, the entries in memory are the ones whose records the
file holds, until a call leaves the file in doubt, and then the store takes no more writes.
-/

namespace DistributedKV

open FaultyFile

/-- A log store with its file. -/
structure FileLog where
  entries : List StoredEntry := []
  fileSize : ℕ := 0
  ioFailed : Bool := false
  file : File
  script : List IoOutcome := []

/-- `write_exact`; a loop that has not been told otherwise writes all there is. -/
def writeExact : List IoOutcome → File → Bytes → ℕ → Bool × File × List IoOutcome
  | [], file, input, offset => (true, file.write offset input, [])
  | outcome :: script, file, input, offset =>
    if input = [] then (true, file, outcome :: script)
    else match outcome with
      | .done count =>
        if count = 0 then (false, file, script)
        else writeExact script (file.write offset (input.take count)) (input.drop count)
          (offset + (input.take count).length)
      | .interrupted => writeExact script file input offset
      | .failed undecided => (false, file.write offset (undecided.take input.length), script)

def syncFile : List IoOutcome → File → Bool × File × List IoOutcome
  | [], file => (true, file.sync, [])
  | .done _ :: script, file => (true, file.sync, script)
  | .interrupted :: script, file => syncFile script file
  | .failed undecided :: script, file => (false, file.lose undecided, script)

/-- The loops around `ftruncate`. -/
def truncateFile : List IoOutcome → File → ℕ → Bool × File × List IoOutcome
  | [], file, size => (true, file.truncate size, [])
  | .done _ :: script, file, size => (true, file.truncate size, script)
  | .interrupted :: script, file, size => truncateFile script file size
  | .failed _ :: script, file, _ => (false, file, script)

def restoreFileSize (script : List IoOutcome) (file : File) (size : ℕ) :
    Bool × File × List IoOutcome :=
  match truncateFile script file size with
  | (false, file, script) => (false, file, script)
  | (true, file, script) => syncFile script file

namespace FileLog

/-- `PersistentLog::open` on a file that can be read and synced. -/
def openWith (content : Bytes) (script : List IoOutcome) :
    Except PersistentLogOpenError FileLog :=
  match PersistentLog.openFile content with
  | .error error => .error error
  | .ok store =>
    .ok { entries := store.entries, fileSize := store.fileSize, file := { content }, script }

/-- The entries in memory, without their offsets. -/
def log (store : FileLog) : List LogEntry := store.entries.map StoredEntry.logEntry

def lastIndex (store : FileLog) : ℕ := store.entries.length

/-- The error paths of `append` once it has written. -/
def rollback (store : FileLog) (file : File) (script : List IoOutcome) :
    FileLog × PersistentLogAppendResult :=
  match restoreFileSize script file store.fileSize with
  | (restored, file, script) =>
    ({ store with ioFailed := !restored, file, script }, .ioError)

def append (store : FileLog) (entry : LogEntry) : FileLog × PersistentLogAppendResult :=
  if store.ioFailed then (store, .ioError)
  else if entry.index ≠ store.lastIndex + 1 then (store, .unexpectedIndex)
  else match encodeLogEntry entry with
    | .error _ => (store, .invalidEntry)
    | .ok bytes =>
      if offMax < store.fileSize ∨ offMax - store.fileSize < bytes.length then (store, .ioError)
      else match writeExact store.script store.file bytes store.fileSize with
        | (false, file, script) => store.rollback file script
        | (true, file, script) =>
          match syncFile script file with
          | (false, file, script) => store.rollback file script
          | (true, file, script) =>
            ({ store with
                entries := store.entries ++ [⟨entry, store.fileSize⟩]
                fileSize := store.fileSize + bytes.length
                file, script }, .appended)

def truncateSuffix (store : FileLog) (firstIndexToRemove : ℕ) :
    FileLog × PersistentLogTruncateResult :=
  if store.ioFailed then (store, .ioError)
  else
    let nextIndex := store.lastIndex + 1
    if firstIndexToRemove = 0 ∨ nextIndex < firstIndexToRemove then (store, .invalidIndex)
    else if firstIndexToRemove = nextIndex then (store, .truncated)
    else
      let kept := firstIndexToRemove - 1
      let newFileSize := (store.entries[kept]?.map StoredEntry.byteOffset).getD 0
      match truncateFile store.script store.file newFileSize with
      | (false, file, script) => ({ store with ioFailed := true, file, script }, .ioError)
      | (true, file, script) =>
        match syncFile script file with
        | (false, file, script) => ({ store with ioFailed := true, file, script }, .ioError)
        | (true, file, script) =>
          ({ store with
              entries := store.entries.take kept
              fileSize := newFileSize
              file, script }, .truncated)

end FileLog

/-! ## The loops -/

/-- A loop that has ended on a file that keeps its front. -/
structure LoopEnd (front : Bytes) (result : Bool × File × List IoOutcome) (next : Bytes) :
    Prop where
  keeps : result.2.1.Extends front
  done : result.1 = true → result.2.1.content = next

theorem writeExact_end {file : File} {front written : Bytes} (h : file.Extends front)
    (hc : file.content = front ++ written) (script : List IoOutcome) (input : Bytes) :
    LoopEnd front (writeExact script file input (front ++ written).length)
      (front ++ (written ++ input)) := by
  induction script generalizing file written input with
  | nil =>
    obtain ⟨hkeeps, hcontent⟩ := h.write hc input
    exact ⟨hkeeps, fun _ => hcontent⟩
  | cons outcome script ih =>
    unfold writeExact
    split_ifs with hempty
    · subst hempty
      exact ⟨h, fun _ => by rw [hc, List.append_nil]⟩
    · cases outcome with
      | done count =>
        dsimp only
        split_ifs with hzero
        · exact ⟨h, fun hfalse => by cases hfalse⟩
        · obtain ⟨hkeeps, hcontent⟩ := h.write hc (input.take count)
          have hoffset : (front ++ (written ++ input.take count)).length =
              (front ++ written).length + (input.take count).length := by
            rw [← List.append_assoc, List.length_append]
          have hend := ih hkeeps hcontent (input.drop count)
          rw [hoffset, List.append_assoc written, List.take_append_drop] at hend
          exact hend
      | interrupted => exact ih h hc input
      | failed undecided =>
        exact ⟨(h.write hc _).1, fun hfalse => by cases hfalse⟩

/-- Writing behind what a file holds. -/
theorem writeExact_behind {file : File} {content : Bytes} (h : file.Holds content)
    (script : List IoOutcome) (bytes : Bytes) :
    LoopEnd content (writeExact script file bytes content.length) (content ++ bytes) := by
  have hc : file.content = content ++ [] := by rw [List.append_nil, h.content_eq]
  have hend := writeExact_end h.isExtension hc script bytes
  rw [List.append_nil] at hend
  exact hend

theorem syncFile_end (script : List IoOutcome) (file : File) :
    ((syncFile script file).1 = true ∧ (syncFile script file).2.1 = file.sync) ∨
      ((syncFile script file).1 = false ∧
        ∃ undecided, (syncFile script file).2.1 = file.lose undecided) := by
  induction script with
  | nil => exact Or.inl ⟨rfl, rfl⟩
  | cons outcome script ih =>
    cases outcome with
    | done count => exact Or.inl ⟨rfl, rfl⟩
    | interrupted => exact ih
    | failed undecided => exact Or.inr ⟨rfl, undecided, rfl⟩

theorem truncateFile_end (script : List IoOutcome) (file : File) (size : ℕ) :
    ((truncateFile script file size).1 = true ∧
        (truncateFile script file size).2.1 = file.truncate size) ∨
      ((truncateFile script file size).1 = false ∧
        (truncateFile script file size).2.1 = file) := by
  induction script with
  | nil => exact Or.inl ⟨rfl, rfl⟩
  | cons outcome script ih =>
    cases outcome with
    | done count => exact Or.inl ⟨rfl, rfl⟩
    | interrupted => exact ih
    | failed undecided => exact Or.inr ⟨rfl, rfl⟩

/-- A file whose size has been restored holds its front again. -/
theorem restoreFileSize_end {script : List IoOutcome} {file : File} {front : Bytes}
    (h : file.Extends front) (hdone : (restoreFileSize script file front.length).1 = true) :
    (restoreFileSize script file front.length).2.1.Holds front := by
  revert hdone
  unfold restoreFileSize
  have hend := truncateFile_end script file front.length
  revert hend
  generalize truncateFile script file front.length = r
  obtain ⟨truncated, file', script'⟩ := r
  rintro (⟨rfl, rfl⟩ | ⟨rfl, rfl⟩) hdone
  · dsimp only at hdone ⊢
    rcases syncFile_end script' (file.truncate front.length) with ⟨-, hsync⟩ | ⟨hfalse, -⟩
    · rw [hsync]
      exact File.holds_sync h.content_truncate
    · rw [hfalse] at hdone
      cases hdone
  · cases hdone

/-- A file whose size is to be restored keeps its front. -/
theorem restoreFileSize_extends {file : File} {front : Bytes} (h : file.Extends front)
    (script : List IoOutcome) : (restoreFileSize script file front.length).2.1.Extends front := by
  unfold restoreFileSize
  have hend := truncateFile_end script file front.length
  revert hend
  generalize truncateFile script file front.length = r
  obtain ⟨truncated, file', script'⟩ := r
  rintro (⟨rfl, rfl⟩ | ⟨rfl, rfl⟩)
  · dsimp only
    rcases syncFile_end script' (file.truncate front.length) with ⟨-, hsync⟩ | ⟨-, undecided, hsync⟩
    · rw [hsync]
      exact h.truncate.sync
    · rw [hsync]
      exact h.truncate.lose undecided
  · exact h

/-! ## The invariant -/

theorem encodeEntries_append {es es' : List LogEntry} {bytes bytes' : Bytes}
    (h : encodeEntries es = .ok bytes) (h' : encodeEntries es' = .ok bytes') :
    encodeEntries (es ++ es') = .ok (bytes ++ bytes') := by
  induction es generalizing bytes with
  | nil =>
    obtain rfl := Except.ok.inj h
    exact h'
  | cons e es ih =>
    obtain ⟨record, rest, he, hrest, rfl⟩ := PersistentLog.encodeEntries_cons.1 h
    rw [List.append_assoc]
    exact PersistentLog.encodeEntries_cons.2 ⟨record, _, he, ih hrest, rfl⟩

theorem length_encodeEntries {es : List LogEntry} {bytes : Bytes}
    (h : encodeEntries es = .ok bytes) :
    bytes.length = (es.map PersistentLog.recordSize).sum := by
  induction es generalizing bytes with
  | nil =>
    obtain rfl := Except.ok.inj h
    rfl
  | cons e es ih =>
    obtain ⟨record, rest, he, hrest, rfl⟩ := PersistentLog.encodeEntries_cons.1 h
    rw [List.length_append, ih hrest, List.map_cons, List.sum_cons, PersistentLog.recordSize_eq he]

theorem encodeEntries_take {es : List LogEntry} {bytes : Bytes} (h : encodeEntries es = .ok bytes)
    (k : ℕ) : ∃ front, encodeEntries (es.take k) = .ok front ∧ front <+: bytes := by
  induction es generalizing bytes k with
  | nil => exact ⟨bytes, by simpa using h, List.prefix_refl _⟩
  | cons e es ih =>
    obtain ⟨record, rest, he, hrest, rfl⟩ := PersistentLog.encodeEntries_cons.1 h
    cases k with
    | zero => exact ⟨[], rfl, List.nil_prefix⟩
    | succ k =>
      obtain ⟨front, hfront, hprefix⟩ := ih hrest k
      exact ⟨record ++ front, PersistentLog.encodeEntries_cons.2 ⟨record, front, he, hfront, rfl⟩,
        (List.prefix_append_right_inj _).2 hprefix⟩

namespace FileLog

/-- The entries are the ones from index one on, each with the sum of the record sizes before it. -/
def Positioned (entries : List StoredEntry) : Prop :=
  ∀ k stored, entries[k]? = some stored → stored.logEntry.index = k + 1 ∧
    stored.byteOffset =
      ((entries.take k).map fun stored => PersistentLog.recordSize stored.logEntry).sum

/-- What holds between the calls: the file holds the records of the entries, unless a call has left
it in doubt. -/
structure Sound (store : FileLog) : Prop where
  positioned : Positioned store.entries
  file : store.ioFailed = false → ∃ content, encodeEntries store.log = .ok content ∧
    store.fileSize = content.length ∧ store.file.Holds content

variable {store : FileLog}

theorem Positioned.take {entries : List StoredEntry} (h : Positioned entries) (n : ℕ) :
    Positioned (entries.take n) := by
  intro k stored hk
  have hlt : k < n := by
    by_contra hle
    rw [List.getElem?_eq_none ((List.length_take_le n entries).trans (not_lt.1 hle))] at hk
    cases hk
  rw [List.getElem?_take_of_lt hlt] at hk
  rw [List.take_take, Nat.min_eq_left hlt.le]
  exact h k stored hk

theorem Positioned.concat {entries : List StoredEntry} (h : Positioned entries)
    {stored : StoredEntry} (hindex : stored.logEntry.index = entries.length + 1)
    (hoffset : stored.byteOffset =
      (entries.map fun stored => PersistentLog.recordSize stored.logEntry).sum) :
    Positioned (entries ++ [stored]) := by
  intro k stored' hk
  rcases lt_trichotomy k entries.length with hlt | rfl | hgt
  · rw [List.getElem?_append_left hlt] at hk
    rw [List.take_append_of_le_length hlt.le]
    exact h k stored' hk
  · rw [List.getElem?_append_right le_rfl, Nat.sub_self] at hk
    obtain rfl := Option.some.inj hk
    rw [List.take_left]
    exact ⟨hindex, hoffset⟩
  · rw [List.getElem?_eq_none (by rw [List.length_append]; exact hgt)] at hk
    cases hk

/-- What one call that is to lead to `log` guarantees, whatever the calls on the file do: a call
that fails leaves the entries as they were, a call that succeeds has led to `log` and has its
records on the disk, and after a failure that left the file in doubt nothing changes any more. -/
structure Guarantee (store store' : FileLog) (reported : Prop) (log : List LogEntry) : Prop where
  sound : store'.Sound
  failed : ¬reported → store'.entries = store.entries
  success : reported → store'.log = log ∧ ∃ content, encodeEntries log = .ok content ∧
    store'.file.Holds content
  frozen : store.ioFailed = true → store'.file = store.file ∧ store'.entries = store.entries ∧
    store'.ioFailed = true ∧ ¬reported

theorem guarantee_self (h : store.Sound) {reported : Prop} (hr : ¬reported)
    (log : List LogEntry) : Guarantee store store reported log :=
  ⟨h, fun _ => rfl, fun h => absurd h hr, fun hf => ⟨rfl, rfl, hf, hr⟩⟩

theorem frozen_elim (hio : store.ioFailed = false) {P : Prop} (hf : store.ioFailed = true) : P := by
  rw [hio] at hf
  cases hf

theorem map_recordSize (store : FileLog) :
    (store.entries.map fun stored => PersistentLog.recordSize stored.logEntry) =
      store.log.map PersistentLog.recordSize := by
  rw [log, List.map_map]
  rfl

theorem Sound.rollback (h : store.Sound) (hio : store.ioFailed = false) {content : Bytes}
    (hcontent : encodeEntries store.log = .ok content) (hsize : store.fileSize = content.length)
    {file : File} (hfile : file.Extends content) (script : List IoOutcome)
    (log : List LogEntry) : Guarantee store (store.rollback file script).1
      ((store.rollback file script).2 = .appended) log := by
  have hend : (restoreFileSize script file store.fileSize).1 = true →
      (restoreFileSize script file store.fileSize).2.1.Holds content := by
    rw [hsize]
    exact restoreFileSize_end hfile
  unfold FileLog.rollback
  revert hend
  generalize restoreFileSize script file store.fileSize = r
  obtain ⟨restored, file', script'⟩ := r
  intro hend
  refine ⟨⟨h.positioned, fun hrestored => ⟨content, hcontent, hsize, hend ?_⟩⟩, fun _ => rfl,
    fun hsuccess => ?_, frozen_elim hio⟩
  · simpa using hrestored
  · cases hsuccess

theorem append_guarantee (h : store.Sound) (entry : LogEntry) :
    Guarantee store (store.append entry).1 ((store.append entry).2 = .appended)
      (store.log ++ [entry]) := by
  unfold append
  split_ifs with hio hindex
  · exact guarantee_self h (by simp) _
  · exact guarantee_self h (by simp) _
  · rw [Bool.not_eq_true] at hio
    rw [not_not] at hindex
    obtain ⟨content, hcontent, hsize, hholds⟩ := h.file hio
    cases he : encodeLogEntry entry with
    | error error => exact guarantee_self h (by simp) _
    | ok bytes =>
      dsimp only
      split_ifs with hroom
      · exact guarantee_self h (by simp) _
      · have hwrite := writeExact_behind hholds store.script bytes
        rw [← hsize] at hwrite
        revert hwrite
        generalize writeExact store.script store.file bytes store.fileSize = r
        obtain ⟨written, file, script⟩ := r
        rintro ⟨hkeeps, hdone⟩
        dsimp only at hkeeps hdone ⊢
        cases written with
        | false => exact h.rollback hio hcontent hsize hkeeps script _
        | true =>
          dsimp only
          have hsync := syncFile_end script file
          revert hsync
          generalize syncFile script file = r
          obtain ⟨synced, file', script'⟩ := r
          rintro (⟨rfl, rfl⟩ | ⟨rfl, undecided, rfl⟩)
          · have hrecords : encodeEntries (store.log ++ [entry]) = .ok (content ++ bytes) :=
              encodeEntries_append hcontent
                (PersistentLog.encodeEntries_cons.2 ⟨bytes, [], he, rfl, (List.append_nil _).symm⟩)
            have hlog : (store.entries ++ [(⟨entry, store.fileSize⟩ : StoredEntry)]).map
                StoredEntry.logEntry = store.log ++ [entry] := by
              rw [List.map_append, log, List.map_singleton]
            have hholds' := File.holds_sync (hdone rfl)
            have hrecords' := hrecords
            rw [← hlog] at hrecords'
            refine ⟨⟨h.positioned.concat hindex ?_, fun _ => ⟨_, hrecords', ?_, hholds'⟩⟩,
              fun hno => absurd rfl hno, fun _ => ⟨hlog, _, hrecords, hholds'⟩, frozen_elim hio⟩
            · rw [map_recordSize, ← length_encodeEntries hcontent, hsize]
            · rw [List.length_append, hsize]
          · exact h.rollback hio hcontent hsize (hkeeps.lose undecided) script' _

/-- **What an append may tear is behind the records**: whatever the calls on the file do, those of
the entries before stay at its front. -/
theorem append_extends (h : store.Sound) (hio : store.ioFailed = false) {content : Bytes}
    (hcontent : encodeEntries store.log = .ok content) (entry : LogEntry) :
    (store.append entry).1.file.Extends content := by
  obtain ⟨content', hcontent', hsize, hholds⟩ := h.file hio
  obtain rfl := Except.ok.inj (hcontent.symm.trans hcontent')
  have hself := hholds.isExtension
  have hrollback : ∀ {file : File} (script : List IoOutcome), file.Extends content →
      (store.rollback file script).1.file.Extends content := fun script hfile => by
    rw [rollback, hsize]
    exact restoreFileSize_extends hfile script
  unfold append
  rw [if_neg (by rw [hio]; exact Bool.false_ne_true)]
  split_ifs
  · exact hself
  cases encodeLogEntry entry with
  | error error => exact hself
  | ok bytes =>
    dsimp only
    split_ifs
    · exact hself
    have hkeeps := (writeExact_behind hholds store.script bytes).keeps
    rw [← hsize] at hkeeps
    revert hkeeps
    generalize writeExact store.script store.file bytes store.fileSize = r
    obtain ⟨written, file, script⟩ := r
    intro hkeeps
    cases written with
    | false => exact hrollback script hkeeps
    | true =>
      dsimp only
      have hsync := syncFile_end script file
      revert hsync
      generalize syncFile script file = r
      obtain ⟨synced, file', script'⟩ := r
      rintro (⟨rfl, rfl⟩ | ⟨rfl, undecided, rfl⟩)
      · exact hkeeps.sync
      · exact hrollback script' (hkeeps.lose undecided)

theorem truncateSuffix_guarantee (h : store.Sound) (firstIndexToRemove : ℕ) :
    Guarantee store (store.truncateSuffix firstIndexToRemove).1
      ((store.truncateSuffix firstIndexToRemove).2 = .truncated)
      (store.log.take (firstIndexToRemove - 1)) := by
  unfold truncateSuffix
  by_cases hio : store.ioFailed = true
  · rw [if_pos hio]
    exact guarantee_self h (by simp) _
  · rw [if_neg hio]
    rw [Bool.not_eq_true] at hio
    obtain ⟨content, hcontent, hsize, hholds⟩ := h.file hio
    dsimp only
    split_ifs with hrange hnext
    · exact guarantee_self h (by simp) _
    · have hall : store.log.take (firstIndexToRemove - 1) = store.log := by
        rw [hnext, Nat.add_sub_cancel, lastIndex, ← List.length_map StoredEntry.logEntry]
        exact List.take_length
      exact ⟨h, fun _ => rfl, fun _ => ⟨hall.symm, content, hall.symm ▸ hcontent, hholds⟩,
        frozen_elim hio⟩
    · obtain ⟨stored, hstored⟩ : ∃ stored, store.entries[firstIndexToRemove - 1]? = some stored :=
        ⟨_, List.getElem?_eq_getElem (by rw [lastIndex] at hrange hnext; omega)⟩
      obtain ⟨front, hfront, hprefix⟩ := encodeEntries_take hcontent (firstIndexToRemove - 1)
      have hlog : (store.entries.take (firstIndexToRemove - 1)).map StoredEntry.logEntry =
          store.log.take (firstIndexToRemove - 1) := by
        rw [log, List.map_take]
      have hoffset : stored.byteOffset = front.length := by
        rw [length_encodeEntries hfront, (h.positioned _ _ hstored).2, ← hlog, List.map_map]
        rfl
      have hsound : ∀ file script,
          Sound { store with ioFailed := true, file := file, script := script } :=
        fun file script => ⟨h.positioned, fun hfalse => by cases hfalse⟩
      have hfails : ∀ file script, Guarantee store
          { store with ioFailed := true, file := file, script := script }
          (PersistentLogTruncateResult.ioError = .truncated)
          (store.log.take (firstIndexToRemove - 1)) := fun file script =>
        ⟨hsound file script, fun _ => rfl, fun hsuccess => (by cases hsuccess), frozen_elim hio⟩
      rw [hstored, Option.map_some, Option.getD_some, hoffset]
      have htruncate := truncateFile_end store.script store.file front.length
      revert htruncate
      generalize truncateFile store.script store.file front.length = r
      obtain ⟨truncated, file, script⟩ := r
      rintro (⟨rfl, rfl⟩ | ⟨rfl, -⟩)
      · dsimp only
        have hsync := syncFile_end script (store.file.truncate front.length)
        revert hsync
        generalize syncFile script (store.file.truncate front.length) = r
        obtain ⟨synced, file', script'⟩ := r
        rintro (⟨rfl, rfl⟩ | ⟨rfl, -⟩)
        · have hcut : (store.file.truncate front.length).content = front := by
            rw [hholds.content_truncate hprefix.length_le]
            exact (List.prefix_iff_eq_take.1 hprefix).symm
          have hholds' := File.holds_sync hcut
          have hfront' := hfront
          rw [← hlog] at hfront'
          exact ⟨⟨h.positioned.take _, fun _ => ⟨front, hfront', rfl, hholds'⟩⟩,
            fun hno => absurd rfl hno, fun _ => ⟨hlog, front, hfront, hholds'⟩, frozen_elim hio⟩
        · exact hfails _ _
      · exact hfails _ _

/-! ## The store at the level of entries -/

/-- The store at the level of entries, with what a reopen would recover. -/
def toLog (store : FileLog) (durable : List LogEntry) (outcomes : List WriteOutcome) :
    PersistentLog :=
  ⟨store.entries, store.fileSize, store.ioFailed, durable, outcomes⟩

/-- A disk that holds the entries as long as nothing is in doubt. -/
def Recovers (store : FileLog) (durable : List LogEntry) : Prop :=
  store.ioFailed = false → durable = store.log

/-- A failure is a failure at the level of entries, for one of the two outcomes. -/
theorem rollback_refines {durable : List LogEntry} (hd : store.Recovers durable)
    (hio : store.ioFailed = false) (file : File) (script : List IoOutcome)
    {step : List WriteOutcome → PersistentLog × PersistentLogAppendResult}
    (hfailed : step [.failed] = (store.toLog durable [], .ioError))
    (huncertain : step [.uncertain false] =
      ({ store.toLog durable [] with ioFailed := true }, .ioError)) :
    ∃ outcomes durable', (store.rollback file script).1.Recovers durable' ∧
      step outcomes = ((store.rollback file script).1.toLog durable' [],
        (store.rollback file script).2) := by
  unfold rollback
  generalize restoreFileSize script file store.fileSize = r
  obtain ⟨restored, file', script'⟩ := r
  cases restored with
  | true =>
    refine ⟨[.failed], durable, fun _ => hd hio, ?_⟩
    rw [hfailed, toLog, hio]
    rfl
  | false =>
    refine ⟨[.uncertain false], durable, fun hfalse => (by cases hfalse), ?_⟩
    rw [huncertain]
    rfl

/-- The append at the level of entries, of an entry whose turn it is. -/
theorem append_toLog (hio : ¬ store.ioFailed = true) {entry : LogEntry}
    (hindex : ¬ entry.index ≠ store.lastIndex + 1) (durable : List LogEntry)
    (outcomes : List WriteOutcome) : (store.toLog durable outcomes).append entry =
      match encodeLogEntry entry with
      | .error _ => (store.toLog durable outcomes, .invalidEntry)
      | .ok bytes =>
        if offMax < store.fileSize ∨ offMax - store.fileSize < bytes.length then
          (store.toLog durable outcomes, .ioError)
        else match nextOutcome outcomes with
          | .done => (⟨store.entries ++ [⟨entry, store.fileSize⟩], store.fileSize + bytes.length,
              store.ioFailed, durable ++ [entry], outcomes.tail⟩, .appended)
          | .failed => (store.toLog durable outcomes.tail, .ioError)
          | .uncertain reached => (⟨store.entries, store.fileSize, true,
              if reached then durable ++ [entry] else durable, outcomes.tail⟩, .ioError) :=
  (if_neg hio).trans (if_neg hindex)

/-- The cut at the level of entries, within the log. -/
theorem truncateSuffix_toLog (hio : ¬ store.ioFailed = true) {firstIndexToRemove : ℕ}
    (hrange : ¬ (firstIndexToRemove = 0 ∨ store.lastIndex + 1 < firstIndexToRemove))
    (hnext : ¬ firstIndexToRemove = store.lastIndex + 1) {offset : ℕ}
    (hoffset : (store.entries[firstIndexToRemove - 1]?.map StoredEntry.byteOffset).getD 0 = offset)
    (durable : List LogEntry) (outcomes : List WriteOutcome) :
    (store.toLog durable outcomes).truncateSuffix firstIndexToRemove =
      match nextOutcome outcomes with
      | .done => (⟨store.entries.take (firstIndexToRemove - 1), offset, store.ioFailed,
          durable.take (firstIndexToRemove - 1), outcomes.tail⟩, .truncated)
      | .failed => (⟨store.entries, store.fileSize, true, durable, outcomes.tail⟩, .ioError)
      | .uncertain reached => (⟨store.entries, store.fileSize, true,
          if reached then durable.take (firstIndexToRemove - 1) else durable,
          outcomes.tail⟩, .ioError) := by
  rw [← hoffset]
  exact ((if_neg hio).trans (if_neg hrange)).trans (if_neg hnext)

/-- **The calls on the file refine the writes of entries**: whatever they do, `append` acts as the
store at the level of entries does for some outcome. -/
theorem append_refines {durable : List LogEntry} (hd : store.Recovers durable)
    (entry : LogEntry) : ∃ outcomes durable', (store.append entry).1.Recovers durable' ∧
      (store.toLog durable outcomes).append entry =
        ((store.append entry).1.toLog durable' [], (store.append entry).2) := by
  by_cases hio : store.ioFailed = true
  · have hstore : store.append entry = (store, .ioError) := if_pos hio
    rw [hstore]
    exact ⟨[], durable, hd, if_pos hio⟩
  by_cases hindex : entry.index ≠ store.lastIndex + 1
  · have hstore : store.append entry = (store, .unexpectedIndex) :=
      (if_neg hio).trans (if_pos hindex)
    rw [hstore]
    exact ⟨[], durable, hd, (if_neg hio).trans (if_pos hindex)⟩
  unfold append
  rw [if_neg hio, if_neg hindex]
  have habstract := append_toLog hio hindex durable
  rw [Bool.not_eq_true] at hio
  simp only [habstract]
  cases encodeLogEntry entry with
  | error error => exact ⟨[], durable, hd, rfl⟩
  | ok bytes =>
    dsimp only
    by_cases hroom : offMax < store.fileSize ∨ offMax - store.fileSize < bytes.length
    · simp only [if_pos hroom]
      exact ⟨[], durable, hd, rfl⟩
    · simp only [if_neg hroom]
      generalize writeExact store.script store.file bytes store.fileSize = r
      obtain ⟨written, file, script⟩ := r
      cases written with
      | false => exact rollback_refines hd hio file script rfl rfl
      | true =>
        dsimp only
        generalize syncFile script file = r
        obtain ⟨synced, file', script'⟩ := r
        cases synced with
        | false => exact rollback_refines hd hio file' script' rfl rfl
        | true =>
          refine ⟨[], durable ++ [entry], fun _ => ?_, rfl⟩
          rw [hd hio, log, log, List.map_append, List.map_singleton]

/-- Cutting the file refines cutting the list of entries. -/
theorem truncateSuffix_refines {durable : List LogEntry} (hd : store.Recovers durable)
    (firstIndexToRemove : ℕ) : ∃ outcomes durable',
      (store.truncateSuffix firstIndexToRemove).1.Recovers durable' ∧
      (store.toLog durable outcomes).truncateSuffix firstIndexToRemove =
        ((store.truncateSuffix firstIndexToRemove).1.toLog durable' [],
          (store.truncateSuffix firstIndexToRemove).2) := by
  by_cases hio : store.ioFailed = true
  · have hstore : store.truncateSuffix firstIndexToRemove = (store, .ioError) := if_pos hio
    rw [hstore]
    exact ⟨[], durable, hd, if_pos hio⟩
  by_cases hrange : firstIndexToRemove = 0 ∨ store.lastIndex + 1 < firstIndexToRemove
  · have hstore : store.truncateSuffix firstIndexToRemove = (store, .invalidIndex) :=
      (if_neg hio).trans (if_pos hrange)
    rw [hstore]
    exact ⟨[], durable, hd, (if_neg hio).trans (if_pos hrange)⟩
  by_cases hnext : firstIndexToRemove = store.lastIndex + 1
  · have hstore : store.truncateSuffix firstIndexToRemove = (store, .truncated) :=
      ((if_neg hio).trans (if_neg hrange)).trans (if_pos hnext)
    rw [hstore]
    exact ⟨[], durable, hd, ((if_neg hio).trans (if_neg hrange)).trans (if_pos hnext)⟩
  unfold truncateSuffix
  dsimp only
  rw [if_neg hio, if_neg hrange, if_neg hnext]
  generalize hoffset :
    (store.entries[firstIndexToRemove - 1]?.map StoredEntry.byteOffset).getD 0 = offset
  have habstract := truncateSuffix_toLog hio hrange hnext hoffset durable
  rw [Bool.not_eq_true] at hio
  simp only [habstract]
  generalize truncateFile store.script store.file offset = r
  obtain ⟨truncated, file, script⟩ := r
  cases truncated with
  | false => exact ⟨[.failed], durable, fun hfalse => (by cases hfalse), rfl⟩
  | true =>
    dsimp only
    generalize syncFile script file = r
    obtain ⟨synced, file', script'⟩ := r
    cases synced with
    | false => exact ⟨[.failed], durable, fun hfalse => (by cases hfalse), rfl⟩
    | true =>
      refine ⟨[], durable.take (firstIndexToRemove - 1), fun _ => ?_, rfl⟩
      rw [hd hio, log, log, List.map_take]

/-! ## Runs -/

/-- A call of the store. -/
inductive Call
  | append (entry : LogEntry)
  | truncateSuffix (firstIndexToRemove : ℕ)

/-- The state behind a call. -/
def call (store : FileLog) : Call → FileLog
  | .append entry => (store.append entry).1
  | .truncateSuffix firstIndexToRemove => (store.truncateSuffix firstIndexToRemove).1

/-- The call reports success. -/
def Reports (store : FileLog) : Call → Prop
  | .append entry => (store.append entry).2 = .appended
  | .truncateSuffix firstIndexToRemove =>
    (store.truncateSuffix firstIndexToRemove).2 = .truncated

/-- The log that a call is to lead to. -/
def Call.result (log : List LogEntry) : Call → List LogEntry
  | .append entry => log ++ [entry]
  | .truncateSuffix firstIndexToRemove => log.take (firstIndexToRemove - 1)

def run (store : FileLog) (calls : List Call) : FileLog := calls.foldl call store

theorem guarantee_of_call (h : store.Sound) (c : Call) :
    Guarantee store (store.call c) (store.Reports c) (c.result store.log) := by
  cases c with
  | append entry => exact append_guarantee h entry
  | truncateSuffix firstIndexToRemove => exact truncateSuffix_guarantee h firstIndexToRemove

theorem run_sound (h : store.Sound) (calls : List Call) : (store.run calls).Sound := by
  induction calls generalizing store with
  | nil => exact h
  | cons c calls ih => exact ih (guarantee_of_call h c).sound

theorem run_frozen (h : store.Sound) (hio : store.ioFailed = true) (calls : List Call) :
    (store.run calls).file = store.file ∧ (store.run calls).entries = store.entries := by
  induction calls generalizing store with
  | nil => exact ⟨rfl, rfl⟩
  | cons c calls ih =>
    have hc := guarantee_of_call h c
    obtain ⟨hfile, hentries, hio', -⟩ := hc.frozen hio
    obtain ⟨hfile', hentries'⟩ := ih hc.sound hio'
    exact ⟨hfile'.trans hfile, hentries'.trans hentries⟩

theorem sound_of_openWith {content : Bytes} {script : List IoOutcome}
    (hopen : openWith content script = .ok store) : store.Sound := by
  unfold openWith at hopen
  split at hopen
  · cases hopen
  next log hlog =>
  obtain ⟨es, hes, rfl⟩ := PersistentLog.openFile_eq_ok_iff.1 hlog
  obtain ⟨-, hindex, hencode⟩ := PersistentLog.records_iff.1 hes
  obtain rfl := Except.ok.inj hopen
  refine ⟨fun k stored hk => ?_, fun _ => ⟨content, ?_, ?_, rfl, rfl, rfl⟩⟩
  · have hmap : ∀ n, ((PersistentLog.storedEntries 0 es).take n).map
        (fun stored => PersistentLog.recordSize stored.logEntry) =
          (es.take n).map PersistentLog.recordSize := fun n => by
      rw [← PersistentLog.map_storedEntries 0 es, ← List.map_take, List.map_map,
        PersistentLog.map_storedEntries]
      rfl
    rw [PersistentLog.openFrom, PersistentLog.getElem?_storedEntries] at hk
    obtain ⟨e, he, rfl⟩ := Option.map_eq_some_iff.1 hk
    refine ⟨by simpa using hindex k e he, ?_⟩
    rw [PersistentLog.openFrom, hmap, Nat.zero_add]
  · rw [log, PersistentLog.openFrom, PersistentLog.map_storedEntries]
    exact hencode
  · rw [PersistentLog.openFrom, hes.length_eq]

/-- **The log store stays consistent with its file**: after every sequence of calls of a store that
has been opened, and whatever becomes of the calls on the file, the entries have the indices from
one on and the offsets of their records, the file holds their records unless `ioFailed` is set,
the next call keeps its guarantee (one that reports success has appended its entry or cut the log,
and the records are synced), and once `ioFailed` is set no later call changes anything. -/
theorem consistent_with_file {content : Bytes} {script : List IoOutcome}
    (hopen : openWith content script = .ok store) (calls : List Call) :
    (store.run calls).Sound ∧
      (∀ c, Guarantee (store.run calls) ((store.run calls).call c) ((store.run calls).Reports c)
        (c.result (store.run calls).log)) ∧
      ((store.run calls).ioFailed = true → ∀ later,
        ((store.run calls).run later).file = (store.run calls).file ∧
          ((store.run calls).run later).entries = (store.run calls).entries) := by
  have hsound := run_sound (sound_of_openWith hopen) calls
  exact ⟨hsound, fun c => guarantee_of_call hsound c, fun hio later => run_frozen hsound hio later⟩

/-- An empty file. A write in two parts, one in a single part, a cut, and then a write that stops
after five bytes and whose rollback fails. -/
def tornStart : FileLog :=
  { file := { content := [] }
    script := [.done 5, .interrupted, .done 100, .done 0, .done 100, .interrupted, .done 0,
      .interrupted, .done 0, .done 0, .done 5, .failed [], .failed []] }

/-- Two entries are appended and the second is cut off; then the file is left in doubt. -/
theorem consistent_with_file_torn :
    ((tornStart.run [.append ⟨1, 1, {}⟩, .append ⟨2, 1, {}⟩]).log = [⟨1, 1, {}⟩, ⟨2, 1, {}⟩] ∧
        ∃ content, encodeEntries [⟨1, 1, {}⟩, ⟨2, 1, {}⟩] = .ok content ∧
          (tornStart.run [.append ⟨1, 1, {}⟩, .append ⟨2, 1, {}⟩]).file.Holds content) ∧
      ((tornStart.run [.append ⟨1, 1, {}⟩, .append ⟨2, 1, {}⟩, .truncateSuffix 2]).log =
          [⟨1, 1, {}⟩] ∧
        ∃ content, encodeEntries [⟨1, 1, {}⟩] = .ok content ∧
          (tornStart.run [.append ⟨1, 1, {}⟩, .append ⟨2, 1, {}⟩, .truncateSuffix 2]).file.Holds
            content) ∧
      ∀ later, ((tornStart.run [.append ⟨1, 1, {}⟩, .append ⟨2, 1, {}⟩, .truncateSuffix 2,
          .append ⟨2, 2, {}⟩]).run later).log = [⟨1, 1, {}⟩] := by
  have hopen : openWith [] tornStart.script = .ok tornStart := by
    rw [openWith, PersistentLog.openFile, PersistentLog.readRecords]
    rfl
  have hfirst : (tornStart.run [.append ⟨1, 1, {}⟩]).log = [⟨1, 1, {}⟩] := by decide +kernel
  have happended := ((consistent_with_file hopen [.append ⟨1, 1, {}⟩]).2.1
    (.append ⟨2, 1, {}⟩)).success (show (FileLog.append _ _).2 = .appended by decide +kernel)
  rw [hfirst] at happended
  have htruncated := ((consistent_with_file hopen [.append ⟨1, 1, {}⟩, .append ⟨2, 1, {}⟩]).2.1
    (.truncateSuffix 2)).success (show (FileLog.truncateSuffix _ _).2 = .truncated by
      decide +kernel)
  have htwo : (tornStart.run [.append ⟨1, 1, {}⟩, .append ⟨2, 1, {}⟩]).log =
      [⟨1, 1, {}⟩, ⟨2, 1, {}⟩] := happended.1
  rw [htwo] at htruncated
  have hfailed := ((consistent_with_file hopen [.append ⟨1, 1, {}⟩, .append ⟨2, 1, {}⟩,
    .truncateSuffix 2]).2.1 (.append ⟨2, 2, {}⟩)).failed
      (show ¬ (FileLog.append _ _).2 = .appended by decide +kernel)
  refine ⟨happended, htruncated, fun later => ?_⟩
  obtain ⟨-, hentries⟩ := (consistent_with_file hopen [.append ⟨1, 1, {}⟩, .append ⟨2, 1, {}⟩,
    .truncateSuffix 2, .append ⟨2, 2, {}⟩]).2.2 (by decide +kernel) later
  rw [log, hentries]
  exact (congrArg (List.map StoredEntry.logEntry) hfailed).trans htruncated.1

end FileLog

end DistributedKV
