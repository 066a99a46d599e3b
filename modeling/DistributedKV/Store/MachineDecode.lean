import DistributedKV.Foundations.Checked
import DistributedKV.Store.LogFile
import DistributedKV.Store.MetadataCodec

/-!
# The record decoders, access by access

`decode_command`, `decode_log_entry` and `decode_raft_metadata` with every access to the input and
every computation of a size as the source makes it. Whatever the input is, none of them goes wrong,
and they compute what the decoders of the other modules compute.
-/

namespace DistributedKV.Machine

open ByteCodec Checked

/-! ## Numbers -/

/-- `read_u32` and `read_u64` of the codecs: a loop that shifts in one byte after the other, as many
as the number has. -/
def readNumber (n : ℕ) (input : Bytes) (offset : ℕ) : Checked ℕ :=
  (List.range n).foldlM (fun value index => do
    let i ← add offset index
    let byte ← read input i
    .ok (value <<< 8 ||| byte.toNat)) 0

/-- `read_u32` of `command_codec.cpp`. -/
def readU32Unrolled (input : Bytes) (offset : ℕ) : Checked ℕ := do
  let byte0 ← read input offset
  let i ← add offset 1
  let byte1 ← read input i
  let i ← add offset 2
  let byte2 ← read input i
  let i ← add offset 3
  let byte3 ← read input i
  .ok (byte0.toNat <<< 24 ||| byte1.toNat <<< 16 ||| byte2.toNat <<< 8 ||| byte3.toNat)

theorem field_succ {input : Bytes} {offset n : ℕ} (h : offset + n < input.length) :
    field input offset (n + 1) = field input offset n ++ [input.getD (offset + n) 0] := by
  rw [← field_one h, field_append_field rfl]

/-- **A number in the input** is read without a fault. -/
theorem readNumber_eq {n : ℕ} {input : Bytes} {offset : ℕ} (h : offset + n ≤ input.length)
    (hw : offset + n ≤ 2 ^ 64) :
    readNumber n input offset = .ok (value (field input offset n)) := by
  refine foldlM_range (fun k => value (field input offset k)) fun k hk => ?_
  rw [add_eq (by omega), ok_bind, read_eq (by omega) 0, ok_bind, field_succ (by omega), value,
    value, List.foldl_append]
  rfl

theorem readU32Unrolled_eq {input : Bytes} {offset : ℕ} (h : offset + 4 ≤ input.length)
    (hw : offset + 4 ≤ 2 ^ 64) : readU32Unrolled input offset = .ok (readU32 input offset) := by
  have hfield : field input offset 4 = [input.getD offset 0, input.getD (offset + 1) 0,
      input.getD (offset + 2) 0, input.getD (offset + 3) 0] := by
    rw [field_succ (by omega), field_succ (by omega), field_succ (by omega), field_one (by omega)]
    rfl
  rw [readU32Unrolled, read_eq (by omega) 0, ok_bind, add_eq (by omega), ok_bind,
    read_eq (by omega) 0, ok_bind, add_eq (by omega), ok_bind, read_eq (by omega) 0, ok_bind,
    add_eq (by omega), ok_bind, read_eq (by omega) 0, ok_bind, readU32, hfield, value]
  simp only [List.foldl_cons, List.foldl_nil, Nat.shiftLeft_or_distrib, ← Nat.shiftLeft_add,
    Nat.zero_shiftLeft, Nat.zero_or]

/-! ## Bytes -/

theorem read_byteOf {input : Bytes} {i : ℕ} (h : i < input.length) :
    read input i = .ok (byteOf input i) :=
  read_eq h 0

/-- The loop over a magic number, from a position on. -/
def hasMagic (input : Bytes) : ℕ → Bytes → Checked Bool
  | _, [] => .ok true
  | i, octet :: magic => do
    let byte ← read input i
    if byte ≠ octet then .ok false
    else
      let i ← add i 1
      hasMagic input i magic

theorem hasMagic_eq {input : Bytes} {i : ℕ} {magic : Bytes} (h : i + magic.length ≤ input.length)
    (hw : i + magic.length < 2 ^ 64) :
    hasMagic input i magic = .ok (decide (field input i magic.length = magic)) := by
  induction magic generalizing i with
  | nil => rfl
  | cons octet magic ih =>
    rw [List.length_cons] at h hw
    have hfield : field input i (magic.length + 1) =
        byteOf input i :: field input (i + 1) magic.length := by
      rw [Nat.add_comm, ← field_append_field rfl, field_one (by omega)]
      rfl
    rw [hasMagic, read_byteOf (by omega), ok_bind, List.length_cons, hfield]
    by_cases hbyte : byteOf input i = octet
    · rw [if_neg (not_not.2 hbyte), add_eq (by omega), ok_bind, ih (by omega) (by omega), hbyte]
      simp
    · rw [if_pos hbyte]
      simp [hbyte]

/-- The loop over the octets of a request id. -/
def readRequestId (input : Bytes) (offset : ℕ) : Checked (Option RequestId) := do
  let octets ← (List.range requestIdSize).foldlM (fun octets index => do
    let i ← add offset index
    let byte ← read input i
    .ok (octets ++ [byte])) []
  .ok (if h : octets.length = 16 then some ⟨octets, h⟩ else none)

theorem readRequestId_eq {input : Bytes} {offset : ℕ} (h : offset + requestIdSize ≤ input.length)
    (hw : offset + requestIdSize ≤ 2 ^ 64) :
    readRequestId input offset = .ok (DistributedKV.readRequestId input offset) := by
  have hoctets : (List.range requestIdSize).foldlM (fun octets index => do
      let i ← add offset index
      let byte ← read input i
      .ok (octets ++ [byte])) [] = (.ok (field input offset requestIdSize) : Checked Bytes) := by
    refine foldlM_range (fun k => field input offset k) fun k hk => ?_
    rw [add_eq (by omega), ok_bind, read_eq (by omega) 0, ok_bind, field_succ (by omega)]
  rw [readRequestId, hoctets, ok_bind]
  rfl

/-! ## Commands -/

/-- The request id, if the version says that there is one. -/
def readId (hasRequestId : Bool) (bytes : Bytes) : Checked (Option RequestId) :=
  if hasRequestId then readRequestId bytes commandHeaderSize else .ok none

theorem readId_eq {hasRequestId : Bool} {bytes : Bytes}
    (h : commandHeaderSize + (if hasRequestId then requestIdSize else 0) ≤ bytes.length) :
    readId hasRequestId bytes = .ok
      (if hasRequestId then DistributedKV.readRequestId bytes commandHeaderSize else none) := by
  cases hasRequestId with
  | false => rfl
  | true => exact readRequestId_eq h (by decide)

def decodeCommand (bytes : Bytes) : Checked (Except CommandCodecError Command) :=
  if bytes.length < commandHeaderSize then .ok (.error .inputTooShort)
  else do
    let version ← read bytes 0
    if version ≠ 1 ∧ version ≠ 2 then .ok (.error .unsupportedVersion)
    else
      let hasRequestId : Bool := version = 2
      let actualHeaderSize ← add commandHeaderSize (if hasRequestId then requestIdSize else 0)
      if bytes.length < actualHeaderSize then .ok (.error .inputTooShort)
      else
        let tag ← read bytes 1
        match commandTypeOf tag with
        | none => .ok (.error .unknownCommandType)
        | some type =>
          let keySize ← readU32Unrolled bytes 2
          let valueSize ← readU32Unrolled bytes 6
          let payloadSize ← sub bytes.length actualHeaderSize
          if payloadSize < keySize then .ok (.error .truncatedPayload)
          else
            let rest ← sub payloadSize keySize
            if rest < valueSize then .ok (.error .truncatedPayload)
            else
              let rest ← sub payloadSize keySize
              if valueSize < rest then .ok (.error .trailingBytes)
              else
                let requestId ← readId hasRequestId bytes
                let valueOffset ← add actualHeaderSize keySize
                let key ← slice bytes actualHeaderSize keySize
                let value ← slice bytes valueOffset valueSize
                if type = .delete ∧ value ≠ [] then .ok (.error .invalidCommand)
                else if type = .noOp ∧ (value ≠ [] ∨ key ≠ [] ∨ requestId.isSome) then
                  .ok (.error .invalidCommand)
                else .ok (.ok ⟨type, key, value, requestId⟩)

/-- **Commands** are decoded without a fault. -/
theorem decodeCommand_eq (bytes : Bytes) :
    decodeCommand bytes = .ok (DistributedKV.decodeCommand bytes) := by
  unfold decodeCommand DistributedKV.decodeCommand
  refine ite_eq_ok fun hshort => ?_
  rw [commandHeaderSize] at hshort
  rw [read_byteOf (by omega), ok_bind]
  refine ite_eq_ok fun _ => ?_
  dsimp only
  -- the header ends where the version says
  generalize hversion : decide (byteOf bytes 0 = 2) = hasRequestId
  have hheader : (if hasRequestId = true then requestIdSize else 0) ≤ 16 := by
    split_ifs <;> simp [requestIdSize]
  rw [add_eq (by rw [commandHeaderSize]; omega), ok_bind]
  refine ite_eq_ok fun hheaderSize => ?_
  rw [read_byteOf (by omega), ok_bind]
  cases commandTypeOf (byteOf bytes 1) with
  | none => rfl
  | some type =>
    dsimp only
    rw [readU32Unrolled_eq (by omega) (by omega), ok_bind,
      readU32Unrolled_eq (by omega) (by omega), ok_bind, sub_eq (by omega), ok_bind]
    refine ite_eq_ok fun hkey => ?_
    rw [sub_eq (by omega), ok_bind]
    refine ite_eq_ok fun hvalue => ?_
    rw [ok_bind]
    refine ite_eq_ok fun htrailing => ?_
    have hkeySize := readU32_lt bytes 2
    rw [uint32Max] at hkeySize
    rw [readId_eq (by omega), ok_bind, add_eq (by rw [commandHeaderSize]; omega), ok_bind,
      slice_eq (by omega), ok_bind, slice_eq (by omega), ok_bind]
    refine ite_eq_ok fun _ => ?_
    exact ite_eq_ok fun _ => rfl

/-! ## Log entries -/

def decodeLogEntry (bytes : Bytes) : Checked (Except LogEntryCodecError DecodedLogEntry) :=
  if bytes.length < prefixSize then .ok (.error .inputTooShort)
  else do
    let magic ← hasMagic bytes 0 (recordMagic.take 4)
    if magic = false then .ok (.error .invalidMagic)
    else
      let version ← read bytes 4
      if version ≠ 1 then .ok (.error .unsupportedVersion)
      else
        let bodySize ← readNumber 4 bytes 5
        let minimumBodySize ← add entryMetadataSize minimumEncodedCommandSize
        if bodySize < minimumBodySize then .ok (.error .invalidLength)
        else
          let bytesAfterPrefix ← sub bytes.length prefixSize
          if bytesAfterPrefix < bodySize then .ok (.error .truncatedRecord)
          else
            let bytesAfterBody ← sub bytesAfterPrefix bodySize
            if bytesAfterBody < checksumSize then .ok (.error .truncatedRecord)
            else
              let checksumOffset ← add prefixSize bodySize
              let storedChecksum ← readNumber 4 bytes checksumOffset
              let front ← slice bytes 0 checksumOffset
              if storedChecksum ≠ (crc32 front).toNat then .ok (.error .checksumMismatch)
              else
                let index ← readNumber 8 bytes prefixSize
                let termOffset ← add prefixSize 8
                let term ← readNumber 8 bytes termOffset
                if index = 0 ∨ term = 0 then .ok (.error .invalidEntry)
                else
                  let commandOffset ← add prefixSize entryMetadataSize
                  let commandSize ← sub bodySize entryMetadataSize
                  let commandBytes ← slice bytes commandOffset commandSize
                  match ← decodeCommand commandBytes with
                  | .error _ => .ok (.error .invalidCommand)
                  | .ok command =>
                    let recordSize ← add checksumOffset checksumSize
                    .ok (.ok ⟨⟨index, term, command⟩, recordSize⟩)

/-- **Records** are decoded without a fault. -/
theorem decodeLogEntry_eq (bytes : Bytes) :
    decodeLogEntry bytes = .ok (DistributedKV.decodeLogEntry bytes) := by
  unfold decodeLogEntry DistributedKV.decodeLogEntry
  refine ite_eq_ok fun hshort => ?_
  rw [prefixSize] at hshort ⊢
  have hlength : (recordMagic.take 4).length = 4 := rfl
  rw [hasMagic_eq (by rw [hlength]; omega) (by rw [hlength]; omega), ok_bind, hlength]
  simp only [decide_eq_false_iff_not]
  refine ite_eq_ok fun _ => ?_
  rw [read_byteOf (by omega), ok_bind]
  refine ite_eq_ok fun _ => ?_
  rw [readNumber_eq (by omega) (by omega), ok_bind, add_eq (by decide), ok_bind, ← readU32]
  have hbody := readU32_lt bytes 5
  rw [uint32Max] at hbody
  refine ite_eq_ok fun hminimum => ?_
  rw [entryMetadataSize, minimumEncodedCommandSize] at hminimum
  rw [sub_eq (by omega), ok_bind]
  refine ite_eq_ok fun hprefix => ?_
  rw [sub_eq (by omega), ok_bind]
  refine ite_eq_ok fun hchecksum => ?_
  rw [checksumSize] at hchecksum ⊢
  rw [add_eq (by omega), ok_bind, readNumber_eq (by omega) (by omega), ok_bind,
    slice_eq (by omega), ok_bind]
  refine ite_eq_ok fun _ => ?_
  rw [readNumber_eq (by omega) (by omega), ok_bind, add_eq (by decide), ok_bind,
    readNumber_eq (by omega) (by omega), ok_bind]
  refine ite_eq_ok fun _ => ?_
  rw [entryMetadataSize, add_eq (by decide), ok_bind, sub_eq (by omega), ok_bind,
    slice_eq (by omega), ok_bind, decodeCommand_eq, ok_bind, ← field]
  cases DistributedKV.decodeCommand (field bytes (9 + 16) (readU32 bytes 5 - 16)) with
  | error e => rfl
  | ok command =>
    dsimp only
    rw [add_eq (by omega), ok_bind]
    rfl

/-! ## Term and vote -/

def decodeRaftMetadata (bytes : Bytes) : Checked (Except RaftMetadataCodecError RaftMetadata) :=
  if bytes.length < raftMetadataRecordSize then .ok (.error .truncatedRecord)
  else if raftMetadataRecordSize < bytes.length then .ok (.error .invalidLength)
  else do
    let magic ← hasMagic bytes 0 (metadataMagic.take 4)
    if magic = false then .ok (.error .invalidMagic)
    else
      let version ← read bytes 4
      if version ≠ 1 then .ok (.error .unsupportedVersion)
      else
        let storedChecksum ← readNumber 4 bytes metadataChecksumOffset
        let front ← slice bytes 0 metadataChecksumOffset
        if storedChecksum ≠ (crc32 front).toNat then .ok (.error .checksumMismatch)
        else
          let termBytes ← slice bytes 5 8
          let term ← readNumber 8 termBytes 0
          let presence ← read bytes 13
          if presence ≠ 0 ∧ presence ≠ 1 then .ok (.error .invalidVote)
          else
            let candidateBytes ← slice bytes 14 8
            let candidate ← readNumber 8 candidateBytes 0
            if presence = 0 ∧ candidate ≠ 0 ∨ presence = 1 ∧ term = 0 then
              .ok (.error .invalidVote)
            else .ok (.ok ⟨term, if presence = 1 then some candidate else none⟩)

/-- A number that fills a part of the input. -/
theorem readNumber_part {n : ℕ} {input : Bytes} {offset : ℕ} (h : offset + n ≤ input.length)
    (hw : n ≤ 2 ^ 64) :
    readNumber n ((input.drop offset).take n) 0 = .ok (value (field input offset n)) := by
  have hlength : (field input offset n).length = n := length_field h
  rw [← field, readNumber_eq (by omega) (by omega), field_zero hlength.symm]

/-- **Records of the term and the vote** are decoded without a fault. -/
theorem decodeRaftMetadata_eq (bytes : Bytes) :
    decodeRaftMetadata bytes = .ok (DistributedKV.decodeRaftMetadata bytes) := by
  unfold decodeRaftMetadata DistributedKV.decodeRaftMetadata
  refine ite_eq_ok fun hshort => ite_eq_ok fun hlong => ?_
  rw [raftMetadataRecordSize] at hshort hlong
  have hlength : (metadataMagic.take 4).length = 4 := rfl
  have hoffset : metadataChecksumOffset = 22 := rfl
  rw [hasMagic_eq (by rw [hlength]; omega) (by rw [hlength]; omega), ok_bind, hlength]
  simp only [decide_eq_false_iff_not]
  refine ite_eq_ok fun _ => ?_
  rw [read_byteOf (by omega), ok_bind]
  refine ite_eq_ok fun _ => ?_
  rw [hoffset, readNumber_eq (by omega) (by omega), ok_bind, slice_eq (by omega), ok_bind]
  refine ite_eq_ok fun _ => ?_
  rw [slice_eq (by omega), ok_bind, readNumber_part (by omega) (by omega), ok_bind,
    read_byteOf (by omega), ok_bind]
  refine ite_eq_ok fun _ => ?_
  rw [slice_eq (by omega), ok_bind, readNumber_part (by omega) (by omega), ok_bind]
  exact ite_eq_ok fun _ => rfl

/-! ## The log file -/

/-- One round of the loop of `PersistentLog::open`. -/
def openRound (view : Bytes) : ℕ × List StoredEntry →
    Checked ((ℕ × List StoredEntry) ⊕ Except PersistentLogOpenError (List StoredEntry))
  | (offset, entries) =>
    if offset < view.length then do
      let rest ← sub view.length offset
      let remaining ← slice view offset rest
      match ← decodeLogEntry remaining with
      | .error codecError =>
        if codecError = .inputTooShort ∨ codecError = .truncatedRecord then
          .ok (.inr (.error .truncatedRecord))
        else .ok (.inr (.error .corruptRecord))
      | .ok decoded =>
        if decoded.bytesConsumed = 0 ∨ remaining.length < decoded.bytesConsumed then
          .ok (.inr (.error .corruptRecord))
        else
          let next ← add entries.length 1
          if decoded.entry.index ≠ next then .ok (.inr (.error .nonSequentialIndex))
          else
            let end_ ← add offset decoded.bytesConsumed
            .ok (.inl (end_, entries ++ [⟨decoded.entry, offset⟩]))
    else .ok (.inr (.ok entries))

/-- The loop of `PersistentLog::open`, which a file of `n` bytes keeps busy for `n + 1` rounds at
most. -/
def readRecords (view : Bytes) : Checked (Except PersistentLogOpenError (List StoredEntry)) :=
  loop (openRound view) (view.length + 1) (0, [])

/-- **A log file** is read without a fault, if its size is a 64-bit number. -/
theorem readRecords_eq {view : Bytes} (h : view.length < 2 ^ 64) :
    readRecords view = .ok (PersistentLog.readRecords view 0 []) := by
  refine loop_eq (fun s : ℕ × List StoredEntry => s.1 ≤ view.length ∧ s.2.length ≤ s.1)
    (fun s => view.length - s.1) (fun s => PersistentLog.readRecords (view.drop s.1) s.1 s.2) ?_
    ⟨Nat.zero_le _, le_rfl⟩ (Nat.lt_succ_of_le (Nat.sub_le _ _))
  rintro ⟨offset, entries⟩ ⟨hoffset, hentries⟩
  dsimp only at hoffset hentries ⊢
  rw [openRound, PersistentLog.readRecords]
  by_cases hlt : offset < view.length
  swap
  · have hnil : view.drop offset = [] := List.drop_eq_nil_of_le (not_lt.1 hlt)
    rw [if_neg hlt, if_pos hnil]
    exact Or.inl rfl
  have hnil : view.drop offset ≠ [] := by
    rw [Ne, List.drop_eq_nil_iff]
    omega
  have hremaining : (view.drop offset).take (view.length - offset) = view.drop offset :=
    List.take_of_length_le (List.length_drop ▸ le_rfl)
  rw [if_pos hlt, if_neg hnil, sub_eq hlt.le, ok_bind, slice_eq (by omega), ok_bind, hremaining,
    decodeLogEntry_eq, ok_bind]
  cases DistributedKV.decodeLogEntry (view.drop offset) with
  | error codecError =>
    dsimp only
    split_ifs <;> exact Or.inl rfl
  | ok decoded =>
    dsimp only
    by_cases hsize : decoded.bytesConsumed = 0 ∨
        (view.drop offset).length < decoded.bytesConsumed
    · rw [if_pos hsize, if_pos hsize]
      exact Or.inl rfl
    rw [if_neg hsize, if_neg hsize, add_eq (by omega), ok_bind]
    rw [not_or, List.length_drop, not_lt] at hsize
    by_cases hindex : decoded.entry.index = entries.length + 1
    swap
    · rw [if_pos hindex, if_pos hindex]
      exact Or.inl rfl
    rw [if_neg (not_not.2 hindex), if_neg (not_not.2 hindex), add_eq (by omega), ok_bind,
      List.drop_drop]
    refine Or.inr ⟨_, rfl, ⟨?_, ?_⟩, ?_, rfl⟩
    · dsimp only
      omega
    · rw [List.length_append, List.length_singleton]
      omega
    · dsimp only
      omega

end DistributedKV.Machine
