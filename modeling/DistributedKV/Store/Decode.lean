import DistributedKV.Foundations.ByteCodec
import DistributedKV.Store.Codec

/-!
# The record decoders

The decoding halves of `command_codec.cpp` and `log_entry_codec.cpp`. A decoder accepts exactly
what its encoder produces: `decodeCommand_eq_ok_iff` for commands, `decodeLogEntry_eq_ok_iff` for
records at the front of a byte string. A record that is cut short is never misread.
-/

namespace DistributedKV

open ByteCodec

/-- `input[offset]`, which the source reads only where it exists. -/
def byteOf (input : Bytes) (offset : ℕ) : UInt8 := input.getD offset 0

def readU32 (input : Bytes) (offset : ℕ) : ℕ := value (field input offset 4)

def readU64 (input : Bytes) (offset : ℕ) : ℕ := value (field input offset 8)

theorem appendU32_eq (output : Bytes) (v : ℕ) : appendU32 output v = output ++ digits 4 v := by
  simp [appendU32, byteAt, digits, Nat.shiftRight_eq_div_pow]

theorem appendU64_eq (output : Bytes) (v : ℕ) : appendU64 output v = output ++ digits 8 v := by
  simp [appendU64, byteAt, digits, Nat.shiftRight_eq_div_pow]

theorem readU32_lt (input : Bytes) (offset : ℕ) : readU32 input offset ≤ uint32Max := by
  have h := value_lt (field input offset 4)
  have hl : (field input offset 4).length ≤ 4 := List.length_take_le _ _
  have hp := Nat.pow_le_pow_right (show 0 < 256 by omega) hl
  rw [readU32, uint32Max]
  omega

theorem readU64_lt (input : Bytes) (offset : ℕ) : readU64 input offset < 2 ^ 64 := by
  have h := value_lt (field input offset 8)
  have hl : (field input offset 8).length ≤ 8 := List.length_take_le _ _
  have hp := Nat.pow_le_pow_right (show 0 < 256 by omega) hl
  rw [readU64]
  omega

/-! ## Commands -/

def commandHeaderSize : ℕ := 10

def requestIdSize : ℕ := 16

/-- The type of a tag. -/
def commandTypeOf (tag : UInt8) : Option CommandType :=
  if tag = 1 then some .put
  else if tag = 2 then some .delete
  else if tag = 3 then some .noOp
  else none

/-- The sixteen octets at an offset. -/
def readRequestId (input : Bytes) (offset : ℕ) : Option RequestId :=
  if h : (field input offset requestIdSize).length = 16 then some ⟨_, h⟩ else none

theorem readRequestId_eq_some_iff {input : Bytes} {offset : ℕ} {id : RequestId} :
    readRequestId input offset = some id ↔ field input offset requestIdSize = id.bytes := by
  obtain ⟨octets, hsize⟩ := id
  unfold readRequestId
  split_ifs with h
  · simp
  · simp only [false_iff]
    rintro rfl
    exact h hsize

def decodeCommand (bytes : Bytes) : Except CommandCodecError Command :=
  if bytes.length < commandHeaderSize then .error .inputTooShort
  else if byteOf bytes 0 ≠ 1 ∧ byteOf bytes 0 ≠ 2 then .error .unsupportedVersion
  else
    let hasRequestId : Bool := byteOf bytes 0 = 2
    let actualHeaderSize := commandHeaderSize + if hasRequestId then requestIdSize else 0
    if bytes.length < actualHeaderSize then .error .inputTooShort
    else match commandTypeOf (byteOf bytes 1) with
      | none => .error .unknownCommandType
      | some type =>
        let keySize := readU32 bytes 2
        let valueSize := readU32 bytes 6
        let payloadSize := bytes.length - actualHeaderSize
        if payloadSize < keySize then .error .truncatedPayload
        else if payloadSize - keySize < valueSize then .error .truncatedPayload
        else if valueSize < payloadSize - keySize then .error .trailingBytes
        else
          let requestId := if hasRequestId then readRequestId bytes commandHeaderSize else none
          let key := field bytes actualHeaderSize keySize
          let value := field bytes (actualHeaderSize + keySize) valueSize
          if type = .delete ∧ value ≠ [] then .error .invalidCommand
          else if type = .noOp ∧ (value ≠ [] ∨ key ≠ [] ∨ requestId.isSome) then
            .error .invalidCommand
          else .ok ⟨type, key, value, requestId⟩

/-- The octets of an optional request id. -/
def idBytes : Option RequestId → Bytes
  | some id => id.bytes
  | none => []

/-- The frame of a command with this tag. -/
def commandFrame (command : Command) (tag : UInt8) : Bytes :=
  [commandVersion command, tag] ++ (digits 4 command.key.length ++
    (digits 4 command.value.length ++ (idBytes command.requestId ++
      (command.key ++ command.value))))

theorem encodeCommand_eq_ok_iff {command : Command} {bytes : Bytes} :
    encodeCommand command = .ok bytes ↔ ∃ tag, commandTag command = .ok tag ∧
      command.key.length ≤ uint32Max ∧ command.value.length ≤ uint32Max ∧
      bytes = commandFrame command tag := by
  unfold encodeCommand
  cases ht : commandTag command with
  | error e => simp
  | ok tag =>
    dsimp only
    split_ifs with hbig
    · simp only [false_iff, Except.ok.injEq, not_exists, not_and]
      rintro _ - hk hv
      omega
    · rw [not_or, not_lt, not_lt] at hbig
      have hframe : commandFrame command tag = appendU32 (appendU32 [commandVersion command, tag]
          command.key.length) command.value.length ++ idBytes command.requestId ++ command.key ++
            command.value := by
        simp [commandFrame, appendU32_eq]
      simp only [Except.ok.injEq, hbig, true_and, exists_eq_left', hframe]
      exact eq_comm

/-- The tag of a command and the type of a tag. -/
theorem commandTypeOf_eq_some_iff {tag : UInt8} {type : CommandType} :
    commandTypeOf tag = some type ↔
      tag = match type with | .put => 1 | .delete => 2 | .noOp => 3 := by
  unfold commandTypeOf
  split_ifs with h1 h2 h3
  · subst h1
    cases type <;> simp
  · subst h2
    cases type <;> simp
  · subst h3
    cases type <;> simp
  · cases type <;> simp [h1, h2, h3]

theorem commandTag_eq_ok_iff {command : Command} {tag : UInt8} :
    commandTag command = .ok tag ↔
      commandTypeOf tag = some command.type ∧ command.WellFormed := by
  rw [commandTypeOf_eq_some_iff]
  unfold commandTag Command.WellFormed
  cases command.type with
  | put => simp [eq_comm]
  | delete => by_cases hv : command.value = [] <;> simp [hv, eq_comm]
  | noOp =>
    by_cases hv : command.value = [] <;> by_cases hk : command.key = [] <;>
      cases hr : command.requestId <;> simp [hv, hk, eq_comm]

@[simp] theorem length_idBytes (id : Option RequestId) :
    (idBytes id).length = if id.isSome then requestIdSize else 0 := by
  cases id with
  | none => rfl
  | some id => exact id.size_eq

theorem length_commandFrame (command : Command) (tag : UInt8) :
    (commandFrame command tag).length =
      commandHeaderSize + (if command.requestId.isSome then requestIdSize else 0) +
        command.key.length + command.value.length := by
  simp only [commandFrame, List.length_append, List.length_cons, List.length_nil, length_digits,
    length_idBytes, commandHeaderSize]
  omega

/-- What the decoder reads in the frame of a command. -/
theorem read_commandFrame {command : Command} (tag : UInt8)
    (hk : command.key.length ≤ uint32Max) (hv : command.value.length ≤ uint32Max) :
    readU32 (commandFrame command tag) 2 = command.key.length ∧
    readU32 (commandFrame command tag) 6 = command.value.length ∧
    field (commandFrame command tag) commandHeaderSize (idBytes command.requestId).length =
      idBytes command.requestId ∧
    field (commandFrame command tag) (commandHeaderSize + (idBytes command.requestId).length)
      command.key.length = command.key ∧
    field (commandFrame command tag)
        (commandHeaderSize + (idBytes command.requestId).length + command.key.length)
      command.value.length = command.value := by
  rw [uint32Max] at hk hv
  set version := commandVersion command
  set kd := digits 4 command.key.length with hkd
  set vd := digits 4 command.value.length with hvd
  set id := idBytes command.requestId with hid
  have hkl : kd.length = 4 := length_digits _ _
  have hvl : vd.length = 4 := length_digits _ _
  refine ⟨?_, ?_, ?_, ?_, ?_⟩
  · exact value_part rfl (by omega)
  · have hframe : commandFrame command tag =
        ([version, tag] ++ kd) ++ (vd ++ (id ++ (command.key ++ command.value))) := by
      simp [commandFrame, ← hkd, ← hvd, ← hid, version]
    rw [hframe, hvd]
    exact value_part (by simp [hkl]) (by omega)
  · have hframe : commandFrame command tag =
        ([version, tag] ++ kd ++ vd) ++ (id ++ (command.key ++ command.value)) := by
      simp [commandFrame, ← hkd, ← hvd, ← hid, version]
    rw [hframe]
    exact field_part (by simp [hkl, hvl, commandHeaderSize]) rfl
  · have hframe : commandFrame command tag =
        ([version, tag] ++ kd ++ vd ++ id) ++ (command.key ++ command.value) := by
      simp [commandFrame, ← hkd, ← hvd, ← hid, version]
    rw [hframe]
    exact field_part (by simp [hkl, hvl, commandHeaderSize]; omega) rfl
  · have hframe : commandFrame command tag =
        ([version, tag] ++ kd ++ vd ++ id ++ command.key) ++ (command.value ++ []) := by
      simp [commandFrame, ← hkd, ← hvd, ← hid, version]
    rw [hframe]
    exact field_part (by simp [hkl, hvl, commandHeaderSize]; omega) rfl

theorem decodeCommand_commandFrame {command : Command} {tag : UInt8}
    (ht : commandTypeOf tag = some command.type) (hw : command.WellFormed)
    (hk : command.key.length ≤ uint32Max) (hv : command.value.length ≤ uint32Max) :
    decodeCommand (commandFrame command tag) = .ok command := by
  obtain ⟨h2, h6, h10, hkey, hvalue⟩ := read_commandFrame tag hk hv
  have hlen := length_commandFrame command tag
  have h0 : byteOf (commandFrame command tag) 0 = commandVersion command := rfl
  have h1 : byteOf (commandFrame command tag) 1 = tag := rfl
  have hsome : decide (commandVersion command = 2) = command.requestId.isSome := by
    unfold commandVersion
    cases command.requestId <;> rfl
  have hversion : ¬ (commandVersion command ≠ 1 ∧ commandVersion command ≠ 2) := by
    unfold commandVersion
    cases command.requestId <;> simp
  have hid : (if command.requestId.isSome then
      readRequestId (commandFrame command tag) commandHeaderSize else none) =
        command.requestId := by
    cases hr : command.requestId with
    | none => rfl
    | some id =>
      rw [hr, length_idBytes] at h10
      exact readRequestId_eq_some_iff.2 h10
  rw [length_idBytes] at hkey hvalue
  unfold decodeCommand
  simp only [h0, h1, h2, h6, ht, hsome, hversion, hid, if_false]
  have hle : commandHeaderSize ≤ commandHeaderSize +
      if command.requestId.isSome then requestIdSize else 0 := Nat.le_add_right _ _
  generalize commandHeaderSize + (if command.requestId.isSome then requestIdSize else 0) = header
    at hlen hle hkey hvalue
  rw [hkey, hvalue, if_neg (by omega), if_neg (by omega), if_neg (by omega), if_neg (by omega),
    if_neg (by omega), if_neg, if_neg]
  · rintro ⟨hno, hfields⟩
    rw [Command.WellFormed, hno] at hw
    simp [hw] at hfields
  · rintro ⟨hdelete, hvalue⟩
    rw [Command.WellFormed, hdelete] at hw
    exact hvalue hw

/-- A byte string by the fields of a command, whose last three have the lengths `n`, `k`, `v`. -/
theorem eq_commandFields {bytes : Bytes} {n k v : ℕ}
    (h : bytes.length = commandHeaderSize + n + k + v) :
    bytes = [byteOf bytes 0, byteOf bytes 1] ++ (digits 4 (readU32 bytes 2) ++
      (digits 4 (readU32 bytes 6) ++ (field bytes commandHeaderSize n ++
        (field bytes (commandHeaderSize + n) k ++
          field bytes (commandHeaderSize + n + k) v)))) := by
  rw [commandHeaderSize] at h ⊢
  have hfront : [byteOf bytes 0, byteOf bytes 1] = field bytes 0 2 := by
    rw [← field_append_field (n := 1) (m := 1) rfl, field_one (by omega), field_one (by omega)]
    rfl
  rw [hfront, readU32, readU32, digits_field (by omega), digits_field (by omega)]
  rw [field_append_field rfl, field_append_field rfl, field_append_field rfl,
    field_append_field rfl, field_append_field rfl, field_zero (by omega)]

/-- The request id that the version announces. -/
theorem read_requestId {bytes : Bytes} {n : ℕ} {id : Option RequestId}
    (hversion : ¬ (byteOf bytes 0 ≠ 1 ∧ byteOf bytes 0 ≠ 2))
    (hn : (if decide (byteOf bytes 0 = 2) = true then requestIdSize else 0) = n)
    (hid : (if decide (byteOf bytes 0 = 2) = true then readRequestId bytes commandHeaderSize
      else none) = id) (hlen : commandHeaderSize + n ≤ bytes.length) :
    field bytes commandHeaderSize n = idBytes id ∧
      byteOf bytes 0 = if id.isSome then 2 else 1 := by
  by_cases h2 : byteOf bytes 0 = 2
  · simp only [h2, decide_true, if_true] at hn hid
    subst hn
    have hsize : (field bytes commandHeaderSize requestIdSize).length = 16 := length_field hlen
    rw [readRequestId, dif_pos hsize] at hid
    subst hid
    exact ⟨rfl, h2⟩
  · simp only [h2, decide_false, Bool.false_eq_true, if_false] at hn hid
    subst hn hid
    exact ⟨rfl, by simpa [h2] using hversion⟩

theorem encodeCommand_of_decodeCommand {bytes : Bytes} {command : Command}
    (h : decodeCommand bytes = .ok command) : encodeCommand command = .ok bytes := by
  unfold decodeCommand at h
  split_ifs at h with hshort hversion
  dsimp only at h
  generalize hn : (if decide (byteOf bytes 0 = 2) = true then requestIdSize else 0) = n at h
  generalize hid : (if decide (byteOf bytes 0 = 2) = true then
    readRequestId bytes commandHeaderSize else none) = id at h
  by_cases hheader : bytes.length < commandHeaderSize + n
  · rw [if_pos hheader] at h
    cases h
  rw [if_neg hheader] at h
  cases htype : commandTypeOf (byteOf bytes 1) with
  | none =>
    rw [htype] at h
    cases h
  | some type =>
    rw [htype] at h
    dsimp only at h
    split_ifs at h with hkey hvalue htrailing hdelete hnoOp
    obtain rfl := Except.ok.inj h
    obtain ⟨hfield, hv⟩ := read_requestId hversion hn hid (by omega)
    have hlen : bytes.length = commandHeaderSize + n + readU32 bytes 2 + readU32 bytes 6 := by omega
    have hklen : (field bytes (commandHeaderSize + n) (readU32 bytes 2)).length =
        readU32 bytes 2 := length_field (by omega)
    have hvlen : (field bytes (commandHeaderSize + n + readU32 bytes 2)
        (readU32 bytes 6)).length = readU32 bytes 6 := length_field (by omega)
    refine encodeCommand_eq_ok_iff.2 ⟨byteOf bytes 1, commandTag_eq_ok_iff.2 ⟨htype, ?_⟩,
      hklen.trans_le (readU32_lt _ _), hvlen.trans_le (readU32_lt _ _), ?_⟩
    · cases type with
      | put => trivial
      | delete => simpa [Command.WellFormed] using hdelete
      | noOp =>
        simp only [true_and, ne_eq, not_or, not_not, Bool.not_eq_true,
          Option.isSome_eq_false_iff, Option.isNone_iff_eq_none] at hnoOp
        exact ⟨hnoOp.2.1, hnoOp.1, hnoOp.2.2⟩
    · rw [commandFrame, commandVersion, hklen, hvlen, ← hv, ← hfield]
      exact eq_commandFields hlen

/-- **The command codec**: the decoder accepts exactly what the encoder produces. -/
theorem decodeCommand_eq_ok_iff {bytes : Bytes} {command : Command} :
    decodeCommand bytes = .ok command ↔ encodeCommand command = .ok bytes := by
  refine ⟨encodeCommand_of_decodeCommand, fun h => ?_⟩
  obtain ⟨tag, ht, hk, hv, rfl⟩ := encodeCommand_eq_ok_iff.1 h
  obtain ⟨htype, hw⟩ := commandTag_eq_ok_iff.1 ht
  exact decodeCommand_commandFrame htype hw hk hv

/-- The commands that can be encoded. -/
theorem exists_encodeCommand_iff {command : Command} :
    (∃ bytes, encodeCommand command = .ok bytes) ↔ command.WellFormed ∧
      command.key.length ≤ uint32Max ∧ command.value.length ≤ uint32Max := by
  constructor
  · rintro ⟨bytes, h⟩
    obtain ⟨tag, ht, hk, hv, -⟩ := encodeCommand_eq_ok_iff.1 h
    exact ⟨(commandTag_eq_ok_iff.1 ht).2, hk, hv⟩
  · rintro ⟨hw, hk, hv⟩
    obtain ⟨tag, ht⟩ := (commandTag_isOk_iff command).2 hw
    exact ⟨_, encodeCommand_eq_ok_iff.2 ⟨tag, ht, hk, hv, rfl⟩⟩

/-- The first byte of a record tells whether it is for a request. -/
theorem version_of_encodeCommand {command : Command} {bytes : Bytes}
    (h : encodeCommand command = .ok bytes) :
    bytes[0]? = some (if command.requestId.isSome then 2 else 1) := by
  obtain ⟨tag, -, -, -, rfl⟩ := encodeCommand_eq_ok_iff.1 h
  rfl

/-- **The command codec is a bijection** between the commands that it accepts and the byte strings
that it accepts, in both versions. The records of the two versions differ in their first byte, the
version of a record tells whether its command has a request id, and the encoder and the decoder know
the same commands: the well-formed ones whose fields are not too long. -/
theorem commandCodec_exact :
    (∀ command bytes, encodeCommand command = .ok bytes ↔ decodeCommand bytes = .ok command) ∧
    (∀ bytes command, decodeCommand bytes = .ok command →
      bytes[0]? = some (if command.requestId.isSome then 2 else 1)) ∧
    (∀ bytes command command', encodeCommand command = .ok bytes →
      encodeCommand command' = .ok bytes → command = command') ∧
    ∀ command : Command,
      ((∃ bytes, encodeCommand command = .ok bytes) ↔ command.WellFormed ∧
        command.key.length ≤ uint32Max ∧ command.value.length ≤ uint32Max) ∧
      ((∃ bytes, decodeCommand bytes = .ok command) ↔ command.WellFormed ∧
        command.key.length ≤ uint32Max ∧ command.value.length ≤ uint32Max) := by
  refine ⟨fun command bytes => decodeCommand_eq_ok_iff.symm,
    fun bytes command h => version_of_encodeCommand (decodeCommand_eq_ok_iff.1 h),
    fun bytes command command' h h' => ?_, fun command => ⟨exists_encodeCommand_iff, ?_⟩⟩
  · have hd := decodeCommand_eq_ok_iff.2 h
    rw [decodeCommand_eq_ok_iff.2 h'] at hd
    exact (Except.ok.inj hd).symm
  · simp only [decodeCommand_eq_ok_iff]
    exact exists_encodeCommand_iff

theorem length_le_of_encodeCommand {command : Command} {bytes : Bytes}
    (h : encodeCommand command = .ok bytes) : commandHeaderSize ≤ bytes.length := by
  obtain ⟨tag, -, -, -, rfl⟩ := encodeCommand_eq_ok_iff.1 h
  rw [length_commandFrame]
  omega

/-! ## Log entries -/

structure DecodedLogEntry where
  entry : LogEntry
  bytesConsumed : ℕ
  deriving DecidableEq

def prefixSize : ℕ := 9

def checksumSize : ℕ := 4

def minimumEncodedCommandSize : ℕ := 10

def decodeLogEntry (bytes : Bytes) : Except LogEntryCodecError DecodedLogEntry :=
  if bytes.length < prefixSize then .error .inputTooShort
  else if field bytes 0 4 ≠ recordMagic.take 4 then .error .invalidMagic
  else if byteOf bytes 4 ≠ 1 then .error .unsupportedVersion
  else
    let bodySize := readU32 bytes 5
    if bodySize < entryMetadataSize + minimumEncodedCommandSize then .error .invalidLength
    else
      let bytesAfterPrefix := bytes.length - prefixSize
      if bytesAfterPrefix < bodySize then .error .truncatedRecord
      else if bytesAfterPrefix - bodySize < checksumSize then .error .truncatedRecord
      else
        let checksumOffset := prefixSize + bodySize
        if readU32 bytes checksumOffset ≠ (crc32 (bytes.take checksumOffset)).toNat then
          .error .checksumMismatch
        else
          let index := readU64 bytes prefixSize
          let term := readU64 bytes (prefixSize + 8)
          if index = 0 ∨ term = 0 then .error .invalidEntry
          else match decodeCommand (field bytes (prefixSize + entryMetadataSize)
              (bodySize - entryMetadataSize)) with
            | .error _ => .error .invalidCommand
            | .ok command => .ok ⟨⟨index, term, command⟩, checksumOffset + checksumSize⟩

/-- The index and the term are 64-bit numbers, as the fields of the source are by their type. -/
def LogEntry.InRange (entry : LogEntry) : Prop := entry.index < 2 ^ 64 ∧ entry.term < 2 ^ 64

/-- A record without its checksum. -/
def recordBody (index term : ℕ) (commandBytes : Bytes) : Bytes :=
  recordMagic ++ (digits 4 (entryMetadataSize + commandBytes.length) ++
    (digits 8 index ++ (digits 8 term ++ commandBytes)))

theorem length_recordBody (index term : ℕ) (commandBytes : Bytes) :
    (recordBody index term commandBytes).length =
      prefixSize + (entryMetadataSize + commandBytes.length) := by
  simp only [recordBody, recordMagic, List.length_append, List.length_cons, List.length_nil,
    length_digits, prefixSize, entryMetadataSize]
  omega

/-- A byte string with its checksum. -/
def withChecksum (bytes : Bytes) : Bytes := bytes ++ digits 4 (crc32 bytes).toNat

@[simp] theorem length_withChecksum (bytes : Bytes) :
    (withChecksum bytes).length = bytes.length + checksumSize := by
  simp [withChecksum, checksumSize]

/-- A byte string ends in its checksum: what the decoders of frames check. -/
theorem eq_withChecksum_iff {bytes body : Bytes} :
    bytes = withChecksum body ↔ checksumSize ≤ bytes.length ∧
      bytes.take (bytes.length - checksumSize) = body ∧
      value (bytes.drop (bytes.length - checksumSize)) = (crc32 body).toNat := by
  constructor
  · rintro rfl
    have hcrc : (crc32 body).toNat < 256 ^ 4 := UInt32.toNat_lt _
    rw [length_withChecksum, Nat.add_sub_cancel, withChecksum, List.take_left, List.drop_left,
      value_digits 4 hcrc]
    exact ⟨Nat.le_add_left _ _, rfl, rfl⟩
  · rintro ⟨hlen, rfl, hvalue⟩
    have hdrop : (bytes.drop (bytes.length - checksumSize)).length = 4 := by
      rw [List.length_drop, Nat.sub_sub_self hlen, checksumSize]
    have hdigits := digits_value (bytes.drop (bytes.length - checksumSize))
    rw [hdrop, hvalue] at hdigits
    rw [withChecksum, hdigits, List.take_append_drop]

theorem encodeLogEntry_eq_ok_iff {entry : LogEntry} {bytes : Bytes} :
    encodeLogEntry entry = .ok bytes ↔ entry.index ≠ 0 ∧ entry.term ≠ 0 ∧
      ∃ commandBytes, encodeCommand entry.command = .ok commandBytes ∧
        commandBytes.length ≤ uint32Max - entryMetadataSize ∧
        bytes = withChecksum (recordBody entry.index entry.term commandBytes) := by
  unfold encodeLogEntry
  split_ifs with h0
  · simp only [false_iff, not_and]
    intro hi ht
    omega
  · rw [not_or] at h0
    cases hc : encodeCommand entry.command with
    | error e => cases e <;> simp
    | ok commandBytes =>
      have hbody : recordBody entry.index entry.term commandBytes =
          appendU64 (appendU64 (appendU32 recordMagic (entryMetadataSize + commandBytes.length))
            entry.index) entry.term ++ commandBytes := by
        simp [recordBody, appendU32_eq, appendU64_eq]
      dsimp only
      rw [← hbody, appendU32_eq]
      split_ifs with hbig
      · simp only [false_iff, Except.ok.injEq, not_and, not_exists]
        rintro - - _ rfl hsmall
        omega
      · rw [not_lt] at hbig
        simp only [Except.ok.injEq, exists_eq_left', hbig, true_and, h0, ne_eq, not_false_eq_true,
          withChecksum]
        exact eq_comm

/-- What the decoder reads in a record, with the checksum and more behind it. -/
structure ReadsAs (bytes : Bytes) (index term : ℕ) (commandBytes : Bytes) : Prop where
  magic : field bytes 0 4 = recordMagic.take 4
  version : byteOf bytes 4 = 1
  bodySize : readU32 bytes 5 = entryMetadataSize + commandBytes.length
  index : readU64 bytes prefixSize = index
  term : readU64 bytes (prefixSize + 8) = term
  command : field bytes (prefixSize + entryMetadataSize) commandBytes.length = commandBytes

theorem readsAs_recordBody {index term : ℕ} (hi : index < 2 ^ 64) (ht : term < 2 ^ 64)
    {commandBytes : Bytes} (hc : commandBytes.length ≤ uint32Max - entryMetadataSize)
    (rest : Bytes) :
    ReadsAs (recordBody index term commandBytes ++ rest) index term commandBytes := by
  rw [uint32Max, entryMetadataSize] at hc
  set size := digits 4 (entryMetadataSize + commandBytes.length) with hsize
  set idx := digits 8 index with hidx
  set trm := digits 8 term with htrm
  have hsl : size.length = 4 := length_digits _ _
  have hil : idx.length = 8 := length_digits _ _
  have htl : trm.length = 8 := length_digits _ _
  refine ⟨rfl, rfl, ?_, ?_, ?_, ?_⟩
  · have hbytes : recordBody index term commandBytes ++ rest =
        recordMagic ++ (size ++ (idx ++ trm ++ commandBytes ++ rest)) := by
      simp [recordBody, ← hsize, ← hidx, ← htrm]
    rw [hbytes, hsize]
    exact value_part rfl (by rw [entryMetadataSize]; omega)
  · have hbytes : recordBody index term commandBytes ++ rest =
        (recordMagic ++ size) ++ (idx ++ (trm ++ commandBytes ++ rest)) := by
      simp [recordBody, ← hsize, ← hidx, ← htrm]
    rw [hbytes, hidx]
    exact value_part (by simp [hsl, recordMagic, prefixSize]) (by omega)
  · have hbytes : recordBody index term commandBytes ++ rest =
        (recordMagic ++ size ++ idx) ++ (trm ++ (commandBytes ++ rest)) := by
      simp [recordBody, ← hsize, ← hidx, ← htrm]
    rw [hbytes, htrm]
    exact value_part (by simp [hsl, hil, recordMagic, prefixSize]) (by omega)
  · have hbytes : recordBody index term commandBytes ++ rest =
        (recordMagic ++ size ++ idx ++ trm) ++ (commandBytes ++ rest) := by
      simp [recordBody, ← hsize, ← hidx, ← htrm]
    rw [hbytes]
    exact field_part (by simp [hsl, hil, htl, recordMagic, prefixSize, entryMetadataSize]) rfl

/-- A record at the front of a byte string is decoded, whatever follows. -/
theorem decodeLogEntry_append {entry : LogEntry} (hr : entry.InRange) {bytes : Bytes}
    (h : encodeLogEntry entry = .ok bytes) (rest : Bytes) :
    decodeLogEntry (bytes ++ rest) = .ok ⟨entry, bytes.length⟩ := by
  obtain ⟨hi, ht, commandBytes, hc, hsize, rfl⟩ := encodeLogEntry_eq_ok_iff.1 h
  have hmin := length_le_of_encodeCommand hc
  have hbody := length_recordBody entry.index entry.term commandBytes
  have hbytes : withChecksum (recordBody entry.index entry.term commandBytes) ++ rest =
      recordBody entry.index entry.term commandBytes ++
        (digits 4 (crc32 (recordBody entry.index entry.term commandBytes)).toNat ++ rest) := by
    simp [withChecksum]
  have hreads := readsAs_recordBody hr.1 hr.2 hsize
    (digits 4 (crc32 (recordBody entry.index entry.term commandBytes)).toNat ++ rest)
  have hlen : (withChecksum (recordBody entry.index entry.term commandBytes) ++ rest).length =
      prefixSize + (entryMetadataSize + commandBytes.length) + checksumSize + rest.length := by
    simp [hbody]
  have htake : (withChecksum (recordBody entry.index entry.term commandBytes) ++ rest).take
      (prefixSize + (entryMetadataSize + commandBytes.length)) =
        recordBody entry.index entry.term commandBytes := by
    rw [hbytes]
    exact List.take_left' hbody
  have hcrc : readU32 (withChecksum (recordBody entry.index entry.term commandBytes) ++ rest)
      (prefixSize + (entryMetadataSize + commandBytes.length)) =
        (crc32 (recordBody entry.index entry.term commandBytes)).toNat := by
    rw [hbytes]
    exact value_part hbody (UInt32.toNat_lt _)
  rw [← hbytes] at hreads
  unfold decodeLogEntry
  simp only [hreads.magic, hreads.version, hreads.bodySize, hreads.index, hreads.term, htake, hcrc,
    ne_eq, not_true_eq_false, if_false, hi, ht, or_self]
  rw [commandHeaderSize] at hmin
  rw [if_neg (by omega), if_neg (by rw [minimumEncodedCommandSize]; omega), if_neg (by omega),
    if_neg (by omega), Nat.add_sub_cancel_left, hreads.command, decodeCommand_eq_ok_iff.2 hc]
  simp [hbody]

/-- A record that is cut short is recognised as such. -/
theorem decodeLogEntry_take {entry : LogEntry} (hr : entry.InRange) {bytes : Bytes}
    (h : encodeLogEntry entry = .ok bytes) {j : ℕ} (hj : j < bytes.length) :
    decodeLogEntry (bytes.take j) = .error .inputTooShort ∨
      decodeLogEntry (bytes.take j) = .error .truncatedRecord := by
  obtain ⟨hi, ht, commandBytes, hc, hsize, rfl⟩ := encodeLogEntry_eq_ok_iff.1 h
  have hmin := length_le_of_encodeCommand hc
  have hbody := length_recordBody entry.index entry.term commandBytes
  have hreads : ReadsAs (withChecksum (recordBody entry.index entry.term commandBytes)) _ _ _ :=
    readsAs_recordBody hr.1 hr.2 hsize _
  revert hreads hj
  rw [length_withChecksum, hbody]
  have hlen : (withChecksum (recordBody entry.index entry.term commandBytes)).length =
      prefixSize + (entryMetadataSize + commandBytes.length) + checksumSize := by
    rw [length_withChecksum, hbody]
  generalize withChecksum (recordBody entry.index entry.term commandBytes) = record at hlen
  intro hj hreads
  have htake : (record.take j).length = j := List.length_take_of_le (by omega)
  unfold decodeLogEntry
  rw [htake]
  by_cases hshort : j < prefixSize
  · exact Or.inl (if_pos hshort)
  · right
    rw [prefixSize] at hshort
    have hmagic : field (record.take j) 0 4 = recordMagic.take 4 := by
      rw [field_take (by omega), hreads.magic]
    have hversion : byteOf (record.take j) 4 = 1 := by
      rw [← hreads.version, byteOf, byteOf, List.getD_eq_getElem?_getD, List.getD_eq_getElem?_getD,
        List.getElem?_take_of_lt (by omega)]
    have hbodySize : readU32 (record.take j) 5 = entryMetadataSize + commandBytes.length := by
      rw [readU32, field_take (by omega), ← hreads.bodySize, readU32]
    rw [commandHeaderSize] at hmin
    simp only [hmagic, hversion, hbodySize, ne_eq, not_true_eq_false, if_false]
    rw [if_neg (by rw [prefixSize]; omega), if_neg (by rw [minimumEncodedCommandSize]; omega)]
    by_cases hbody : j - prefixSize < entryMetadataSize + commandBytes.length
    · rw [if_pos hbody]
    · rw [if_neg hbody, if_pos (by rw [prefixSize] at *; omega)]

/-- The front of a byte string by the fields of a record whose command has `n` bytes. -/
theorem take_eq_recordBody {bytes : Bytes} {n : ℕ}
    (hlen : prefixSize + (entryMetadataSize + n) ≤ bytes.length)
    (hmagic : field bytes 0 4 = recordMagic.take 4) (hversion : byteOf bytes 4 = 1)
    (hsize : readU32 bytes 5 = entryMetadataSize + n) :
    bytes.take (prefixSize + (entryMetadataSize + n)) =
      recordBody (readU64 bytes prefixSize) (readU64 bytes (prefixSize + 8))
        (field bytes (prefixSize + entryMetadataSize) n) := by
  rw [prefixSize, entryMetadataSize] at *
  have hfront : recordMagic = field bytes 0 5 := by
    rw [← field_append_field (i := 0) (n := 4) (m := 1) rfl, hmagic, field_one (by omega)]
    change _ = _ ++ [byteOf bytes 4]
    rw [hversion]
    rfl
  have hsizeDigits : digits 4 (16 + n) = field bytes 5 4 := by
    rw [← hsize, readU32, digits_field (by omega)]
  rw [recordBody, length_field (by omega), entryMetadataSize, hsizeDigits, readU64, readU64,
    digits_field (by omega), digits_field (by omega), hfront]
  rw [field_append_field rfl, field_append_field rfl, field_append_field rfl,
    field_append_field rfl, field, List.drop_zero]
  congr 1
  omega

/-- What the decoder accepts is a record at the front. -/
theorem encodeLogEntry_of_decodeLogEntry {bytes : Bytes} {entry : LogEntry} {n : ℕ}
    (h : decodeLogEntry bytes = .ok ⟨entry, n⟩) : entry.InRange ∧ n ≤ bytes.length ∧
      encodeLogEntry entry = .ok (bytes.take n) := by
  unfold decodeLogEntry at h
  dsimp only at h
  split_ifs at h with hshort hmagic hversion hmin hbody hchecksum hcrc h0
  split at h
  · cases h
  next command hc =>
  obtain ⟨rfl, rfl⟩ := DecodedLogEntry.mk.inj (Except.ok.inj h)
  rw [not_or] at h0
  rw [not_not] at hmagic hversion hcrc
  obtain ⟨n, hn⟩ := Nat.exists_eq_add_of_le (Nat.le_of_add_right_le (not_lt.1 hmin))
  rw [hn, Nat.add_sub_cancel_left] at hc
  rw [hn] at hbody hchecksum hcrc ⊢
  have hbytes : bytes.length ≥ prefixSize + (entryMetadataSize + n) + checksumSize := by omega
  have htake := take_eq_recordBody (by omega) hmagic hversion hn
  refine ⟨⟨readU64_lt _ _, readU64_lt _ _⟩, hbytes, encodeLogEntry_eq_ok_iff.2
    ⟨h0.1, h0.2, _, decodeCommand_eq_ok_iff.1 hc, ?_, ?_⟩⟩
  · have hsize := readU32_lt bytes 5
    rw [length_field (by omega)]
    omega
  · have hcrc' : digits 4 (crc32 (bytes.take (prefixSize + (entryMetadataSize + n)))).toNat =
        field bytes (prefixSize + (entryMetadataSize + n)) 4 := by
      rw [← hcrc, readU32, digits_field (by rw [checksumSize] at hbytes; omega)]
    rw [withChecksum, ← htake, hcrc', checksumSize, List.take_add, field]

/-- **The record codec**: the decoder accepts the byte strings that start with a record. -/
theorem decodeLogEntry_eq_ok_iff {bytes : Bytes} {entry : LogEntry} {n : ℕ} :
    decodeLogEntry bytes = .ok ⟨entry, n⟩ ↔ entry.InRange ∧
      ∃ record rest, encodeLogEntry entry = .ok record ∧ bytes = record ++ rest ∧
        n = record.length := by
  constructor
  · intro h
    obtain ⟨hr, hn, henc⟩ := encodeLogEntry_of_decodeLogEntry h
    exact ⟨hr, _, bytes.drop n, henc, (List.take_append_drop n bytes).symm,
      (List.length_take_of_le hn).symm⟩
  · rintro ⟨hr, record, rest, henc, rfl, rfl⟩
    exact decodeLogEntry_append hr henc rest

/-! ## How long a record is -/

/-- The length of a command's frame. -/
def Command.frameSize (command : Command) : ℕ :=
  commandHeaderSize + (if command.requestId.isSome then requestIdSize else 0) +
    command.key.length + command.value.length

theorem length_encodeCommand {command : Command} {bytes : Bytes}
    (h : encodeCommand command = .ok bytes) : bytes.length = command.frameSize := by
  obtain ⟨tag, -, -, -, rfl⟩ := encodeCommand_eq_ok_iff.1 h
  exact length_commandFrame command tag

theorem length_encodeLogEntry {entry : LogEntry} {bytes : Bytes}
    (h : encodeLogEntry entry = .ok bytes) :
    bytes.length = prefixSize + entryMetadataSize + entry.command.frameSize + checksumSize := by
  obtain ⟨-, -, commandBytes, hc, -, rfl⟩ := encodeLogEntry_eq_ok_iff.1 h
  rw [length_withChecksum, length_recordBody, length_encodeCommand hc]
  omega

/-- An entry whose record is not too long can be encoded. -/
theorem encodable_of_frameSize {entry : LogEntry} (hi : entry.index ≠ 0) (ht : entry.term ≠ 0)
    (hw : entry.command.WellFormed)
    (hsize : entry.command.frameSize ≤ uint32Max - entryMetadataSize) : entry.Encodable := by
  have hfits : uint32Max - entryMetadataSize ≤ uint32Max := Nat.sub_le _ _
  obtain ⟨commandBytes, hc⟩ := exists_encodeCommand_iff.2 ⟨hw, by
    rw [Command.frameSize] at hsize
    omega, by
    rw [Command.frameSize] at hsize
    omega⟩
  rw [← length_encodeCommand hc] at hsize
  exact .of_eq_ok (encodeLogEntry_eq_ok_iff.2 ⟨hi, ht, commandBytes, hc, hsize, rfl⟩)

end DistributedKV
