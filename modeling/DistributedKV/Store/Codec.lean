import DistributedKV.Store.Command

/-!
# The record encoders

`crc32.cpp` and the encoding halves of `command_codec.cpp` and `log_entry_codec.cpp`. The log and
the follower only ask whether an entry can be encoded and how long its record is; both questions
are answered by the encoder itself, so the encoder is here in full. `LogEntry.Encodable.fields`
says what the log relies on.
-/

namespace DistributedKV

/-! ## Checksum -/

/-- One round of the inner loop of `crc32`. -/
def crc32Bit (checksum : UInt32) : UInt32 :=
  if checksum &&& 1 ≠ 0 then (checksum >>> 1) ^^^ 0xEDB88320 else checksum >>> 1

/-- One byte of `crc32`: eight rounds after the byte is mixed in. -/
def crc32Byte (checksum : UInt32) (byte : UInt8) : UInt32 :=
  crc32Bit (crc32Bit (crc32Bit (crc32Bit (crc32Bit (crc32Bit (crc32Bit (crc32Bit
    (checksum ^^^ byte.toUInt32))))))))

def crc32 (bytes : Bytes) : UInt32 := bytes.foldl crc32Byte 0xFFFFFFFF ^^^ 0xFFFFFFFF

/-! ## Integers -/

/-- The byte of `value` at a bit offset. -/
def byteAt (value shift : ℕ) : UInt8 := UInt8.ofNat (value >>> shift)

/-- Append four bytes, most significant first. -/
def appendU32 (output : Bytes) (value : ℕ) : Bytes :=
  output ++ [byteAt value 24, byteAt value 16, byteAt value 8, byteAt value 0]

/-- Append eight bytes, most significant first. -/
def appendU64 (output : Bytes) (value : ℕ) : Bytes :=
  output ++ [byteAt value 56, byteAt value 48, byteAt value 40, byteAt value 32,
    byteAt value 24, byteAt value 16, byteAt value 8, byteAt value 0]

@[simp] theorem length_appendU32 (output : Bytes) (value : ℕ) :
    (appendU32 output value).length = output.length + 4 := by
  simp [appendU32]

/-! ## Commands -/

inductive CommandCodecError
  | invalidCommand
  | fieldTooLarge
  | inputTooShort
  | unsupportedVersion
  | unknownCommandType
  | truncatedPayload
  | trailingBytes
  deriving DecidableEq, Repr

/-- `legacyFormatVersion` and `requestIdFormatVersion`. -/
def commandVersion (command : Command) : UInt8 := if command.requestId.isSome then 2 else 1

/-- The switch of `encode_command`: the tag of a well-formed command. -/
def commandTag (command : Command) : Except CommandCodecError UInt8 :=
  match command.type with
  | .put => .ok 1
  | .delete => if command.value ≠ [] then .error .invalidCommand else .ok 2
  | .noOp =>
    if command.value ≠ [] ∨ command.key ≠ [] ∨ command.requestId.isSome then
      .error .invalidCommand
    else .ok 3

def encodeCommand (command : Command) : Except CommandCodecError Bytes :=
  match commandTag command with
  | .error e => .error e
  | .ok tag =>
    if uint32Max < command.key.length ∨ uint32Max < command.value.length then
      .error .fieldTooLarge
    else
      let header := appendU32 (appendU32 [commandVersion command, tag] command.key.length)
        command.value.length
      let id := match command.requestId with
        | some id => id.bytes
        | none => []
      .ok (header ++ id ++ command.key ++ command.value)

/-! ## Log entries -/

inductive LogEntryCodecError
  | invalidEntry
  | fieldTooLarge
  | inputTooShort
  | invalidMagic
  | unsupportedVersion
  | invalidLength
  | truncatedRecord
  | checksumMismatch
  | invalidCommand
  deriving DecidableEq, Repr

def entryMetadataSize : ℕ := 16

/-- The magic number and the format version of a record. -/
def recordMagic : Bytes := [0x44, 0x4B, 0x56, 0x4C, 1]

def encodeLogEntry (entry : LogEntry) : Except LogEntryCodecError Bytes :=
  if entry.index = 0 ∨ entry.term = 0 then .error .invalidEntry
  else match encodeCommand entry.command with
    | .error .fieldTooLarge => .error .fieldTooLarge
    | .error _ => .error .invalidCommand
    | .ok commandBytes =>
      if uint32Max - entryMetadataSize < commandBytes.length then .error .fieldTooLarge
      else
        let body := appendU64 (appendU64 (appendU32 recordMagic
          (entryMetadataSize + commandBytes.length)) entry.index) entry.term ++ commandBytes
        .ok (appendU32 body (crc32 body).toNat)

/-- `encode_log_entry` does not report an error. -/
def LogEntry.Encodable (entry : LogEntry) : Prop := (encodeLogEntry entry).isOk = true

instance (entry : LogEntry) : Decidable entry.Encodable :=
  inferInstanceAs (Decidable ((encodeLogEntry entry).isOk = true))

/-- The commands both the encoder and the state machine accept: a delete has no value, and a
no-op has no field at all. -/
def Command.WellFormed (command : Command) : Prop :=
  match command.type with
  | .put => True
  | .delete => command.value = []
  | .noOp => command.key = [] ∧ command.value = [] ∧ command.requestId = none

instance (command : Command) : Decidable command.WellFormed := by
  unfold Command.WellFormed
  cases command.type <;> infer_instance

theorem commandTag_isOk_iff (command : Command) :
    (∃ tag, commandTag command = .ok tag) ↔ command.WellFormed := by
  unfold commandTag Command.WellFormed
  cases command.type with
  | put => simp
  | delete =>
    by_cases h : command.value = [] <;> simp [h]
  | noOp =>
    by_cases hv : command.value = [] <;> by_cases hk : command.key = [] <;>
      cases hr : command.requestId <;> simp [hv, hk]

theorem wellFormed_of_encodeCommand {command : Command} {bytes : Bytes}
    (h : encodeCommand command = .ok bytes) : command.WellFormed := by
  rw [← commandTag_isOk_iff]
  unfold encodeCommand at h
  cases ht : commandTag command with
  | error e => simp [ht] at h
  | ok tag => exact ⟨tag, rfl⟩

theorem isOk_iff {ε α : Type} {x : Except ε α} : x.isOk = true ↔ ∃ a, x = .ok a := by
  cases x <;> simp [Except.isOk, Except.toBool]

theorem LogEntry.Encodable.exists_bytes {entry : LogEntry} (h : entry.Encodable) :
    ∃ bytes, encodeLogEntry entry = .ok bytes := isOk_iff.1 h

theorem LogEntry.Encodable.of_eq_ok {entry : LogEntry} {bytes : Bytes}
    (h : encodeLogEntry entry = .ok bytes) : entry.Encodable := isOk_iff.2 ⟨bytes, h⟩

/-- What the log relies on: an encodable entry has a nonzero index and term and a command the
state machine accepts. -/
theorem LogEntry.Encodable.fields {entry : LogEntry} (h : entry.Encodable) :
    entry.index ≠ 0 ∧ entry.term ≠ 0 ∧ entry.command.WellFormed := by
  obtain ⟨bytes, hb⟩ := h.exists_bytes
  unfold encodeLogEntry at hb
  by_cases h0 : entry.index = 0 ∨ entry.term = 0
  · simp [h0] at hb
  · rw [if_neg h0] at hb
    rw [not_or] at h0
    cases hc : encodeCommand entry.command with
    | error e => cases e <;> simp [hc] at hb
    | ok commandBytes => exact ⟨h0.1, h0.2, wellFormed_of_encodeCommand hc⟩

/-- A leader's no-op can be encoded at every position and in every term. -/
theorem encodable_noOp {index term : ℕ} (hi : index ≠ 0) (ht : term ≠ 0) :
    LogEntry.Encodable ⟨index, term, {}⟩ := by
  simp [LogEntry.Encodable, encodeLogEntry, encodeCommand, commandTag, commandVersion, hi, ht,
    uint32Max, entryMetadataSize, Except.isOk, Except.toBool]

end DistributedKV
