import DistributedKV.Store.Decode
import DistributedKV.Raft.Node

/-!
# Raft frames

`raft_wire.cpp`. A frame carries one envelope: a header, a message whose entries are records with a
length in front, and a checksum. The `Reader` of the source is the bytes that are left to read.
`RequestFrame` and `MessageFrame` say which bytes stand for which message; the encoder writes them
within the frame limit, and the decoder accepts nothing else.
-/

namespace DistributedKV

open ByteCodec

structure RaftEnvelope where
  senderId : ℕ := 0
  message : RaftMessage
  repliedTo : Option AppendEntries := none
  deriving DecidableEq

inductive RaftWireError
  | invalidEnvelope
  | invalidMessage
  | tooLarge
  | truncated
  | unsupportedVersion
  | trailingBytes
  | checksumMismatch
  deriving DecidableEq, Repr

def maxRaftFrameSize : ℕ := 8 * 1024 * 1024

/-- The loop of `put_append`; `none` where it returns false. -/
def putEntries : Bytes → List LogEntry → Option Bytes
  | out, [] => some out
  | out, entry :: entries =>
    match encodeLogEntry entry with
    | .error _ => none
    | .ok bytes =>
      if maxRaftFrameSize - 4 - checksumSize < bytes.length ∨
          maxRaftFrameSize - bytes.length - 4 - checksumSize < out.length then none
      else putEntries (appendU32 out bytes.length ++ bytes) entries

/-- `put_append`; `none` where it returns false. -/
def putAppend (out : Bytes) (request : AppendEntries) : Option Bytes :=
  if uint32Max < request.entries.length then none
  else
    let out := appendU64 out request.term
    let out := appendU64 out request.leaderId
    let out := appendU64 out request.prevLogIndex
    let out := appendU64 out request.prevLogTerm
    let out := appendU64 out request.leaderCommit
    let out := appendU64 out request.readContext
    let out := appendU32 out request.entries.length
    match putEntries out request.entries with
    | none => none
    | some out => if out.length ≤ maxRaftFrameSize - checksumSize then some out else none

/-- The loop of `read_append`, with that many entries left. -/
def readEntries : ℕ → Bytes → Option (List LogEntry × Bytes)
  | 0, reader => some ([], reader)
  | count + 1, reader => do
    let (length, reader) ← takeNumber 4 reader
    if reader.length < length then none
    else match decodeLogEntry (reader.take length) with
      | .error _ => none
      | .ok decoded =>
        if decoded.bytesConsumed ≠ length then none
        else
          let (entries, reader) ← readEntries count (reader.drop length)
          some (decoded.entry :: entries, reader)

def readAppend (reader : Bytes) : Option (AppendEntries × Bytes) := do
  let (term, reader) ← takeNumber 8 reader
  let (leaderId, reader) ← takeNumber 8 reader
  let (prevLogIndex, reader) ← takeNumber 8 reader
  let (prevLogTerm, reader) ← takeNumber 8 reader
  let (leaderCommit, reader) ← takeNumber 8 reader
  let (readContext, reader) ← takeNumber 8 reader
  let (count, reader) ← takeNumber 4 reader
  -- Each record needs at least a four-byte length prefix.
  if reader.length / 4 < count then none
  else
    let (entries, reader) ← readEntries count reader
    some (⟨term, leaderId, prevLogIndex, prevLogTerm, entries, leaderCommit, readContext⟩, reader)

/-- `message.index() + 1`. -/
def RaftMessage.kind : RaftMessage → UInt8
  | .requestVote _ => 1
  | .requestVoteReply _ => 2
  | .appendEntries _ => 3
  | .appendEntriesReply _ => 4

/-- `std::holds_alternative<AppendEntriesReply>`. -/
def RaftMessage.isAppendEntriesReply : RaftMessage → Bool
  | .appendEntriesReply _ => true
  | _ => false

def flagByte (flag : Bool) : UInt8 := if flag then 1 else 0

/-- The message behind the header; `none` where `put_append` fails. -/
def putMessage (out : Bytes) (envelope : RaftEnvelope) : Option Bytes :=
  match envelope.message with
  | .requestVote value =>
    some (appendU64 (appendU64 (appendU64 (appendU64 out value.term) value.candidateId)
      value.lastLogIndex) value.lastLogTerm)
  | .requestVoteReply value => some (appendU64 out value.term ++ [flagByte value.voteGranted])
  | .appendEntries value => putAppend out value
  | .appendEntriesReply reply =>
    envelope.repliedTo.bind fun request =>
      putAppend (appendU64 out reply.term ++ [flagByte reply.success]) request

def encodeRaftEnvelope (envelope : RaftEnvelope) : Except RaftWireError Bytes :=
  if envelope.senderId = 0 ∨
      envelope.repliedTo.isSome ≠ envelope.message.isAppendEntriesReply then
    .error .invalidEnvelope
  else match putMessage (appendU64 [3, envelope.message.kind] envelope.senderId) envelope with
    | none => .error .tooLarge
    | some out =>
      if maxRaftFrameSize - checksumSize < out.length then .error .tooLarge
      else .ok (appendU32 out (crc32 out).toNat)

/-- A reply's term and flag. -/
def readFlag (reader : Bytes) : Except RaftWireError (ℕ × Bool × Bytes) :=
  match takeNumber 8 reader with
  | none => .error .truncated
  | some (term, reader) =>
    match takeByte reader with
    | none => .error .truncated
    | some (flag, reader) =>
      if 1 < flag then .error .invalidMessage else .ok (term, flag = 1, reader)

/-- The fields of a vote request. -/
def readVote (reader : Bytes) : Option (RequestVote × Bytes) := do
  let (term, reader) ← takeNumber 8 reader
  let (candidateId, reader) ← takeNumber 8 reader
  let (lastLogIndex, reader) ← takeNumber 8 reader
  let (lastLogTerm, reader) ← takeNumber 8 reader
  some (⟨term, candidateId, lastLogIndex, lastLogTerm⟩, reader)

/-- The switch of `decode_raft_envelope`: the message, the request it replies to, and what is
left. -/
def readMessage (kind : UInt8) (reader : Bytes) :
    Except RaftWireError (RaftMessage × Option AppendEntries × Bytes) :=
  if kind = 1 then
    match readVote reader with
    | none => .error .truncated
    | some (value, reader) => .ok (.requestVote value, none, reader)
  else if kind = 2 then
    match readFlag reader with
    | .error e => .error e
    | .ok (term, granted, reader) => .ok (.requestVoteReply ⟨term, granted⟩, none, reader)
  else if kind = 3 then
    match readAppend reader with
    | none => .error .invalidMessage
    | some (value, reader) => .ok (.appendEntries value, none, reader)
  else if kind = 4 then
    match readFlag reader with
    | .error e => .error e
    | .ok (term, success, reader) =>
      match readAppend reader with
      | none => .error .invalidMessage
      | some (repliedTo, reader) =>
        .ok (.appendEntriesReply ⟨term, success⟩, some repliedTo, reader)
  else .error .invalidMessage

/-- The version, the kind and the sender. -/
def readHeader (reader : Bytes) : Option (UInt8 × UInt8 × ℕ × Bytes) := do
  let (version, reader) ← takeByte reader
  let (kind, reader) ← takeByte reader
  let (sender, reader) ← takeNumber 8 reader
  some (version, kind, sender, reader)

def decodeRaftEnvelope (bytes : Bytes) : Except RaftWireError RaftEnvelope :=
  if maxRaftFrameSize < bytes.length then .error .tooLarge
  else if bytes.length < 10 + checksumSize then .error .truncated
  else if byteOf bytes 0 ≠ 3 then .error .unsupportedVersion
  else
    let expectedChecksum := value (bytes.drop (bytes.length - checksumSize))
    let bytes := bytes.take (bytes.length - checksumSize)
    if (crc32 bytes).toNat ≠ expectedChecksum then .error .checksumMismatch
    else match readHeader bytes with
      | none => .error .truncated
      | some (version, kind, sender, reader) =>
        if version ≠ 3 then .error .unsupportedVersion
        else if sender = 0 then .error .invalidEnvelope
        else match readMessage kind reader with
          | .error e => .error e
          | .ok (message, repliedTo, reader) =>
            if reader ≠ [] then .error .trailingBytes else .ok ⟨sender, message, repliedTo⟩

/-! ## Requests -/

/-- The records of a request, each with its length in front. -/
inductive EntriesFrame : List LogEntry → Bytes → Prop
  | nil : EntriesFrame [] []
  | cons {e : LogEntry} {es : List LogEntry} {record rest : Bytes}
      (he : encodeLogEntry e = .ok record) (hlen : record.length < 2 ^ 32)
      (h : EntriesFrame es rest) :
      EntriesFrame (e :: es) (digits 4 record.length ++ (record ++ rest))

/-- The bytes that stand for a request. -/
def RequestFrame (request : AppendEntries) (bytes : Bytes) : Prop :=
  ∃ records, EntriesFrame request.entries records ∧ request.entries.length ≤ uint32Max ∧
    bytes = digits 8 request.term ++ (digits 8 request.leaderId ++
      (digits 8 request.prevLogIndex ++ (digits 8 request.prevLogTerm ++
        (digits 8 request.leaderCommit ++ (digits 8 request.readContext ++
          (digits 4 request.entries.length ++ records))))))

/-- The numbers of a request are 64-bit numbers, as the fields of the source are by their type. -/
structure AppendEntries.InRange (request : AppendEntries) : Prop where
  term : request.term < 2 ^ 64
  leaderId : request.leaderId < 2 ^ 64
  prevLogIndex : request.prevLogIndex < 2 ^ 64
  prevLogTerm : request.prevLogTerm < 2 ^ 64
  leaderCommit : request.leaderCommit < 2 ^ 64
  readContext : request.readContext < 2 ^ 64
  entries : ∀ e ∈ request.entries, e.InRange

theorem EntriesFrame.length_le {es : List LogEntry} {bytes : Bytes} (h : EntriesFrame es bytes) :
    4 * es.length ≤ bytes.length := by
  induction h with
  | nil => exact le_rfl
  | cons _ _ _ ih =>
    rw [List.length_append, List.length_append, length_digits, List.length_cons]
    omega

/-- The entries fit as long as the whole does. -/
theorem putEntries_eq_some_iff {es : List LogEntry} {out out' : Bytes} :
    putEntries out es = some out' ↔ ∃ records, EntriesFrame es records ∧ out' = out ++ records ∧
      (es = [] ∨ out'.length ≤ maxRaftFrameSize - checksumSize) := by
  induction es generalizing out with
  | nil =>
    rw [putEntries]
    constructor
    · intro h
      exact ⟨[], .nil, by rw [List.append_nil, Option.some.inj h], Or.inl rfl⟩
    · rintro ⟨records, h, rfl, -⟩
      cases h
      rw [List.append_nil]
  | cons e es ih =>
    rw [putEntries]
    cases he : encodeLogEntry e with
    | error error =>
      constructor
      · intro h
        cases h
      · rintro ⟨records, h, -⟩
        cases h with
        | cons he' => simp [he] at he'
    | ok record =>
      have hlen : ∀ rest : Bytes, (out ++ (digits 4 record.length ++ (record ++ rest))).length =
          out.length + 4 + record.length + rest.length := fun rest => by
        simp only [List.length_append, length_digits]
        omega
      dsimp only
      split_ifs with hguard
      · constructor
        · intro h
          cases h
        · rintro ⟨records, h, rfl, hfit⟩
          cases h with
          | @cons _ _ record' rest he' =>
            obtain rfl := Except.ok.inj (he.symm.trans he')
            simp only [false_or, hlen, maxRaftFrameSize, checksumSize] at hfit hguard
            omega
      · rw [ih, appendU32_eq]
        simp only [maxRaftFrameSize, checksumSize, not_or, not_lt] at hguard
        constructor
        · rintro ⟨rest, h, rfl, hfit⟩
          refine ⟨_, .cons he (by omega) h, by simp, Or.inr ?_⟩
          rcases hfit with rfl | hfit
          · cases h
            simp only [List.length_append, length_digits, List.length_nil, maxRaftFrameSize,
              checksumSize]
            omega
          · exact hfit
        · rintro ⟨records, h, rfl, hfit⟩
          cases h with
          | @cons _ _ record' rest he' _ h =>
            obtain rfl := Except.ok.inj (he.symm.trans he')
            exact ⟨rest, h, by simp, Or.inr (hfit.resolve_left (by simp))⟩

theorem putAppend_eq_some_iff {request : AppendEntries} {out out' : Bytes} :
    putAppend out request = some out' ↔ ∃ bytes, RequestFrame request bytes ∧
      out' = out ++ bytes ∧ out'.length ≤ maxRaftFrameSize - checksumSize := by
  unfold putAppend
  split_ifs with hcount
  · constructor
    · intro h
      cases h
    · rintro ⟨bytes, ⟨records, -, hle, -⟩, -⟩
      exact absurd hle (not_le.2 hcount)
  · rw [not_lt] at hcount
    simp only [appendU64_eq, appendU32_eq]
    constructor
    · intro h
      split at h
      · cases h
      next out₁ hput =>
      split_ifs at h with hfit
      obtain rfl := Option.some.inj h
      obtain ⟨records, hrecords, rfl, -⟩ := putEntries_eq_some_iff.1 hput
      exact ⟨_, ⟨records, hrecords, hcount, rfl⟩, by simp, hfit⟩
    · rintro ⟨bytes, ⟨records, hrecords, -, rfl⟩, rfl, hfit⟩
      rw [putEntries_eq_some_iff.2 ⟨records, hrecords, rfl, Or.inr (by simpa using hfit)⟩]
      simpa using hfit

theorem takeNumber_u64 {v : ℕ} (hv : v < 2 ^ 64) (rest : Bytes) :
    takeNumber 8 (digits 8 v ++ rest) = some (v, rest) :=
  takeNumber_append (by omega) rest

/-- The entries of a request, read back from their records. -/
theorem EntriesFrame.readEntries {es : List LogEntry} {records : Bytes}
    (h : EntriesFrame es records) (hr : ∀ e ∈ es, e.InRange) (rest : Bytes) :
    readEntries es.length (records ++ rest) = some (es, rest) := by
  induction h with
  | nil => rfl
  | @cons e es record records he hlen _ ih =>
    have hnumber : takeNumber 4 (digits 4 record.length ++ (record ++ records) ++ rest) =
        some (record.length, record ++ (records ++ rest)) := by
      rw [List.append_assoc, List.append_assoc]
      exact takeNumber_append (by omega) _
    have hdecode := decodeLogEntry_append (hr e List.mem_cons_self) he []
    rw [List.append_nil] at hdecode
    rw [List.length_cons, DistributedKV.readEntries, hnumber, Option.bind_eq_bind, Option.bind_some]
    dsimp only
    rw [if_neg (by rw [List.length_append]; omega), List.take_left, hdecode]
    dsimp only
    rw [if_neg (by simp), List.drop_left, ih fun e' he' => hr e' (List.mem_cons_of_mem _ he')]
    rfl

theorem readEntries_eq_some_iff {count : ℕ} {reader rest : Bytes} {es : List LogEntry} :
    readEntries count reader = some (es, rest) ↔ es.length = count ∧ (∀ e ∈ es, e.InRange) ∧
      ∃ records, EntriesFrame es records ∧ reader = records ++ rest := by
  constructor
  · intro h
    induction count generalizing reader es with
    | zero =>
      obtain ⟨rfl, rfl⟩ := Prod.mk.inj (Option.some.inj h)
      exact ⟨rfl, by simp, [], .nil, rfl⟩
    | succ count ih =>
      obtain ⟨⟨length, reader₁⟩, hnumber, hbody⟩ := Option.bind_eq_some_iff.1 h
      obtain ⟨hlt, rfl⟩ := takeNumber_eq_some_iff.1 hnumber
      dsimp only at hbody
      split_ifs at hbody with hshort
      split at hbody
      · cases hbody
      next decoded hd =>
      obtain ⟨e, consumed⟩ := decoded
      split_ifs at hbody with hconsumed
      rw [not_not] at hconsumed
      dsimp only at hconsumed
      obtain ⟨⟨es', reader₂⟩, hrest, heq⟩ := Option.bind_eq_some_iff.1 hbody
      obtain ⟨rfl, rfl⟩ := Prod.mk.inj (Option.some.inj heq)
      obtain ⟨rfl, hrs, records, hrecords, hdrop⟩ := ih hrest
      obtain ⟨hr, record, tail, he, htake, rfl⟩ := decodeLogEntry_eq_ok_iff.1 hd
      -- the record is all of what its length announces
      have hlen : (reader₁.take length).length = length := List.length_take_of_le (not_lt.1 hshort)
      rw [htake, List.length_append] at hlen
      obtain rfl : tail = [] := List.length_eq_zero_iff.1 (by omega)
      rw [List.append_nil] at htake
      refine ⟨rfl, List.forall_mem_cons.2 ⟨hr, hrs⟩, _, .cons he (by omega) hrecords, ?_⟩
      rw [hconsumed, List.append_assoc, List.append_assoc, ← hdrop, ← htake, List.take_append_drop]
  · rintro ⟨rfl, hr, records, hrecords, rfl⟩
    exact hrecords.readEntries hr rest

theorem readAppend_eq_some_iff {reader rest : Bytes} {request : AppendEntries} :
    readAppend reader = some (request, rest) ↔ request.InRange ∧
      ∃ bytes, RequestFrame request bytes ∧ reader = bytes ++ rest := by
  constructor
  · intro h
    obtain ⟨⟨term, r₁⟩, h₁, h⟩ := Option.bind_eq_some_iff.1 h
    obtain ⟨⟨leaderId, r₂⟩, h₂, h⟩ := Option.bind_eq_some_iff.1 h
    obtain ⟨⟨prevLogIndex, r₃⟩, h₃, h⟩ := Option.bind_eq_some_iff.1 h
    obtain ⟨⟨prevLogTerm, r₄⟩, h₄, h⟩ := Option.bind_eq_some_iff.1 h
    obtain ⟨⟨leaderCommit, r₅⟩, h₅, h⟩ := Option.bind_eq_some_iff.1 h
    obtain ⟨⟨readContext, r₆⟩, h₆, h⟩ := Option.bind_eq_some_iff.1 h
    obtain ⟨⟨count, r₇⟩, h₇, hbody⟩ := Option.bind_eq_some_iff.1 h
    obtain ⟨hlt₁, rfl⟩ := takeNumber_eq_some_iff.1 h₁
    obtain ⟨hlt₂, rfl⟩ := takeNumber_eq_some_iff.1 h₂
    obtain ⟨hlt₃, rfl⟩ := takeNumber_eq_some_iff.1 h₃
    obtain ⟨hlt₄, rfl⟩ := takeNumber_eq_some_iff.1 h₄
    obtain ⟨hlt₅, rfl⟩ := takeNumber_eq_some_iff.1 h₅
    obtain ⟨hlt₆, rfl⟩ := takeNumber_eq_some_iff.1 h₆
    obtain ⟨hlt₇, rfl⟩ := takeNumber_eq_some_iff.1 h₇
    dsimp only at hbody
    split_ifs at hbody with hcount
    obtain ⟨⟨es, r₈⟩, hes, heq⟩ := Option.bind_eq_some_iff.1 hbody
    obtain ⟨rfl, rfl⟩ := Prod.mk.inj (Option.some.inj heq)
    obtain ⟨rfl, hr, records, hrecords, rfl⟩ := readEntries_eq_some_iff.1 hes
    have hcount' : es.length ≤ uint32Max := by
      rw [uint32Max]
      omega
    exact ⟨⟨by omega, by omega, by omega, by omega, by omega, by omega, hr⟩, _,
      ⟨records, hrecords, hcount', rfl⟩, by simp⟩
  · rintro ⟨hr, bytes, ⟨records, hrecords, hcount, rfl⟩, rfl⟩
    have hle := hrecords.length_le
    rw [uint32Max] at hcount
    simp only [List.append_assoc]
    unfold readAppend
    have hcount' : request.entries.length < 256 ^ 4 := by omega
    have hshort : ¬(records ++ rest).length / 4 < request.entries.length := by
      rw [List.length_append]
      omega
    simp only [takeNumber_u64 hr.term, takeNumber_u64 hr.leaderId,
      takeNumber_u64 hr.prevLogIndex, takeNumber_u64 hr.prevLogTerm,
      takeNumber_u64 hr.leaderCommit, takeNumber_u64 hr.readContext,
      takeNumber_append hcount', Option.bind_eq_bind, Option.bind_some, hshort, if_false,
      hrecords.readEntries hr.entries rest]

/-! ## Envelopes -/

/-- The bytes that stand for a message and for the request it replies to. -/
def MessageFrame : RaftMessage → Option AppendEntries → Bytes → Prop
  | .requestVote value, none, bytes =>
    bytes = digits 8 value.term ++ (digits 8 value.candidateId ++
      (digits 8 value.lastLogIndex ++ digits 8 value.lastLogTerm))
  | .requestVoteReply value, none, bytes =>
    bytes = digits 8 value.term ++ [flagByte value.voteGranted]
  | .appendEntries value, none, bytes => RequestFrame value bytes
  | .appendEntriesReply reply, some request, bytes =>
    ∃ frame, RequestFrame request frame ∧
      bytes = digits 8 reply.term ++ flagByte reply.success :: frame
  | _, _, _ => False

/-- The numbers of a message are 64-bit numbers. -/
def RaftMessage.InRange : RaftMessage → Prop
  | .requestVote value => value.term < 2 ^ 64 ∧ value.candidateId < 2 ^ 64 ∧
      value.lastLogIndex < 2 ^ 64 ∧ value.lastLogTerm < 2 ^ 64
  | .requestVoteReply value => value.term < 2 ^ 64
  | .appendEntries value => value.InRange
  | .appendEntriesReply reply => reply.term < 2 ^ 64

structure RaftEnvelope.InRange (envelope : RaftEnvelope) : Prop where
  senderId : envelope.senderId < 2 ^ 64
  message : envelope.message.InRange
  repliedTo : ∀ request ∈ envelope.repliedTo, request.InRange

/-- The header of a frame. -/
def envelopeHeader (kind : UInt8) (sender : ℕ) : Bytes := 3 :: kind :: digits 8 sender

theorem MessageFrame.isSome_eq {message : RaftMessage} {repliedTo : Option AppendEntries}
    {bytes : Bytes} (h : MessageFrame message repliedTo bytes) :
    repliedTo.isSome = message.isAppendEntriesReply := by
  cases message <;> cases repliedTo <;> first | rfl | exact h.elim

theorem putMessage_eq_some_iff {envelope : RaftEnvelope} {out out' : Bytes}
    (h : envelope.repliedTo.isSome = envelope.message.isAppendEntriesReply) :
    (putMessage out envelope = some out' ∧ out'.length ≤ maxRaftFrameSize - checksumSize) ↔
      ∃ bytes, MessageFrame envelope.message envelope.repliedTo bytes ∧ out' = out ++ bytes ∧
        out'.length ≤ maxRaftFrameSize - checksumSize := by
  obtain ⟨sender, message, repliedTo⟩ := envelope
  cases message with
  | requestVote value =>
    obtain rfl : repliedTo = none := by simpa [RaftMessage.isAppendEntriesReply] using h
    simp only [putMessage, appendU64_eq, Option.some.injEq, MessageFrame, exists_eq_left,
      List.append_assoc, eq_comm]
  | requestVoteReply value =>
    obtain rfl : repliedTo = none := by simpa [RaftMessage.isAppendEntriesReply] using h
    simp only [putMessage, appendU64_eq, Option.some.injEq, MessageFrame, exists_eq_left,
      List.append_assoc, eq_comm]
  | appendEntries value =>
    obtain rfl : repliedTo = none := by simpa [RaftMessage.isAppendEntriesReply] using h
    simp only [putMessage, putAppend_eq_some_iff, MessageFrame]
    constructor
    · rintro ⟨h, -⟩
      exact h
    · intro h
      obtain ⟨bytes, -, -, hlen⟩ := id h
      exact ⟨h, hlen⟩
  | appendEntriesReply reply =>
    obtain ⟨request, rfl⟩ := Option.isSome_iff_exists.1 (h.trans rfl)
    simp only [putMessage, Option.bind_some, putAppend_eq_some_iff, MessageFrame, appendU64_eq]
    constructor
    · rintro ⟨⟨frame, hframe, rfl, hlen⟩, -⟩
      exact ⟨_, ⟨frame, hframe, rfl⟩, by simp, hlen⟩
    · rintro ⟨bytes, ⟨frame, hframe, rfl⟩, rfl, hlen⟩
      exact ⟨⟨frame, hframe, by simp, hlen⟩, hlen⟩

/-- **The encoder**: it writes the frames within the limit. -/
theorem encodeRaftEnvelope_eq_ok_iff {envelope : RaftEnvelope} {bytes : Bytes} :
    encodeRaftEnvelope envelope = .ok bytes ↔ envelope.senderId ≠ 0 ∧
      ∃ body, MessageFrame envelope.message envelope.repliedTo body ∧
        bytes = withChecksum (envelopeHeader envelope.message.kind envelope.senderId ++ body) ∧
        bytes.length ≤ maxRaftFrameSize := by
  have hheader : appendU64 [3, envelope.message.kind] envelope.senderId =
      envelopeHeader envelope.message.kind envelope.senderId := by
    rw [appendU64_eq, envelopeHeader]
    rfl
  have hlimit : ∀ out : Bytes, out.length ≤ maxRaftFrameSize - checksumSize ↔
      (withChecksum out).length ≤ maxRaftFrameSize := by
    intro out
    rw [length_withChecksum, maxRaftFrameSize, checksumSize]
    omega
  unfold encodeRaftEnvelope
  rw [hheader]
  constructor
  · intro h
    split_ifs at h with hguard
    rw [not_or, not_not] at hguard
    split at h
    · cases h
    next out hput =>
    split_ifs at h with hlen
    rw [not_lt] at hlen
    obtain ⟨body, hbody, rfl, -⟩ := (putMessage_eq_some_iff hguard.2).1 ⟨hput, hlen⟩
    obtain rfl := Except.ok.inj h
    rw [appendU32_eq]
    exact ⟨hguard.1, body, hbody, rfl, (hlimit _).1 hlen⟩
  · rintro ⟨hsender, body, hbody, rfl, hlen⟩
    rw [← hlimit] at hlen
    obtain ⟨hput, -⟩ := (putMessage_eq_some_iff hbody.isSome_eq).2 ⟨body, hbody, rfl, hlen⟩
    rw [if_neg (not_or.2 ⟨hsender, not_not.2 hbody.isSome_eq⟩), hput]
    dsimp only
    rw [if_neg (not_lt.2 hlen), appendU32_eq, withChecksum]

theorem readVote_eq_some_iff {reader rest : Bytes} {value : RequestVote} :
    readVote reader = some (value, rest) ↔ (RaftMessage.requestVote value).InRange ∧
      ∃ body, MessageFrame (.requestVote value) none body ∧ reader = body ++ rest := by
  simp only [RaftMessage.InRange, MessageFrame, exists_eq_left, List.append_assoc]
  constructor
  · intro h
    obtain ⟨⟨term, r₁⟩, h₁, h⟩ := Option.bind_eq_some_iff.1 h
    obtain ⟨⟨candidateId, r₂⟩, h₂, h⟩ := Option.bind_eq_some_iff.1 h
    obtain ⟨⟨lastLogIndex, r₃⟩, h₃, h⟩ := Option.bind_eq_some_iff.1 h
    obtain ⟨⟨lastLogTerm, r₄⟩, h₄, hvalue⟩ := Option.bind_eq_some_iff.1 h
    obtain ⟨hlt₁, rfl⟩ := takeNumber_eq_some_iff.1 h₁
    obtain ⟨hlt₂, rfl⟩ := takeNumber_eq_some_iff.1 h₂
    obtain ⟨hlt₃, rfl⟩ := takeNumber_eq_some_iff.1 h₃
    obtain ⟨hlt₄, rfl⟩ := takeNumber_eq_some_iff.1 h₄
    obtain ⟨rfl, rfl⟩ := Prod.mk.inj (Option.some.inj hvalue)
    exact ⟨⟨by omega, by omega, by omega, by omega⟩, rfl⟩
  · rintro ⟨⟨h₁, h₂, h₃, h₄⟩, rfl⟩
    simp only [readVote, takeNumber_u64 h₁, takeNumber_u64 h₂, takeNumber_u64 h₃,
      takeNumber_u64 h₄, Option.bind_eq_bind, Option.bind_some]

theorem readFlag_eq_ok_iff {reader rest : Bytes} {term : ℕ} {flag : Bool} :
    readFlag reader = .ok (term, flag, rest) ↔ term < 2 ^ 64 ∧
      reader = digits 8 term ++ flagByte flag :: rest := by
  unfold readFlag
  constructor
  · intro h
    split at h
    · cases h
    next term' reader₁ hnumber =>
    obtain ⟨hlt, rfl⟩ := takeNumber_eq_some_iff.1 hnumber
    split at h
    · cases h
    next b reader₂ hbyte =>
    obtain rfl := takeByte_eq_some_iff.1 hbyte
    split_ifs at h with hflag
    obtain ⟨rfl, rfl, rfl⟩ : term' = term ∧ decide (b = 1) = flag ∧ reader₂ = rest := by
      simpa using h
    refine ⟨by omega, ?_⟩
    congr 2
    have hb : b = 0 ∨ b = 1 := by
      rw [UInt8.lt_iff_toNat_lt, UInt8.toNat_one] at hflag
      rw [← UInt8.toNat_inj, ← UInt8.toNat_inj, UInt8.toNat_zero, UInt8.toNat_one]
      omega
    rcases hb with rfl | rfl <;> rfl
  · rintro ⟨hlt, rfl⟩
    rw [takeNumber_u64 hlt]
    cases flag <;> rfl

/-- The kinds tell the messages apart, and each is read from its frames. -/
theorem readMessage_eq_ok_iff {kind : UInt8} {reader rest : Bytes} {message : RaftMessage}
    {repliedTo : Option AppendEntries} :
    readMessage kind reader = .ok (message, repliedTo, rest) ↔ kind = message.kind ∧
      message.InRange ∧ (∀ request ∈ repliedTo, request.InRange) ∧
      ∃ body, MessageFrame message repliedTo body ∧ reader = body ++ rest := by
  unfold readMessage
  constructor
  · intro h
    split_ifs at h with h₁ h₂ h₃ h₄
    · subst h₁
      split at h
      · cases h
      next value reader' hvote =>
      obtain ⟨hr, body, hbody, rfl⟩ := readVote_eq_some_iff.1 hvote
      obtain ⟨rfl, rfl, rfl⟩ : _ = message ∧ none = repliedTo ∧ reader' = rest := by simpa using h
      exact ⟨rfl, hr, by simp, body, hbody, rfl⟩
    · subst h₂
      split at h
      · cases h
      next term granted reader' hflag =>
      obtain ⟨hlt, rfl⟩ := readFlag_eq_ok_iff.1 hflag
      obtain ⟨rfl, rfl, rfl⟩ : _ = message ∧ none = repliedTo ∧ reader' = rest := by simpa using h
      exact ⟨rfl, hlt, by simp, _, rfl, by simp⟩
    · subst h₃
      split at h
      · cases h
      next value reader' happend =>
      obtain ⟨hr, frame, hframe, rfl⟩ := readAppend_eq_some_iff.1 happend
      obtain ⟨rfl, rfl, rfl⟩ : _ = message ∧ none = repliedTo ∧ reader' = rest := by simpa using h
      exact ⟨rfl, hr, by simp, frame, hframe, rfl⟩
    · subst h₄
      split at h
      · cases h
      next term success reader' hflag =>
      obtain ⟨hlt, rfl⟩ := readFlag_eq_ok_iff.1 hflag
      split at h
      · cases h
      next request reader'' happend =>
      obtain ⟨hr, frame, hframe, rfl⟩ := readAppend_eq_some_iff.1 happend
      obtain ⟨rfl, rfl, rfl⟩ : _ = message ∧ some request = repliedTo ∧ reader'' = rest := by
        simpa using h
      exact ⟨rfl, hlt, by simpa using hr, _, ⟨frame, hframe, rfl⟩, by simp⟩
  · rintro ⟨rfl, hr, hrs, body, hbody, rfl⟩
    cases message with
    | requestVote value =>
      cases repliedTo with
      | some request => exact hbody.elim
      | none =>
        rw [readVote_eq_some_iff.2 ⟨hr, body, hbody, rfl⟩]
        rfl
    | requestVoteReply value =>
      cases repliedTo with
      | some request => exact hbody.elim
      | none =>
        have hflag : readFlag (body ++ rest) = .ok (value.term, value.voteGranted, rest) :=
          readFlag_eq_ok_iff.2 ⟨hr, by rw [show body = _ from hbody, List.append_assoc]; rfl⟩
        rw [hflag]
        rfl
    | appendEntries value =>
      cases repliedTo with
      | some request => exact hbody.elim
      | none =>
        rw [readAppend_eq_some_iff.2 ⟨hr, body, hbody, rfl⟩]
        rfl
    | appendEntriesReply reply =>
      cases repliedTo with
      | none => exact hbody.elim
      | some request =>
        obtain ⟨frame, hframe, rfl⟩ := hbody
        have hflag : readFlag (digits 8 reply.term ++ flagByte reply.success :: frame ++ rest) =
            .ok (reply.term, reply.success, frame ++ rest) :=
          readFlag_eq_ok_iff.2 ⟨hr, by rw [List.append_assoc]; rfl⟩
        rw [hflag]
        dsimp only
        rw [readAppend_eq_some_iff.2 ⟨hrs request rfl, frame, hframe, rfl⟩]
        rfl

theorem readHeader_eq_some_iff {bytes reader : Bytes} {version kind : UInt8} {sender : ℕ} :
    readHeader bytes = some (version, kind, sender, reader) ↔ sender < 2 ^ 64 ∧
      bytes = version :: kind :: (digits 8 sender ++ reader) := by
  constructor
  · intro h
    obtain ⟨⟨v, r₁⟩, h₁, h⟩ := Option.bind_eq_some_iff.1 h
    obtain ⟨⟨k, r₂⟩, h₂, h⟩ := Option.bind_eq_some_iff.1 h
    obtain ⟨⟨s, r₃⟩, h₃, hheader⟩ := Option.bind_eq_some_iff.1 h
    obtain rfl := takeByte_eq_some_iff.1 h₁
    obtain rfl := takeByte_eq_some_iff.1 h₂
    obtain ⟨hlt, rfl⟩ := takeNumber_eq_some_iff.1 h₃
    obtain ⟨rfl, rfl, rfl, rfl⟩ : v = version ∧ k = kind ∧ s = sender ∧ r₃ = reader := by
      simpa using hheader
    exact ⟨by omega, rfl⟩
  · rintro ⟨hlt, rfl⟩
    simp only [readHeader, takeByte, takeNumber_u64 hlt, Option.bind_eq_bind, Option.bind_some]

/-- **The decoder**: it accepts the frames within the limit. -/
theorem decodeRaftEnvelope_eq_ok_iff {envelope : RaftEnvelope} {bytes : Bytes} :
    decodeRaftEnvelope bytes = .ok envelope ↔ envelope.InRange ∧ envelope.senderId ≠ 0 ∧
      ∃ body, MessageFrame envelope.message envelope.repliedTo body ∧
        bytes = withChecksum (envelopeHeader envelope.message.kind envelope.senderId ++ body) ∧
        bytes.length ≤ maxRaftFrameSize := by
  unfold decodeRaftEnvelope
  constructor
  · intro h
    split_ifs at h with hlarge hshort hversion
    dsimp only at h
    split_ifs at h with hcrc
    split at h
    · cases h
    next version kind sender reader hheader =>
    split_ifs at h with hversion' hsender
    split at h
    · cases h
    next message repliedTo reader' hmessage =>
    split_ifs at h with hrest
    rw [not_not] at hversion' hrest hcrc
    obtain rfl := Except.ok.inj h
    obtain ⟨hs, htake⟩ := readHeader_eq_some_iff.1 hheader
    obtain ⟨rfl, hm, hr, body, hbody, rfl⟩ := readMessage_eq_ok_iff.1 hmessage
    subst hversion' hrest
    rw [List.append_nil] at htake
    have hbytes := eq_withChecksum_iff.2 ⟨by omega, htake, by rw [← htake, hcrc]⟩
    exact ⟨⟨hs, hm, hr⟩, hsender, body, hbody, hbytes, not_lt.1 hlarge⟩
  · rintro ⟨⟨hs, hm, hr⟩, hsender, body, hbody, hbytes, hlen⟩
    obtain ⟨-, htake, hcrc⟩ := eq_withChecksum_iff.1 hbytes
    have hmin : 10 + checksumSize ≤ bytes.length := by
      rw [hbytes, length_withChecksum, envelopeHeader]
      simp only [List.length_append, List.length_cons, length_digits]
      omega
    have hversion : byteOf bytes 0 = 3 := by
      rw [hbytes]
      rfl
    rw [if_neg (not_lt.2 hlen), if_neg (not_lt.2 hmin), if_neg (not_not.2 hversion)]
    have hheader : readHeader (envelopeHeader envelope.message.kind envelope.senderId ++ body) =
        some (3, envelope.message.kind, envelope.senderId, body) :=
      readHeader_eq_some_iff.2 ⟨hs, rfl⟩
    dsimp only
    rw [htake, hcrc, if_neg (not_not.2 rfl), hheader]
    dsimp only
    rw [if_neg (not_not.2 rfl), if_neg hsender,
      readMessage_eq_ok_iff.2 ⟨rfl, hm, hr, body, hbody, (List.append_nil body).symm⟩]
    simp

/-- **The frame format**: a frame is accepted, with what it stands for, if and only if the encoder
writes it. -/
theorem raftEnvelope_exact (envelope : RaftEnvelope) (bytes : Bytes) :
    (envelope.InRange ∧ encodeRaftEnvelope envelope = .ok bytes ↔
        decodeRaftEnvelope bytes = .ok envelope) ∧
      (decodeRaftEnvelope bytes = .ok envelope → bytes.length ≤ maxRaftFrameSize) ∧
      ∀ bytes', decodeRaftEnvelope bytes = .ok envelope →
        decodeRaftEnvelope bytes' = .ok envelope → bytes = bytes' := by
  have hiff : ∀ frame, envelope.InRange ∧ encodeRaftEnvelope envelope = .ok frame ↔
      decodeRaftEnvelope frame = .ok envelope := fun frame => by
    rw [encodeRaftEnvelope_eq_ok_iff, decodeRaftEnvelope_eq_ok_iff]
  refine ⟨hiff bytes, ?_, ?_⟩
  · intro h
    obtain ⟨-, -, body, -, -, hlen⟩ := decodeRaftEnvelope_eq_ok_iff.1 h
    exact hlen
  · intro bytes' h h'
    exact Except.ok.inj (((hiff bytes).2 h).2.symm.trans ((hiff bytes').2 h').2)

/-! ## How long a frame is -/

/-- The room that a request takes in a frame. -/
def AppendEntries.frameSize (request : AppendEntries) : ℕ :=
  52 + (request.entries.map fun e => 4 + PersistentLog.recordSize e).sum

theorem EntriesFrame.length_eq {es : List LogEntry} {bytes : Bytes} (h : EntriesFrame es bytes) :
    bytes.length = (es.map fun e => 4 + PersistentLog.recordSize e).sum := by
  induction h with
  | nil => rfl
  | cons he _ _ ih =>
    rw [List.length_append, List.length_append, length_digits, ih, List.map_cons, List.sum_cons,
      PersistentLog.recordSize_eq he, Nat.add_assoc]

theorem RequestFrame.length_eq {request : AppendEntries} {bytes : Bytes}
    (h : RequestFrame request bytes) : bytes.length = request.frameSize := by
  obtain ⟨records, hrecords, -, rfl⟩ := h
  simp only [List.length_append, length_digits, hrecords.length_eq, AppendEntries.frameSize]
  omega

/-- Entries that can be encoded and are not too long have their records. -/
theorem exists_entriesFrame {es : List LogEntry} (he : ∀ e ∈ es, e.Encodable)
    (hsize : (es.map fun e => 4 + PersistentLog.recordSize e).sum < 2 ^ 32) :
    ∃ records, EntriesFrame es records := by
  induction es with
  | nil => exact ⟨[], .nil⟩
  | cons e es ih =>
    rw [List.map_cons, List.sum_cons] at hsize
    obtain ⟨record, hrecord⟩ := (he e List.mem_cons_self).exists_bytes
    obtain ⟨records, hrecords⟩ := ih (fun e' h => he e' (List.mem_cons_of_mem _ h)) (by omega)
    rw [PersistentLog.recordSize_eq hrecord] at hsize
    exact ⟨_, .cons hrecord (by omega) hrecords⟩

theorem exists_requestFrame {request : AppendEntries} (he : ∀ e ∈ request.entries, e.Encodable)
    (hsize : request.frameSize < 2 ^ 32) : ∃ bytes, RequestFrame request bytes := by
  rw [AppendEntries.frameSize] at hsize
  obtain ⟨records, hrecords⟩ := exists_entriesFrame he (by omega)
  refine ⟨_, records, hrecords, ?_, rfl⟩
  have hcount := hrecords.length_le
  rw [hrecords.length_eq] at hcount
  rw [uint32Max]
  omega

/-- The header, the message and the checksum. -/
theorem length_envelope (kind : UInt8) (sender : ℕ) (body : Bytes) :
    (withChecksum (envelopeHeader kind sender ++ body)).length = body.length + 14 := by
  rw [length_withChecksum, envelopeHeader, checksumSize]
  simp only [List.length_append, List.length_cons, length_digits]
  omega

/-- A request is sent as long as it leaves room for the header and the checksum. -/
theorem encodeRaftEnvelope_request_iff {request : AppendEntries} {sender : ℕ}
    (hs : sender ≠ 0) :
    (encodeRaftEnvelope ⟨sender, .appendEntries request, none⟩).isOk = true ↔
      (∃ frame, RequestFrame request frame) ∧ request.frameSize + 14 ≤ maxRaftFrameSize := by
  constructor
  · intro h
    obtain ⟨bytes, hbytes⟩ := isOk_iff.1 h
    obtain ⟨-, body, hbody, rfl, hlen⟩ := encodeRaftEnvelope_eq_ok_iff.1 hbytes
    rw [length_envelope, RequestFrame.length_eq hbody] at hlen
    exact ⟨⟨body, hbody⟩, hlen⟩
  · rintro ⟨⟨frame, hframe⟩, hlen⟩
    refine isOk_iff.2 ⟨_, encodeRaftEnvelope_eq_ok_iff.2
      ⟨hs, frame, hframe, rfl, ?_⟩⟩
    rw [length_envelope, hframe.length_eq]
    exact hlen

/-- A reply has nine bytes of its own in front of the request it echoes. -/
theorem encodeRaftEnvelope_reply_iff {request : AppendEntries} {reply : AppendEntriesReply}
    {sender : ℕ} (hs : sender ≠ 0) :
    (encodeRaftEnvelope ⟨sender, .appendEntriesReply reply, some request⟩).isOk = true ↔
      (∃ frame, RequestFrame request frame) ∧ request.frameSize + 23 ≤ maxRaftFrameSize := by
  have hbody : ∀ frame : Bytes, RequestFrame request frame →
      (digits 8 reply.term ++ flagByte reply.success :: frame).length =
        request.frameSize + 9 := by
    intro frame hframe
    rw [List.length_append, length_digits, List.length_cons, hframe.length_eq]
    omega
  constructor
  · intro h
    obtain ⟨bytes, hbytes⟩ := isOk_iff.1 h
    obtain ⟨-, body, ⟨frame, hframe, rfl⟩, rfl, hlen⟩ := encodeRaftEnvelope_eq_ok_iff.1 hbytes
    rw [length_envelope, hbody frame hframe] at hlen
    exact ⟨⟨frame, hframe⟩, hlen⟩
  · rintro ⟨⟨frame, hframe⟩, hlen⟩
    refine isOk_iff.2 ⟨_, encodeRaftEnvelope_eq_ok_iff.2
      ⟨hs, _, ⟨frame, hframe, rfl⟩, rfl, ?_⟩⟩
    rw [length_envelope, hbody frame hframe]
    exact hlen

end DistributedKV
