import DistributedKV.Store.MachineDecode
import DistributedKV.Wire.RaftWire
import DistributedKV.Wire.ClientWire

/-!
# The frame decoders, access by access

The `Reader` of `raft_wire.cpp` with its position, and the decoders of Raft frames and of client
frames with every access to the input and every computation of a size or a position. The parsers of
the other modules take numbers from the front of what is left. A read of the reader follows such a
parser: it does the same with the bytes from the position on, and moves the position without leaving
the input.
-/

namespace DistributedKV.Machine

open ByteCodec Checked

variable {α β : Type}

/-! ## Readers -/

structure Reader where
  input : Bytes
  position : ℕ := 0

/-- The bytes that are left. -/
def Reader.rest (reader : Reader) : Bytes := reader.input.drop reader.position

/-- What reads through a reader; no result where the source returns false. -/
def Reading (α : Type) : Type := Reader → Checked (Option (α × Reader))

instance : Monad Reading where
  pure a := fun reader => .ok (some (a, reader))
  bind m f := fun reader => do
    match ← m reader with
    | none => .ok none
    | some (a, reader) => f a reader

/-- `return false`. -/
def fail : Reading α := fun _ => .ok none

/-- A reader inside its input, the size of which is a 32-bit number as that of every frame is. -/
structure Reader.Inside (reader : Reader) : Prop where
  position : reader.position ≤ reader.input.length
  length : reader.input.length < 2 ^ 32

/-- A read and a parser agree. -/
inductive Agrees (input : Bytes) : Checked (Option (α × Reader)) → Option (α × Bytes) → Prop
  | fail : Agrees input (.ok none) none
  | read (a : α) {reader : Reader} (hinput : reader.input = input)
      (hposition : reader.position ≤ input.length) :
      Agrees input (.ok (some (a, reader))) (some (a, reader.rest))

theorem Agrees.cases {input : Bytes} {read : Checked (Option (α × Reader))}
    {parsed : Option (α × Bytes)} (h : Agrees input read parsed) :
    (read = .ok none ∧ parsed = none) ∨ ∃ a reader, read = .ok (some (a, reader)) ∧
      parsed = some (a, reader.rest) ∧ reader.input = input ∧ reader.position ≤ input.length := by
  cases h with
  | fail => exact Or.inl ⟨rfl, rfl⟩
  | read a hinput hposition => exact Or.inr ⟨a, _, rfl, rfl, hinput, hposition⟩

/-- Wherever the reader is, the read and the parser agree. -/
def Follows (m : Reading α) (parser : Bytes → Option (α × Bytes)) : Prop :=
  ∀ reader : Reader, reader.Inside → Agrees reader.input (m reader) (parser reader.rest)

theorem Reader.Inside.next {reader next : Reader} (h : reader.Inside)
    (hinput : next.input = reader.input) (hposition : next.position ≤ reader.input.length) :
    next.Inside :=
  ⟨hinput ▸ hposition, hinput ▸ h.length⟩

theorem Follows.pure (a : α) : Follows (Pure.pure a) fun rest => some (a, rest) :=
  fun _ h => .read a rfl h.position

/-- **One read after the other** follows one parser after the other. -/
theorem Follows.bind {m : Reading α} {f : α → Reading β} {p : Bytes → Option (α × Bytes)}
    {q : α × Bytes → Option (β × Bytes)} (hm : Follows m p)
    (hf : ∀ a, Follows (f a) fun rest => q (a, rest)) :
    Follows (m >>= f) fun rest => p rest >>= q := by
  intro reader h
  have hbind : (m >>= f) reader = (do
    match ← m reader with
    | none => .ok none
    | some (a, reader) => f a reader) := rfl
  rw [hbind]
  dsimp only
  rcases (hm reader h).cases with ⟨hread, hparsed⟩ | ⟨a, next, hread, hparsed, hinput, hposition⟩
  · rw [hread, hparsed]
    exact .fail
  · rw [hread, hparsed, ← hinput]
    exact hf a next (h.next hinput hposition)

theorem Follows.congr {m : Reading α} {p q : Bytes → Option (α × Bytes)} (h : Follows m p)
    (hpq : ∀ rest, p rest = q rest) : Follows m q :=
  funext hpq ▸ h

/-! ## Bytes and numbers -/

def Reader.u8 : Reading UInt8 := fun reader =>
  if reader.input.length ≤ reader.position then .ok none
  else do
    let byte ← read reader.input reader.position
    let position ← add reader.position 1
    .ok (some (byte, { reader with position }))

/-- The loop of `u32` and `u64`. -/
def Reader.shiftIn (n : ℕ) (reader : Reader) : Checked (ℕ × Reader) :=
  (List.range n).foldlM (fun (value, reader) _ => do
    let byte ← read reader.input reader.position
    let position ← add reader.position 1
    .ok (value <<< 8 ||| byte.toNat, { reader with position })) (0, reader)

/-- `u32` and `u64`, by the number of bytes. -/
def Reader.number (n : ℕ) : Reading ℕ := fun reader => do
  let left ← sub reader.input.length reader.position
  if left < n then .ok none
  else
    let (value, reader) ← reader.shiftIn n
    .ok (some (value, reader))

def Reader.u32 : Reading ℕ := Reader.number 4

def Reader.u64 : Reading ℕ := Reader.number 8

theorem Reader.length_rest (reader : Reader) :
    reader.rest.length = reader.input.length - reader.position := List.length_drop

theorem Reader.u8_follows : Follows Reader.u8 takeByte := by
  intro reader h
  rw [Reader.u8]
  split_ifs with hend
  · have hnil : reader.rest = [] := List.drop_eq_nil_of_le hend
    rw [hnil]
    exact .fail
  · rw [not_le] at hend
    have hlength := h.length
    rw [read_byteOf hend, ok_bind, add_eq (by omega), ok_bind, Reader.rest,
      List.drop_eq_getElem_cons hend, takeByte, byteOf, List.getD_eq_getElem _ _ hend]
    exact .read _ rfl hend

theorem Reader.shiftIn_eq {n : ℕ} {reader : Reader} (h : reader.Inside)
    (hn : reader.position + n ≤ reader.input.length) :
    reader.shiftIn n = .ok (value (field reader.input reader.position n),
      ⟨reader.input, reader.position + n⟩) := by
  have hlength := h.length
  refine foldlM_range (fun k => (value (field reader.input reader.position k),
    (⟨reader.input, reader.position + k⟩ : Reader))) fun k hk => ?_
  dsimp only
  rw [read_eq (by omega) 0, ok_bind, add_eq (by omega), ok_bind, field_succ (by omega), value,
    value, List.foldl_append]
  rfl

/-- **Numbers** are read without a fault, as the parser takes them. -/
theorem Reader.number_follows (n : ℕ) : Follows (Reader.number n) (takeNumber n) := by
  intro reader h
  have hposition := h.position
  rw [Reader.number, sub_eq h.position, ok_bind, takeNumber, reader.length_rest]
  split_ifs with hshort
  · exact .fail
  · rw [reader.shiftIn_eq h (by omega), ok_bind, Reader.rest, List.drop_drop]
    exact .read _ rfl (by dsimp only; omega)

/-! ## Requests -/

/-- One round of the loop of `read_append`. -/
def readEntry : Reading LogEntry := do
  let length ← Reader.u32
  fun reader => do
    let left ← sub reader.input.length reader.position
    if left < length then .ok none
    else
      let record ← slice reader.input reader.position length
      match ← decodeLogEntry record with
      | .error _ => .ok none
      | .ok decoded =>
        if decoded.bytesConsumed ≠ length then .ok none
        else
          let position ← add reader.position length
          .ok (some (decoded.entry, { reader with position }))

/-- One round of that loop, with the counter. -/
def appendRound (count : ℕ) : ℕ × List LogEntry × Reader →
    Checked ((ℕ × List LogEntry × Reader) ⊕ Option (List LogEntry × Reader))
  | (i, entries, reader) =>
    if i < count then do
      match ← readEntry reader with
      | none => .ok (.inr none)
      | some (entry, reader) =>
        let next ← add32 i 1
        .ok (.inl (next, entries ++ [entry], reader))
    else .ok (.inr (some (entries, reader)))

/-- The loop of `read_append`, which an input of `n` bytes keeps busy for `n + 1` rounds at most. -/
def readEntries (count : ℕ) : Reading (List LogEntry) := fun reader =>
  loop (appendRound count) (reader.input.length + 1) (0, [], reader)

/-- The check of the count against what is left, and the loop. -/
def readCounted (count : ℕ) : Reading (List LogEntry) := fun reader => do
  let left ← sub reader.input.length reader.position
  if left / 4 < count then .ok none else readEntries count reader

def readAppend : Reading AppendEntries := do
  let term ← Reader.u64
  let leaderId ← Reader.u64
  let prevLogIndex ← Reader.u64
  let prevLogTerm ← Reader.u64
  let leaderCommit ← Reader.u64
  let readContext ← Reader.u64
  let count ← Reader.u32
  let entries ← readCounted count
  pure ⟨term, leaderId, prevLogIndex, prevLogTerm, entries, leaderCommit, readContext⟩

/-- A record with its length, from the front. -/
def takeEntry (rest : Bytes) : Option (LogEntry × Bytes) := do
  let (length, rest) ← takeNumber 4 rest
  if rest.length < length then none
  else match DistributedKV.decodeLogEntry (rest.take length) with
    | .error _ => none
    | .ok decoded =>
      if decoded.bytesConsumed ≠ length then none
      else some (decoded.entry, rest.drop length)

theorem readEntries_succ (count : ℕ) (rest : Bytes) :
    DistributedKV.readEntries (count + 1) rest = (takeEntry rest).bind fun x =>
      (DistributedKV.readEntries count x.2).map fun y => (x.1 :: y.1, y.2) := by
  rw [DistributedKV.readEntries, takeEntry]
  cases takeNumber 4 rest with
  | none => rfl
  | some x =>
    obtain ⟨length, rest⟩ := x
    simp only [Option.bind_eq_bind, Option.bind_some]
    split_ifs with hshort
    · rfl
    cases DistributedKV.decodeLogEntry (rest.take length) with
    | error e => rfl
    | ok decoded =>
      dsimp only
      split_ifs with hconsumed
      · rfl
      rw [Option.bind_some]
      cases DistributedKV.readEntries count (rest.drop length) <;> rfl

theorem readEntry_follows : Follows readEntry takeEntry := by
  refine (Reader.number_follows 4).bind fun length reader h => ?_
  have hposition := h.position
  have hsize := h.length
  dsimp only
  rw [sub_eq h.position, ok_bind, reader.length_rest]
  split_ifs with hshort
  · exact .fail
  rw [slice_eq (by omega), ok_bind, decodeLogEntry_eq, ok_bind, ← Reader.rest]
  cases DistributedKV.decodeLogEntry (reader.rest.take length) with
  | error e => exact .fail
  | ok decoded =>
    dsimp only
    split_ifs with hconsumed
    · exact .fail
    · rw [add_eq (by omega), ok_bind, Reader.rest, List.drop_drop]
      exact .read _ rfl (by dsimp only; omega)

/-- What the loop has still to do, behind the entries that it has. -/
def remainingEntries (count : ℕ) : ℕ × List LogEntry × Reader → Option (List LogEntry × Bytes)
  | (i, entries, reader) =>
    (DistributedKV.readEntries (count - i) reader.rest).map fun x => (entries ++ x.1, x.2)

/-- **The loop over the records** ends without a fault. -/
theorem readEntries_follows {count : ℕ} {reader : Reader} (h : reader.Inside)
    (hcount : count ≤ reader.input.length) :
    Agrees reader.input (readEntries count reader)
      (DistributedKV.readEntries count reader.rest) := by
  have hlength := h.length
  have hloop : ∃ result, readEntries count reader = .ok result ∧
      Agrees reader.input (.ok result) (remainingEntries count (0, [], reader)) := by
    refine loop_spec (fun s => s.1 ≤ count ∧ s.2.2.Inside ∧ s.2.2.input = reader.input)
      (fun s => count - s.1) (fun s result => Agrees reader.input (.ok result)
        (remainingEntries count s)) ?_ ⟨Nat.zero_le _, h, rfl⟩ (by omega)
    rintro ⟨i, entries, current⟩ ⟨hi, hcurrent, hinput⟩
    dsimp only at hi hcurrent hinput
    rw [appendRound, remainingEntries]
    split_ifs with hlt
    swap
    · obtain rfl : count = i := by omega
      have hagrees := Agrees.read entries hinput (hinput ▸ hcurrent.position)
      exact Or.inl ⟨_, rfl, by simpa [DistributedKV.readEntries] using hagrees⟩
    obtain ⟨n, rfl⟩ : ∃ n, count = i + (n + 1) := ⟨count - (i + 1), by omega⟩
    rw [Nat.add_sub_cancel_left, readEntries_succ]
    rcases (readEntry_follows current hcurrent).cases with
      ⟨hread, htaken⟩ | ⟨entry, next, hread, htaken, hnext, hposition⟩
    · rw [hread, htaken]
      exact Or.inl ⟨_, rfl, .fail⟩
    · rw [hread, htaken]
      refine Or.inr ⟨(i + 1, entries ++ [entry], next), ?_, ⟨Nat.succ_le_of_lt hlt,
        hcurrent.next hnext hposition, hnext.trans hinput⟩, ?_, ?_⟩
      · rw [ok_bind]
        dsimp only
        rw [add32_eq (by omega)]
        rfl
      · dsimp only
        omega
      · intro result hresult
        rw [remainingEntries] at hresult
        have hleft : i + (n + 1) - (i + 1) = n := by omega
        rw [hleft] at hresult
        simpa [Option.map_map, Function.comp_def] using hresult
  obtain ⟨result, heq, hresult⟩ := hloop
  rw [heq]
  simpa [remainingEntries] using hresult

theorem readCounted_follows (count : ℕ) : Follows (readCounted count) fun rest =>
    if rest.length / 4 < count then none else DistributedKV.readEntries count rest := by
  intro reader h
  dsimp only
  rw [readCounted, sub_eq h.position, ok_bind, reader.length_rest]
  split_ifs with hcount
  · exact .fail
  · exact readEntries_follows h (by omega)

/-- **Requests** are read without a fault. -/
theorem readAppend_follows : Follows readAppend DistributedKV.readAppend := by
  refine (Reader.number_follows 8).bind fun term => ?_
  refine (Reader.number_follows 8).bind fun leaderId => ?_
  refine (Reader.number_follows 8).bind fun prevLogIndex => ?_
  refine (Reader.number_follows 8).bind fun prevLogTerm => ?_
  refine (Reader.number_follows 8).bind fun leaderCommit => ?_
  refine (Reader.number_follows 8).bind fun readContext => ?_
  refine (Reader.number_follows 4).bind fun count => ?_
  refine ((readCounted_follows count).bind (q := fun x => some (⟨term, leaderId, prevLogIndex,
    prevLogTerm, x.1, leaderCommit, readContext⟩, x.2)) fun entries => .pure _).congr fun rest => ?_
  dsimp only
  split_ifs with hcount <;> rfl

/-! ## Envelopes -/

/-- The version, the kind and the sender. -/
def readHeader : Reading (UInt8 × UInt8 × ℕ) := do
  let version ← Reader.u8
  let kind ← Reader.u8
  let sender ← Reader.u64
  pure (version, kind, sender)

def readVote : Reading RequestVote := do
  let term ← Reader.u64
  let candidateId ← Reader.u64
  let lastLogIndex ← Reader.u64
  let lastLogTerm ← Reader.u64
  pure ⟨term, candidateId, lastLogIndex, lastLogTerm⟩

/-- A reply's term and flag. -/
def readReply : Reading (ℕ × UInt8) := do
  let term ← Reader.u64
  let flag ← Reader.u8
  pure (term, flag)

/-- The switch of `decode_raft_envelope`. -/
def readMessage (kind : UInt8) (reader : Reader) :
    Checked (Except RaftWireError (RaftMessage × Option AppendEntries × Reader)) :=
  if kind = 1 then do
    match ← readVote reader with
    | none => .ok (.error .truncated)
    | some (value, reader) => .ok (.ok (.requestVote value, none, reader))
  else if kind = 2 then do
    match ← readReply reader with
    | none => .ok (.error .truncated)
    | some ((term, granted), reader) =>
      if 1 < granted then .ok (.error .invalidMessage)
      else .ok (.ok (.requestVoteReply ⟨term, granted = 1⟩, none, reader))
  else if kind = 3 then do
    match ← readAppend reader with
    | none => .ok (.error .invalidMessage)
    | some (value, reader) => .ok (.ok (.appendEntries value, none, reader))
  else if kind = 4 then do
    match ← readReply reader with
    | none => .ok (.error .truncated)
    | some ((term, success), reader) =>
      if 1 < success then .ok (.error .invalidMessage)
      else
        match ← readAppend reader with
        | none => .ok (.error .invalidMessage)
        | some (repliedTo, reader) =>
          .ok (.ok (.appendEntriesReply ⟨term, success = 1⟩, some repliedTo, reader))
  else .ok (.error .invalidMessage)

def decodeRaftEnvelope (bytes : Bytes) : Checked (Except RaftWireError RaftEnvelope) :=
  if maxRaftFrameSize < bytes.length then .ok (.error .tooLarge)
  else do
    let minimumSize ← add 10 checksumSize
    if bytes.length < minimumSize then .ok (.error .truncated)
    else
      let first ← read bytes 0
      if first ≠ 3 then .ok (.error .unsupportedVersion)
      else
        let size ← sub bytes.length checksumSize
        let last ← slice bytes size checksumSize
        let front ← slice bytes 0 size
        if (crc32 front).toNat ≠ value last then .ok (.error .checksumMismatch)
        else
          match ← readHeader { input := front } with
          | none => .ok (.error .truncated)
          | some ((version, kind, sender), reader) =>
            if version ≠ 3 then .ok (.error .unsupportedVersion)
            else if sender = 0 then .ok (.error .invalidEnvelope)
            else
              match ← readMessage kind reader with
              | .error e => .ok (.error e)
              | .ok (message, repliedTo, reader) =>
                if reader.position ≠ front.length then .ok (.error .trailingBytes)
                else .ok (.ok ⟨sender, message, repliedTo⟩)

/-- What the switch gives, with a reader and with the bytes that are left. -/
inductive AgreesMessage (input : Bytes) :
    Checked (Except RaftWireError (RaftMessage × Option AppendEntries × Reader)) →
    Except RaftWireError (RaftMessage × Option AppendEntries × Bytes) → Prop
  | error (e : RaftWireError) : AgreesMessage input (.ok (.error e)) (.error e)
  | ok (message : RaftMessage) (repliedTo : Option AppendEntries) {reader : Reader}
      (hinput : reader.input = input) (hposition : reader.position ≤ input.length) :
      AgreesMessage input (.ok (.ok (message, repliedTo, reader)))
        (.ok (message, repliedTo, reader.rest))

theorem readVote_follows : Follows readVote DistributedKV.readVote := by
  refine (Reader.number_follows 8).bind fun term => ?_
  refine (Reader.number_follows 8).bind fun candidateId => ?_
  refine (Reader.number_follows 8).bind fun lastLogIndex => ?_
  refine (Reader.number_follows 8).bind fun lastLogTerm => ?_
  exact .pure _

/-- The version, the kind and the sender, from the front. -/
def takeHeader (rest : Bytes) : Option ((UInt8 × UInt8 × ℕ) × Bytes) := do
  let (version, rest) ← takeByte rest
  let (kind, rest) ← takeByte rest
  let (sender, rest) ← takeNumber 8 rest
  some ((version, kind, sender), rest)

theorem readHeader_follows : Follows readHeader takeHeader := by
  refine Reader.u8_follows.bind fun version => ?_
  refine Reader.u8_follows.bind fun kind => ?_
  refine (Reader.number_follows 8).bind fun sender => ?_
  exact .pure _

theorem readHeader_eq (rest : Bytes) : DistributedKV.readHeader rest =
    (takeHeader rest).map fun x => (x.1.1, x.1.2.1, x.1.2.2, x.2) := by
  rw [DistributedKV.readHeader, takeHeader]
  cases takeByte rest with
  | none => rfl
  | some x =>
    obtain ⟨version, rest⟩ := x
    simp only [Option.bind_eq_bind, Option.bind_some]
    cases takeByte rest with
    | none => rfl
    | some y =>
      obtain ⟨kind, rest⟩ := y
      simp only [Option.bind_some]
      cases takeNumber 8 rest <;> rfl

/-- A reply's term and flag, from the front. -/
def takeReply (rest : Bytes) : Option ((ℕ × UInt8) × Bytes) := do
  let (term, rest) ← takeNumber 8 rest
  let (flag, rest) ← takeByte rest
  some ((term, flag), rest)

theorem readReply_follows : Follows readReply takeReply := by
  refine (Reader.number_follows 8).bind fun term => ?_
  refine Reader.u8_follows.bind fun flag => ?_
  exact .pure _

theorem readFlag_eq (rest : Bytes) : readFlag rest =
    match takeReply rest with
    | none => .error .truncated
    | some ((term, flag), rest) =>
      if 1 < flag then .error .invalidMessage else .ok (term, flag = 1, rest) := by
  rw [readFlag, takeReply]
  cases takeNumber 8 rest with
  | none => rfl
  | some x =>
    obtain ⟨term, rest⟩ := x
    simp only [Option.bind_eq_bind, Option.bind_some]
    cases takeByte rest <;> rfl

/-- **Messages** are read without a fault. -/
theorem readMessage_agrees (kind : UInt8) {reader : Reader} (h : reader.Inside) :
    AgreesMessage reader.input (readMessage kind reader)
      (DistributedKV.readMessage kind reader.rest) := by
  unfold readMessage DistributedKV.readMessage
  split_ifs with hvote hvoteReply hrequest hreply
  · rcases (readVote_follows reader h).cases with
      ⟨hread, hparsed⟩ | ⟨value, next, hread, hparsed, hinput, hposition⟩ <;> rw [hread, hparsed]
    · exact .error _
    · exact .ok _ _ hinput hposition
  · rw [readFlag_eq]
    rcases (readReply_follows reader h).cases with
      ⟨hread, hparsed⟩ | ⟨⟨term, granted⟩, next, hread, hparsed, hinput, hposition⟩ <;>
      rw [hread, hparsed, ok_bind] <;> dsimp only
    · exact .error _
    split_ifs with hflag
    · exact .error _
    · exact .ok _ _ hinput hposition
  · rcases (readAppend_follows reader h).cases with
      ⟨hread, hparsed⟩ | ⟨value, next, hread, hparsed, hinput, hposition⟩ <;> rw [hread, hparsed]
    · exact .error _
    · exact .ok _ _ hinput hposition
  · rw [readFlag_eq]
    rcases (readReply_follows reader h).cases with
      ⟨hread, hparsed⟩ | ⟨⟨term, success⟩, next, hread, hparsed, hinput, hposition⟩ <;>
      rw [hread, hparsed, ok_bind] <;> dsimp only
    · exact .error _
    split_ifs with hflag
    · exact .error _
    have hnext := h.next hinput hposition
    dsimp only
    rcases (readAppend_follows next hnext).cases with
      ⟨hread', hparsed'⟩ | ⟨request, last, hread', hparsed', hinput', hposition'⟩ <;>
      rw [hread', hparsed']
    · exact .error _
    · rw [hinput] at hinput' hposition'
      exact .ok _ _ hinput' hposition'
  · exact .error _

/-- **Raft frames** are decoded without a fault. -/
theorem decodeRaftEnvelope_eq (bytes : Bytes) :
    decodeRaftEnvelope bytes = .ok (DistributedKV.decodeRaftEnvelope bytes) := by
  unfold decodeRaftEnvelope DistributedKV.decodeRaftEnvelope
  refine ite_eq_ok fun hlarge => ?_
  rw [maxRaftFrameSize] at hlarge
  rw [add_eq (by decide), ok_bind]
  refine ite_eq_ok fun hshort => ?_
  rw [checksumSize] at hshort ⊢
  rw [read_byteOf (by omega), ok_bind]
  refine ite_eq_ok fun _ => ?_
  have hlast : (bytes.drop (bytes.length - 4)).take 4 = bytes.drop (bytes.length - 4) := by
    rw [List.take_of_length_le]
    rw [List.length_drop]
    omega
  rw [sub_eq (by omega), ok_bind, slice_eq (by omega), ok_bind, slice_eq (by omega), ok_bind, hlast,
    List.drop_zero]
  refine ite_eq_ok fun _ => ?_
  -- the reader is on the input without its checksum
  generalize hfront : bytes.take (bytes.length - 4) = front
  have hlength : front.length ≤ bytes.length := hfront ▸ List.length_take_le' _ _
  have hinside : (⟨front, 0⟩ : Reader).Inside :=
    ⟨Nat.zero_le _, lt_of_le_of_lt hlength (by omega)⟩
  rw [readHeader_eq]
  have hrest : (⟨front, 0⟩ : Reader).rest = front := List.drop_zero
  rcases (readHeader_follows ⟨front, 0⟩ hinside).cases with
    ⟨hread, hparsed⟩ | ⟨⟨version, kind, sender⟩, reader, hread, hparsed, hinput, hposition⟩ <;>
    rw [hrest] at hparsed <;> rw [hread, hparsed, ok_bind]
  · rfl
  dsimp only [Option.map_some]
  refine ite_eq_ok fun _ => ite_eq_ok fun _ => ?_
  have hmessage := readMessage_agrees kind (hinside.next hinput hposition)
  revert hmessage
  generalize readMessage kind reader = read
  generalize DistributedKV.readMessage kind reader.rest = parsed
  rintro (e | @⟨message, repliedTo, last, hlastInput, hlastPosition⟩)
  · rfl
  rw [ok_bind]
  dsimp only
  have htrailing : last.position ≠ front.length ↔ last.rest ≠ [] := by
    rw [Reader.rest, Ne, Ne, List.drop_eq_nil_iff, hlastInput, hinput]
    rw [hinput] at hlastPosition
    dsimp only at hlastPosition ⊢
    omega
  simp only [htrailing]
  exact ite_eq_ok fun _ => rfl

/-! ## Client frames -/

def validChecksum (bytes : Bytes) : Checked Bool := do
  let offset ← sub bytes.length checksumSize
  let storedChecksum ← readNumber 4 bytes offset
  let size ← sub bytes.length checksumSize
  let front ← slice bytes 0 size
  .ok (storedChecksum = (crc32 front).toNat)

/-- What every decoder does after the checks of the size. -/
def openFrame (kind : UInt8) (bytes : Bytes) : Checked (Except ClientWireError Bytes) := do
  let first ← read bytes 0
  if first ≠ 2 then .ok (.error .unsupportedVersion)
  else
    let valid ← validChecksum bytes
    if !valid then .ok (.error .checksumMismatch)
    else
      let size ← sub bytes.length checksumSize
      let bytes ← slice bytes 0 size
      let second ← read bytes 1
      if second ≠ kind then .ok (.error .invalidMessage) else .ok (.ok bytes)

def decodeClientRequest (bytes : Bytes) : Checked (Except ClientWireError ClientWriteRequest) :=
  if maxClientRequestSize < bytes.length then .ok (.error .tooLarge)
  else if bytes.length < 2 + checksumSize then .ok (.error .truncated)
  else do
    match ← openFrame 5 bytes with
    | .error e => .ok (.error e)
    | .ok bytes =>
      let size ← sub bytes.length 2
      let commandBytes ← slice bytes 2 size
      match ← decodeCommand commandBytes with
      | .error _ => .ok (.error .invalidMessage)
      | .ok command =>
        if command.type = .noOp ∨ command.requestId.isNone then .ok (.error .invalidMessage)
        else .ok (.ok ⟨command⟩)

def decodeClientReply (bytes : Bytes) : Checked (Except ClientWireError ClientWriteReply) :=
  if bytes.length < replySize + checksumSize then .ok (.error .truncated)
  else if bytes.length ≠ replySize + checksumSize then .ok (.error .invalidMessage)
  else do
    match ← openFrame 6 bytes with
    | .error e => .ok (.error e)
    | .ok bytes =>
      let statusByte ← read bytes 2
      if !validStatus statusByte then .ok (.error .invalidMessage)
      else match ClientWriteStatus.ofByte statusByte with
        | none => .ok (.error .invalidMessage)
        | some status =>
          let term ← readNumber 8 bytes 3
          let index ← readNumber 8 bytes 11
          let leaderHint ← readNumber 8 bytes 19
          if status = .committed ∧ index = 0 then .ok (.error .invalidMessage)
          else .ok (.ok ⟨status, term, index, leaderHint⟩)

def decodeClientReadRequest (bytes : Bytes) : Checked (Except ClientWireError ClientReadRequest) :=
  if maxClientRequestSize < bytes.length then .ok (.error .tooLarge)
  else if bytes.length < 6 + checksumSize then .ok (.error .truncated)
  else do
    match ← openFrame 7 bytes with
    | .error e => .ok (.error e)
    | .ok bytes =>
      let length ← readNumber 4 bytes 2
      let keySize ← sub bytes.length 6
      if length ≠ keySize then .ok (.error .invalidMessage)
      else
        let key ← slice bytes 6 length
        .ok (.ok ⟨key⟩)

/-- The value of a read reply, if the status says that there is one. -/
def readValue (status : ClientReadStatus) (bytes : Bytes) (length : ℕ) : Checked (Option Bytes) :=
  if status = .found then do
    let value ← slice bytes readReplySize length
    .ok (some value)
  else .ok none

def decodeClientReadReply (bytes : Bytes) : Checked (Except ClientWireError ClientReadReply) :=
  if maxClientFrameSize < bytes.length then .ok (.error .tooLarge)
  else if bytes.length < readReplySize + checksumSize then .ok (.error .truncated)
  else do
    match ← openFrame 8 bytes with
    | .error e => .ok (.error e)
    | .ok bytes =>
      let statusByte ← read bytes 2
      if !validReadStatus statusByte then .ok (.error .invalidMessage)
      else match ClientReadStatus.ofByte statusByte with
        | none => .ok (.error .invalidMessage)
        | some status =>
          let length ← readNumber 4 bytes 27
          let valueSize ← sub bytes.length readReplySize
          if length ≠ valueSize ∨ status ≠ .found ∧ length ≠ 0 then .ok (.error .invalidMessage)
          else
            let index ← readNumber 8 bytes 11
            if (status = .found ∨ status = .notFound) ∧ index = 0 then
              .ok (.error .invalidMessage)
            else
              let value ← readValue status bytes length
              let term ← readNumber 8 bytes 3
              let leaderHint ← readNumber 8 bytes 19
              .ok (.ok ⟨status, term, index, leaderHint, value⟩)

/-- The kind is read before the checksum is left off. -/
def decodeClientStatusRequest (bytes : Bytes) :
    Checked (Except ClientWireError ClientStatusRequest) :=
  if bytes.length < 2 + checksumSize then .ok (.error .truncated)
  else if bytes.length ≠ 2 + checksumSize then .ok (.error .invalidMessage)
  else do
    let first ← read bytes 0
    if first ≠ 2 then .ok (.error .unsupportedVersion)
    else
      let valid ← validChecksum bytes
      if !valid then .ok (.error .checksumMismatch)
      else
        let second ← read bytes 1
        if second ≠ 9 then .ok (.error .invalidMessage) else .ok (.ok {})

/-- One round of the loop over the peers. -/
def readPeer (bytes : Bytes) (i : ℕ) : Checked ClientPeerStatus := do
  let offset ← add 52 (i * 24)
  let id ← readNumber 8 bytes offset
  let nextOffset ← add offset 8
  let nextIndex ← readNumber 8 bytes nextOffset
  let matchOffset ← add offset 16
  let matchIndex ← readNumber 8 bytes matchOffset
  .ok ⟨id, nextIndex, matchIndex⟩

def decodeClientStatusReply (bytes : Bytes) : Checked (Except ClientWireError ClientStatusReply) :=
  if bytes.length < statusReplySize + checksumSize then .ok (.error .truncated)
  else if bytes.length ≠ statusReplySize + checksumSize then .ok (.error .invalidMessage)
  else do
    match ← openFrame 10 bytes with
    | .error e => .ok (.error e)
    | .ok bytes =>
      let statusByte ← read bytes 2
      let roleByte ← read bytes 3
      let nodeId ← readNumber 8 bytes 4
      let term ← readNumber 8 bytes 12
      let knownLeader ← readNumber 8 bytes 20
      let lastIndex ← readNumber 8 bytes 28
      let commitIndex ← readNumber 8 bytes 36
      let lastApplied ← readNumber 8 bytes 44
      let peer0 ← readPeer bytes 0
      let peer1 ← readPeer bytes 1
      match ClientStatusCode.ofByte statusByte, ClientNodeRole.ofByte roleByte with
      | some status, some role =>
        let reply : ClientStatusReply :=
          { status, role, nodeId, term, knownLeader, lastIndex, commitIndex, lastApplied,
            peers := (peer0, peer1) }
        if !validStatusReply reply then .ok (.error .invalidMessage) else .ok (.ok reply)
      | _, _ => .ok (.error .invalidMessage)

theorem validChecksum_eq {bytes : Bytes} (h : checksumSize ≤ bytes.length)
    (hw : bytes.length ≤ 2 ^ 64) :
    validChecksum bytes = .ok (DistributedKV.validChecksum bytes) := by
  rw [checksumSize] at h
  rw [validChecksum, DistributedKV.validChecksum, checksumSize, sub_eq h, ok_bind,
    readNumber_eq (by omega) (by omega), ok_bind, ok_bind, slice_eq (by omega), ok_bind]
  rfl

/-- **Client frames** are opened without a fault. -/
theorem openFrame_eq {bytes : Bytes} (kind : UInt8) (h : 2 + checksumSize ≤ bytes.length)
    (hw : bytes.length ≤ 2 ^ 64) :
    openFrame kind bytes = .ok (DistributedKV.openFrame kind bytes) := by
  have hchecksum : validChecksum bytes = _ := validChecksum_eq (by omega) hw
  rw [checksumSize] at h
  unfold openFrame DistributedKV.openFrame
  rw [read_byteOf (by omega), ok_bind]
  refine ite_eq_ok fun _ => ?_
  rw [hchecksum, ok_bind]
  refine ite_eq_ok fun _ => ?_
  rw [checksumSize, sub_eq (by omega), ok_bind, slice_eq (by omega), ok_bind, List.drop_zero,
    read_byteOf (by rw [List.length_take]; omega), ok_bind]
  exact ite_eq_ok fun _ => rfl

/-- What is left of a frame is its input without the checksum. -/
theorem openFrame_length {bytes content : Bytes} {kind : UInt8}
    (h : DistributedKV.openFrame kind bytes = .ok content) :
    content.length = bytes.length - checksumSize := by
  unfold DistributedKV.openFrame at h
  split_ifs at h
  dsimp only at h
  split_ifs at h
  obtain rfl := Except.ok.inj h
  rw [List.length_take]
  omega

theorem decodeClientRequest_eq (bytes : Bytes) :
    decodeClientRequest bytes = .ok (DistributedKV.decodeClientRequest bytes) := by
  unfold decodeClientRequest DistributedKV.decodeClientRequest
  refine ite_eq_ok fun hlarge => ite_eq_ok fun hshort => ?_
  rw [maxClientRequestSize] at hlarge
  rw [openFrame_eq 5 (by omega) (by omega), ok_bind]
  rw [checksumSize] at hshort
  cases hopen : DistributedKV.openFrame 5 bytes with
  | error e => rfl
  | ok content =>
    have hlength := openFrame_length hopen
    rw [checksumSize] at hlength
    dsimp only
    rw [sub_eq (by omega), ok_bind, slice_eq (by omega), ok_bind,
      List.take_of_length_le (by rw [List.length_drop]), decodeCommand_eq, ok_bind]
    cases DistributedKV.decodeCommand (content.drop 2) with
    | error e => rfl
    | ok command => exact ite_eq_ok fun _ => rfl

theorem decodeClientReply_eq (bytes : Bytes) :
    decodeClientReply bytes = .ok (DistributedKV.decodeClientReply bytes) := by
  unfold decodeClientReply DistributedKV.decodeClientReply
  refine ite_eq_ok fun hshort => ite_eq_ok fun hlong => ?_
  rw [replySize] at hshort hlong
  rw [checksumSize] at hshort hlong
  rw [openFrame_eq 6 (by rw [checksumSize]; omega) (by omega), ok_bind]
  cases hopen : DistributedKV.openFrame 6 bytes with
  | error e => rfl
  | ok content =>
    have hlength := openFrame_length hopen
    rw [checksumSize] at hlength
    dsimp only
    rw [read_byteOf (by omega), ok_bind]
    refine ite_eq_ok fun _ => ?_
    cases ClientWriteStatus.ofByte (byteOf content 2) with
    | none => rfl
    | some status =>
      dsimp only
      rw [readNumber_eq (by omega) (by omega), ok_bind, readNumber_eq (by omega) (by omega),
        ok_bind, readNumber_eq (by omega) (by omega), ok_bind]
      exact ite_eq_ok fun _ => rfl

theorem decodeClientReadRequest_eq (bytes : Bytes) :
    decodeClientReadRequest bytes = .ok (DistributedKV.decodeClientReadRequest bytes) := by
  unfold decodeClientReadRequest DistributedKV.decodeClientReadRequest
  refine ite_eq_ok fun hlarge => ite_eq_ok fun hshort => ?_
  rw [maxClientRequestSize] at hlarge
  rw [openFrame_eq 7 (by omega) (by omega), ok_bind]
  rw [checksumSize] at hshort
  cases hopen : DistributedKV.openFrame 7 bytes with
  | error e => rfl
  | ok content =>
    have hlength := openFrame_length hopen
    rw [checksumSize] at hlength
    dsimp only
    rw [readNumber_eq (by omega) (by omega), ok_bind, sub_eq (by omega), ok_bind, ← readU32]
    refine ite_eq_ok fun hsize => ?_
    rw [slice_eq (by omega), ok_bind]
    rfl

theorem readValue_eq {status : ClientReadStatus} {bytes : Bytes} {length : ℕ}
    (h : readReplySize + length ≤ bytes.length) : readValue status bytes length =
      .ok (if status = .found then some (field bytes readReplySize length) else none) := by
  rw [readValue, slice_eq h, ok_bind]
  split_ifs <;> rfl

theorem decodeClientReadReply_eq (bytes : Bytes) :
    decodeClientReadReply bytes = .ok (DistributedKV.decodeClientReadReply bytes) := by
  unfold decodeClientReadReply DistributedKV.decodeClientReadReply
  refine ite_eq_ok fun hlarge => ite_eq_ok fun hshort => ?_
  rw [maxClientFrameSize] at hlarge
  rw [readReplySize, checksumSize] at hshort
  rw [openFrame_eq 8 (by rw [checksumSize]; omega) (by omega), ok_bind]
  cases hopen : DistributedKV.openFrame 8 bytes with
  | error e => rfl
  | ok content =>
    have hlength := openFrame_length hopen
    rw [checksumSize] at hlength
    dsimp only
    rw [read_byteOf (by omega), ok_bind]
    refine ite_eq_ok fun _ => ?_
    cases ClientReadStatus.ofByte (byteOf content 2) with
    | none => rfl
    | some status =>
      dsimp only
      rw [readNumber_eq (by omega) (by omega), ok_bind, sub_eq (by rw [readReplySize]; omega),
        ok_bind, ← readU32]
      refine ite_eq_ok fun hsize => ?_
      rw [readReplySize] at hsize
      rw [readNumber_eq (by omega) (by omega), ok_bind, ← readU64]
      refine ite_eq_ok fun _ => ?_
      rw [readValue_eq (by rw [readReplySize]; omega), ok_bind,
        readNumber_eq (by omega) (by omega), ok_bind, readNumber_eq (by omega) (by omega), ok_bind]
      rfl

theorem decodeClientStatusRequest_eq (bytes : Bytes) :
    decodeClientStatusRequest bytes = .ok (DistributedKV.decodeClientStatusRequest bytes) := by
  unfold decodeClientStatusRequest DistributedKV.decodeClientStatusRequest
  refine ite_eq_ok fun hshort => ite_eq_ok fun hlong => ?_
  rw [checksumSize] at hshort hlong
  have hchecksum : validChecksum bytes = _ :=
    validChecksum_eq (by rw [checksumSize]; omega) (by omega)
  -- the kind stands before the checksum
  have hkind : byteOf (bytes.take (bytes.length - checksumSize)) 1 = byteOf bytes 1 := by
    have htake : 1 < (bytes.take (bytes.length - checksumSize)).length := by
      rw [List.length_take, checksumSize]
      omega
    rw [byteOf, byteOf, List.getD_eq_getElem _ _ htake, List.getD_eq_getElem _ _ (by omega),
      List.getElem_take]
  unfold DistributedKV.openFrame
  dsimp only
  rw [hkind, read_byteOf (by omega), ok_bind, hchecksum, ok_bind, read_byteOf (by omega), ok_bind]
  split_ifs <;> rfl

theorem readPeer_eq {bytes : Bytes} {i : ℕ} (h : 52 + i * 24 + 24 ≤ bytes.length)
    (hw : bytes.length ≤ 2 ^ 64) :
    readPeer bytes i = .ok (DistributedKV.readPeer bytes (52 + i * 24)) := by
  rw [readPeer, add_eq (by omega), ok_bind, readNumber_eq (by omega) (by omega), ok_bind,
    add_eq (by omega), ok_bind, readNumber_eq (by omega) (by omega), ok_bind, add_eq (by omega),
    ok_bind, readNumber_eq (by omega) (by omega), ok_bind]
  rfl

theorem decodeClientStatusReply_eq (bytes : Bytes) :
    decodeClientStatusReply bytes = .ok (DistributedKV.decodeClientStatusReply bytes) := by
  unfold decodeClientStatusReply DistributedKV.decodeClientStatusReply
  refine ite_eq_ok fun hshort => ite_eq_ok fun hlong => ?_
  rw [statusReplySize, checksumSize] at hshort hlong
  rw [openFrame_eq 10 (by rw [checksumSize]; omega) (by omega), ok_bind]
  cases hopen : DistributedKV.openFrame 10 bytes with
  | error e => rfl
  | ok content =>
    have hlength := openFrame_length hopen
    rw [checksumSize] at hlength
    dsimp only
    rw [read_byteOf (by omega), ok_bind, read_byteOf (by omega), ok_bind,
      readNumber_eq (by omega) (by omega), ok_bind, readNumber_eq (by omega) (by omega), ok_bind,
      readNumber_eq (by omega) (by omega), ok_bind, readNumber_eq (by omega) (by omega), ok_bind,
      readNumber_eq (by omega) (by omega), ok_bind, readNumber_eq (by omega) (by omega), ok_bind,
      readPeer_eq (by omega) (by omega), ok_bind, readPeer_eq (by omega) (by omega), ok_bind]
    cases ClientStatusCode.ofByte (byteOf content 2) with
    | none => rfl
    | some status =>
      cases ClientNodeRole.ofByte (byteOf content 3) with
      | none => rfl
      | some role => exact ite_eq_ok fun _ => rfl

/-! ## All decoders -/

/-- **Decoders are safe on hostile input**: whatever the bytes are, no decoder reads outside its
input, no size or position wraps, and every loop ends; what they compute is what the decoders over
the natural numbers compute. So it is with the records of a log file, whose size is a 64-bit
number. -/
theorem decoders_safe (bytes : Bytes) :
    decodeCommand bytes = .ok (DistributedKV.decodeCommand bytes) ∧
    decodeLogEntry bytes = .ok (DistributedKV.decodeLogEntry bytes) ∧
    decodeRaftMetadata bytes = .ok (DistributedKV.decodeRaftMetadata bytes) ∧
    decodeRaftEnvelope bytes = .ok (DistributedKV.decodeRaftEnvelope bytes) ∧
    decodeClientRequest bytes = .ok (DistributedKV.decodeClientRequest bytes) ∧
    decodeClientReply bytes = .ok (DistributedKV.decodeClientReply bytes) ∧
    decodeClientReadRequest bytes = .ok (DistributedKV.decodeClientReadRequest bytes) ∧
    decodeClientReadReply bytes = .ok (DistributedKV.decodeClientReadReply bytes) ∧
    decodeClientStatusRequest bytes = .ok (DistributedKV.decodeClientStatusRequest bytes) ∧
    decodeClientStatusReply bytes = .ok (DistributedKV.decodeClientStatusReply bytes) ∧
    (bytes.length < 2 ^ 64 → readRecords bytes = .ok (PersistentLog.readRecords bytes 0 [])) :=
  ⟨decodeCommand_eq bytes, decodeLogEntry_eq bytes, decodeRaftMetadata_eq bytes,
    decodeRaftEnvelope_eq bytes, decodeClientRequest_eq bytes, decodeClientReply_eq bytes,
    decodeClientReadRequest_eq bytes, decodeClientReadReply_eq bytes,
    decodeClientStatusRequest_eq bytes, decodeClientStatusReply_eq bytes, readRecords_eq⟩

/-- Bytes that claim the largest lengths, counts and versions there are. -/
def hostileBytes : Bytes := List.replicate 64 255

theorem decoders_safe_hostileBytes :
    decodeRaftEnvelope hostileBytes = .ok (DistributedKV.decodeRaftEnvelope hostileBytes) ∧
      readRecords hostileBytes = .ok (PersistentLog.readRecords hostileBytes 0 []) := by
  obtain ⟨-, -, -, henvelope, -, -, -, -, -, -, hrecords⟩ := decoders_safe hostileBytes
  exact ⟨henvelope, hrecords (by decide)⟩

end DistributedKV.Machine
