import DistributedKV.Store.Decode

/-!
# Client frames

`client_wire.cpp`: the six messages between clients and servers. Every frame is a version, a kind,
the fields of the message and a checksum. For each message, the decoder accepts exactly what the
encoder writes: the validity rules and the size limits agree on both sides.
-/

namespace DistributedKV

open ByteCodec

inductive ClientWireError
  | invalidMessage
  | tooLarge
  | truncated
  | unsupportedVersion
  | checksumMismatch
  deriving DecidableEq, Repr

def maxClientRequestSize : ℕ := 1024 * 1024 + 128

def maxClientFrameSize : ℕ := 2 * 1024 * 1024 + 128

def replySize : ℕ := 27

def readReplySize : ℕ := 31

def statusReplySize : ℕ := 100

/-! ## Messages -/

structure ClientWriteRequest where
  command : Command
  deriving DecidableEq

inductive ClientWriteStatus
  | committed
  | notLeader
  | outcomeUnknown
  | invalidRequest
  | busy
  | internalError
  deriving DecidableEq, Repr

structure ClientWriteReply where
  status : ClientWriteStatus := .internalError
  term : ℕ := 0
  index : ℕ := 0
  leaderHint : ℕ := 0
  deriving DecidableEq, Repr

structure ClientReadRequest where
  key : Bytes
  deriving DecidableEq

inductive ClientReadStatus
  | found
  | notFound
  | notLeader
  | busy
  | invalidRequest
  | internalError
  deriving DecidableEq, Repr

structure ClientReadReply where
  status : ClientReadStatus := .internalError
  term : ℕ := 0
  index : ℕ := 0
  leaderHint : ℕ := 0
  value : Option Bytes := none
  deriving DecidableEq, Repr

structure ClientStatusRequest where
  deriving DecidableEq

inductive ClientStatusCode
  | ok
  | invalidRequest
  deriving DecidableEq, Repr

inductive ClientNodeRole
  | unknown
  | follower
  | candidate
  | leader
  deriving DecidableEq, Repr

/-- Both indices are zero when the node is not tracking the peer. -/
structure ClientPeerStatus where
  id : ℕ := 0
  nextIndex : ℕ := 0
  matchIndex : ℕ := 0
  deriving DecidableEq, Repr

/-- The array of two peers is a pair. -/
structure ClientStatusReply where
  status : ClientStatusCode := .invalidRequest
  nodeId : ℕ := 0
  role : ClientNodeRole := .unknown
  term : ℕ := 0
  knownLeader : ℕ := 0
  lastIndex : ℕ := 0
  commitIndex : ℕ := 0
  lastApplied : ℕ := 0
  peers : ClientPeerStatus × ClientPeerStatus := ({}, {})
  deriving DecidableEq, Repr

/-! ## The bytes of the enumerations -/

def ClientWriteStatus.byte : ClientWriteStatus → UInt8
  | .committed => 1
  | .notLeader => 2
  | .outcomeUnknown => 3
  | .invalidRequest => 4
  | .busy => 5
  | .internalError => 6

/-- The cast from a byte; `none` where no member has that byte. -/
def ClientWriteStatus.ofByte (b : UInt8) : Option ClientWriteStatus :=
  if b = 1 then some .committed
  else if b = 2 then some .notLeader
  else if b = 3 then some .outcomeUnknown
  else if b = 4 then some .invalidRequest
  else if b = 5 then some .busy
  else if b = 6 then some .internalError
  else none

def ClientReadStatus.byte : ClientReadStatus → UInt8
  | .found => 1
  | .notFound => 2
  | .notLeader => 3
  | .busy => 4
  | .invalidRequest => 5
  | .internalError => 6

/-- The cast from a byte; `none` where no member has that byte. -/
def ClientReadStatus.ofByte (b : UInt8) : Option ClientReadStatus :=
  if b = 1 then some .found
  else if b = 2 then some .notFound
  else if b = 3 then some .notLeader
  else if b = 4 then some .busy
  else if b = 5 then some .invalidRequest
  else if b = 6 then some .internalError
  else none

def ClientStatusCode.byte : ClientStatusCode → UInt8
  | .ok => 1
  | .invalidRequest => 2

/-- The cast from a byte; `none` where no member has that byte. -/
def ClientStatusCode.ofByte (b : UInt8) : Option ClientStatusCode :=
  if b = 1 then some .ok else if b = 2 then some .invalidRequest else none

def ClientNodeRole.byte : ClientNodeRole → UInt8
  | .unknown => 0
  | .follower => 1
  | .candidate => 2
  | .leader => 3

/-- The cast from a byte; `none` where no member has that byte. -/
def ClientNodeRole.ofByte (b : UInt8) : Option ClientNodeRole :=
  if b = 0 then some .unknown
  else if b = 1 then some .follower
  else if b = 2 then some .candidate
  else if b = 3 then some .leader
  else none

theorem ClientWriteStatus.ofByte_eq_some_iff {b : UInt8} {status : ClientWriteStatus} :
    ofByte b = some status ↔ b = status.byte := by
  constructor
  · intro h
    unfold ofByte at h
    split_ifs at h with h₁ h₂ h₃ h₄ h₅ h₆ <;> cases h <;> assumption
  · rintro rfl
    cases status <;> rfl

theorem ClientReadStatus.ofByte_eq_some_iff {b : UInt8} {status : ClientReadStatus} :
    ofByte b = some status ↔ b = status.byte := by
  constructor
  · intro h
    unfold ofByte at h
    split_ifs at h with h₁ h₂ h₃ h₄ h₅ h₆ <;> cases h <;> assumption
  · rintro rfl
    cases status <;> rfl

theorem ClientStatusCode.ofByte_eq_some_iff {b : UInt8} {status : ClientStatusCode} :
    ofByte b = some status ↔ b = status.byte := by
  constructor
  · intro h
    unfold ofByte at h
    split_ifs at h with h₁ h₂ <;> cases h <;> assumption
  · rintro rfl
    cases status <;> rfl

theorem ClientNodeRole.ofByte_eq_some_iff {b : UInt8} {role : ClientNodeRole} :
    ofByte b = some role ↔ b = role.byte := by
  constructor
  · intro h
    unfold ofByte at h
    split_ifs at h with h₁ h₂ h₃ h₄ <;> cases h <;> assumption
  · rintro rfl
    cases role <;> rfl

/-! ## Validity -/

def validStatus (b : UInt8) : Bool :=
  ClientWriteStatus.committed.byte ≤ b && b ≤ ClientWriteStatus.internalError.byte

def validReadStatus (b : UInt8) : Bool :=
  ClientReadStatus.found.byte ≤ b && b ≤ ClientReadStatus.internalError.byte

/-- The part of `valid_status_reply` that depends on the role, for one peer. -/
def validPeerStatus (reply : ClientStatusReply) (peer : ClientPeerStatus) : Bool :=
  if reply.role = .leader then
    peer.nextIndex ≠ 0 && peer.matchIndex < peer.nextIndex && peer.matchIndex ≤ reply.lastIndex
  else peer.nextIndex = 0 && peer.matchIndex = 0

def validStatusReply (reply : ClientStatusReply) : Bool :=
  if reply.status = .invalidRequest then
    reply.nodeId = 0 && reply.role = .unknown && reply.term = 0 && reply.knownLeader = 0 &&
      reply.lastIndex = 0 && reply.commitIndex = 0 && reply.lastApplied = 0 &&
      reply.peers = ({}, {})
  else if reply.status ≠ .ok ∨ reply.nodeId = 0 ∨ reply.role.byte < ClientNodeRole.follower.byte ∨
      ClientNodeRole.leader.byte < reply.role.byte ∨ reply.commitIndex < reply.lastApplied ∨
      reply.lastIndex < reply.commitIndex ∨ reply.peers.1.id = 0 ∨ reply.peers.2.id = 0 ∨
      reply.peers.1.id = reply.peers.2.id ∨ reply.peers.1.id = reply.nodeId ∨
      reply.peers.2.id = reply.nodeId then false
  else if reply.role = .leader ∧ reply.knownLeader ≠ reply.nodeId then false
  else validPeerStatus reply reply.peers.1 && validPeerStatus reply reply.peers.2

/-! ## Frames -/

def appendChecksum (bytes : Bytes) : Bytes := appendU32 bytes (crc32 bytes).toNat

def validChecksum (bytes : Bytes) : Bool :=
  readU32 bytes (bytes.length - checksumSize) =
    (crc32 (bytes.take (bytes.length - checksumSize))).toNat

/-- What every decoder does after the checks of the size: it checks the version, the checksum and
the kind, and goes on without the checksum. -/
def openFrame (kind : UInt8) (bytes : Bytes) : Except ClientWireError Bytes :=
  if byteOf bytes 0 ≠ 2 then .error .unsupportedVersion
  else if !validChecksum bytes then .error .checksumMismatch
  else
    let bytes := bytes.take (bytes.length - checksumSize)
    if byteOf bytes 1 ≠ kind then .error .invalidMessage else .ok bytes

/-! ## Codecs -/

def encodeClientRequest (request : ClientWriteRequest) : Except ClientWireError Bytes :=
  if request.command.type = .noOp ∨ request.command.requestId.isNone then .error .invalidMessage
  else match encodeCommand request.command with
    | .error _ => .error .invalidMessage
    | .ok command =>
      if maxClientRequestSize - 2 - checksumSize < command.length then .error .tooLarge
      else .ok (appendChecksum ([2, 5] ++ command))

def decodeClientRequest (bytes : Bytes) : Except ClientWireError ClientWriteRequest :=
  if maxClientRequestSize < bytes.length then .error .tooLarge
  else if bytes.length < 2 + checksumSize then .error .truncated
  else match openFrame 5 bytes with
    | .error e => .error e
    | .ok bytes => match decodeCommand (bytes.drop 2) with
      | .error _ => .error .invalidMessage
      | .ok command =>
        if command.type = .noOp ∨ command.requestId.isNone then .error .invalidMessage
        else .ok ⟨command⟩

def encodeClientReply (reply : ClientWriteReply) : Except ClientWireError Bytes :=
  if !validStatus reply.status.byte ∨ reply.status = .committed ∧ reply.index = 0 then
    .error .invalidMessage
  else .ok (appendChecksum (appendU64 (appendU64 (appendU64 [2, 6, reply.status.byte] reply.term)
    reply.index) reply.leaderHint))

def decodeClientReply (bytes : Bytes) : Except ClientWireError ClientWriteReply :=
  if bytes.length < replySize + checksumSize then .error .truncated
  else if bytes.length ≠ replySize + checksumSize then .error .invalidMessage
  else match openFrame 6 bytes with
    | .error e => .error e
    | .ok bytes =>
      if !validStatus (byteOf bytes 2) then .error .invalidMessage
      else match ClientWriteStatus.ofByte (byteOf bytes 2) with
        | none => .error .invalidMessage
        | some status =>
          let reply : ClientWriteReply :=
            ⟨status, readU64 bytes 3, readU64 bytes 11, readU64 bytes 19⟩
          if reply.status = .committed ∧ reply.index = 0 then .error .invalidMessage
          else .ok reply

def encodeClientReadRequest (request : ClientReadRequest) : Except ClientWireError Bytes :=
  if maxClientRequestSize - 6 - checksumSize < request.key.length then .error .tooLarge
  else .ok (appendChecksum (appendU32 [2, 7] request.key.length ++ request.key))

def decodeClientReadRequest (bytes : Bytes) : Except ClientWireError ClientReadRequest :=
  if maxClientRequestSize < bytes.length then .error .tooLarge
  else if bytes.length < 6 + checksumSize then .error .truncated
  else match openFrame 7 bytes with
    | .error e => .error e
    | .ok bytes =>
      if readU32 bytes 2 ≠ bytes.length - 6 then .error .invalidMessage
      else .ok ⟨field bytes 6 (readU32 bytes 2)⟩

def encodeClientReadReply (reply : ClientReadReply) : Except ClientWireError Bytes :=
  if !validReadStatus reply.status.byte ∨ (reply.status = .found) ≠ reply.value.isSome ∨
      (reply.status = .found ∨ reply.status = .notFound) ∧ reply.index = 0 then
    .error .invalidMessage
  else
    let value := reply.value.getD []
    if maxClientFrameSize - readReplySize - checksumSize < value.length then .error .tooLarge
    else .ok (appendChecksum (appendU32 (appendU64 (appendU64 (appendU64
      [2, 8, reply.status.byte] reply.term) reply.index) reply.leaderHint) value.length ++ value))

def decodeClientReadReply (bytes : Bytes) : Except ClientWireError ClientReadReply :=
  if maxClientFrameSize < bytes.length then .error .tooLarge
  else if bytes.length < readReplySize + checksumSize then .error .truncated
  else match openFrame 8 bytes with
    | .error e => .error e
    | .ok bytes =>
      if !validReadStatus (byteOf bytes 2) then .error .invalidMessage
      else match ClientReadStatus.ofByte (byteOf bytes 2) with
        | none => .error .invalidMessage
        | some status =>
          let length := readU32 bytes 27
          let index := readU64 bytes 11
          if length ≠ bytes.length - readReplySize ∨ status ≠ .found ∧ length ≠ 0 then
            .error .invalidMessage
          else if (status = .found ∨ status = .notFound) ∧ index = 0 then .error .invalidMessage
          else .ok ⟨status, readU64 bytes 3, index, readU64 bytes 19,
            if status = .found then some (field bytes readReplySize length) else none⟩

def encodeClientStatusRequest (_ : ClientStatusRequest) : Except ClientWireError Bytes :=
  .ok (appendChecksum [2, 9])

def decodeClientStatusRequest (bytes : Bytes) : Except ClientWireError ClientStatusRequest :=
  if bytes.length < 2 + checksumSize then .error .truncated
  else if bytes.length ≠ 2 + checksumSize then .error .invalidMessage
  else match openFrame 9 bytes with
    | .error e => .error e
    | .ok _ => .ok {}

/-- One round of the loop over the peers. -/
def putPeer (bytes : Bytes) (peer : ClientPeerStatus) : Bytes :=
  appendU64 (appendU64 (appendU64 bytes peer.id) peer.nextIndex) peer.matchIndex

def readPeer (bytes : Bytes) (offset : ℕ) : ClientPeerStatus :=
  ⟨readU64 bytes offset, readU64 bytes (offset + 8), readU64 bytes (offset + 16)⟩

def encodeClientStatusReply (reply : ClientStatusReply) : Except ClientWireError Bytes :=
  if !validStatusReply reply then .error .invalidMessage
  else
    let bytes := appendU64 [2, 10, reply.status.byte, reply.role.byte] reply.nodeId
    let bytes := appendU64 bytes reply.term
    let bytes := appendU64 bytes reply.knownLeader
    let bytes := appendU64 bytes reply.lastIndex
    let bytes := appendU64 bytes reply.commitIndex
    let bytes := appendU64 bytes reply.lastApplied
    .ok (appendChecksum (putPeer (putPeer bytes reply.peers.1) reply.peers.2))

/-- A byte that is no status or no role makes the reply invalid. -/
def decodeClientStatusReply (bytes : Bytes) : Except ClientWireError ClientStatusReply :=
  if bytes.length < statusReplySize + checksumSize then .error .truncated
  else if bytes.length ≠ statusReplySize + checksumSize then .error .invalidMessage
  else match openFrame 10 bytes with
    | .error e => .error e
    | .ok bytes =>
      match ClientStatusCode.ofByte (byteOf bytes 2), ClientNodeRole.ofByte (byteOf bytes 3) with
      | some status, some role =>
        let reply : ClientStatusReply :=
          { status, role, nodeId := readU64 bytes 4, term := readU64 bytes 12,
            knownLeader := readU64 bytes 20, lastIndex := readU64 bytes 28,
            commitIndex := readU64 bytes 36, lastApplied := readU64 bytes 44,
            peers := (readPeer bytes 52, readPeer bytes 76) }
        if !validStatusReply reply then .error .invalidMessage else .ok reply
      | _, _ => .error .invalidMessage

/-! ## Opening a frame -/

theorem appendChecksum_eq (bytes : Bytes) : appendChecksum bytes = withChecksum bytes :=
  appendU32_eq _ _

theorem validChecksum_iff {bytes : Bytes} (h : checksumSize ≤ bytes.length) :
    validChecksum bytes = true ↔
      bytes = withChecksum (bytes.take (bytes.length - checksumSize)) := by
  have hfield : field bytes (bytes.length - checksumSize) 4 =
      bytes.drop (bytes.length - checksumSize) := by
    rw [field, List.take_of_length_le]
    rw [List.length_drop, checksumSize]
    omega
  rw [eq_withChecksum_iff, validChecksum, readU32, hfield, decide_eq_true_eq]
  constructor
  · intro hvalue
    exact ⟨h, rfl, hvalue⟩
  · rintro ⟨-, -, hvalue⟩
    exact hvalue

theorem openFrame_eq_ok_iff {kind : UInt8} {bytes content : Bytes}
    (h : 2 + checksumSize ≤ bytes.length) :
    openFrame kind bytes = .ok content ↔
      bytes = withChecksum content ∧ content.take 2 = [2, kind] := by
  unfold openFrame
  constructor
  · intro hopen
    split_ifs at hopen with hversion hchecksum
    dsimp only at hopen
    split_ifs at hopen with hkind
    rw [not_not] at hversion hkind
    rw [Bool.not_eq_true', Bool.not_eq_false, validChecksum_iff (by omega)] at hchecksum
    obtain rfl := Except.ok.inj hopen
    refine ⟨hchecksum, ?_⟩
    obtain ⟨v, k, body, hbody⟩ : ∃ v k body,
        bytes.take (bytes.length - checksumSize) = v :: k :: body := by
      have hlen : 2 ≤ (bytes.take (bytes.length - checksumSize)).length := by
        rw [List.length_take]
        omega
      revert hlen
      generalize bytes.take (bytes.length - checksumSize) = content
      rcases content with _ | ⟨v, _ | ⟨k, body⟩⟩ <;> simp
    rw [hbody] at hchecksum hkind
    rw [hchecksum] at hversion
    rw [hbody, show v = 2 from hversion, show k = kind from hkind]
    rfl
  · rintro ⟨rfl, hcontent⟩
    have htake : (withChecksum content).take ((withChecksum content).length - checksumSize) =
        content := by
      rw [length_withChecksum, Nat.add_sub_cancel, withChecksum, List.take_left]
    have hvalid : validChecksum (withChecksum content) = true := by
      rw [validChecksum_iff (by omega), htake]
    obtain ⟨body, rfl⟩ : ∃ body, content = 2 :: kind :: body :=
      ⟨content.drop 2, by rw [← List.take_append_drop 2 content, hcontent]; simp⟩
    rw [hvalid, htake]
    simp [byteOf, withChecksum]

theorem take_three {kind : UInt8} {content : Bytes} (h : content.take 2 = [2, kind])
    (hlen : 3 ≤ content.length) : content.take 3 = [2, kind, byteOf content 2] := by
  rw [List.take_succ_eq_append_getElem (i := 2) (by omega), h, byteOf,
    List.getD_eq_getElem _ _ (by omega)]
  rfl

theorem take_four {kind : UInt8} {content : Bytes} (h : content.take 2 = [2, kind])
    (hlen : 4 ≤ content.length) :
    content.take 4 = [2, kind, byteOf content 2, byteOf content 3] := by
  rw [List.take_succ_eq_append_getElem (i := 3) (by omega), take_three h (by omega), byteOf, byteOf,
    List.getD_eq_getElem _ _ (by omega), List.getD_eq_getElem _ _ (by omega)]
  rfl

/-- The content of a reply to a write or a read. -/
def replyContent (kind status : UInt8) (term index leaderHint : ℕ) (rest : Bytes) : Bytes :=
  [2, kind, status] ++ (numbers 8 [term, index, leaderHint] ++ rest)

theorem length_replyContent (kind status : UInt8) (term index leaderHint : ℕ) (rest : Bytes) :
    (replyContent kind status term index leaderHint rest).length = 27 + rest.length := by
  simp only [replyContent, List.length_append, length_numbers, List.length_cons, List.length_nil]
  omega

theorem replyContent_eq_append (kind status : UInt8) (term index leaderHint : ℕ) (rest : Bytes) :
    replyContent kind status term index leaderHint rest =
      replyContent kind status term index leaderHint [] ++ rest := by
  rw [replyContent, replyContent, List.append_nil, List.append_assoc]

theorem readU64_replyContent (kind status : UInt8) {term index leaderHint : ℕ} (rest : Bytes)
    (ht : term < 2 ^ 64) (hi : index < 2 ^ 64) (hl : leaderHint < 2 ^ 64) :
    readU64 (replyContent kind status term index leaderHint rest) 3 = term ∧
      readU64 (replyContent kind status term index leaderHint rest) 11 = index ∧
      readU64 (replyContent kind status term index leaderHint rest) 19 = leaderHint := by
  have hbound : ∀ v ∈ [term, index, leaderHint], v < 256 ^ 8 := by
    simp only [List.mem_cons, List.not_mem_nil, or_false, forall_eq_or_imp, forall_eq]
    omega
  have hnumber : ∀ i (hi : i < 3), readU64 (replyContent kind status term index leaderHint rest)
      (3 + 8 * i) = [term, index, leaderHint][i] := fun i hi => value_numbers hbound hi
  exact ⟨hnumber 0 (by omega), hnumber 1 (by omega), hnumber 2 (by omega)⟩

theorem eq_replyContent {kind : UInt8} {content : Bytes} (h : content.take 2 = [2, kind])
    (hlen : 27 ≤ content.length) :
    content = replyContent kind (byteOf content 2) (readU64 content 3) (readU64 content 11)
      (readU64 content 19) (content.drop 27) := by
  have hparts := eq_append_numbers content 8 3 3 (by omega)
  rw [take_three h (by omega)] at hparts
  exact hparts

/-! ## Writes -/

theorem ClientWriteStatus.valid (status : ClientWriteStatus) : validStatus status.byte = true := by
  cases status <;> rfl

theorem encodeClientRequest_eq_ok_iff {request : ClientWriteRequest} {bytes : Bytes} :
    encodeClientRequest request = .ok bytes ↔ request.command.type ≠ .noOp ∧
      request.command.requestId ≠ none ∧ ∃ command, encodeCommand request.command = .ok command ∧
        bytes = withChecksum ([2, 5] ++ command) ∧ bytes.length ≤ maxClientRequestSize := by
  have hlimit : ∀ command : Bytes, command.length ≤ maxClientRequestSize - 2 - checksumSize ↔
      (withChecksum ([2, 5] ++ command)).length ≤ maxClientRequestSize := by
    intro command
    rw [length_withChecksum, List.length_append, maxClientRequestSize, checksumSize]
    simp only [List.length_cons, List.length_nil]
    omega
  unfold encodeClientRequest
  constructor
  · intro h
    split_ifs at h with hguard
    rw [not_or, Option.isNone_iff_eq_none] at hguard
    split at h
    · cases h
    next command hc =>
    split_ifs at h with hlen
    obtain rfl := Except.ok.inj h
    rw [appendChecksum_eq]
    exact ⟨hguard.1, hguard.2, command, hc, rfl, (hlimit _).1 (not_lt.1 hlen)⟩
  · rintro ⟨htype, hid, command, hc, rfl, hlen⟩
    rw [if_neg (not_or.2 ⟨htype, by rwa [Option.isNone_iff_eq_none]⟩), hc]
    dsimp only
    rw [if_neg (not_lt.2 ((hlimit _).2 hlen)), appendChecksum_eq]

/-- **Write requests**: the decoder accepts what the encoder writes. -/
theorem decodeClientRequest_eq_ok_iff {bytes : Bytes} {request : ClientWriteRequest} :
    decodeClientRequest bytes = .ok request ↔ encodeClientRequest request = .ok bytes := by
  rw [encodeClientRequest_eq_ok_iff]
  unfold decodeClientRequest
  constructor
  · intro h
    split_ifs at h with hlarge hshort
    split at h
    · cases h
    next content hopen =>
    obtain ⟨rfl, hcontent⟩ := (openFrame_eq_ok_iff (not_lt.1 hshort)).1 hopen
    split at h
    · cases h
    next command hdecode =>
    split_ifs at h with hguard
    rw [not_or, Option.isNone_iff_eq_none] at hguard
    obtain rfl := Except.ok.inj h
    refine ⟨hguard.1, hguard.2, _, decodeCommand_eq_ok_iff.1 hdecode, ?_, not_lt.1 hlarge⟩
    rw [← hcontent, List.take_append_drop]
  · rintro ⟨htype, hid, command, hc, rfl, hlen⟩
    have hshort : 2 + checksumSize ≤ (withChecksum ([2, 5] ++ command)).length := by
      rw [length_withChecksum, List.length_append]
      simp only [List.length_cons, List.length_nil]
      omega
    rw [if_neg (not_lt.2 hlen), if_neg (not_lt.2 hshort), (openFrame_eq_ok_iff hshort).2 ⟨rfl, rfl⟩]
    dsimp only
    have hdrop : ([2, 5] ++ command).drop 2 = command := rfl
    rw [hdrop, decodeCommand_eq_ok_iff.2 hc]
    dsimp only
    rw [if_neg (not_or.2 ⟨htype, by rwa [Option.isNone_iff_eq_none]⟩)]

/-- A client's command is for a request, and it can be put into a log. -/
theorem encodable_of_decodeClientRequest {bytes : Bytes} {command : Command}
    (h : decodeClientRequest bytes = .ok ⟨command⟩) : command.type ≠ .noOp ∧
      command.requestId ≠ none ∧ ∀ {index term : ℕ}, index ≠ 0 → term ≠ 0 →
        (LogEntry.mk index term command).Encodable := by
  obtain ⟨htype, hid, commandBytes, hc, rfl, hlen⟩ :=
    encodeClientRequest_eq_ok_iff.1 (decodeClientRequest_eq_ok_iff.1 h)
  refine ⟨htype, hid, fun hi ht => .of_eq_ok (encodeLogEntry_eq_ok_iff.2
    ⟨hi, ht, commandBytes, hc, ?_, rfl⟩)⟩
  rw [length_withChecksum, List.length_append, maxClientRequestSize] at hlen
  rw [uint32Max, entryMetadataSize]
  omega

/-- The numbers of a reply are 64-bit numbers, as the fields of the source are by their type. -/
structure ClientWriteReply.InRange (reply : ClientWriteReply) : Prop where
  term : reply.term < 2 ^ 64
  index : reply.index < 2 ^ 64
  leaderHint : reply.leaderHint < 2 ^ 64

theorem encodeClientReply_eq_ok_iff {reply : ClientWriteReply} {bytes : Bytes} :
    encodeClientReply reply = .ok bytes ↔ ¬(reply.status = .committed ∧ reply.index = 0) ∧
      bytes = withChecksum
        (replyContent 6 reply.status.byte reply.term reply.index reply.leaderHint []) := by
  have hcontent : appendU64 (appendU64 (appendU64 [2, 6, reply.status.byte] reply.term)
      reply.index) reply.leaderHint =
        replyContent 6 reply.status.byte reply.term reply.index reply.leaderHint [] := by
    simp [appendU64_eq, replyContent, numbers]
  unfold encodeClientReply
  rw [reply.status.valid, hcontent, appendChecksum_eq]
  simp only [Bool.not_true, Bool.false_eq_true, false_or]
  split_ifs with hguard
  · simp [hguard]
  · simp only [Except.ok.injEq, hguard, not_false_eq_true, true_and]
    exact eq_comm

/-- **Write replies**: the decoder accepts what the encoder writes. -/
theorem decodeClientReply_eq_ok_iff {bytes : Bytes} {reply : ClientWriteReply} :
    decodeClientReply bytes = .ok reply ↔
      reply.InRange ∧ encodeClientReply reply = .ok bytes := by
  rw [encodeClientReply_eq_ok_iff]
  unfold decodeClientReply
  constructor
  · intro h
    split_ifs at h with hshort hlen
    rw [not_not] at hlen
    split at h
    · cases h
    next content hopen =>
    obtain ⟨rfl, hcontent⟩ :=
      (openFrame_eq_ok_iff (by rw [hlen, replySize, checksumSize]; omega)).1 hopen
    rw [length_withChecksum, Nat.add_right_cancel_iff, replySize] at hlen
    split_ifs at h with hvalid
    split at h
    · cases h
    next status hstatus =>
    dsimp only at h
    split_ifs at h with hguard
    obtain rfl := Except.ok.inj h
    rw [ClientWriteStatus.ofByte_eq_some_iff] at hstatus
    have hparts := eq_replyContent hcontent (by omega)
    rw [List.drop_eq_nil_of_le (by omega), hstatus] at hparts
    exact ⟨⟨readU64_lt _ _, readU64_lt _ _, readU64_lt _ _⟩, hguard, congrArg withChecksum hparts⟩
  · rintro ⟨hr, hguard, rfl⟩
    have hlen : (withChecksum (replyContent 6 reply.status.byte reply.term reply.index
        reply.leaderHint [])).length = replySize + checksumSize := by
      rw [length_withChecksum, length_replyContent, replySize, List.length_nil]
    obtain ⟨hterm, hindex, hhint⟩ := readU64_replyContent 6 reply.status.byte []
      hr.term hr.index hr.leaderHint
    have hstatus : byteOf (replyContent 6 reply.status.byte reply.term reply.index
        reply.leaderHint []) 2 = reply.status.byte := rfl
    rw [if_neg (by omega), if_neg (not_not.2 hlen),
      (openFrame_eq_ok_iff (by rw [hlen, replySize, checksumSize]; omega)).2 ⟨rfl, rfl⟩]
    dsimp only
    rw [hstatus, reply.status.valid, ClientWriteStatus.ofByte_eq_some_iff.2 rfl, hterm, hindex,
      hhint]
    dsimp only
    rw [if_neg hguard]
    rfl

/-! ## Reads -/

theorem ClientReadStatus.valid (status : ClientReadStatus) :
    validReadStatus status.byte = true := by
  cases status <;> rfl

/-- **Read requests**: the decoder accepts what the encoder writes. -/
theorem decodeClientReadRequest_eq_ok_iff {bytes : Bytes} {request : ClientReadRequest} :
    decodeClientReadRequest bytes = .ok request ↔
      encodeClientReadRequest request = .ok bytes := by
  unfold decodeClientReadRequest encodeClientReadRequest
  have hcontent : ∀ key : Bytes, appendU32 [2, 7] key.length ++ key =
      [2, 7] ++ (digits 4 key.length ++ key) := fun key => by
    rw [appendU32_eq, List.append_assoc]
  have hlength : ∀ key : Bytes, ([2, 7] ++ (digits 4 key.length ++ key)).length =
      6 + key.length := fun key => by
    simp only [List.length_append, length_digits, List.length_cons, List.length_nil]
    omega
  rw [hcontent, appendChecksum_eq]
  constructor
  · intro h
    split_ifs at h with hlarge hshort
    split at h
    · cases h
    next content hopen =>
    obtain ⟨rfl, htake⟩ := (openFrame_eq_ok_iff (by omega)).1 hopen
    rw [length_withChecksum, maxClientRequestSize] at hlarge
    rw [length_withChecksum] at hshort
    split_ifs at h with hsize
    rw [not_not] at hsize
    obtain rfl := Except.ok.inj h
    have hkey : (field content 6 (readU32 content 2)).length = readU32 content 2 :=
      length_field (by omega)
    have hparts : content = [2, 7] ++ (digits 4 (readU32 content 2) ++
        field content 6 (readU32 content 2)) := by
      rw [readU32, digits_field (by omega), ← readU32, field_append_field rfl, hsize, field,
        List.take_of_length_le (by rw [List.length_drop]; omega), ← htake, List.take_append_drop]
    rw [if_neg (by rw [hkey, maxClientRequestSize]; omega), hkey, ← hparts]
  · intro h
    split_ifs at h with hlarge
    obtain rfl := Except.ok.inj h
    rw [not_lt, maxClientRequestSize, checksumSize] at hlarge
    have hsize : readU32 ([2, 7] ++ (digits 4 request.key.length ++ request.key)) 2 =
        request.key.length := value_part rfl (by omega)
    have hkey : field ([2, 7] ++ (digits 4 request.key.length ++ request.key)) 6
        request.key.length = request.key := by
      have hpart : field ([2, 7] ++ digits 4 request.key.length ++ (request.key ++ [])) 6
          request.key.length = request.key := field_part rfl rfl
      rwa [List.append_nil, List.append_assoc] at hpart
    rw [length_withChecksum, hlength, if_neg (by rw [maxClientRequestSize, checksumSize]; omega),
      if_neg (by omega), (openFrame_eq_ok_iff (by rw [length_withChecksum, hlength]; omega)).2
        ⟨rfl, rfl⟩]
    dsimp only
    rw [hsize, hlength, if_neg (by omega), hkey]

/-- The numbers of a reply are 64-bit numbers. -/
structure ClientReadReply.InRange (reply : ClientReadReply) : Prop where
  term : reply.term < 2 ^ 64
  index : reply.index < 2 ^ 64
  leaderHint : reply.leaderHint < 2 ^ 64

/-- A value stands exactly in a reply with status Found, and an answer from the data has an
index. -/
structure ClientReadReply.Valid (reply : ClientReadReply) : Prop where
  value : reply.value.isSome = true ↔ reply.status = .found
  index : ¬((reply.status = .found ∨ reply.status = .notFound) ∧ reply.index = 0)

theorem encodeClientReadReply_eq_ok_iff {reply : ClientReadReply} {bytes : Bytes} :
    encodeClientReadReply reply = .ok bytes ↔ reply.Valid ∧
      bytes.length ≤ maxClientFrameSize ∧
      bytes = withChecksum (replyContent 8 reply.status.byte reply.term reply.index
        reply.leaderHint (digits 4 (reply.value.getD []).length ++ reply.value.getD [])) := by
  have hcontent : ∀ value : Bytes, appendU32 (appendU64 (appendU64 (appendU64
      [2, 8, reply.status.byte] reply.term) reply.index) reply.leaderHint) value.length ++ value =
        replyContent 8 reply.status.byte reply.term reply.index reply.leaderHint
          (digits 4 value.length ++ value) := fun value => by
    simp [appendU64_eq, appendU32_eq, replyContent, numbers]
  have hlimit : ∀ value : Bytes,
      value.length ≤ maxClientFrameSize - readReplySize - checksumSize ↔
        (withChecksum (replyContent 8 reply.status.byte reply.term reply.index reply.leaderHint
          (digits 4 value.length ++ value))).length ≤ maxClientFrameSize := fun value => by
    rw [length_withChecksum, length_replyContent, List.length_append, length_digits,
      maxClientFrameSize, readReplySize, checksumSize]
    omega
  have hvalid : reply.Valid ↔
      ¬((reply.status = .found) ≠ (reply.value.isSome = true) ∨
        (reply.status = .found ∨ reply.status = .notFound) ∧ reply.index = 0) := by
    rw [not_or, ne_eq, not_not, eq_iff_iff, iff_comm (a := reply.status = .found)]
    exact ⟨fun h => ⟨h.1, h.2⟩, fun h => ⟨h.1, h.2⟩⟩
  unfold encodeClientReadReply
  rw [reply.status.valid, hvalid]
  simp only [Bool.not_true, Bool.false_eq_true, false_or, hcontent, appendChecksum_eq]
  split_ifs with hguard hlarge
  · constructor
    · intro h
      cases h
    · rintro ⟨hvalid, -⟩
      exact absurd hguard hvalid
  · constructor
    · intro h
      cases h
    · rintro ⟨-, hlen, rfl⟩
      exact absurd ((hlimit _).2 hlen) (not_le.2 hlarge)
  · rw [not_lt, hlimit] at hlarge
    constructor
    · intro h
      obtain rfl := Except.ok.inj h
      exact ⟨hguard, hlarge, rfl⟩
    · rintro ⟨-, -, rfl⟩
      rfl

/-- **Read replies**: the decoder accepts what the encoder writes. -/
theorem decodeClientReadReply_eq_ok_iff {bytes : Bytes} {reply : ClientReadReply} :
    decodeClientReadReply bytes = .ok reply ↔
      reply.InRange ∧ encodeClientReadReply reply = .ok bytes := by
  rw [encodeClientReadReply_eq_ok_iff]
  unfold decodeClientReadReply
  constructor
  · intro h
    split_ifs at h with hlarge hshort
    split at h
    · cases h
    next content hopen =>
    obtain ⟨rfl, htake⟩ :=
      (openFrame_eq_ok_iff (by rw [readReplySize] at hshort; omega)).1 hopen
    rw [length_withChecksum, readReplySize] at hshort
    split_ifs at h with hvalid
    split at h
    · cases h
    next status hstatus =>
    dsimp only at h
    generalize hv : (if status = .found then
      some (field content readReplySize (readU32 content 27)) else none) = value at h
    split_ifs at h with hsize hindex
    obtain rfl := Except.ok.inj h
    rw [not_or, not_not, readReplySize] at hsize
    obtain ⟨hlength, hnone⟩ := hsize
    rw [ClientReadStatus.ofByte_eq_some_iff] at hstatus
    have hsome : value.isSome = true ↔ status = .found := by
      rw [← hv]
      split_ifs with hfound <;> simp [hfound]
    have hvalue : value.getD [] = field content readReplySize (readU32 content 27) := by
      rw [← hv]
      split_ifs with hfound
      · rfl
      · have hzero : readU32 content 27 = 0 := by
          by_contra hne
          exact hnone ⟨hfound, hne⟩
        rw [hzero]
        rfl
    have hsize : (field content readReplySize (readU32 content 27)).length =
        readU32 content 27 := length_field (by rw [readReplySize]; omega)
    have hparts := eq_replyContent htake (by omega)
    have htail : content.drop 27 = digits 4 (readU32 content 27) ++
        field content readReplySize (readU32 content 27) := by
      rw [readU32, digits_field (by omega), ← readU32, readReplySize, field_append_field rfl,
        hlength, field, List.take_of_length_le (by rw [List.length_drop]; omega)]
    refine ⟨⟨readU64_lt _ _, readU64_lt _ _, readU64_lt _ _⟩, ⟨hsome, hindex⟩,
      not_lt.1 hlarge, ?_⟩
    dsimp only
    rw [hvalue, hsize, ← htail, ← hstatus, ← hparts]
  · rintro ⟨hr, hvalid, hlen, rfl⟩
    generalize hvalue : reply.value.getD [] = value
    rw [hvalue] at hlen
    obtain ⟨hterm, hindex, hhint⟩ := readU64_replyContent 8 reply.status.byte
      (digits 4 value.length ++ value) hr.term hr.index hr.leaderHint
    have hstatus : byteOf (replyContent 8 reply.status.byte reply.term reply.index
        reply.leaderHint (digits 4 value.length ++ value)) 2 = reply.status.byte := rfl
    have hcontent := length_replyContent 8 reply.status.byte reply.term reply.index
      reply.leaderHint (digits 4 value.length ++ value)
    rw [List.length_append, length_digits] at hcontent
    have hsize : readU32 (replyContent 8 reply.status.byte reply.term reply.index
        reply.leaderHint (digits 4 value.length ++ value)) 27 = value.length := by
      rw [length_withChecksum, maxClientFrameSize] at hlen
      rw [replyContent_eq_append]
      exact value_part (length_replyContent 8 _ _ _ _ []) (by omega)
    have hfield : field (replyContent 8 reply.status.byte reply.term reply.index
        reply.leaderHint (digits 4 value.length ++ value)) readReplySize value.length = value := by
      have hfront : (replyContent 8 reply.status.byte reply.term reply.index
          reply.leaderHint (digits 4 value.length)).length = readReplySize := by
        rw [length_replyContent, length_digits, readReplySize]
      have hpart : field (replyContent 8 reply.status.byte reply.term reply.index
          reply.leaderHint (digits 4 value.length) ++ (value ++ [])) readReplySize value.length =
            value := field_part hfront rfl
      rwa [List.append_nil, replyContent_eq_append, List.append_assoc,
        ← replyContent_eq_append] at hpart
    have hshort : readReplySize + checksumSize ≤ (withChecksum (replyContent 8 reply.status.byte
        reply.term reply.index reply.leaderHint (digits 4 value.length ++ value))).length := by
      rw [length_withChecksum, hcontent, readReplySize]
      omega
    have hnone : ¬(reply.status ≠ .found ∧ value.length ≠ 0) := by
      rintro ⟨hfound, hne⟩
      have hempty : reply.value = none := by
        rw [← Option.not_isSome_iff_eq_none, hvalid.value]
        exact hfound
      rw [hempty] at hvalue
      exact hne (by rw [← hvalue]; rfl)
    have hsome : (if reply.status = .found then some value else none) = reply.value := by
      rw [← hvalue]
      cases hv : reply.value with
      | none =>
        rw [if_neg]
        rw [← hvalid.value, hv]
        simp
      | some value =>
        rw [if_pos (hvalid.value.1 (by rw [hv]; rfl))]
        rfl
    rw [if_neg (not_lt.2 hlen), if_neg (not_lt.2 hshort),
      (openFrame_eq_ok_iff (by rw [readReplySize] at hshort; omega)).2 ⟨rfl, rfl⟩]
    dsimp only
    rw [hstatus, reply.status.valid, ClientReadStatus.ofByte_eq_some_iff.2 rfl, hsize, hterm,
      hindex, hhint, hcontent, hfield]
    dsimp only
    rw [hsome, if_neg (not_or.2 ⟨by rw [readReplySize]; omega, hnone⟩), if_neg hvalid.index]
    rfl

/-! ## Status -/

/-- **Status requests**: the decoder accepts what the encoder writes. -/
theorem decodeClientStatusRequest_eq_ok_iff {bytes : Bytes} {request : ClientStatusRequest} :
    decodeClientStatusRequest bytes = .ok request ↔
      encodeClientStatusRequest request = .ok bytes := by
  unfold decodeClientStatusRequest encodeClientStatusRequest
  rw [appendChecksum_eq]
  constructor
  · intro h
    split_ifs at h with hshort hlen
    rw [not_not] at hlen
    split at h
    · cases h
    next content hopen =>
    obtain ⟨rfl, htake⟩ := (openFrame_eq_ok_iff (by omega)).1 hopen
    rw [length_withChecksum, Nat.add_right_cancel_iff] at hlen
    rw [← htake, List.take_of_length_le (by omega)]
  · intro h
    obtain rfl := Except.ok.inj h
    have hlen : (withChecksum [2, 9]).length = 2 + checksumSize := length_withChecksum _
    rw [if_neg (by omega), if_neg (not_not.2 hlen), (openFrame_eq_ok_iff (by omega)).2 ⟨rfl, rfl⟩]

/-- The numbers of a status reply, in the order of the frame. -/
def ClientStatusReply.numbers (reply : ClientStatusReply) : List ℕ :=
  [reply.nodeId, reply.term, reply.knownLeader, reply.lastIndex, reply.commitIndex,
    reply.lastApplied, reply.peers.1.id, reply.peers.1.nextIndex, reply.peers.1.matchIndex,
    reply.peers.2.id, reply.peers.2.nextIndex, reply.peers.2.matchIndex]

/-- The numbers of a reply are 64-bit numbers. -/
def ClientStatusReply.InRange (reply : ClientStatusReply) : Prop :=
  ∀ v ∈ reply.numbers, v < 2 ^ 64

def statusContent (reply : ClientStatusReply) : Bytes :=
  [2, 10, reply.status.byte, reply.role.byte] ++ (ByteCodec.numbers 8 reply.numbers ++ [])

theorem length_statusContent (reply : ClientStatusReply) :
    (statusContent reply).length = statusReplySize := by
  simp [statusContent, ClientStatusReply.numbers, statusReplySize]

theorem encodeClientStatusReply_eq_ok_iff {reply : ClientStatusReply} {bytes : Bytes} :
    encodeClientStatusReply reply = .ok bytes ↔
      validStatusReply reply = true ∧ bytes = withChecksum (statusContent reply) := by
  unfold encodeClientStatusReply
  split_ifs with hvalid
  · rw [Bool.not_eq_true'] at hvalid
    simp [hvalid]
  · rw [Bool.not_eq_true', Bool.not_eq_false] at hvalid
    have hcontent : putPeer (putPeer (appendU64 (appendU64 (appendU64 (appendU64 (appendU64
        (appendU64 [2, 10, reply.status.byte, reply.role.byte] reply.nodeId) reply.term)
        reply.knownLeader) reply.lastIndex) reply.commitIndex) reply.lastApplied) reply.peers.1)
        reply.peers.2 = statusContent reply := by
      simp [putPeer, appendU64_eq, statusContent, ClientStatusReply.numbers, ByteCodec.numbers]
    dsimp only
    rw [hcontent, appendChecksum_eq, Except.ok.injEq, eq_comm, hvalid]
    simp

/-- **Status replies**: the decoder accepts what the encoder writes. -/
theorem decodeClientStatusReply_eq_ok_iff {bytes : Bytes} {reply : ClientStatusReply} :
    decodeClientStatusReply bytes = .ok reply ↔
      reply.InRange ∧ encodeClientStatusReply reply = .ok bytes := by
  rw [encodeClientStatusReply_eq_ok_iff]
  unfold decodeClientStatusReply
  constructor
  · intro h
    split_ifs at h with hshort hlen
    rw [not_not] at hlen
    split at h
    · cases h
    next content hopen =>
    obtain ⟨rfl, htake⟩ :=
      (openFrame_eq_ok_iff (by rw [hlen, statusReplySize]; omega)).1 hopen
    rw [length_withChecksum, Nat.add_right_cancel_iff, statusReplySize] at hlen
    split at h
    next status role hstatus hrole =>
      dsimp only at h
      split_ifs at h with hvalid
      rw [Bool.not_eq_true', Bool.not_eq_false] at hvalid
      obtain rfl := Except.ok.inj h
      rw [ClientStatusCode.ofByte_eq_some_iff] at hstatus
      rw [ClientNodeRole.ofByte_eq_some_iff] at hrole
      have hparts := eq_append_numbers content 8 4 12 (by omega)
      rw [take_four htake (by omega), List.drop_eq_nil_of_le (by omega), hstatus, hrole] at hparts
      refine ⟨?_, hvalid, congrArg withChecksum hparts⟩
      simp only [ClientStatusReply.InRange, ClientStatusReply.numbers, readPeer, List.mem_cons,
        List.not_mem_nil, or_false, forall_eq_or_imp, forall_eq, readU64_lt, and_self]
    · cases h
  · rintro ⟨hr, hvalid, rfl⟩
    have hlen : (withChecksum (statusContent reply)).length = statusReplySize + checksumSize := by
      rw [length_withChecksum, length_statusContent]
    have hnumber : ∀ i (hi : i < 12), readU64 (statusContent reply) (4 + 8 * i) =
        reply.numbers[i] := fun i hi => value_numbers (fun v hv => hr v hv) hi
    have hstatus : byteOf (statusContent reply) 2 = reply.status.byte := rfl
    have hrole : byteOf (statusContent reply) 3 = reply.role.byte := rfl
    have hreply : (⟨reply.status, readU64 (statusContent reply) 4, reply.role,
        readU64 (statusContent reply) 12, readU64 (statusContent reply) 20,
        readU64 (statusContent reply) 28, readU64 (statusContent reply) 36,
        readU64 (statusContent reply) 44,
        (readPeer (statusContent reply) 52, readPeer (statusContent reply) 76)⟩ :
          ClientStatusReply) = reply := by
      have hnodeId : readU64 (statusContent reply) 4 = reply.nodeId := hnumber 0 (by omega)
      have hterm : readU64 (statusContent reply) 12 = reply.term := hnumber 1 (by omega)
      have hleader : readU64 (statusContent reply) 20 = reply.knownLeader := hnumber 2 (by omega)
      have hlast : readU64 (statusContent reply) 28 = reply.lastIndex := hnumber 3 (by omega)
      have hcommit : readU64 (statusContent reply) 36 = reply.commitIndex := hnumber 4 (by omega)
      have happlied : readU64 (statusContent reply) 44 = reply.lastApplied := hnumber 5 (by omega)
      have hpeer₁ : readPeer (statusContent reply) 52 =
          ⟨reply.peers.1.id, reply.peers.1.nextIndex, reply.peers.1.matchIndex⟩ :=
        ClientPeerStatus.mk.injEq .. |>.mpr
          ⟨hnumber 6 (by omega), hnumber 7 (by omega), hnumber 8 (by omega)⟩
      have hpeer₂ : readPeer (statusContent reply) 76 =
          ⟨reply.peers.2.id, reply.peers.2.nextIndex, reply.peers.2.matchIndex⟩ :=
        ClientPeerStatus.mk.injEq .. |>.mpr
          ⟨hnumber 9 (by omega), hnumber 10 (by omega), hnumber 11 (by omega)⟩
      rw [hnodeId, hterm, hleader, hlast, hcommit, happlied, hpeer₁, hpeer₂]
    rw [if_neg (by omega), if_neg (not_not.2 hlen),
      (openFrame_eq_ok_iff (by rw [hlen, statusReplySize]; omega)).2 ⟨rfl, rfl⟩]
    dsimp only
    rw [hstatus, hrole, ClientStatusCode.ofByte_eq_some_iff.2 rfl,
      ClientNodeRole.ofByte_eq_some_iff.2 rfl]
    dsimp only
    rw [hreply, hvalid]
    rfl

/-! ## All messages -/

/-- **The client format**: for each of the six messages, a frame is accepted, with the message it
stands for, if and only if the encoder writes it for that message. -/
theorem clientFrames_exact (bytes : Bytes) :
    (∀ request, encodeClientRequest request = .ok bytes ↔
      decodeClientRequest bytes = .ok request) ∧
    (∀ reply : ClientWriteReply, reply.InRange ∧ encodeClientReply reply = .ok bytes ↔
      decodeClientReply bytes = .ok reply) ∧
    (∀ request, encodeClientReadRequest request = .ok bytes ↔
      decodeClientReadRequest bytes = .ok request) ∧
    (∀ reply : ClientReadReply, reply.InRange ∧ encodeClientReadReply reply = .ok bytes ↔
      decodeClientReadReply bytes = .ok reply) ∧
    (∀ request, encodeClientStatusRequest request = .ok bytes ↔
      decodeClientStatusRequest bytes = .ok request) ∧
    ∀ reply : ClientStatusReply, reply.InRange ∧ encodeClientStatusReply reply = .ok bytes ↔
      decodeClientStatusReply bytes = .ok reply :=
  ⟨fun _ => decodeClientRequest_eq_ok_iff.symm, fun _ => decodeClientReply_eq_ok_iff.symm,
    fun _ => decodeClientReadRequest_eq_ok_iff.symm,
    fun _ => decodeClientReadReply_eq_ok_iff.symm,
    fun _ => decodeClientStatusRequest_eq_ok_iff.symm,
    fun _ => decodeClientStatusReply_eq_ok_iff.symm⟩

end DistributedKV
