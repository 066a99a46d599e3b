import DistributedKV.Foundations.ByteStream
import DistributedKV.Wire.ClientWire
import DistributedKV.Wire.RaftWire

/-!
# Frames on a connection

The functions of `raft_server.cpp` and `dkv_client.cpp` that put frames on a TCP connection and take
them off again: four bytes with the length, and then the frame. Either end may be interrupted, cut
short or given up at any byte. A receiver gets the frame that was sent or nothing, and it gets the
frame exactly if all of it has arrived (`sendFrame_receives`).
-/

namespace DistributedKV

open ByteCodec ByteStream

/-- `length_prefix`, and `prefix` of the client. -/
def lengthPrefix (size : ℕ) : Bytes :=
  [byteAt size 24, byteAt size 16, byteAt size 8, byteAt size 0]

theorem lengthPrefix_eq (size : ℕ) : lengthPrefix size = digits 4 size :=
  appendU32_eq [] size

/-- A frame with its length in front. -/
def prefixed (bytes : Bytes) : Bytes := lengthPrefix bytes.length ++ bytes

theorem length_prefixed (bytes : Bytes) : (prefixed bytes).length = bytes.length + 4 := by
  rw [prefixed, List.length_append, lengthPrefix_eq, length_digits, Nat.add_comm]

/-! ## Sending -/

/-- The two calls of `write_all` that send a frame: what is put on the connection, and whether that
is all. -/
def writeFrame (bytes : Bytes) (transfers : List Transfer) : Bytes × Bool :=
  match sendAll (lengthPrefix bytes.length) transfers with
  | (sent, false, _) => (sent, false)
  | (sent, true, transfers) =>
    match sendAll bytes transfers with
    | (sent', all, _) => (sent ++ sent', all)

/-- **What is on the connection** is a part of the frame from the front, and all of it exactly if
the calls say so. -/
theorem writeFrame_eq (bytes : Bytes) (transfers : List Transfer) :
    (writeFrame bytes transfers).1 <+: prefixed bytes ∧
      ((writeFrame bytes transfers).2 = true ↔
        (writeFrame bytes transfers).1 = prefixed bytes) := by
  have hfirst := sendAll_eq (lengthPrefix bytes.length) transfers
  unfold writeFrame
  generalize sendAll (lengthPrefix bytes.length) transfers = first at hfirst
  obtain ⟨sent, all, rest⟩ := first
  dsimp only at hfirst
  cases all with
  | false =>
    dsimp only
    have hne : sent ≠ lengthPrefix bytes.length := fun h => by simpa using hfirst.2.2 h
    refine ⟨hfirst.1.trans (List.prefix_append _ _), iff_of_false (by simp) fun h => hne ?_⟩
    have hlen := hfirst.1.length_le
    have hsize := congrArg List.length h
    rw [length_prefixed] at hsize
    exact hfirst.1.eq_of_length (by rw [lengthPrefix_eq, length_digits] at hlen ⊢; omega)
  | true =>
    obtain rfl := hfirst.2.1 rfl
    dsimp only
    have hsecond := sendAll_eq bytes rest
    generalize sendAll bytes rest = second at hsecond
    obtain ⟨sent', all, rest'⟩ := second
    dsimp only at hsecond ⊢
    obtain ⟨tail, htail⟩ := hsecond.1
    refine ⟨⟨tail, by rw [List.append_assoc, htail, prefixed]⟩, hsecond.2.trans ?_⟩
    rw [prefixed, List.append_cancel_left_eq]

/-- `send_client_reply`, `send_client_read_reply` and `send_client_status_reply`, given what the
encoder makes of the reply. -/
def sendEncoded (encoded : Except ClientWireError Bytes) (transfers : List Transfer) :
    Bytes × Bool :=
  match encoded with
  | .error _ => ([], false)
  | .ok bytes => writeFrame bytes transfers

def sendClientReply (reply : ClientWriteReply) : List Transfer → Bytes × Bool :=
  sendEncoded (encodeClientReply reply)

def sendClientReadReply (reply : ClientReadReply) : List Transfer → Bytes × Bool :=
  sendEncoded (encodeClientReadReply reply)

def sendClientStatusReply (reply : ClientStatusReply) : List Transfer → Bytes × Bool :=
  sendEncoded (encodeClientStatusReply reply)

inductive SendResult
  | sent
  | unavailable
  | invalidMessage
  deriving DecidableEq

/-- `send_frame`; `connected` says whether the peer has accepted the connection. -/
def sendFrame (envelope : RaftEnvelope) (connected : Bool) (transfers : List Transfer) :
    Bytes × SendResult :=
  match encodeRaftEnvelope envelope with
  | .error _ => ([], .invalidMessage)
  | .ok bytes =>
    if connected = false then ([], .unavailable)
    else
      match writeFrame bytes transfers with
      | (sent, all) => (sent, if all then .sent else .unavailable)

/-! ## Receiving -/

/-- Why no frame is received: the connection is lost, or no frame has such a length. -/
inductive FrameError
  | lost
  | badLength
  deriving DecidableEq

/-- The length and the frame are read, up to a limit. -/
def readFrame (limit : ℕ) (arrivals : List Arrival) : Except FrameError Bytes :=
  match receiveAll 4 arrivals with
  | none => .error .lost
  | some (header, arrivals) =>
    let length := value header
    if length = 0 ∨ limit < length then .error .badLength
    else
      match receiveAll length arrivals with
      | none => .error .lost
      | some (bytes, _) => .ok bytes

/-- `receive_frame`. -/
def receiveFrame (arrivals : List Arrival) : Option Bytes :=
  (readFrame maxRaftFrameSize arrivals).toOption

theorem content_prefixed {arrivals : List Arrival} {bytes rest : Bytes}
    (h : content arrivals = prefixed bytes ++ rest) : ∃ arrivals',
      receiveAll 4 arrivals = some (digits 4 bytes.length, arrivals') ∧
        content arrivals' = bytes ++ rest := by
  have hcontent : content arrivals = digits 4 bytes.length ++ (bytes ++ rest) := by
    rw [h, prefixed, lengthPrefix_eq, List.append_assoc]
  have hreceive := receiveAll_of_content hcontent
  rwa [length_digits] at hreceive

/-- **A frame is received** exactly if it stands at the front of what arrives, with its length. -/
theorem readFrame_eq_ok_iff {limit : ℕ} (hlimit : limit < 2 ^ 32) {arrivals : List Arrival}
    {bytes : Bytes} : readFrame limit arrivals = .ok bytes ↔
      bytes ≠ [] ∧ bytes.length ≤ limit ∧ ∃ rest, content arrivals = prefixed bytes ++ rest := by
  constructor
  · intro h
    unfold readFrame at h
    split at h
    · cases h
    next header arrivals' hheader =>
    dsimp only at h
    split_ifs at h with hlength
    split at h
    · cases h
    next bytes' arrivals'' hbytes =>
    obtain rfl := Except.ok.inj h
    obtain ⟨hfour, hcontent⟩ := receiveAll_eq_some hheader
    obtain ⟨hsize, hcontent'⟩ := receiveAll_eq_some hbytes
    have hdigits := digits_value header
    rw [hfour, ← hsize] at hdigits
    rw [not_or, not_lt, ← hsize] at hlength
    refine ⟨fun hnil => hlength.1 (by rw [hnil]; rfl), hlength.2, content arrivals'', ?_⟩
    rw [hcontent, hcontent', prefixed, lengthPrefix_eq, hdigits, List.append_assoc]
  · rintro ⟨hne, hle, rest, hcontent⟩
    obtain ⟨arrivals', hheader, hcontent'⟩ := content_prefixed hcontent
    obtain ⟨arrivals'', hbytes, -⟩ := receiveAll_of_content hcontent'
    have hvalue : value (digits 4 bytes.length) = bytes.length :=
      value_digits 4 (lt_of_le_of_lt hle (by omega))
    have hpos : bytes.length ≠ 0 := fun h => hne (List.length_eq_zero_iff.1 h)
    rw [readFrame, hheader]
    dsimp only
    rw [hvalue, if_neg (not_or.2 ⟨hpos, not_lt.2 hle⟩), hbytes]

/-- A frame of which a part has arrived is received when all of it has, and nothing else is. -/
theorem readFrame_of_prefix (limit : ℕ) (hlimit : limit < 2 ^ 32) {arrivals : List Arrival}
    {bytes : Bytes} (hne : bytes ≠ []) (hle : bytes.length ≤ limit)
    (h : content arrivals <+: prefixed bytes) :
    if content arrivals = prefixed bytes then readFrame limit arrivals = .ok bytes
    else readFrame limit arrivals = .error .lost := by
  split_ifs with hall
  · exact (readFrame_eq_ok_iff hlimit).2 ⟨hne, hle, [], by rw [hall, List.append_nil]⟩
  have hshort : (content arrivals).length < bytes.length + 4 := by
    rw [← length_prefixed]
    exact lt_of_le_of_ne h.length_le fun heq => hall (h.eq_of_length heq)
  obtain ⟨rest, hrest⟩ := h
  unfold readFrame
  rcases receiveAll_spec 4 arrivals with ⟨hfour, arrivals', heq, hcontent⟩ | ⟨-, heq⟩
  · have hheader : (content arrivals).take 4 = digits 4 bytes.length := by
      have htake := congrArg (List.take 4) hrest
      rwa [List.take_append_of_le_length hfour, prefixed, lengthPrefix_eq,
        List.take_left' (length_digits 4 _)] at htake
    have hvalue : value (digits 4 bytes.length) = bytes.length :=
      value_digits 4 (lt_of_le_of_lt hle (by omega))
    have hpos : bytes.length ≠ 0 := fun h => hne (List.length_eq_zero_iff.1 h)
    have hnone : receiveAll bytes.length arrivals' = none := by
      rcases receiveAll_spec bytes.length arrivals' with ⟨hlen, -⟩ | ⟨-, hnone⟩
      · rw [hcontent, List.length_drop] at hlen
        omega
      · exact hnone
    rw [heq, hheader]
    dsimp only
    rw [hvalue, if_neg (not_or.2 ⟨hpos, not_lt.2 hle⟩), hnone]
  · rw [heq]

/-! ## Messages between the processes -/

theorem receiveFrame_of_nil {arrivals : List Arrival} (h : content arrivals = []) :
    receiveFrame arrivals = none := by
  cases hread : readFrame maxRaftFrameSize arrivals with
  | error e =>
    rw [receiveFrame, hread]
    rfl
  | ok bytes =>
    obtain ⟨-, -, rest, hrest⟩ := (readFrame_eq_ok_iff (by decide)).1 hread
    have hsize := congrArg List.length (h.symm.trans hrest)
    rw [List.length_append, length_prefixed, List.length_nil] at hsize
    omega

theorem encodeRaftEnvelope_fits {envelope : RaftEnvelope} {bytes : Bytes}
    (h : encodeRaftEnvelope envelope = .ok bytes) :
    bytes ≠ [] ∧ bytes.length ≤ maxRaftFrameSize := by
  obtain ⟨-, body, -, rfl, hlen⟩ := encodeRaftEnvelope_eq_ok_iff.1 h
  refine ⟨fun hnil => ?_, hlen⟩
  have hsize := congrArg List.length hnil
  rw [length_withChecksum, List.length_nil, checksumSize] at hsize
  omega

/-- What is received of what `send_frame` puts on the connection: the frame or nothing, and the
frame if everything arrives. -/
theorem receiveFrame_of_sendFrame {envelope : RaftEnvelope} {bytes : Bytes}
    (hencode : encodeRaftEnvelope envelope = .ok bytes) {connected : Bool}
    {transfers : List Transfer} {arrivals : List Arrival}
    (h : content arrivals <+: (sendFrame envelope connected transfers).1) :
    (receiveFrame arrivals = none ∨ receiveFrame arrivals = some bytes ∧
      (sendFrame envelope connected transfers).2 = .sent) ∧
    ((sendFrame envelope connected transfers).2 = .sent →
      content arrivals = (sendFrame envelope connected transfers).1 →
        receiveFrame arrivals = some bytes) := by
  unfold sendFrame at h ⊢
  rw [hencode] at h ⊢
  dsimp only at h ⊢
  cases connected with
  | false => exact ⟨Or.inl (receiveFrame_of_nil (List.prefix_nil.1 h)), by simp⟩
  | true =>
    rw [if_neg (by decide)] at h ⊢
    obtain ⟨hne, hfits⟩ := encodeRaftEnvelope_fits hencode
    have hwrite := writeFrame_eq bytes transfers
    generalize writeFrame bytes transfers = written at h hwrite
    obtain ⟨sent, all⟩ := written
    dsimp only at h hwrite ⊢
    have hread := readFrame_of_prefix maxRaftFrameSize (by decide) hne hfits
      (h.trans hwrite.1)
    split_ifs at hread with hcontent
    · have hsome : receiveFrame arrivals = some bytes := by
        rw [receiveFrame, hread]
        rfl
      have hall : all = true := by
        refine hwrite.2.2 (hwrite.1.eq_of_length_le ?_)
        rw [← hcontent]
        exact h.length_le
      exact ⟨Or.inr ⟨hsome, by rw [hall]; rfl⟩, fun _ _ => hsome⟩
    · refine ⟨Or.inl (by rw [receiveFrame, hread]; rfl), fun hsent heq => absurd ?_ hcontent⟩
      cases all with
      | false => cases hsent
      | true => rw [heq, hwrite.2.1 rfl]

/-- **A Raft message arrives whole or not at all**, however its bytes are cut on the way, and
wherever one of the two ends gives up: if it arrives, the sender has reported it as sent, and the
receiver decodes the message that was encoded. -/
theorem sendFrame_receives {envelope : RaftEnvelope} (hrange : envelope.InRange)
    (connected : Bool) (transfers : List Transfer) (arrivals : List Arrival)
    (h : content arrivals <+: (sendFrame envelope connected transfers).1) :
    (receiveFrame arrivals = none ∨
      (receiveFrame arrivals).map decodeRaftEnvelope = some (.ok envelope) ∧
        (sendFrame envelope connected transfers).2 = .sent) ∧
    ((sendFrame envelope connected transfers).2 = .sent →
      content arrivals = (sendFrame envelope connected transfers).1 →
        (receiveFrame arrivals).map decodeRaftEnvelope = some (.ok envelope)) := by
  cases hencode : encodeRaftEnvelope envelope with
  | error e =>
    have hsend : sendFrame envelope connected transfers = ([], .invalidMessage) := by
      rw [sendFrame, hencode]
    rw [hsend] at h ⊢
    exact ⟨Or.inl (receiveFrame_of_nil (List.prefix_nil.1 h)), by simp⟩
  | ok bytes =>
    have hdecode : decodeRaftEnvelope bytes = .ok envelope := by
      obtain ⟨hsender, hframe⟩ := encodeRaftEnvelope_eq_ok_iff.1 hencode
      exact decodeRaftEnvelope_eq_ok_iff.2 ⟨hrange, hsender, hframe⟩
    have hsome : receiveFrame arrivals = some bytes →
        (receiveFrame arrivals).map decodeRaftEnvelope = some (.ok envelope) := fun heq => by
      rw [heq, Option.map_some, hdecode]
    obtain ⟨hreceived, hall⟩ := receiveFrame_of_sendFrame hencode h
    exact ⟨hreceived.imp_right (And.imp_left hsome), fun hsent heq => hsome (hall hsent heq)⟩

/-- A reply to a candidate that arrives in two parts. -/
theorem sendFrame_receives_voteReply : ∃ first second,
    (receiveFrame [.chunk first, .interrupted, .chunk second]).map decodeRaftEnvelope =
      some (.ok ⟨1, .requestVoteReply ⟨1, true⟩, none⟩) := by
  have hrange : (⟨1, .requestVoteReply ⟨1, true⟩, none⟩ : RaftEnvelope).InRange :=
    ⟨by decide, Nat.one_lt_two_pow (by decide), fun _ h => by cases h⟩
  have hsent : (sendFrame ⟨1, .requestVoteReply ⟨1, true⟩, none⟩ true [.done 2]).2 = .sent := by
    decide +kernel
  have hcontent : ∀ frame : Bytes,
      content [.chunk (frame.take 7), .interrupted, .chunk (frame.drop 7)] = frame := fun frame =>
    by simp [content]
  refine ⟨_, _, (sendFrame_receives hrange true [.done 2] _ ?_).2 hsent (hcontent _)⟩
  exact (hcontent _).symm ▸ List.prefix_rfl

end DistributedKV
