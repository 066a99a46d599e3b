import DistributedKV.Server.Server
import DistributedKV.Store.Checksum
import DistributedKV.Store.MetadataCodec

/-!
# Corrupted frames

Every decoder of a whole frame checks the checksum over all that comes before it, whatever the kind
of the frame is. So a frame that was accepted and has been changed in a few bytes in a row is
accepted by none of them, and a server that receives it calls nothing (`corruption_detected`).
-/

namespace DistributedKV

/-- Some decoder accepts the frame. -/
inductive Accepted (frame : Bytes) : Prop
  | raft {envelope : RaftEnvelope} (h : decodeRaftEnvelope frame = .ok envelope)
  | request {request : ClientWriteRequest} (h : decodeClientRequest frame = .ok request)
  | reply {reply : ClientWriteReply} (h : decodeClientReply frame = .ok reply)
  | readRequest {request : ClientReadRequest} (h : decodeClientReadRequest frame = .ok request)
  | readReply {reply : ClientReadReply} (h : decodeClientReadReply frame = .ok reply)
  | statusRequest {request : ClientStatusRequest}
      (h : decodeClientStatusRequest frame = .ok request)
  | statusReply {reply : ClientStatusReply} (h : decodeClientStatusReply frame = .ok reply)
  | metadata {state : RaftMetadata} (h : decodeRaftMetadata frame = .ok state)

/-- The frames are of one length and differ in at most four bytes in a row before the checksum, or
in the checksum. -/
inductive Tampered : Bytes → Bytes → Prop
  | body (front back checksum : Bytes) {burst burst' : Bytes}
      (hlen : burst.length = burst'.length) (h4 : burst.length ≤ 4) (hne : burst ≠ burst')
      (hc : checksum.length = checksumSize) :
      Tampered (front ++ burst ++ back ++ checksum) (front ++ burst' ++ back ++ checksum)
  | checksum (body : Bytes) {checksum checksum' : Bytes} (hc : checksum.length = checksumSize)
      (hc' : checksum'.length = checksumSize) (hne : checksum ≠ checksum') :
      Tampered (body ++ checksum) (body ++ checksum')

/-- What is accepted ends in its checksum. -/
theorem Accepted.exists_body {frame : Bytes} (h : Accepted frame) :
    ∃ body, frame = withChecksum body := by
  cases h with
  | raft h =>
    obtain ⟨-, -, body, -, hframe, -⟩ := decodeRaftEnvelope_eq_ok_iff.1 h
    exact ⟨_, hframe⟩
  | request h =>
    obtain ⟨-, -, command, -, hframe, -⟩ :=
      encodeClientRequest_eq_ok_iff.1 (decodeClientRequest_eq_ok_iff.1 h)
    exact ⟨_, hframe⟩
  | reply h =>
    exact ⟨_, (encodeClientReply_eq_ok_iff.1 (decodeClientReply_eq_ok_iff.1 h).2).2⟩
  | readRequest h =>
    have hencode := decodeClientReadRequest_eq_ok_iff.1 h
    unfold encodeClientReadRequest at hencode
    split_ifs at hencode
    exact ⟨_, (Except.ok.inj hencode).symm.trans (appendChecksum_eq _)⟩
  | readReply h =>
    obtain ⟨-, -, hframe⟩ :=
      encodeClientReadReply_eq_ok_iff.1 (decodeClientReadReply_eq_ok_iff.1 h).2
    exact ⟨_, hframe⟩
  | statusRequest h =>
    have hencode := decodeClientStatusRequest_eq_ok_iff.1 h
    exact ⟨_, (Except.ok.inj hencode).symm.trans (appendChecksum_eq _)⟩
  | statusReply h =>
    exact ⟨_, (encodeClientStatusReply_eq_ok_iff.1 (decodeClientStatusReply_eq_ok_iff.1 h).2).2⟩
  | metadata h =>
    exact ⟨_, (encodeRaftMetadata_eq_ok_iff.1 (decodeRaftMetadata_eq_ok_iff.1 h).2).2⟩

theorem eq_of_withChecksum_eq {body front checksum : Bytes} (hc : checksum.length = checksumSize)
    (h : front ++ checksum = withChecksum body) :
    front = body ∧ checksum = ByteCodec.digits 4 (crc32 body).toNat :=
  List.append_inj' h (by rw [hc, ByteCodec.length_digits, checksumSize])

/-- What is accepted and changed is accepted no more. -/
theorem Tampered.not_accepted {frame frame' : Bytes} (h : Tampered frame frame')
    (haccepted : Accepted frame) : ¬ Accepted frame' := by
  intro haccepted'
  obtain ⟨body, hbody⟩ := haccepted.exists_body
  obtain ⟨body', hbody'⟩ := haccepted'.exists_body
  cases h with
  | body front back checksum hlen h4 hne hc =>
    obtain ⟨rfl, hcrc⟩ := eq_of_withChecksum_eq hc hbody
    obtain ⟨rfl, hcrc'⟩ := eq_of_withChecksum_eq hc hbody'
    refine crc32_burst front back hlen h4 hne (UInt32.toNat_inj.1 ?_)
    have hvalue := congrArg ByteCodec.value (hcrc.symm.trans hcrc')
    rwa [ByteCodec.value_digits 4 (UInt32.toNat_lt _), ByteCodec.value_digits 4 (UInt32.toNat_lt _)]
      at hvalue
  | checksum front hc hc' hne =>
    obtain ⟨rfl, hcrc⟩ := eq_of_withChecksum_eq hc hbody
    obtain ⟨hfront, hcrc'⟩ := eq_of_withChecksum_eq hc' hbody'
    rw [← hfront] at hcrc'
    exact hne (hcrc.trans hcrc'.symm)

/-- A frame that no decoder accepts is at most answered with a refusal. -/
theorem Server.receiveOne_of_not_accepted {frame : Bytes} (h : ¬ Accepted frame) (server : Server)
    (connection : ℕ) (faults : Faults) :
    server.receiveOne connection faults (some frame) = server ∨
      ∃ reply, server.receiveOne connection faults (some frame) =
        server.reply connection reply := by
  rw [receiveOne]
  split_ifs
  · unfold handleClientWrite
    cases hd : decodeClientRequest frame with
    | error e => exact Or.inr ⟨_, rfl⟩
    | ok request => exact absurd (.request hd) h
  · unfold handleClientRead
    cases hd : decodeClientReadRequest frame with
    | error e => exact Or.inr ⟨_, rfl⟩
    | ok request => exact absurd (.readRequest hd) h
  · unfold handleClientStatus
    cases hd : decodeClientStatusRequest frame with
    | error e => exact Or.inr ⟨_, rfl⟩
    | ok request => exact absurd (.statusRequest hd) h
  · cases hd : decodeRaftEnvelope frame with
    | error e => exact Or.inl rfl
    | ok envelope => exact absurd (.raft hd) h

/-- **Corruption is detected**: a burst of at most four bytes changes the checksum of every byte
string. A frame that some decoder accepts and that has been changed in such a burst, or in its
checksum, is accepted by no decoder, so a server that receives it does nothing with its node and
its requests. -/
theorem corruption_detected :
    (∀ {front back burst burst' : Bytes}, burst.length = burst'.length → burst.length ≤ 4 →
      burst ≠ burst' → crc32 (front ++ burst ++ back) ≠ crc32 (front ++ burst' ++ back)) ∧
    ∀ {frame frame' : Bytes}, Accepted frame → Tampered frame frame' → ¬ Accepted frame' ∧
      ∀ (server : Server) (connection : ℕ) (faults : Faults),
        server.receiveOne connection faults (some frame') = server ∨
          ∃ reply, server.receiveOne connection faults (some frame') =
            server.reply connection reply := by
  refine ⟨fun hlen h4 hne => crc32_burst _ _ hlen h4 hne, fun haccepted htampered => ?_⟩
  have hrejected := htampered.not_accepted haccepted
  exact ⟨hrejected, fun server connection faults =>
    server.receiveOne_of_not_accepted hrejected connection faults⟩

/-- A status request whose kind has been changed to that of a read. -/
theorem corruption_detected_kind :
    ¬ Accepted ([2, 7] ++ ByteCodec.digits 4 (crc32 [2, 9]).toNat) := by
  have haccepted : Accepted (withChecksum [2, 9]) :=
    @Accepted.statusRequest _ {} (decodeClientStatusRequest_eq_ok_iff.2 (by
      rw [encodeClientStatusRequest, appendChecksum_eq]))
  have htampered : Tampered (withChecksum [2, 9])
      ([2, 7] ++ ByteCodec.digits 4 (crc32 [2, 9]).toNat) :=
    @Tampered.body [2] [] (ByteCodec.digits 4 (crc32 [2, 9]).toNat) [9] [7] rfl (by decide)
      (by decide) (ByteCodec.length_digits _ _)
  exact (corruption_detected.2 haccepted htampered).1

end DistributedKV
