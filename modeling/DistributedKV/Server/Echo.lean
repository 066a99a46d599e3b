import DistributedKV.Server.Server

/-!
# The room for an answer

The answer to a request echoes it. Both frames have the same limit, but the answer has a term and a
flag of its own in front of the request, so the last nine bytes below the limit are enough for a
request and not for its answer (`echo_encodes_iff`).
-/

namespace DistributedKV

/-- A server whose one message can be encoded does not give up over it. -/
theorem Server.fatal_sendMessages {server : Server} {repliedTo : Option AppendEntries}
    {message : OutboundRaftMessage} (hfatal : server.fatal = false)
    (hblocked : server.blockedPeers message.peerId = false) :
    (server.sendMessages repliedTo [message]).fatal = false ↔
      (encodeRaftEnvelope ⟨(envelope server.node.selfId repliedTo message).sender,
        (envelope server.node.selfId repliedTo message).message,
        (envelope server.node.selfId repliedTo message).repliedTo⟩).isOk = true := by
  rw [sendMessages, if_neg (by simp [hblocked])]
  dsimp only
  split
  · next e he => simp [he, fail, Except.isOk, Except.toBool]
  · next bytes hbytes => simp [hbytes, sendMessages, hfatal, Except.isOk, Except.toBool]

/-- **The room for an answer**: a request that arrives in a frame can be answered, whatever the
answer is, if and only if it leaves nine bytes more than its own frame needs. Otherwise the server
that answers it gives up. -/
theorem echo_encodes_iff {request : AppendEntries} {sender : ℕ}
    (h : (encodeRaftEnvelope ⟨sender, .appendEntries request, none⟩).isOk = true) :
    ((∀ receiver reply, receiver ≠ 0 →
        (encodeRaftEnvelope ⟨receiver, .appendEntriesReply reply, some request⟩).isOk = true) ↔
      request.frameSize + 23 ≤ maxRaftFrameSize) ∧
    ∀ (server : Server) (peer : ℕ) (reply : AppendEntriesReply), server.node.selfId ≠ 0 →
      server.fatal = false → server.blockedPeers peer = false →
      ((server.sendMessages (some request) [⟨peer, .appendEntriesReply reply⟩]).fatal = false ↔
        request.frameSize + 23 ≤ maxRaftFrameSize) := by
  have hsender : sender ≠ 0 := by
    obtain ⟨bytes, hbytes⟩ := isOk_iff.1 h
    exact (encodeRaftEnvelope_eq_ok_iff.1 hbytes).1
  obtain ⟨hframe, -⟩ := (encodeRaftEnvelope_request_iff hsender).1 h
  have hecho : ∀ receiver reply, receiver ≠ 0 →
      ((encodeRaftEnvelope ⟨receiver, .appendEntriesReply reply, some request⟩).isOk = true ↔
        request.frameSize + 23 ≤ maxRaftFrameSize) := by
    intro receiver reply hreceiver
    rw [encodeRaftEnvelope_reply_iff hreceiver, and_iff_right hframe]
  refine ⟨⟨fun hall => ?_, fun hroom receiver reply hreceiver => ?_⟩, ?_⟩
  · exact (hecho 1 ⟨1, true⟩ one_ne_zero).1 (hall 1 ⟨1, true⟩ one_ne_zero)
  · exact (hecho receiver reply hreceiver).2 hroom
  · intro server peer reply hself hfatal hblocked
    rw [Server.fatal_sendMessages hfatal hblocked]
    exact hecho server.node.selfId reply hself

/-- A request to put `n` bytes. -/
def longRequest (n : ℕ) : AppendEntries :=
  ⟨1, 2, 0, 0, [⟨1, 1, { type := .put, key := [107], value := .replicate n 118 }⟩], 0, 0⟩

theorem frameSize_longRequest {n : ℕ} (hn : n ≤ maxRaftFrameSize) :
    (longRequest n).frameSize = n + 96 ∧ ∃ frame, RequestFrame (longRequest n) frame := by
  rw [maxRaftFrameSize] at hn
  have hsize : Command.frameSize { type := .put, key := [107], value := .replicate n 118 } =
      n + 11 := by
    rw [Command.frameSize, List.length_replicate, commandHeaderSize]
    simp only [Option.isSome_none, Bool.false_eq_true, if_false, List.length_cons, List.length_nil]
    omega
  have hencodable : ∀ e ∈ (longRequest n).entries, e.Encodable := by
    intro e he
    obtain rfl := List.mem_singleton.1 he
    refine encodable_of_frameSize one_ne_zero one_ne_zero trivial ?_
    rw [hsize, uint32Max, entryMetadataSize]
    omega
  have hframe : (longRequest n).frameSize = n + 96 := by
    obtain ⟨record, hrecord⟩ := (hencodable _ (List.mem_singleton.2 rfl)).exists_bytes
    have hlen := length_encodeLogEntry hrecord
    rw [← PersistentLog.recordSize_eq hrecord, hsize, prefixSize, entryMetadataSize,
      checksumSize] at hlen
    simp only [AppendEntries.frameSize, longRequest, List.map_cons, List.map_nil, List.sum_cons,
      List.sum_nil, hlen]
    omega
  exact ⟨hframe, exists_requestFrame hencodable (by omega)⟩

/-- The longest such request that can be answered. -/
theorem echo_encodes_longest :
    (encodeRaftEnvelope ⟨1, .appendEntriesReply ⟨1, true⟩, some (longRequest 8388489)⟩).isOk =
      true := by
  obtain ⟨hsize, hframe⟩ := frameSize_longRequest (n := 8388489) (by decide)
  refine (@echo_encodes_iff (longRequest 8388489) 2 ?_).1.2 ?_ 1 ⟨1, true⟩ one_ne_zero
  · rw [encodeRaftEnvelope_request_iff two_ne_zero, hsize]
    exact ⟨hframe, by decide⟩
  · rw [hsize]
    decide

/-- The frame of this request has just the longest length. -/
theorem echo_overflows :
    (encodeRaftEnvelope ⟨2, .appendEntries (longRequest 8388498), none⟩).isOk = true ∧
      ¬ (encodeRaftEnvelope
        ⟨1, .appendEntriesReply ⟨1, true⟩, some (longRequest 8388498)⟩).isOk = true := by
  obtain ⟨hsize, hframe⟩ := frameSize_longRequest (n := 8388498) (by decide)
  constructor
  · rw [encodeRaftEnvelope_request_iff two_ne_zero, hsize]
    exact ⟨hframe, by decide⟩
  · rw [encodeRaftEnvelope_reply_iff one_ne_zero, hsize]
    rintro ⟨-, hroom⟩
    exact absurd hroom (by decide)

end DistributedKV
