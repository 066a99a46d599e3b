import DistributedKV.Cluster.Words
import DistributedKV.Server.Encoding
import DistributedKV.Wire.Transport

/-!
# What one server sends, another handles

The servers exchange frames on connections that may break, and the model of the cluster lets them
exchange messages. Nothing is lost by that: whatever a server sends has a frame, the receiver gets
the frame whole or not at all, and unless it has blocked the sender its node is called with exactly
the message that was sent (`Service.Run.delivered`).
-/

namespace DistributedKV

open ByteStream

/-- The envelope without its receiver, which is not part of the frame. -/
def Envelope.wire (envelope : Envelope) : RaftEnvelope :=
  ⟨envelope.sender, envelope.message, envelope.repliedTo⟩

/-! ## Who gets a message -/

namespace Cluster.Run

variable {cluster : Cluster} {r : cluster.Run} {g : ℕ → Abstract} {i : ℕ} {envelope : Envelope}

/-- A message goes from one member to another. -/
theorem Ghost.receiver_mem (h : r.Ghost g) (hi : i ≤ r.length)
    (hmem : envelope ∈ (r.state i).sent) :
    envelope.receiver ∈ cluster.members ∧ envelope.receiver ≠ envelope.sender := by
  induction i with
  | zero =>
    rw [r.state_zero] at hmem
    cases hmem
  | succ i ih =>
    rcases sent_succ hi hmem with hold | ⟨node, c, input, hh, -, -, m, hm, heq⟩
    · exact ih (by omega) hold
    · obtain ⟨hn, hnode, -⟩ := h.handles hh
      have hpeer := (RaftNode.call_addressed node c m hm).mem
      have hreceiver : envelope.receiver = m.peerId := by
        rw [heq]
        rfl
      rw [hreceiver]
      simp only [RaftNode.peers, hnode.peerIds, List.mem_cons, List.not_mem_nil, or_false] at hpeer
      rcases hpeer with hp | hp
      all_goals
        rw [hp]
        exact ⟨cluster.peerIds_mem _ hn _, cluster.peerIds_ne_self _ hn _⟩

/-- A message that has been sent calls a node. -/
theorem exists_call (hi : i ≤ r.length) (hmem : envelope ∈ (r.state i).sent) :
    ∃ c, (Input.deliver envelope).call = some c := by
  have hframed := r.framed hi hmem
  obtain ⟨sender, receiver, message, repliedTo⟩ := envelope
  cases hframed <;> exact ⟨_, rfl⟩

end Cluster.Run

/-! ## Frames of messages -/

/-- A message between servers is no request of a client. -/
theorem client_of_encodeRaftEnvelope {envelope : RaftEnvelope} {bytes : Bytes}
    (h : encodeRaftEnvelope envelope = .ok bytes) :
    bytes[1]? ≠ some 5 ∧ bytes[1]? ≠ some 7 ∧ bytes[1]? ≠ some 9 := by
  obtain ⟨-, body, -, rfl, -⟩ := encodeRaftEnvelope_eq_ok_iff.1 h
  rw [withChecksum, envelopeHeader]
  cases envelope.message <;> simp [RaftMessage.kind]

/-- The server hands the message of a frame to its node. -/
theorem Server.step_of_envelope {server : Server} {envelope : Envelope} {bytes : Bytes}
    (hencode : encodeRaftEnvelope envelope.wire = .ok bytes)
    (hdecode : decodeRaftEnvelope bytes = .ok envelope.wire)
    (hrunning : server.running = true) (hreturned : server.returned = false)
    (hsender : 1 ≤ envelope.sender ∧ envelope.sender ≤ 3)
    (hself : envelope.sender ≠ server.node.selfId)
    (hblocked : server.blockedPeers envelope.sender = false) {c : NodeCall}
    (hc : (Input.deliver envelope).call = some c) (connection : ℕ) (faults : Faults) :
    server.step connection faults (.accept (some bytes)) =
      some (server.silent.perform faults c (Input.deliver envelope).repliedTo) := by
  obtain ⟨h5, h7, h9⟩ := client_of_encodeRaftEnvelope hencode
  obtain ⟨sender, receiver, message, repliedTo⟩ := envelope
  have hguard : ¬ (sender < 1 ∨ 3 < sender ∨ sender = server.silent.node.selfId) := by
    change ¬ (sender < 1 ∨ 3 < sender ∨ sender = server.node.selfId)
    dsimp only at hsender hself
    omega
  have hopen : ¬ server.silent.blockedPeers sender = true := by
    change ¬ server.blockedPeers sender = true
    dsimp only at hblocked
    simp [hblocked]
  have hhandle : server.silent.handleEnvelope faults ⟨sender, message, repliedTo⟩ =
      server.silent.perform faults c
        (Input.deliver ⟨sender, receiver, message, repliedTo⟩).repliedTo := by
    rw [Server.handleEnvelope]
    dsimp only
    rw [if_neg hguard, if_neg hopen]
    cases message with
    | requestVote | requestVoteReply | appendEntries =>
      obtain rfl := Option.some.inj hc
      rfl
    | appendEntriesReply reply =>
      obtain ⟨request, hrequest, rfl⟩ := Option.map_eq_some_iff.1 hc
      dsimp only at hrequest
      subst hrequest
      rfl
  have hreceive : server.silent.receiveOne connection faults (some bytes) =
      server.silent.handleEnvelope faults ⟨sender, message, repliedTo⟩ := by
    rw [Server.receiveOne, if_neg h5, if_neg h7, if_neg h9, hdecode]
    rfl
  have hgoing : ¬ server.silent.returned = true := by simpa [Server.silent] using hreturned
  have hgoes : server.silent.running = true := hrunning
  simp only [Server.step, if_neg hgoing, if_pos hgoes, hreceive, hhandle]

namespace Service.Run

variable {r : Run} {i : ℕ} {envelope : Envelope}

/-- What has been sent stays. -/
theorem sent_mono (r : Run) {j : ℕ} (hij : i ≤ j) (hj : j ≤ r.length)
    (hmem : envelope ∈ (r.state i).sent) : envelope ∈ (r.state j).sent := by
  induction j, hij using Nat.le_induction with
  | base => exact hmem
  | succ j hij ih =>
    have hold := ih (by omega)
    have hstep := step_of_next (r.next_state j hj)
    generalize r.state (j + 1) = w at hstep
    generalize r.action j = action at hstep
    cases hstep with
    | handle => exact List.mem_append_left _ hold
    | crash | halt | restart => exact hold

/-- **What is sent is handled.** Every message that a server has sent has a frame. However the
bytes of the frame are cut on the way, and wherever one of the two ends gives up, the receiver gets
this frame or none, and gets it if all has arrived. As long as the receiver runs and has not blocked
the sender, the frame makes it call its node with the message. -/
theorem delivered (r : Run) (hi : i ≤ r.length) (hmem : envelope ∈ (r.state i).sent) :
    ∃ bytes c, encodeRaftEnvelope envelope.wire = .ok bytes ∧
      (Input.deliver envelope).call = some c ∧
      (∀ connected transfers arrivals,
        content arrivals <+: (sendFrame envelope.wire connected transfers).1 →
          (receiveFrame arrivals = none ∨ receiveFrame arrivals = some bytes ∧
            (sendFrame envelope.wire connected transfers).2 = .sent) ∧
          ((sendFrame envelope.wire connected transfers).2 = .sent →
            content arrivals = (sendFrame envelope.wire connected transfers).1 →
              receiveFrame arrivals = some bytes)) ∧
      ∀ j, i ≤ j → j ≤ r.length →
        (r.state j).admits envelope.receiver (.accept (some bytes)) = true ∧
        ∀ server, (r.state j).slots envelope.receiver = .up server → server.running = true →
          server.returned = false → server.blockedPeers envelope.sender = false →
            ∀ connection faults, server.step connection faults (.accept (some bytes)) =
              some (server.silent.perform faults c (Input.deliver envelope).repliedTo) := by
  obtain ⟨r', f, ht⟩ := r.exists_trace
  obtain ⟨hfi, hshadows⟩ := ht.shadows i hi
  obtain ⟨g, h⟩ := r'.exists_ghost
  have hmem' := hshadows.sent _ hmem
  have hids : ∀ n ∈ serverCluster.members, 1 ≤ n ∧ n ≤ 3 ∧ n < 2 ^ 64 := by decide
  have hsender := hids _ (h.sender_mem hfi hmem')
  obtain ⟨hrange, hreplied⟩ := (h.counted (fun n hn => (hids n hn).2.2) _ hfi).sent _ hmem'
  obtain ⟨bytes, hencode⟩ := isOk_iff.1 (h.encodes (by decide) ht.short hfi hmem')
  obtain ⟨hne, hframe⟩ := encodeRaftEnvelope_eq_ok_iff.1 hencode
  have hdecode : decodeRaftEnvelope bytes = .ok envelope.wire :=
    decodeRaftEnvelope_eq_ok_iff.2 ⟨⟨hsender.2.2, hrange, hreplied⟩, hne, hframe⟩
  obtain ⟨c, hc⟩ := Cluster.Run.exists_call hfi hmem'
  refine ⟨bytes, c, hencode, hc, fun connected transfers arrivals harrive =>
    receiveFrame_of_sendFrame hencode harrive, fun j hij hj => ⟨?_, fun server hslot hrunning
      hreturned hblocked connection faults => ?_⟩⟩
  · rw [admits, hdecode]
    exact decide_eq_true (r.sent_mono hij hj hmem)
  · have hself := (ht.shadows j hj).2.selfId hslot
    exact Server.step_of_envelope hencode hdecode hrunning hreturned ⟨hsender.1, hsender.2.1⟩
      (hself ▸ (h.receiver_mem hfi hmem').2.symm) hblocked hc connection faults

/-- The first vote request is handled, also later. -/
theorem delivered_requestVote : ∃ bytes,
    encodeRaftEnvelope ⟨1, .requestVote ⟨1, 1, 0, 0⟩, none⟩ = .ok bytes ∧
      (committedRun.state 10).admits 2 (.accept (some bytes)) = true := by
  have hmem : ⟨1, 2, .requestVote ⟨1, 1, 0, 0⟩, none⟩ ∈ (committedRun.state 3).sent := by
    decide +kernel
  obtain ⟨bytes, c, hencode, -, -, hlater⟩ := delivered committedRun (i := 3) (by decide) hmem
  exact ⟨bytes, hencode, (hlater 10 (by decide) le_rfl).1⟩

end Service.Run

end DistributedKV
