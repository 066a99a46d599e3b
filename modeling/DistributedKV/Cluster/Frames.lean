import DistributedKV.Cluster.Reading
import DistributedKV.Cluster.Sources
import DistributedKV.Raft.NodeBatches
import DistributedKV.Wire.ClientWire
import DistributedKV.Wire.RaftWire

/-!
# Everything that is sent has a frame

A request carries four entries at most, which are entries of a leader's log and hold short commands,
so its frame is well below the limit, and so is the frame of a reply that echoes it
(`Cluster.Run.Ghost.encodes`).
-/

namespace DistributedKV

open RaftNodeResult
open PersistentLog (recordSize)

variable {cluster : Cluster} {r : cluster.Run} {g : ℕ → Abstract} {i n : ℕ} {node : RaftNode}
  {c : NodeCall} {request : AppendEntries} {envelope : Envelope}

/-- A command that a frame of a client can hold. -/
def Command.Short (command : Command) : Prop :=
  command.key.length + command.value.length ≤ maxClientRequestSize

/-! ## Lengths -/

/-- The record of an entry with a short command. -/
theorem recordSize_le {e : LogEntry} (he : e.Encodable) (hs : e.command.Short) :
    recordSize e ≤ maxClientRequestSize + 55 := by
  obtain ⟨record, hrecord⟩ := he.exists_bytes
  have hlen := length_encodeLogEntry hrecord
  rw [Command.Short] at hs
  rw [← PersistentLog.recordSize_eq hrecord, Command.frameSize, prefixSize, entryMetadataSize,
    checksumSize, commandHeaderSize, requestIdSize] at hlen
  split_ifs at hlen <;> omega

theorem sum_recordSize_le {es : List LogEntry} {bound : ℕ} (h : ∀ e ∈ es, recordSize e ≤ bound) :
    (es.map fun e => 4 + recordSize e).sum ≤ es.length * (4 + bound) := by
  induction es with
  | nil => simp
  | cons e es ih =>
    have hfirst := h e List.mem_cons_self
    have hrest := ih fun e' he' => h e' (List.mem_cons_of_mem _ he')
    rw [List.map_cons, List.sum_cons, List.length_cons, Nat.succ_mul]
    omega

/-- The request fits into a frame, and a reply that echoes it does. -/
structure AppendEntries.Fits (request : AppendEntries) : Prop where
  frame : ∃ frame, RequestFrame request frame
  room : request.frameSize + 23 ≤ maxRaftFrameSize

/-- **Four short entries** fit into a frame. -/
theorem AppendEntries.fits (hlen : request.entries.length ≤ 4)
    (he : ∀ e ∈ request.entries, e.Encodable ∧ e.command.Short) : request.Fits := by
  have hsum := sum_recordSize_le fun e h => recordSize_le (he e h).1 (he e h).2
  have hsize : request.frameSize ≤ 52 + 4 * (maxClientRequestSize + 59) := by
    rw [AppendEntries.frameSize]
    refine Nat.add_le_add_left (hsum.trans ((Nat.mul_le_mul_right _ hlen).trans ?_)) 52
    omega
  rw [maxClientRequestSize] at hsize
  have hroom : request.frameSize + 23 ≤ maxRaftFrameSize := by
    rw [maxRaftFrameSize]
    omega
  refine ⟨exists_requestFrame (fun e h => (he e h).1) ?_, hroom⟩
  rw [maxRaftFrameSize] at hroom
  omega

/-! ## Frames -/

/-- The envelope has a frame. -/
def Envelope.Encodes (envelope : Envelope) : Prop :=
  (encodeRaftEnvelope ⟨envelope.sender, envelope.message, envelope.repliedTo⟩).isOk = true

/-- What goes with the message of an envelope, apart from the requests themselves. -/
inductive Framed (sent : List Envelope) : RaftMessage → Option AppendEntries → Prop
  | requestVote (request : RequestVote) : Framed sent (.requestVote request) none
  | requestVoteReply (reply : RequestVoteReply) : Framed sent (.requestVoteReply reply) none
  | appendEntries (request : AppendEntries) (h : request.entries.length ≤ 4) :
      Framed sent (.appendEntries request) none
  | appendEntriesReply (reply : AppendEntriesReply) {request : AppendEntries} {x : Envelope}
      (hx : x ∈ sent) (hm : x.message = .appendEntries request) :
      Framed sent (.appendEntriesReply reply) (some request)

theorem Framed.mono {sent sent' : List Envelope} {message : RaftMessage}
    {repliedTo : Option AppendEntries} (h : Framed sent message repliedTo)
    (hs : ∀ x ∈ sent, x ∈ sent') : Framed sent' message repliedTo := by
  cases h with
  | requestVote request => exact .requestVote request
  | requestVoteReply reply => exact .requestVoteReply reply
  | appendEntries request hlen => exact .appendEntries request hlen
  | appendEntriesReply reply hx hm => exact .appendEntriesReply reply (hs _ hx) hm

/-- The input of an append request is the request. -/
theorem Input.repliedTo_of_call {input : Input} {peerId : ℕ}
    (hc : input.call = some (.appendEntries peerId request)) : input.repliedTo = some request := by
  cases input with
  | deliver envelope =>
    rw [Input.call] at hc
    rw [Input.repliedTo]
    cases hm : envelope.message with
    | appendEntries request' =>
      rw [hm] at hc
      obtain ⟨-, rfl⟩ := NodeCall.appendEntries.inj (Option.some.inj hc)
      rfl
    | appendEntriesReply reply =>
      rw [hm] at hc
      obtain ⟨sent, -, heq⟩ := Option.map_eq_some_iff.1 hc
      cases heq
    | requestVote | requestVoteReply =>
      rw [hm] at hc
      cases hc
  | electionTimeout | heartbeatTimeout | propose | readBarrier => cases hc

namespace Cluster.Run

/-- The requests that the nodes keep are small. -/
theorem batched (r : cluster.Run) : ∀ i ≤ r.length, ∀ {n node},
    (r.state i).slots n = .up node → node.Batched := by
  refine r.node_invariant (fun faults h => h.withFaults faults) (fun ho => ?_)
    fun _ h => (RaftNode.call_sends h _).batched
  obtain rfl := RaftNode.openFrom_eq ho
  exact .of_none rfl rfl

theorem Handles.batched (hh : r.Handles i n node c) : node.Batched := by
  obtain ⟨hi, node₁, input, faults, -, hslot, -, rfl⟩ := hh
  exact (r.batched i hi.le hslot).withFaults faults

/-- What has been sent stays. -/
theorem sent_mono (hi : i < r.length) : ∀ x ∈ (r.state i).sent, x ∈ (r.state (i + 1)).sent := by
  have hstep := World.step_of_next (r.next_state i hi)
  generalize r.state (i + 1) = w at hstep
  generalize r.action i = action at hstep
  cases hstep with
  | call => exact fun x hx => List.mem_append_left _ hx
  | crash | halt | restart => exact fun x hx => hx

/-- **What is sent is framed**: a request is small, and a reply goes with a request that has been
sent. -/
theorem framed (r : cluster.Run) (hi : i ≤ r.length) (hmem : envelope ∈ (r.state i).sent) :
    Framed (r.state i).sent envelope.message envelope.repliedTo := by
  induction i with
  | zero =>
    rw [r.state_zero] at hmem
    cases hmem
  | succ i ih =>
    rcases sent_succ hi hmem with hold | ⟨node, c, input, hh, hadm, hc, m, hm, heq⟩
    · exact (ih (by omega) hold).mono (sent_mono hi)
    · have hsent := (RaftNode.call_sends hh.batched c).sent m hm
      rw [heq, DistributedKV.envelope]
      dsimp only
      revert hsent
      generalize m.message = message
      rintro (request | reply | ⟨request, hlen⟩ | ⟨reply, hcall⟩)
      · exact .requestVote request
      · exact .requestVoteReply reply
      · exact .appendEntries request hlen
      · rw [hcall] at hc
        obtain ⟨x, hx, hxm⟩ := World.request_sent hc hadm
        dsimp only
        rw [Input.repliedTo_of_call hc]
        exact .appendEntriesReply reply (sent_mono hi x hx) hxm

/-- Who has sent a message is a member. -/
theorem Ghost.sender_mem (h : r.Ghost g) (hi : i ≤ r.length)
    (hmem : envelope ∈ (r.state i).sent) : envelope.sender ∈ cluster.members := by
  induction i with
  | zero =>
    rw [r.state_zero] at hmem
    cases hmem
  | succ i ih =>
    rcases sent_succ hi hmem with hold | ⟨node, c, input, hh, -⟩
    · exact ih (by omega) hold
    · exact (h.handles hh).1

/-- A request that has been sent fits into a frame. -/
theorem Ghost.fits (h : r.Ghost g) (hP : r.Proposes Command.Short) (hi : i ≤ r.length)
    (hmem : envelope ∈ (r.state i).sent) (hm : envelope.message = .appendEntries request) :
    request.Fits := by
  have hframed := r.framed hi hmem
  have hok := (h.refines i hi).message envelope hmem
  rw [hm] at hframed
  rw [MessageOk, hm] at hok
  obtain ⟨-, L, hreq⟩ := hok
  have hL := (h.refines i hi).sound.logInvariant_leader hreq.leader
  have hlen : request.entries.length ≤ 4 := by
    generalize envelope.repliedTo = repliedTo at hframed
    cases hframed with
    | appendEntries _ hlen => exact hlen
  refine AppendEntries.fits hlen fun e he => ⟨?_, ?_⟩
  · exact hL.encodable e (List.mem_of_mem_drop (hreq.entries.subset he))
  · exact (h.sourced (Nat.zero_le _) hP hi).sent envelope hmem request hm e he

/-- **Everything that is sent has a frame**, if all commands that are proposed are short. -/
theorem Ghost.encodes (h : r.Ghost g) (h0 : 0 ∉ cluster.members) (hP : r.Proposes Command.Short)
    (hi : i ≤ r.length) (hmem : envelope ∈ (r.state i).sent) : envelope.Encodes := by
  have hsender : envelope.sender ≠ 0 := fun heq => h0 (heq ▸ h.sender_mem hi hmem)
  have hframed := r.framed hi hmem
  have hrequest : ∀ {x : Envelope} {request : AppendEntries}, x ∈ (r.state i).sent →
      x.message = .appendEntries request → request.Fits := fun hx hm => h.fits hP hi hx hm
  obtain ⟨sender, receiver, message, repliedTo⟩ := envelope
  rw [Envelope.Encodes]
  dsimp only at hframed hsender ⊢
  cases hframed with
  | requestVote request =>
    refine isOk_iff.2 ⟨_, encodeRaftEnvelope_eq_ok_iff.2 ⟨hsender, _, rfl, rfl, ?_⟩⟩
    rw [length_envelope]
    simp only [List.length_append, ByteCodec.length_digits, maxRaftFrameSize]
    omega
  | requestVoteReply reply =>
    refine isOk_iff.2 ⟨_, encodeRaftEnvelope_eq_ok_iff.2 ⟨hsender, _, rfl, rfl, ?_⟩⟩
    rw [length_envelope]
    simp only [List.length_append, ByteCodec.length_digits, List.length_cons, List.length_nil,
      maxRaftFrameSize]
    omega
  | appendEntries request =>
    have hfits := hrequest hmem rfl
    exact (encodeRaftEnvelope_request_iff hsender).2 ⟨hfits.frame, by
      have hroom := hfits.room
      omega⟩
  | appendEntriesReply reply hx hm =>
    have hfits := hrequest hx hm
    exact (encodeRaftEnvelope_reply_iff hsender).2 ⟨hfits.frame, hfits.room⟩

end Cluster.Run

end DistributedKV
