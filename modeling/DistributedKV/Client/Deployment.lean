import DistributedKV.Client.Replies
import DistributedKV.Server.Acknowledgements

/-!
# Clients of the servers

A run of `dkv_client` beside a run of the servers. Between them are connections that may end
anywhere, and the client sees nothing of the servers but what arrives. What it makes of that can be
relied on: a write that exits with status 0 has been executed once, at the place that is printed
(`Service.Run.write_exit`), one that a single server does not take is never executed
(`Service.Run.refused_exit`), and a read prints a value that the store has had since the request
(`Service.Run.read_exit`).
-/

namespace DistributedKV

open ByteStream
open Server (ascii)
open KvStateMachine (executed)
open KvObject (after)
open Session (putCommand putFrame decode_putFrame)

/-! ## Requests -/

/-- The second byte of a request for the operation. -/
def Operation.requestKind : Operation → UInt8
  | .write => 5
  | .read => 7
  | .status => 9

/-- A frame that asks a server for the operation. -/
structure Operation.Asks (operation : Operation) (frame : Bytes) : Prop where
  ne_nil : frame ≠ []
  fits : frame.length ≤ maxClientFrameSize
  kind : frame[1]? = some operation.requestKind

theorem ClientReply.answers_of_requestKind {reply : ClientReply} {operation : Operation}
    (h : reply.requestKind = operation.requestKind) : reply.answers operation = true := by
  cases reply <;> cases operation <;> first | rfl | cases h

theorem asks_write {command : Command} {frame : Bytes}
    (h : encodeClientRequest ⟨command⟩ = .ok frame) : Operation.write.Asks frame := by
  obtain ⟨-, -, bytes, -, rfl, hlen⟩ := encodeClientRequest_eq_ok_iff.1 h
  rw [maxClientRequestSize] at hlen
  exact ⟨length_withChecksum_pos _, by rw [maxClientFrameSize]; omega, rfl⟩

theorem asks_read {key frame : Bytes} (h : encodeClientReadRequest ⟨key⟩ = .ok frame) :
    Operation.read.Asks frame := by
  unfold encodeClientReadRequest at h
  split_ifs at h with hlarge
  obtain rfl := Except.ok.inj h
  rw [not_lt, maxClientRequestSize, checksumSize] at hlarge
  dsimp only at hlarge ⊢
  rw [appendU32_eq, appendChecksum_eq]
  refine ⟨length_withChecksum_pos _, ?_, rfl⟩
  rw [length_withChecksum, maxClientFrameSize, checksumSize]
  simp only [List.length_append, ByteCodec.length_digits, List.length_cons, List.length_nil]
  omega

/-! ## Exchanges -/

variable {frame : Bytes} {operation : Operation} {attempt : Attempt} {attempts : List Attempt}

/-- What the client puts on a connection is a part of the frame, from the front. -/
theorem exchange_sent (frame : Bytes) (operation : Operation) (attempt : Attempt) :
    (exchange frame operation attempt).1 <+: prefixed frame := by
  have hwrite := (writeFrame_eq frame attempt.transfers).1
  unfold exchange
  split_ifs
  · exact List.nil_prefix
  · exact List.nil_prefix
  generalize writeFrame frame attempt.transfers = written at hwrite
  obtain ⟨sent, all⟩ := written
  cases all
  · exact hwrite
  · dsimp only
    split <;> exact hwrite

theorem error_of_decodeReply {bytes : Bytes} {error : ExchangeError}
    (h : decodeReply operation bytes = .error error) : error = .invalidReply := by
  cases operation with
  | write =>
    rw [decodeReply] at h
    cases hd : decodeClientReply bytes <;> rw [hd] at h <;> cases h
    rfl
  | read =>
    rw [decodeReply] at h
    cases hd : decodeClientReadReply bytes <;> rw [hd] at h <;> cases h
    rfl
  | status =>
    rw [decodeReply] at h
    cases hd : decodeClientStatusReply bytes <;> rw [hd] at h <;> cases h
    rfl

/-- Only on a lost connection and for an invalid reply does the client not know whether the server
has got the request. -/
theorem exchange_unsent {error : ExchangeError}
    (h : (exchange frame operation attempt).2 = .error error) (hlost : error ≠ .connectionLost)
    (hinvalid : error ≠ .invalidReply) : (exchange frame operation attempt).1 = [] := by
  unfold exchange at h ⊢
  split_ifs at h ⊢
  · rfl
  · rfl
  generalize writeFrame frame attempt.transfers = written at h
  obtain ⟨sent, all⟩ := written
  cases all
  · exact absurd (ExchangeResult.error.inj h).symm hlost
  · dsimp only at h
    split at h
    · exact absurd (ExchangeResult.error.inj h).symm hlost
    · exact absurd (ExchangeResult.error.inj h).symm hinvalid
    · exact absurd (error_of_decodeReply h) hinvalid

/-- Where no byte arrives, the client knows that it has no reply. -/
theorem exchange_of_silence (operation : Operation) (hne : frame ≠ []) (hfits : frame.length ≤ maxClientFrameSize)
    (h : content attempt.arrivals = []) : ∃ error,
      (exchange frame operation attempt).2 = .error error ∧ error ≠ .invalidReply := by
  have hread := readFrame_of_prefix maxClientFrameSize (by decide) hne hfits
    (h ▸ List.nil_prefix : content attempt.arrivals <+: prefixed frame)
  have hnil : content attempt.arrivals ≠ prefixed frame := fun heq => by
    have hlen := congrArg List.length (h.symm.trans heq)
    rw [length_prefixed, List.length_nil] at hlen
    omega
  rw [if_neg hnil] at hread
  unfold exchange
  split_ifs
  · exact ⟨_, rfl, by decide⟩
  · exact ⟨_, rfl, by decide⟩
  generalize writeFrame frame attempt.transfers = written
  obtain ⟨sent, all⟩ := written
  cases all
  · exact ⟨_, rfl, by decide⟩
  · dsimp only
    rw [hread]
    exact ⟨_, rfl, by decide⟩

/-! ## The loop -/

/-- The loop ends with the result of a turn, or with the deadline. -/
theorem runTurns_eq (operation : Operation) (route : Route) (results : List ExchangeResult) :
    runTurns operation route results = showExpired operation ∨ ∃ result ∈ results,
      runTurns operation route results = showResult result operation := by
  induction results generalizing route with
  | nil => exact Or.inl rfl
  | cons result results ih =>
    unfold runTurns
    cases verdict result with
    | finished => exact Or.inr ⟨result, List.mem_cons_self, rfl⟩
    | goOn hint busy =>
      refine (ih (route.turn hint busy)).imp_right ?_
      rintro ⟨result', hmem, heq⟩
      exact ⟨result', List.mem_cons_of_mem _ hmem, heq⟩

/-- What is printed is what comes of one of the attempts. -/
theorem execute_eq (ports : Ports) (frame : Bytes) (operation : Operation)
    (attempts : List Attempt) :
    execute ports (.ok frame) operation attempts = showExpired operation ∨
      ∃ attempt, (attempt ∈ attempts ∨ attempt = {}) ∧ execute ports (.ok frame) operation attempts =
        showResult (exchange frame operation attempt).2 operation := by
  cases ports with
  | single =>
    refine Or.inr ⟨attempts.headD {}, ?_, rfl⟩
    cases attempts with
    | nil => exact Or.inr rfl
    | cons attempt attempts => exact Or.inl List.mem_cons_self
  | cluster =>
    refine (runTurns_eq operation {} _).imp_right ?_
    rintro ⟨result, hmem, heq⟩
    obtain ⟨attempt, hattempt, rfl⟩ := List.mem_map.1 hmem
    exact ⟨attempt, Or.inl hattempt, heq⟩

namespace Service.Run

variable {r : Run} {k port : ℕ} {connection : Option ℕ}
  {connections : List (Option ℕ)} {shown : Shown} {arguments : List Bytes} {random : List Arrival} {ports : Ports} {command : Command}
  {id : RequestId} {key : Bytes} {log : List LogEntry}

/-! ## Attempts -/

/-- What an attempt meets in a run of the servers, and the number of the client there, if a server
has got the request. Bytes arrive from the front, in both directions, and the server that has got
the request may have sent a reply. -/
inductive Meets (r : Run) (frame : Bytes) (operation : Operation) (attempt : Attempt) :
    Option ℕ → Prop
  | missed (h : content attempt.arrivals = []) : Meets r frame operation attempt none
  | served {k : ℕ} {arrivals : List Arrival} {bytes : Bytes}
      (hsent : content arrivals <+: (exchange frame operation attempt).1)
      (hreceived : receiveFrame arrivals = some bytes)
      (hclient : (r.state r.length).clients[k]? = some bytes)
      (hreply : content attempt.arrivals = [] ∨ ∃ reply transfers,
        (k, reply) ∈ (r.state r.length).replies ∧
          content attempt.arrivals <+: (reply.send transfers).1) :
      Meets r frame operation attempt (some k)

/-- A server gets the request that the client has sent. -/
theorem Meets.client (h : r.Meets frame operation attempt (some k)) (hf : operation.Asks frame) :
    (r.state r.length).clients[k]? = some frame := by
  cases h with
  | served hsent hreceived hclient =>
    have hread := readFrame_of_prefix maxRaftFrameSize (by decide) hf.ne_nil
      (hf.fits.trans (by decide)) (hsent.trans (exchange_sent frame operation attempt))
    rw [receiveFrame] at hreceived
    split_ifs at hread
    · rw [hread] at hreceived
      rwa [Option.some.inj hreceived]
    · rw [hread] at hreceived
      cases hreceived

/-- The attempt ends with a reply to the client. -/
structure Replied (r : Run) (frame : Bytes) (operation : Operation) (attempt : Attempt) (k : ℕ)
    (reply : ClientReply) : Prop where
  client : (r.state r.length).clients[k]? = some frame
  sent : (k, reply) ∈ (r.state r.length).replies
  answers : reply.answers operation = true
  result : (exchange frame operation attempt).2 = reply.result

/-- **What comes of an attempt**: the reply of the server, or no reply; and then the client only
says that the server was not reached if it has not got the request. -/
theorem Meets.result (h : r.Meets frame operation attempt connection) (hf : operation.Asks frame) :
    (∃ k reply, connection = some k ∧ r.Replied frame operation attempt k reply) ∨
      ∃ error, (exchange frame operation attempt).2 = .error error ∧ error ≠ .invalidReply ∧
        (error ≠ .connectionLost → connection = none) := by
  have herror : ∀ {error}, (exchange frame operation attempt).2 = .error error →
      error ≠ .invalidReply → error ≠ .connectionLost → connection = none := by
    intro error herror hinvalid hlost
    have hnil := exchange_unsent herror hlost hinvalid
    cases h with
    | missed => rfl
    | served hsent hreceived =>
      rw [hnil, List.prefix_nil] at hsent
      rw [receiveFrame_of_nil hsent] at hreceived
      cases hreceived
  have hsilent : content attempt.arrivals = [] → ∃ error,
      (exchange frame operation attempt).2 = .error error ∧ error ≠ .invalidReply ∧
        (error ≠ .connectionLost → connection = none) := fun hnil => by
    obtain ⟨error, he, hne⟩ := exchange_of_silence operation hf.ne_nil hf.fits hnil
    exact ⟨error, he, hne, herror he hne⟩
  cases connection with
  | none =>
    cases h with
    | missed hnil => exact Or.inr (hsilent hnil)
  | some k =>
    have hclient := h.client hf
    cases h with
    | served _ _ _ hreply =>
      obtain hnil | ⟨reply, transfers, hmem, harrives⟩ := hreply
      · exact Or.inr (hsilent hnil)
      obtain ⟨hkind, hrange, hencodes⟩ := r.replies_readable le_rfl hmem hclient
      have hanswers := ClientReply.answers_of_requestKind
        (Option.some.inj (hkind.symm.trans hf.kind))
      cases hencode : reply.encode with
      | error e =>
        rw [hencode] at hencodes
        cases hencodes
      | ok bytes =>
        obtain ⟨hresult | ⟨error, he, hne⟩, -⟩ :=
          exchange_replies frame hrange hanswers hencode transfers harrives
        · exact Or.inl ⟨k, reply, rfl, hclient, hmem, hanswers, hresult⟩
        · exact Or.inr ⟨error, he, hne, herror he hne⟩

/-- With these exit statuses, what is printed is what a server has replied. -/
theorem execute_cases (hf : operation.Asks frame)
    (hmeets : List.Forall₂ (r.Meets frame operation) attempts connections)
    (hcode : (execute ports (.ok frame) operation attempts).code = 0 ∨
      (execute ports (.ok frame) operation attempts).code = 2) :
    ∃ attempt k reply, some k ∈ connections ∧ r.Replied frame operation attempt k reply ∧
      execute ports (.ok frame) operation attempts = showResult reply.result operation := by
  obtain heq | ⟨attempt, hattempt, heq⟩ := execute_eq ports frame operation attempts
  · rw [heq] at hcode
    rcases hcode with h | h <;> cases h
  rw [heq] at hcode ⊢
  obtain ⟨connection, hmem, h⟩ : ∃ connection,
      (connection ∈ connections ∨ connection = none) ∧
        r.Meets frame operation attempt connection := by
    obtain hmem | rfl := hattempt
    · obtain ⟨i, hi, rfl⟩ := List.getElem_of_mem hmem
      have hi' : i < connections.length := hmeets.length_eq ▸ hi
      exact ⟨connections[i], Or.inl (List.getElem_mem hi'), hmeets.get hi hi'⟩
    · exact ⟨none, Or.inr rfl, .missed rfl⟩
  obtain ⟨k, reply, rfl, hreplied⟩ | ⟨error, he, hne, -⟩ := h.result hf
  · exact ⟨attempt, k, reply, by simpa using hmem, hreplied, by rw [hreplied.result]⟩
  · rw [he] at hcode
    cases error <;> rcases hcode with h | h <;> cases h

/-- What a `Committed` reply says about the entry of the write. -/
theorem Settles.executed {e : LogEntry} (h : r.Settles id e) :
    (∃ i ≤ r.length, ∃ n server, (r.state i).slots n = .up server ∧ e ∈ executed server.applied) ∧
      ∀ i ≤ r.length, ∀ n server, (r.state i).slots n = .up server →
        e.index ≤ server.node.lastApplied →
          (executed server.applied).filter (LogEntry.carries id) = [e] := by
  constructor
  · obtain ⟨i, hi, n, server, hslot, hfind⟩ := h
    refine ⟨i, hi, n, server, hslot, List.mem_of_mem_filter (p := LogEntry.carries id) ?_⟩
    rw [KvStateMachine.filter_executed, hfind]
    exact List.mem_singleton_self e
  · intro i hi n server hslot hle
    rw [KvStateMachine.filter_executed, (h.applied hi hslot hle).2, Option.toList_some]

/-! ## Exit statuses -/

/-- A write that exits with one of these statuses has got a reply. -/
theorem exists_writeReply (hplan : parseArguments arguments random = .write ports command id)
    (hencode : encodeClientRequest ⟨command⟩ = .ok frame)
    (hmeets : List.Forall₂ (r.Meets frame .write) attempts connections)
    (hcode : (Client.main arguments random attempts).code = 0 ∨
      (Client.main arguments random attempts).code = 2) :
    ∃ k reply, (r.state r.length).clients[k]? = some frame ∧
      (k, .write reply) ∈ (r.state r.length).replies ∧
      (Client.main arguments random attempts).out = (showWrite reply).out ∧
      (Client.main arguments random attempts).code = (showWrite reply).code := by
  obtain ⟨hout, hmain⟩ := Client.main_write hplan attempts
  rw [hencode] at hout hmain
  rw [hout, hmain]
  rw [hmain] at hcode
  obtain ⟨attempt, k, reply, -, hreplied, heq⟩ :=
    execute_cases (asks_write hencode) hmeets hcode
  rw [heq]
  have hanswers := hreplied.answers
  cases reply with
  | write reply => exact ⟨k, reply, hreplied.client, hreplied.sent, rfl, rfl⟩
  | read | status => cases hanswers

/-- **What the exit status of a write says.** If it is 0, then a server has executed the command
under the request id, at the term and index that are printed, and every server that has applied that
index has executed just this entry of all entries for the request. This is so for one server and for
three, also where earlier attempts have ended without a reply. If it is 2, then the command has no
encoding, or another command was submitted under the same request id. -/
theorem write_exit (hplan : parseArguments arguments random = .write ports command id)
    (hmeets : ∀ frame, encodeClientRequest ⟨command⟩ = .ok frame →
      List.Forall₂ (r.Meets frame .write) attempts connections)
    (hrun : Client.main arguments random attempts = shown) :
    (shown.code = 0 → ∃ term index, shown.out = ascii "committed term " ++ number term ++
        ascii " index " ++ number index ++ [10] ∧
      (∃ i ≤ r.length, ∃ n server, (r.state i).slots n = .up server ∧
        ⟨index, term, command⟩ ∈ executed server.applied) ∧
      ∀ i ≤ r.length, ∀ n server, (r.state i).slots n = .up server →
        index ≤ server.node.lastApplied →
          (executed server.applied).filter (LogEntry.carries id) = [⟨index, term, command⟩]) ∧
    (shown.code = 2 → (∃ e, encodeClientRequest ⟨command⟩ = .error e) ∨
      ∃ bytes ∈ (r.state r.length).clients, ∃ command',
        decodeClientRequest bytes = .ok ⟨command'⟩ ∧ command'.requestId = some id ∧
          command' ≠ command) := by
  subst hrun
  have hid := requestId_of_parseArguments hplan
  cases hencode : encodeClientRequest ⟨command⟩ with
  | error e =>
    have hcode : (Client.main arguments random attempts).code = 2 := by
      rw [(Client.main_write hplan attempts).2, hencode]
      cases ports <;> rfl
    exact ⟨fun h => absurd (h.symm.trans hcode) (by decide), fun _ => Or.inl ⟨e, rfl⟩⟩
  | ok frame =>
    have hd := decodeClientRequest_eq_ok_iff.2 hencode
    have hreply := exists_writeReply hplan hencode (hmeets frame hencode)
    constructor
    · intro hcode
      obtain ⟨k, reply, hclient, hmem, hout, hshown⟩ := hreply (Or.inl hcode)
      rw [hcode, showWrite] at hshown
      cases hs : reply.status with
      | committed =>
        obtain ⟨hsome, hall⟩ :=
          (r.settles_of_committed le_rfl hmem hs hclient hd hid).executed
        rw [showWrite, hs] at hout
        exact ⟨reply.term, reply.index, hout, hsome, hall⟩
      | notLeader | outcomeUnknown | invalidRequest | busy | internalError =>
        rw [hs] at hshown
        cases hshown
    · intro hcode
      obtain ⟨k, reply, hclient, hmem, hout, hshown⟩ := hreply (Or.inr hcode)
      rw [hcode, showWrite] at hshown
      cases hs : reply.status with
      | invalidRequest =>
        rw [← hid]
        exact Or.inr (r.conflict_of_invalidRequest le_rfl hmem hs hclient hd)
      | committed | notLeader | outcomeUnknown | busy | internalError =>
        rw [hs] at hshown
        cases hshown

/-- `dkv_client 9101 9102 9103 put k v` with a request id. -/
def putArguments : List Bytes := [ascii "9101", ascii "9102", ascii "9103", ascii "put", ascii "k",
  ascii "v", ascii "01010101010101010101010101010101"]

/-- A server sends this reply, and all of it arrives. -/
def replyAttempt (reply : ClientReply) : Attempt where
  arrivals := [.chunk (reply.send []).1]

/-- The attempt of a client whose request has arrived, too. -/
theorem meets_replyAttempt {reply : ClientReply}
    (hread : receiveFrame [.chunk (prefixed frame)] = some frame)
    (hsent : (exchange frame operation (replyAttempt reply)).1 = prefixed frame)
    (hclient : (r.state r.length).clients[k]? = some frame)
    (hreply : (k, reply) ∈ (r.state r.length).replies) :
    r.Meets frame operation (replyAttempt reply) (some k) := by
  have hcontent : ∀ bytes : Bytes, content [.chunk bytes] = bytes := fun bytes => by
    simp [content]
  have hframe : content [.chunk (prefixed frame)] <+:
      (exchange frame operation (replyAttempt reply)).1 := by
    rw [hcontent, hsent]
  refine .served hframe hread hclient (Or.inr ⟨reply, [], hreply, ?_⟩)
  rw [replyAttempt, hcontent]

theorem encode_putFrame : encodeClientRequest ⟨putCommand⟩ = .ok putFrame :=
  decodeClientRequest_eq_ok_iff.1 decode_putFrame

set_option maxRecDepth 20000 in
theorem write_exit_put : ∃ term index, ∀ i ≤ 10, ∀ n server,
    (committedRun.state i).slots n = .up server → index ≤ server.node.lastApplied →
      (executed server.applied).filter (LogEntry.carries ⟨List.replicate 16 1, rfl⟩) =
        [⟨index, term, putCommand⟩] := by
  have hmeets : committedRun.Meets putFrame .write
      (replyAttempt (.write ⟨.committed, 1, 2, 1⟩)) (some 0) :=
    meets_replyAttempt (by decide +kernel) (by decide +kernel) (by decide +kernel)
      (by decide +kernel)
  have hplan : parseArguments putArguments [] = .write (.cluster 9101 9102 9103) putCommand
      ⟨List.replicate 16 1, rfl⟩ := by decide +kernel
  have hcode : (Client.main putArguments []
      [replyAttempt (.write ⟨.committed, 1, 2, 1⟩)]).code = 0 := by decide +kernel
  obtain ⟨term, index, -, -, hall⟩ := (write_exit hplan (fun frame hframe => by
    obtain rfl := Except.ok.inj (encode_putFrame.symm.trans hframe)
    exact .cons hmeets .nil) rfl).1 hcode
  exact ⟨term, index, hall⟩

/-- **A write that one server does not take**, so that the client exits with status 2, 3 or 5, is
never executed for this submission, by whatever server. -/
theorem refused_exit (hplan : parseArguments arguments random = .write (.single port) command id)
    (hencode : encodeClientRequest ⟨command⟩ = .ok frame)
    (hmeets : r.Meets frame .write attempt (some k))
    (hrun : Client.main arguments random [attempt] = shown)
    (hcode : shown.code = 2 ∨ shown.code = 3 ∨ shown.code = 5) :
    ∀ e, r.Carries k e → ∀ i ≤ r.length, ∀ n server, (r.state i).slots n = .up server →
      e ∉ executed server.applied := by
  intro e he i hi n server hslot
  have hshown : shown.code = (showResult (exchange frame .write attempt).2 .write).code := by
    rw [← hrun, (Client.main_write hplan [attempt]).2, hencode]
    rfl
  rw [hshown] at hcode
  obtain ⟨k, reply, hk, hreplied⟩ | ⟨error, herror, hne, hlost⟩ :=
    hmeets.result (asks_write hencode)
  · obtain rfl := Option.some.inj hk
    rw [hreplied.result] at hcode
    have hanswers := hreplied.answers
    cases reply with
    | write reply =>
      refine r.refused_carries le_rfl hreplied.sent ?_ he hi hslot
      cases hs : reply.status with
      | notLeader => exact Or.inl rfl
      | busy => exact Or.inr (Or.inl rfl)
      | invalidRequest => exact Or.inr (Or.inr rfl)
      | committed | outcomeUnknown | internalError =>
        simp [ClientReply.result, showResult, showWrite, hs] at hcode
    | read | status => cases hanswers
  · by_cases hconnection : error = .connectionLost
    · subst hconnection
      rw [herror] at hcode
      rcases hcode with h | h | h <;> cases h
    · cases hlost hconnection

/-- `dkv_client 9102 put k w` with a request id. -/
def singleArguments : List Bytes :=
  [ascii "9102", ascii "put", ascii "k", ascii "w", ascii "01010101010101010101010101010101"]

set_option maxRecDepth 20000 in
/-- The value is in the log, but another one came first under the request id. -/
theorem refused_exit_conflict : conflictRun.Carries 1 ⟨4, 2, otherCommand⟩ ∧
    (Client.main singleArguments []
      [replyAttempt (.write ⟨.invalidRequest, 2, 0, 2⟩)]).out = ascii "invalid request\n" ∧
    ∀ i ≤ 18, ∀ n server, (conflictRun.state i).slots n = .up server →
      ⟨4, 2, otherCommand⟩ ∉ executed server.applied := by
  have hplan : parseArguments singleArguments [] = .write (.single 9102) otherCommand
      ⟨List.replicate 16 1, rfl⟩ := by decide +kernel
  have hencode : encodeClientRequest ⟨otherCommand⟩ = .ok otherFrame := by decide +kernel
  obtain ⟨hclients, hreplies, -⟩ := conflictRun_end
  have hmeets : conflictRun.Meets otherFrame .write
      (replyAttempt (.write ⟨.invalidRequest, 2, 0, 2⟩)) (some 1) := by
    refine meets_replyAttempt (by decide +kernel) (by decide +kernel) ?_ ?_
    · change (conflictRun.state 18).clients[1]? = some otherFrame
      rw [hclients]
      rfl
    · change (1, _) ∈ (conflictRun.state 18).replies
      rw [hreplies]
      decide
  exact ⟨conflictRun_carries, by decide +kernel,
    refused_exit hplan hencode hmeets rfl (by decide +kernel) _ conflictRun_carries⟩

/-- What `show_result` prints for the value of a key. -/
def shownValue : Option Bytes → Bytes
  | some value => value ++ [10]
  | none => ascii "(not found)\n"

/-- **What a read prints.** If it exits with status 0, it prints the value that the key has after
some front of the log that all servers apply. That front was committed when the reply was sent, and
it has all that any server had committed when a server accepted the request. -/
theorem read_exit (hplan : parseArguments arguments random = .read ports key)
    (hencode : encodeClientReadRequest ⟨key⟩ = .ok frame)
    (hmeets : List.Forall₂ (r.Meets frame .read) attempts connections)
    (hrun : Client.main arguments random attempts = shown) (hcode : shown.code = 0)
    (hlog : r.Agreed log) :
    ∃ j n k t reply m, some k ∈ connections ∧ r.Accepts j n k frame ∧
      r.Answers t k (.read reply) ∧ r.known j ≤ m ∧ m ≤ r.known (t + 1) ∧
        shown.out = shownValue ((after (log.take m)).data key) := by
  rw [Client.main_read hplan, hencode] at hrun
  subst hrun
  obtain ⟨attempt, k, reply, hk, hreplied, heq⟩ :=
    execute_cases (asks_read hencode) hmeets (Or.inl hcode)
  rw [heq] at hcode ⊢
  have hanswers := hreplied.answers
  cases reply with
  | read reply =>
    obtain ⟨j, -, n, haccepts⟩ := r.exists_accepts le_rfl hreplied.client
    obtain ⟨t, ht, p, event, faults, before, after', hh, hx⟩ := r.reply_sent le_rfl hreplied.sent
    have hanswer : r.Answers t k (.read reply) := ⟨p, event, faults, before, after', hh, hx⟩
    have htells : Server.Tells reply := by
      cases hs : reply.status with
      | found => exact Or.inl hs
      | notFound => exact Or.inr hs
      | notLeader | busy | invalidRequest | internalError =>
        simp [ClientReply.result, showResult, showRead, showNotLeader, hs] at hcode
    obtain ⟨key', m, -, hd, hbase, hle, hvalue⟩ := hanswer.seen htells haccepts hlog
    obtain rfl : key' = key :=
      ClientReadRequest.mk.inj (Except.ok.inj
        (hd.symm.trans (decodeClientReadRequest_eq_ok_iff.2 hencode)))
    refine ⟨j, n, k, t, reply, m, hk, haccepts, hanswer, hbase, hle, ?_⟩
    rw [← hvalue]
    have hvalid := (r.replies_readable le_rfl hreplied.sent hreplied.client).2.2
    cases hencode' : encodeClientReadReply reply with
    | error e =>
      rw [ClientReply.encode, hencode'] at hvalid
      cases hvalid
    | ok bytes =>
      have hiff := (encodeClientReadReply_eq_ok_iff.1 hencode').1.value
      rcases htells with hs | hs
      · obtain ⟨value, hsome⟩ := Option.isSome_iff_exists.1 (hiff.2 hs)
        simp [ClientReply.result, showResult, showRead, hs, hsome, shownValue]
      · have hnone : reply.value = none := by
          rw [← Option.not_isSome_iff_eq_none, hiff, hs]
          decide
        simp [ClientReply.result, showResult, showRead, hs, hnone, shownValue]
  | write | status => cases hanswers

set_option maxRecDepth 20000 in
theorem read_exit_put : ∃ log, readRun.Agreed log ∧ ∃ j n t reply, readRun.Accepts j n 1 readFrame ∧
    readRun.Answers t 1 (.read reply) ∧ ∃ m, readRun.known j ≤ m ∧
      ascii "v\n" = shownValue ((after (log.take m)).data (ascii "k")) := by
  obtain ⟨log, hlog⟩ := readRun.exists_agreed
  have hmeets : readRun.Meets readFrame .read
      (replyAttempt (.read ⟨.found, 1, 2, 1, some [118]⟩)) (some 1) :=
    meets_replyAttempt (by decide +kernel) (by decide +kernel) (by decide +kernel)
      (by decide +kernel)
  have hplan : parseArguments [ascii "9101", ascii "get", ascii "k"] [] =
      .read (.single 9101) (ascii "k") := by decide +kernel
  have hencode : encodeClientReadRequest ⟨ascii "k"⟩ = .ok readFrame := by decide +kernel
  have hout : (Client.main [ascii "9101", ascii "get", ascii "k"] []
      [replyAttempt (.read ⟨.found, 1, 2, 1, some [118]⟩)]).out = ascii "v\n" := by decide +kernel
  obtain ⟨j, n, k, t, reply, m, hk, haccepts, hanswers, hbase, -, hvalue⟩ :=
    read_exit hplan hencode (.cons hmeets .nil) rfl (by decide +kernel) hlog
  obtain rfl : k = 1 := by simpa using hk
  exact ⟨log, hlog, j, n, t, reply, haccepts, hanswers, m, hbase, hout ▸ hvalue⟩

end Service.Run

end DistributedKV
