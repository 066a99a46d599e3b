import Mathlib.Data.Fintype.Basic
import Mathlib.Data.Finset.Card
import DistributedKV.Client.Arguments
import DistributedKV.Wire.Transport

/-!
# The client

The exchange of `dkv_client.cpp` with one server, what it prints, the loop of `run_cluster` over the
three servers, and `main`. The loop follows the hints of the servers where it can, and still comes round:
the servers that it turns to, other than a busy one that it asks again, go in rounds of all three
(`contacted_rounds`).
-/

namespace DistributedKV

open ByteStream
open Server (ascii)

/-! ## One exchange -/

inductive ExchangeError
  | socketUnavailable
  | serverUnavailable
  | connectionLost
  | invalidReply
  deriving DecidableEq

inductive Operation
  | write
  | read
  | status
  deriving DecidableEq

inductive ExchangeResult
  | write (reply : ClientWriteReply)
  | read (reply : ClientReadReply)
  | status (reply : ClientStatusReply)
  | error (error : ExchangeError)
  deriving DecidableEq

/-- What an exchange meets. A deadline that passes is a call that fails. -/
structure Attempt where
  socket : Bool := true
  connected : Bool := true
  transfers : List Transfer := []
  arrivals : List Arrival := []

/-- The end of `exchange`: the reply is decoded as one to the operation. -/
def decodeReply (operation : Operation) (bytes : Bytes) : ExchangeResult :=
  match operation with
  | .status =>
    match decodeClientStatusReply bytes with
    | .error _ => .error .invalidReply
    | .ok reply => .status reply
  | .read =>
    match decodeClientReadReply bytes with
    | .error _ => .error .invalidReply
    | .ok reply => .read reply
  | .write =>
    match decodeClientReply bytes with
    | .error _ => .error .invalidReply
    | .ok reply => .write reply

/-- `exchange`: what is put on the connection, and the result. -/
def exchange (bytes : Bytes) (operation : Operation) (attempt : Attempt) :
    Bytes × ExchangeResult :=
  if attempt.socket = false then ([], .error .socketUnavailable)
  else if attempt.connected = false then ([], .error .serverUnavailable)
  else
    match writeFrame bytes attempt.transfers with
    | (sent, false) => (sent, .error .connectionLost)
    | (sent, true) =>
      match readFrame maxClientFrameSize attempt.arrivals with
      | .error .lost => (sent, .error .connectionLost)
      | .error .badLength => (sent, .error .invalidReply)
      | .ok reply => (sent, decodeReply operation reply)

/-- What a server passes to one of its three senders, as bytes. -/
def ClientReply.encode : ClientReply → Except ClientWireError Bytes
  | .write reply => encodeClientReply reply
  | .read reply => encodeClientReadReply reply
  | .status reply => encodeClientStatusReply reply

/-- The sender of replies of this kind. -/
def ClientReply.send : ClientReply → List Transfer → Bytes × Bool
  | .write reply => sendClientReply reply
  | .read reply => sendClientReadReply reply
  | .status reply => sendClientStatusReply reply

/-- A reply that has a frame is sent as that frame. -/
theorem ClientReply.send_of_encode {reply : ClientReply} {bytes : Bytes}
    (h : reply.encode = .ok bytes) (transfers : List Transfer) :
    reply.send transfers = writeFrame bytes transfers := by
  have hsend : reply.send transfers = sendEncoded reply.encode transfers := by
    cases reply <;> rfl
  rw [hsend, h]
  rfl

/-- The result of an exchange in which the server gives this reply. -/
def ClientReply.result : ClientReply → ExchangeResult
  | .write reply => .write reply
  | .read reply => .read reply
  | .status reply => .status reply

/-- The numbers of the reply are 64-bit numbers. -/
def ClientReply.InRange : ClientReply → Prop
  | .write reply => reply.InRange
  | .read reply => reply.InRange
  | .status reply => reply.InRange

/-- The reply is one to the operation. -/
def ClientReply.answers : ClientReply → Operation → Bool
  | .write _, .write => true
  | .read _, .read => true
  | .status _, .status => true
  | _, _ => false

theorem length_withChecksum_pos (content : Bytes) : withChecksum content ≠ [] := by
  intro h
  have hsize := congrArg List.length h
  rw [length_withChecksum, List.length_nil, checksumSize] at hsize
  omega

theorem ClientReply.encode_fits {reply : ClientReply} {bytes : Bytes}
    (h : reply.encode = .ok bytes) : bytes ≠ [] ∧ bytes.length ≤ maxClientFrameSize := by
  cases reply with
  | write reply =>
    obtain ⟨-, rfl⟩ := encodeClientReply_eq_ok_iff.1 h
    refine ⟨length_withChecksum_pos _, ?_⟩
    rw [length_withChecksum, length_replyContent, maxClientFrameSize, checksumSize]
    simp only [List.length_nil]
    omega
  | read reply =>
    obtain ⟨-, hlen, rfl⟩ := encodeClientReadReply_eq_ok_iff.1 h
    exact ⟨length_withChecksum_pos _, hlen⟩
  | status reply =>
    obtain ⟨-, rfl⟩ := encodeClientStatusReply_eq_ok_iff.1 h
    refine ⟨length_withChecksum_pos _, ?_⟩
    rw [length_withChecksum, length_statusContent, maxClientFrameSize, statusReplySize,
      checksumSize]
    omega

theorem ClientReply.decodeReply_encode {reply : ClientReply} {bytes : Bytes}
    {operation : Operation} (hrange : reply.InRange) (h : reply.encode = .ok bytes)
    (ha : reply.answers operation = true) : decodeReply operation bytes = reply.result := by
  cases reply with
  | write reply =>
    cases operation with
    | write => rw [decodeReply, decodeClientReply_eq_ok_iff.2 ⟨hrange, h⟩]; rfl
    | read | status => cases ha
  | read reply =>
    cases operation with
    | read => rw [decodeReply, decodeClientReadReply_eq_ok_iff.2 ⟨hrange, h⟩]; rfl
    | write | status => cases ha
  | status reply =>
    cases operation with
    | status => rw [decodeReply, decodeClientStatusReply_eq_ok_iff.2 ⟨hrange, h⟩]; rfl
    | write | read => cases ha

/-- **An exchange gives the server's reply or none.** The server encodes a reply to the operation
and sends it, as far as its own calls go; what arrives at the client is a part of that from the
front. Then the client gets this reply, or it reports that a socket, the server or the connection
was lost. It never reports an invalid reply, and it gets the reply if all of it arrives. -/
theorem exchange_replies (frame : Bytes) {reply : ClientReply} {operation : Operation}
    {bytes : Bytes} {attempt : Attempt} (hrange : reply.InRange) (ha : reply.answers operation = true)
    (hencode : reply.encode = .ok bytes) (transfers : List Transfer)
    (harrives : content attempt.arrivals <+: (reply.send transfers).1) :
    ((exchange frame operation attempt).2 = reply.result ∨
      ∃ error, (exchange frame operation attempt).2 = .error error ∧ error ≠ .invalidReply) ∧
    (attempt.socket = true → attempt.connected = true →
      (exchange frame operation attempt).1 = prefixed frame →
      content attempt.arrivals = prefixed bytes →
        (exchange frame operation attempt).2 = reply.result) := by
  obtain ⟨hne, hfits⟩ := reply.encode_fits hencode
  rw [reply.send_of_encode hencode] at harrives
  have hread := readFrame_of_prefix maxClientFrameSize (by decide) hne hfits
    (harrives.trans (writeFrame_eq bytes transfers).1)
  have hwrite := writeFrame_eq frame attempt.transfers
  unfold exchange
  cases hsocket : attempt.socket with
  | false => exact ⟨Or.inr ⟨_, rfl, by decide⟩, by simp⟩
  | true =>
    cases hconnected : attempt.connected with
    | false => exact ⟨Or.inr ⟨_, rfl, by decide⟩, by simp⟩
    | true =>
      rw [if_neg (by decide), if_neg (by decide)]
      generalize writeFrame frame attempt.transfers = written at hwrite
      obtain ⟨sent, all⟩ := written
      cases all with
      | false =>
        refine ⟨Or.inr ⟨_, rfl, by decide⟩, fun _ _ hsent => ?_⟩
        exact absurd (hwrite.2.2 hsent) (by simp)
      | true =>
        dsimp only
        split_ifs at hread with hall
        · rw [hread]
          dsimp only
          rw [reply.decodeReply_encode hrange hencode ha]
          exact ⟨Or.inl rfl, fun _ _ _ _ => rfl⟩
        · rw [hread]
          exact ⟨Or.inr ⟨_, rfl, by decide⟩, fun _ _ _ h => absurd h hall⟩

/-! ## What is printed -/

/-- What a process has printed, and its exit status. -/
structure Shown where
  out : Bytes := []
  err : Bytes := []
  code : ℕ
  deriving DecidableEq

/-- `std::cout << number`. -/
def number (n : ℕ) : Bytes := ascii (toString n)

def showNotLeader (leaderHint : ℕ) : Shown where
  out := ascii "not leader" ++
    (if leaderHint ≠ 0 then ascii "; try node " ++ number leaderHint else []) ++ [10]
  code := 3

def showWrite (reply : ClientWriteReply) : Shown :=
  match reply.status with
  | .committed =>
    { out := ascii "committed term " ++ number reply.term ++ ascii " index " ++
        number reply.index ++ [10], code := 0 }
  | .notLeader => showNotLeader reply.leaderHint
  | .outcomeUnknown =>
    { out := ascii "outcome unknown for term " ++ number reply.term ++ ascii " index " ++
        number reply.index ++ [10], code := 4 }
  | .invalidRequest => { out := ascii "invalid request\n", code := 2 }
  | .busy => { out := ascii "leader busy; retry later\n", code := 5 }
  | .internalError => { out := ascii "server error; outcome unknown\n", code := 4 }

def showRead (reply : ClientReadReply) : Shown :=
  match reply.status with
  | .found => { out := reply.value.getD [] ++ [10], code := 0 }
  | .notFound => { out := ascii "(not found)\n", code := 0 }
  | .notLeader => showNotLeader reply.leaderHint
  | .busy => { out := ascii "leader busy; retry later\n", code := 5 }
  | .invalidRequest => { out := ascii "invalid request\n", code := 2 }
  | .internalError => { out := ascii "read unavailable; retry\n", code := 5 }

def showPeer (peer : ClientPeerStatus) : Bytes :=
  ascii " peer " ++ number peer.id ++
    if peer.nextIndex = 0 then ascii " progress unknown"
    else ascii " next " ++ number peer.nextIndex ++ ascii " match " ++ number peer.matchIndex

def showStatus (reply : ClientStatusReply) : Shown :=
  if reply.status = .invalidRequest then { out := ascii "invalid request\n", code := 2 }
  else
    let role := match reply.role with
      | .leader => "leader"
      | .candidate => "candidate"
      | _ => "follower"
    { out := ascii "node " ++ number reply.nodeId ++ ascii " role " ++ ascii role ++
        ascii " term " ++ number reply.term ++ ascii " leader " ++
        (if reply.knownLeader = 0 then ascii "unknown" else number reply.knownLeader) ++
        ascii " log " ++ number reply.lastIndex ++ ascii " commit " ++ number reply.commitIndex ++
        ascii " applied " ++ number reply.lastApplied ++ showPeer reply.peers.1 ++
        showPeer reply.peers.2 ++ [10]
      code := 0 }

def showError (error : ExchangeError) (operation : Operation) : Shown :=
  match error with
  | .socketUnavailable => { err := ascii "could not open socket\n", code := 5 }
  | .serverUnavailable => { err := ascii "server unavailable\n", code := 5 }
  | .connectionLost =>
    { err := match operation with
        | .write => ascii "outcome unknown: connection closed or timed out\n"
        | .read => ascii "read unavailable; retry\n"
        | .status => ascii "status unavailable; retry\n"
      code := 4 }
  | .invalidReply => { err := ascii "invalid server reply\n", code := 5 }

/-- `show_result`. -/
def showResult (result : ExchangeResult) (operation : Operation) : Shown :=
  match result, operation with
  | .error error, operation => showError error operation
  | .status reply, .status => showStatus reply
  | .read reply, .read => showRead reply
  | .write reply, .write => showWrite reply
  | _, _ => { code := 5 }

def showInvalidRequest : Shown := { err := ascii "invalid or oversized request\n", code := 2 }

/-- `run_single`. -/
def runSingle (encoded : Except ClientWireError Bytes) (operation : Operation)
    (attempt : Attempt) : Shown :=
  match encoded with
  | .error _ => showInvalidRequest
  | .ok bytes => showResult (exchange bytes operation attempt).2 operation

/-! ## All three servers -/

/-- Which server is asked next, and which have been asked in this round. -/
structure Route where
  target : Fin 3 := 0
  visited : Finset (Fin 3) := ∅
  deriving DecidableEq

namespace Route

/-- The start of a turn. -/
def visit (route : Route) : Route := { route with visited := insert route.target route.visited }

/-- The server that a hint names, if it is one. -/
def hinted (hint : ℕ) : Option (Fin 3) :=
  if h : hint - 1 < 3 ∧ 1 ≤ hint then some ⟨hint - 1, h.1⟩ else none

/-- The end of a turn in which the server was not busy. -/
def redirect (route : Route) (hint : ℕ) : Route :=
  match (hinted hint).filter fun port => port ∉ route.visited with
  | some port => { route with target := port }
  | none =>
    match [1, 2].find? fun step => route.target + step ∉ route.visited with
    | some step => { route with target := route.target + step }
    | none => { target := route.target + 1, visited := ∅ }

/-- A turn of the loop, by the hint of the reply and whether the server was busy. -/
def turn (route : Route) (hint : ℕ) (busy : Bool) : Route :=
  if busy then route.visit else route.visit.redirect hint

end Route

/-- What a result means for the loop. -/
inductive Verdict
  | finished
  | goOn (hint : ℕ) (busy : Bool)
  deriving DecidableEq

def verdict (result : ExchangeResult) : Verdict :=
  match result with
  | .read reply =>
    if reply.status = .found ∨ reply.status = .notFound ∨ reply.status = .invalidRequest then
      .finished
    else .goOn reply.leaderHint (reply.status = .busy)
  | .write reply =>
    if reply.status = .committed ∨ reply.status = .invalidRequest then .finished
    else .goOn reply.leaderHint (reply.status = .busy)
  | _ => .goOn 0 false

def showExpired (operation : Operation) : Shown where
  err := match operation with
    | .read => ascii "read unavailable; retry\n"
    | _ => ascii "outcome unknown; retry with the same request id\n"
  code := 4

/-- The loop of `run_cluster`, given what the exchanges come to until the deadline. -/
def runTurns (operation : Operation) : Route → List ExchangeResult → Shown
  | _, [] => showExpired operation
  | route, result :: results =>
    match verdict result with
    | .finished => showResult result operation
    | .goOn hint busy => runTurns operation (route.turn hint busy) results

/-- `run_cluster`; the attempts are those that are begun before the deadline. -/
def runCluster (encoded : Except ClientWireError Bytes) (operation : Operation)
    (attempts : List Attempt) : Shown :=
  match encoded with
  | .error _ => showInvalidRequest
  | .ok bytes =>
    runTurns operation {} (attempts.map fun attempt => (exchange bytes operation attempt).2)

/-- The servers that the loop turns to, without those that were asked again because they were
busy. -/
def contacted : Route → List (ℕ × Bool) → List (Fin 3)
  | _, [] => []
  | route, (hint, busy) :: turns =>
    if busy then contacted (route.turn hint busy) turns
    else route.target :: contacted (route.turn hint busy) turns

namespace Route

/-- The servers that the round has still to ask. -/
def due (route : Route) : Finset (Fin 3) := insert route.target route.visitedᶜ

theorem due_visit (route : Route) : route.visit.due = route.due := by
  ext port
  simp only [due, visit, Finset.mem_insert, Finset.mem_compl, not_or]
  tauto

theorem erase_due (route : Route) : route.due.erase route.target = route.visit.visitedᶜ := by
  ext port
  simp only [due, visit, Finset.mem_insert, Finset.mem_compl, Finset.mem_erase]
  tauto

/-- Every server is the target, the next one or the one after it. -/
theorem eq_add (target port : Fin 3) :
    port = target ∨ port = target + 1 ∨ port = target + 2 := by
  revert target port
  decide

/-- Where the round goes on. -/
theorem due_redirect {route : Route} (h : route.target ∈ route.visited) (hint : ℕ) :
    (route.redirect hint).due =
      if route.visitedᶜ = ∅ then Finset.univ else route.visitedᶜ := by
  have hgoes : ∀ port, port ∉ route.visited → ({ route with target := port } : Route).due =
      if route.visitedᶜ = ∅ then Finset.univ else route.visitedᶜ := by
    intro port hport
    have hmem : port ∈ route.visitedᶜ := Finset.mem_compl.2 hport
    rw [if_neg (Finset.ne_empty_of_mem hmem), due, Finset.insert_eq_of_mem hmem]
  unfold redirect
  split
  · next port hport =>
    exact hgoes port (by simpa using (Option.filter_eq_some_iff.1 hport).2)
  · split
    · next step hstep => exact hgoes _ (by simpa using List.find?_some hstep)
    · next hnone =>
      have hall : route.visitedᶜ = ∅ := by
        rw [Finset.compl_eq_empty_iff, Finset.eq_univ_iff_forall]
        intro port
        rcases eq_add route.target port with rfl | rfl | rfl
        · exact h
        · simpa using List.find?_eq_none.1 hnone 1 (by simp)
        · simpa using List.find?_eq_none.1 hnone 2 (by simp)
      rw [if_pos hall, due]
      simp

end Route

/-- The list goes through the set, and then through all servers again and again. -/
inductive Rounds : Finset (Fin 3) → List (Fin 3) → Prop
  | nil (due : Finset (Fin 3)) : Rounds due []
  | cons {due : Finset (Fin 3)} {port : Fin 3} {ports : List (Fin 3)} (hp : port ∈ due)
      (h : Rounds (if due.erase port = ∅ then Finset.univ else due.erase port) ports) :
      Rounds due (port :: ports)

theorem rounds_contacted (route : Route) (turns : List (ℕ × Bool)) :
    Rounds route.due (contacted route turns) := by
  induction turns generalizing route with
  | nil => exact .nil _
  | cons turn turns ih =>
    obtain ⟨hint, busy⟩ := turn
    have hrest := ih (route.turn hint busy)
    unfold contacted
    cases busy with
    | true =>
      rw [Route.turn, if_pos rfl, Route.due_visit] at hrest
      exact hrest
    | false =>
      have hmem : route.visit.target ∈ route.visit.visited := Finset.mem_insert_self _ _
      rw [Route.turn, if_neg (by decide), Route.due_redirect hmem, ← Route.erase_due] at hrest
      exact .cons (Finset.mem_insert_self _ _) hrest

/-- A whole round asks each server once. -/
theorem Rounds.round {first second third : Fin 3} {ports : List (Fin 3)}
    (h : Rounds Finset.univ (first :: second :: third :: ports)) :
    [first, second, third].Perm [0, 1, 2] ∧ Rounds Finset.univ ports := by
  have hone : ∀ first : Fin 3, (Finset.univ.erase first) ≠ ∅ := by decide
  have htwo : ∀ first second : Fin 3, (Finset.univ.erase first).erase second ≠ ∅ := by decide
  have hthree : ∀ first : Fin 3, ∀ second ∈ Finset.univ.erase first,
      ∀ third ∈ (Finset.univ.erase first).erase second,
        ((Finset.univ.erase first).erase second).erase third = ∅ ∧
          [first, second, third].Perm [0, 1, 2] := by decide
  cases h with
  | cons _ h =>
    rw [if_neg (hone first)] at h
    cases h with
    | cons hsecond h =>
      rw [if_neg (htwo first second)] at h
      cases h with
      | cons hthird h =>
        obtain ⟨hnone, hperm⟩ := hthree first second hsecond third hthird
        rw [if_pos hnone] at h
        exact ⟨hperm, h⟩

/-- **The loop over the servers goes in rounds.** Whatever the servers hint at and however often
they are busy, the first three that it turns to are all three, and so are the next three, and so
on. -/
theorem contacted_rounds (turns : List (ℕ × Bool)) (k : ℕ)
    (hk : 3 * k + 3 ≤ (contacted {} turns).length) :
    (((contacted {} turns).drop (3 * k)).take 3).Perm [0, 1, 2] := by
  have hrounds : Rounds Finset.univ (contacted {} turns) := by
    have h := rounds_contacted {} turns
    rwa [show Route.due {} = Finset.univ from by decide] at h
  generalize contacted {} turns = ports at hk hrounds
  induction k generalizing ports with
  | zero =>
    match ports, hrounds with
    | first :: second :: third :: ports, hrounds => exact hrounds.round.1
    | [], _ | [_], _ | [_, _], _ => simp at hk
  | succ k ih =>
    match ports, hrounds with
    | first :: second :: third :: ports, hrounds =>
      have hlen : 3 * k + 3 ≤ ports.length := by
        simp only [List.length_cons] at hk
        omega
      rw [show 3 * (k + 1) = 3 * k + 1 + 1 + 1 by omega, List.drop_succ_cons, List.drop_succ_cons,
        List.drop_succ_cons]
      exact ih ports hlen hrounds.round.2
    | [], _ | [_], _ | [_, _], _ =>
      simp only [List.length_cons, List.length_nil] at hk
      omega

/-- The first server says that the second one leads. This one is busy once and lost then, and so are
the others. -/
theorem contacted_rounds_lost : (contacted {} [(2, false), (0, true), (0, false), (0, false)]).Perm
    [0, 1, 2] :=
  contacted_rounds [(2, false), (0, true), (0, false), (0, false)] 0 (by decide)

/-! ## `main` -/

def usage : Bytes :=
  ascii "usage: dkv_client PORT [put KEY VALUE [REQUEST_ID] | " ++
    ascii "delete KEY [REQUEST_ID] | get KEY | status]\n" ++
    ascii "       dkv_client PORT1 PORT2 PORT3 [put KEY VALUE [REQUEST_ID] | " ++
    ascii "delete KEY [REQUEST_ID] | get KEY | status]\n"

/-- `execute`. -/
def execute (ports : Ports) (encoded : Except ClientWireError Bytes) (operation : Operation)
    (attempts : List Attempt) : Shown :=
  match ports with
  | .single _ => runSingle encoded operation (attempts.headD {})
  | .cluster .. => runCluster encoded operation attempts

/-- What is printed for one server after another. -/
def Shown.followedBy (first second : Shown) : Shown where
  out := first.out ++ second.out
  err := first.err ++ second.err
  code := if second.code ≠ 0 then 5 else first.code

/-- The end of `main` for a status. -/
def runStatus (ports : Ports) (attempts : List Attempt) : Shown :=
  match ports with
  | .single _ => runSingle (encodeClientStatusRequest {}) .status (attempts.headD {})
  | .cluster .. =>
    [0, 1, 2].foldl (fun shown i => shown.followedBy
      (runSingle (encodeClientStatusRequest {}) .status (attempts.getD i {}))) { code := 0 }

/-- `main`; the arguments are those behind the name of the program. -/
def Client.main (arguments : List Bytes) (random : List Arrival) (attempts : List Attempt) : Shown :=
  match parseArguments arguments random with
  | .usage => { err := usage, code := 2 }
  | .invalidPort => { err := ascii "invalid port\n", code := 2 }
  | .invalidClusterPort => { err := ascii "invalid or duplicate cluster port\n", code := 2 }
  | .invalidRequestId =>
    { err := ascii "invalid request ID (expected 32 hex digits)\n", code := 2 }
  | .noRequestId => { err := ascii "could not generate request ID\n", code := 2 }
  | .write ports command id =>
    let shown := execute ports (encodeClientRequest ⟨command⟩) .write attempts
    { shown with err := ascii "request id " ++ formatRequestId id ++ [10] ++ shown.err }
  | .read ports key => execute ports (encodeClientReadRequest ⟨key⟩) .read attempts
  | .status ports => runStatus ports attempts

/-- The output and the exit status of a write are those of `execute`. -/
theorem Client.main_write {arguments : List Bytes} {random : List Arrival} {ports : Ports}
    {command : Command} {id : RequestId}
    (h : parseArguments arguments random = .write ports command id) (attempts : List Attempt) :
    (Client.main arguments random attempts).out =
        (execute ports (encodeClientRequest ⟨command⟩) .write attempts).out ∧
      (Client.main arguments random attempts).code =
        (execute ports (encodeClientRequest ⟨command⟩) .write attempts).code := by
  rw [Client.main, h]
  exact ⟨rfl, rfl⟩

theorem Client.main_read {arguments : List Bytes} {random : List Arrival} {ports : Ports}
    {key : Bytes} (h : parseArguments arguments random = .read ports key)
    (attempts : List Attempt) : Client.main arguments random attempts =
      execute ports (encodeClientReadRequest ⟨key⟩) .read attempts := by
  rw [Client.main, h]

end DistributedKV
