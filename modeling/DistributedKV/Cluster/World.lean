import DistributedKV.Foundations.Quorum
import DistributedKV.Foundations.Run
import DistributedKV.Raft.NodeRun

/-!
# A cluster of three nodes

Three nodes and the messages that they have ever sent. A message that has been sent stays
deliverable: delivering it twice is duplication, never delivering it is loss, and delivering it
after later ones is delay and reordering. An action is one call on one node, and may come with
failures of its writes. A process may die between two calls, or in a call: `crash` runs the handler
as far as its writes succeed and then leaves nothing but the disk, so with the right failures it
dies between any two writes.
-/

namespace DistributedKV

/-- Three node ids and the order in which each node lists its peers. -/
structure Cluster where
  members : Finset ℕ
  card_members : members.card = 3
  peerIds : ℕ → Fin 2 → ℕ
  peerIds_mem : ∀ n ∈ members, ∀ i, peerIds n i ∈ members
  peerIds_ne_self : ∀ n ∈ members, ∀ i, peerIds n i ≠ n
  peerIds_ne : ∀ n ∈ members, peerIds n 0 ≠ peerIds n 1

/-- Two of three nodes. -/
abbrev Cluster.quorum (cluster : Cluster) : QuorumSystem ℕ := .majority cluster.members

/-- The cluster of `dkv_node` processes: ids 1, 2 and 3, and peers by increasing id. -/
def serverCluster : Cluster where
  members := {1, 2, 3}
  card_members := rfl
  peerIds n i := if n = 1 then i + 2 else if n = 2 then 2 * i + 1 else i + 1
  peerIds_mem := by decide
  peerIds_ne_self := by decide
  peerIds_ne := by decide

/-- A `RaftEnvelope` on its way to a receiver. -/
structure Envelope where
  sender : ℕ
  receiver : ℕ
  message : RaftMessage
  repliedTo : Option AppendEntries
  deriving DecidableEq

/-- A node's message on the wire: a reply to an append request carries the request. -/
def envelope (n : ℕ) (repliedTo : Option AppendEntries) (m : OutboundRaftMessage) : Envelope :=
  ⟨n, m.peerId, m.message, match m.message with
    | .appendEntriesReply _ => repliedTo
    | _ => none⟩

/-- What reaches a node from outside. -/
inductive Input
  | electionTimeout
  | heartbeatTimeout
  | propose (command : Command)
  | readBarrier
  | deliver (envelope : Envelope)

namespace Input

/-- The call that an input leads to. An append reply without its request is dropped. -/
def call : Input → Option NodeCall
  | electionTimeout => some .electionTimeout
  | heartbeatTimeout => some .heartbeatTimeout
  | propose command => some (.propose command)
  | readBarrier => some .readBarrier
  | deliver envelope =>
    match envelope.message with
    | .requestVote request => some (.requestVote envelope.sender request)
    | .requestVoteReply reply => some (.voteReply envelope.sender reply)
    | .appendEntries request => some (.appendEntries envelope.sender request)
    | .appendEntriesReply reply =>
      envelope.repliedTo.map fun sent => .appendReply envelope.sender sent reply

/-- The request that a reply to this input echoes. -/
def repliedTo : Input → Option AppendEntries
  | deliver envelope =>
    match envelope.message with
    | .appendEntries request => some request
    | _ => none
  | _ => none

end Input

/-- A member of the cluster, running or not. -/
inductive Slot
  | down (disk : Disk)
  | up (node : RaftNode)

def Slot.disk : Slot → Disk
  | down disk => disk
  | up node => node.disk

structure World where
  slots : ℕ → Slot
  sent : List Envelope

inductive Action
  | call (n : ℕ) (input : Input) (faults : Faults)
  | crash (n : ℕ) (input : Input) (faults : Faults)
  | halt (n : ℕ)
  | restart (n : ℕ)

instance : Inhabited Action := ⟨.halt 0⟩

/-- The node that handles an input in the action, whether it outlives the call or not. -/
def Action.handler : Action → Option (ℕ × Input × Faults)
  | call n input faults => some (n, input, faults)
  | crash n input faults => some (n, input, faults)
  | halt _ => none
  | restart _ => none

namespace World

/-- No process runs yet and every data directory is empty. -/
def init : World := ⟨fun _ => .down {}, []⟩

def setSlot (w : World) (n : ℕ) (slot : Slot) : World :=
  { w with slots := Function.update w.slots n slot }

/-- The input can reach the node: a message must have been sent to it. -/
def admits (w : World) (n : ℕ) : Input → Bool
  | .deliver envelope => envelope ∈ w.sent ∧ envelope.receiver = n
  | _ => true

/-- The messages of a result, as they go on the wire. -/
def outgoing (n : ℕ) (repliedTo : Option AppendEntries) : RaftNodeResult → List Envelope
  | .ok actions => actions.messages.map (envelope n repliedTo)
  | .error _ => []

/-- One action; `none` where it is not possible. -/
def next (cluster : Cluster) (w : World) : Action → Option World
  | .call n input faults =>
    match w.slots n, input.call with
    | .up node, some c =>
      if w.admits n input then
        match (node.withFaults faults).call c with
        | (node, result) =>
          some { w.setSlot n (.up node) with sent := w.sent ++ outgoing n input.repliedTo result }
      else none
    | _, _ => none
  | .crash n input faults =>
    match w.slots n, input.call with
    | .up node, some c =>
      if w.admits n input then
        some (w.setSlot n (.down ((node.withFaults faults).call c).1.disk))
      else none
    | _, _ => none
  | .halt n =>
    match w.slots n with
    | .up node => some (w.setSlot n (.down node.disk))
    | .down _ => none
  | .restart n =>
    match w.slots n with
    | .down disk =>
      if n ∈ cluster.members then
        (RaftNode.openFrom n (cluster.peerIds n) disk).map fun node => w.setSlot n (.up node)
      else none
    | .up _ => none

/-- What an action that is possible does. -/
inductive Step (cluster : Cluster) (w : World) : Action → World → Prop
  | call {n : ℕ} {input : Input} (faults : Faults) {node : RaftNode} {c : NodeCall}
      (hslot : w.slots n = .up node) (hc : input.call = some c) (ha : w.admits n input = true) :
      Step cluster w (.call n input faults)
        { w.setSlot n (.up ((node.withFaults faults).call c).1) with
          sent := w.sent ++ outgoing n input.repliedTo ((node.withFaults faults).call c).2 }
  | crash {n : ℕ} {input : Input} (faults : Faults) {node : RaftNode} {c : NodeCall}
      (hslot : w.slots n = .up node) (hc : input.call = some c) (ha : w.admits n input = true) :
      Step cluster w (.crash n input faults)
        (w.setSlot n (.down ((node.withFaults faults).call c).1.disk))
  | halt {n : ℕ} {node : RaftNode} (hslot : w.slots n = .up node) :
      Step cluster w (.halt n) (w.setSlot n (.down node.disk))
  | restart {n : ℕ} {disk : Disk} {node : RaftNode} (hslot : w.slots n = .down disk)
      (hn : n ∈ cluster.members) (ho : RaftNode.openFrom n (cluster.peerIds n) disk = some node) :
      Step cluster w (.restart n) (w.setSlot n (.up node))

theorem step_of_next {cluster : Cluster} {w w' : World} {action : Action}
    (h : w.next cluster action = some w') : Step cluster w action w' := by
  unfold next at h
  cases action with
  | call n input faults =>
    dsimp only at h
    split at h
    · next node c hslot hc =>
      split_ifs at h with ha
      obtain rfl := Option.some.inj h
      exact .call faults hslot hc ha
    · cases h
  | crash n input faults =>
    dsimp only at h
    split at h
    · next node c hslot hc =>
      split_ifs at h with ha
      obtain rfl := Option.some.inj h
      exact .crash faults hslot hc ha
    · cases h
  | halt n =>
    dsimp only at h
    split at h
    · next node hslot =>
      obtain rfl := Option.some.inj h
      exact .halt hslot
    · cases h
  | restart n =>
    dsimp only at h
    split at h
    · next disk hslot =>
      split_ifs at h with hn
      obtain ⟨node, ho, rfl⟩ := Option.map_eq_some_iff.1 h
      exact .restart hslot hn ho
    · cases h

@[simp] theorem setSlot_self (w : World) (n : ℕ) (slot : Slot) :
    (w.setSlot n slot).slots n = slot :=
  Function.update_self ..

theorem setSlot_of_ne (w : World) {n p : ℕ} (hp : p ≠ n) (slot : Slot) :
    (w.setSlot n slot).slots p = w.slots p :=
  Function.update_of_ne hp ..

end World

/-- A run of the cluster from empty data directories. -/
abbrev Cluster.Run (cluster : Cluster) := SystemRun World.init (World.next cluster)

/-- In step `i` of the run, `node` handles a call as node `n`, whether it outlives the call or not.
The failures that its writes will meet are part of `node`. -/
def Cluster.Run.Handles {cluster : Cluster} (r : cluster.Run) (i n : ℕ) (node : RaftNode)
    (c : NodeCall) : Prop :=
  i < r.length ∧ ∃ node₀ input faults, (r.action i).handler = some (n, input, faults) ∧
    (r.state i).slots n = .up node₀ ∧ input.call = some c ∧ node = node₀.withFaults faults

/-- What a process opened on the disk finds at an index of its log. -/
def Disk.entryAt (disk : Disk) (index : ℕ) : Option LogEntry :=
  (PersistentLog.openFrom disk.log).entryAt index

/-- A run in which every write of a call that returns succeeds. -/
def Cluster.Run.Working {cluster : Cluster} (r : cluster.Run) : Prop :=
  ∀ i < r.length, ∀ n input faults, r.action i = .call n input faults → faults = {}

end DistributedKV
