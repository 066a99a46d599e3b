import DistributedKV.Cluster.Sources
import DistributedKV.Server.Answering
import DistributedKV.Server.Sending

/-!
# The cluster of servers

Three servers, the clients that they have accepted, and all that has been sent. As in the cluster
of nodes, what has been sent to a peer stays deliverable, and a process may die between two events
or in one. Seen from outside, each event is one action of the cluster of nodes or none, so a run of
the servers comes with a run of their nodes (`Service.Run.exists_trace`).
-/

namespace DistributedKV

/-- A data directory, with a server or without one. -/
inductive ServerSlot
  | down (disk : Disk)
  | up (server : Server)

namespace Server

variable {server server' : Server} {faults : Faults} {event : Event}

/-- What holds of a server between two events: its invariant, the bound on the console line, and
that it does not go on with a node that has stopped. -/
structure Between (server : Server) : Prop where
  invariant : server.Invariant
  consoleLine : server.consoleLine.length ≤ maxConsoleLine
  running : server.running = true → server.node.stopped = false

/-- A server that goes on has a node that does. -/
theorem Moves.stopped (h : Moves server faults event server') (hinv : server.Invariant)
    (hrunning : server.running = true → server.node.stopped = false)
    (hr : server'.running = true) : server'.node.stopped = false := by
  cases h with
  | idle hn _ _ hsame =>
    rw [hn]
    exact hrunning (hsame hr)
  | @called input c _ _ hn hs =>
    rw [hn]
    by_contra hstop
    obtain ⟨e, he, hfatal⟩ := (hinv.called faults c).fatal (by simpa using hstop)
    rw [(hs.running hr).2 e he] at hfatal
    cases hfatal

end Server

namespace ServerSlot

/-- The node of the server. -/
def slot : ServerSlot → Slot
  | down disk => .down disk
  | up server => .up server.node

def disk : ServerSlot → Disk
  | down disk => disk
  | up server => server.node.disk

end ServerSlot

/-- The servers, the frames of all clients that were accepted, and everything that was sent to
clients and to peers. A client is known by its place among the clients. -/
structure Service where
  slots : ℕ → ServerSlot
  sent : List Envelope := []
  clients : List Bytes := []
  replies : List (ℕ × ClientReply) := []

inductive ServiceAction
  | handle (n : ℕ) (event : Server.Event) (faults : Faults)
  | crash (n : ℕ) (event : Server.Event) (faults : Faults)
  | halt (n : ℕ)
  | restart (n : ℕ)

instance : Inhabited ServiceAction := ⟨.halt 0⟩

/-- The server that meets an event in the action, whether it outlives the event or not. -/
def ServiceAction.handler : ServiceAction → Option (ℕ × Server.Event × Faults)
  | handle n event faults => some (n, event, faults)
  | crash n event faults => some (n, event, faults)
  | halt _ => none
  | restart _ => none

namespace Service

def init : Service := ⟨fun _ => .down {}, [], [], []⟩

def setSlot (w : Service) (n : ℕ) (slot : ServerSlot) : Service :=
  { w with slots := Function.update w.slots n slot }

/-- The event can reach the server: a peer's frame must have been sent to it. -/
def admits (w : Service) (n : ℕ) : Server.Event → Bool
  | .accept (some bytes) =>
    match decodeRaftEnvelope bytes with
    | .ok envelope =>
      ⟨envelope.senderId, n, envelope.message, envelope.repliedTo⟩ ∈ w.sent
    | .error _ => true
  | _ => true

/-- One action; `none` where it is not possible. A process that dies in an event has not answered
anyone. -/
def next (w : Service) : ServiceAction → Option Service
  | .handle n event faults =>
    match w.slots n with
    | .up server =>
      if w.admits n event then
        (server.step w.clients.length faults event).map fun server =>
          { w.setSlot n (.up server) with
            sent := w.sent ++ server.sent
            clients := w.clients ++ event.client.toList
            replies := w.replies ++ server.replies }
      else none
    | .down _ => none
  | .crash n event faults =>
    match w.slots n with
    | .up server =>
      if w.admits n event then
        (server.step w.clients.length faults event).map fun server =>
          { w.setSlot n (.down server.node.disk) with
            clients := w.clients ++ event.client.toList }
      else none
    | .down _ => none
  | .halt n =>
    match w.slots n with
    | .up server => some (w.setSlot n (.down server.node.disk))
    | .down _ => none
  | .restart n =>
    match w.slots n with
    | .down disk =>
      if n ∈ serverCluster.members then
        (RaftNode.openFrom n (serverCluster.peerIds n) disk).map fun node =>
          w.setSlot n (.up { node })
      else none
    | .up _ => none

/-- What an action that is possible does. -/
inductive Step (w : Service) : ServiceAction → Service → Prop
  | handle {n : ℕ} {event : Server.Event} (faults : Faults) {server server' : Server}
      (hslot : w.slots n = .up server) (ha : w.admits n event = true)
      (hstep : server.step w.clients.length faults event = some server') :
      Step w (.handle n event faults)
        { w.setSlot n (.up server') with
          sent := w.sent ++ server'.sent
          clients := w.clients ++ event.client.toList
          replies := w.replies ++ server'.replies }
  | crash {n : ℕ} {event : Server.Event} (faults : Faults) {server server' : Server}
      (hslot : w.slots n = .up server) (ha : w.admits n event = true)
      (hstep : server.step w.clients.length faults event = some server') :
      Step w (.crash n event faults)
        { w.setSlot n (.down server'.node.disk) with
          clients := w.clients ++ event.client.toList }
  | halt {n : ℕ} {server : Server} (hslot : w.slots n = .up server) :
      Step w (.halt n) (w.setSlot n (.down server.node.disk))
  | restart {n : ℕ} {disk : Disk} {node : RaftNode} (hslot : w.slots n = .down disk)
      (hn : n ∈ serverCluster.members)
      (ho : RaftNode.openFrom n (serverCluster.peerIds n) disk = some node) :
      Step w (.restart n) (w.setSlot n (.up { node }))

theorem step_of_next {w w' : Service} {action : ServiceAction} (h : w.next action = some w') :
    Step w action w' := by
  unfold next at h
  cases action with
  | handle n event faults | crash n event faults =>
    dsimp only at h
    split at h
    · next server hslot =>
      split_ifs at h with ha
      obtain ⟨server', hstep, rfl⟩ := Option.map_eq_some_iff.1 h
      constructor <;> assumption
    · cases h
  | halt n =>
    dsimp only at h
    split at h
    · next server hslot =>
      obtain rfl := Option.some.inj h
      exact .halt hslot
    · cases h
  | restart n =>
    dsimp only at h
    split at h
    · next disk hslot =>
      split_ifs at h with hn
      obtain ⟨node, ho, rfl⟩ := Option.map_eq_some_iff.1 h
      exact .restart hslot hn ho
    · cases h

@[simp] theorem setSlot_self (w : Service) (n : ℕ) (slot : ServerSlot) :
    (w.setSlot n slot).slots n = slot :=
  Function.update_self ..

theorem setSlot_of_ne (w : Service) {n p : ℕ} (hp : p ≠ n) (slot : ServerSlot) :
    (w.setSlot n slot).slots p = w.slots p :=
  Function.update_of_ne hp ..

/-- A run of the cluster of servers from empty data directories. -/
abbrev Run := SystemRun init next

/-! ## The cluster of nodes inside -/

/-- The nodes of the servers, and what they have sent. -/
structure Shadows (w : Service) (v : World) : Prop where
  slots : ∀ n, v.slots n = (w.slots n).slot
  sent : ∀ envelope ∈ w.sent, envelope ∈ v.sent
  refines : ∃ s, Refines serverCluster v s

variable {w w' : Service} {v v' : World} {n : ℕ}

theorem shadows_init : Shadows init World.init :=
  ⟨fun _ => rfl, fun _ h => (by cases h), _, refines_init serverCluster⟩

/-- The shadow of an action. -/
theorem Shadows.setSlot (h : Shadows w v) (n : ℕ) (slot : ServerSlot)
    (hslots : v'.slots = (v.setSlot n slot.slot).slots) (hw : w'.slots = (w.setSlot n slot).slots)
    (hsent : ∀ envelope ∈ w'.sent, envelope ∈ v'.sent)
    (hr : ∃ s, Refines serverCluster v' s) : Shadows w' v' where
  slots p := by
    rw [hslots, hw]
    by_cases hp : p = n
    · subst hp
      rw [World.setSlot_self, setSlot_self]
    · rw [World.setSlot_of_ne _ hp, setSlot_of_ne _ hp]
      exact h.slots p
  sent := hsent
  refines := hr

theorem Shadows.up (h : Shadows w v) {server : Server} (hslot : w.slots n = .up server) :
    v.slots n = .up server.node := by
  rw [h.slots, hslot]
  rfl

/-- A running server is that of its slot. -/
theorem Shadows.selfId (h : Shadows w v) {server : Server} (hslot : w.slots n = .up server) :
    server.node.selfId = n := by
  obtain ⟨s, hs⟩ := h.refines
  have hslotOk := hs.slot n
  rw [h.up hslot] at hslotOk
  exact hslotOk.2.selfId

/-- What the node of a server is fed can reach the node. -/
theorem Shadows.admits (h : Shadows w v) {server : Server} (hslot : w.slots n = .up server)
    {event : Server.Event} (ha : w.admits n event = true) {input : Input}
    (hfeeds : server.silent.Feeds event input) : v.admits n input = true := by
  cases hfeeds with
  | heartbeat | election | console | write | read => rfl
  | peer _ hd =>
    have hself : server.node.selfId = n := h.selfId hslot
    change server.silent.node.selfId = n at hself
    simp only [Service.admits, hd, decide_eq_true_eq] at ha
    simp only [World.admits, hself, decide_eq_true_eq]
    exact ⟨h.sent _ ha, trivial⟩

/-- The input of a node comes from the event of its server, and an event that changes the node is
an input of the node. -/
structure Traces (w : Service) (action : ServiceAction) (action' : Action) : Prop where
  source : ∀ n input faults, action'.handler = some (n, input, faults) → ∃ event server,
    action.handler = some (n, event, faults) ∧ w.slots n = .up server ∧
      server.silent.Feeds event input
  call : ∀ n event faults server server', action.handler = some (n, event, faults) →
    w.slots n = .up server → server.step w.clients.length faults event = some server' →
      server'.node ≠ server.node → ∃ input c, action'.handler = some (n, input, faults) ∧
        server.silent.Feeds event input ∧ input.call = some c ∧
          server'.node = ((server.node.withFaults faults).call c).1

/-- An action that leaves the nodes as they are. -/
theorem Traces.of_none {action : ServiceAction} {action' : Action} (h : action'.handler = none)
    (hsame : ∀ n event faults server server', action.handler = some (n, event, faults) →
      w.slots n = .up server → server.step w.clients.length faults event = some server' →
        server'.node = server.node) : Traces w action action' where
  source n input faults hh := by simp [h] at hh
  call n event faults server server' ha hslot hstep hne :=
    absurd (hsame n event faults server server' ha hslot hstep) hne

/-- An event and the input that comes from it. -/
theorem Traces.of_feeds {action : ServiceAction} {action' : Action} {event : Server.Event}
    {faults : Faults} {server server' : Server} {input : Input} {c : NodeCall}
    (ha : action.handler = some (n, event, faults))
    (ha' : action'.handler = some (n, input, faults)) (hslot : w.slots n = .up server)
    (hstep : server.step w.clients.length faults event = some server')
    (hfeeds : server.silent.Feeds event input) (hc : input.call = some c)
    (hn : server'.node = ((server.node.withFaults faults).call c).1) :
    Traces w action action' where
  source p input' faults' hh := by
    obtain ⟨rfl, rfl, rfl⟩ := (by simpa using ha'.symm.trans hh : _ ∧ _ ∧ _)
    exact ⟨event, server, ha, hslot, hfeeds⟩
  call p event' faults' server₁ server₁' hh hslot₁ hstep₁ _ := by
    obtain ⟨rfl, rfl, rfl⟩ := (by simpa using ha.symm.trans hh : _ ∧ _ ∧ _)
    obtain rfl := ServerSlot.up.inj (hslot.symm.trans hslot₁)
    obtain rfl := Option.some.inj (hstep.symm.trans hstep₁)
    exact ⟨input, c, ha', hfeeds, hc, hn⟩

/-- A call of a node that an input can reach is possible. -/
theorem next_call {node : RaftNode} {input : Input} {c : NodeCall} (hslot : v.slots n = .up node)
    (hc : input.call = some c) (ha : v.admits n input = true) (faults : Faults) :
    v.next serverCluster (.call n input faults) =
        some { v.setSlot n (.up ((node.withFaults faults).call c).1) with
          sent := v.sent ++ World.outgoing n input.repliedTo ((node.withFaults faults).call c).2 } ∧
      v.next serverCluster (.crash n input faults) =
        some (v.setSlot n (.down ((node.withFaults faults).call c).1.disk)) := by
  simp [World.next, hslot, hc, ha]

/-- What a server's event is to its node: nothing, or a call, whose messages it sends. -/
theorem Shadows.event (h : Shadows w v) {server server' : Server} {event : Server.Event}
    {faults : Faults} (hslot : w.slots n = .up server) (ha : w.admits n event = true)
    (hstep : server.step w.clients.length faults event = some server') :
    (server'.node = server.node ∧ server'.sent = []) ∨
      ∃ input c, server.silent.Feeds event input ∧ input.call = some c ∧
        v.admits n input = true ∧ server'.node = ((server.node.withFaults faults).call c).1 ∧
        ∀ e ∈ server'.sent, e ∈ World.outgoing n input.repliedTo
          ((server.node.withFaults faults).call c).2 := by
  cases (Server.step_cases hstep).moves with
  | idle hn hsent => exact Or.inl ⟨hn, hsent⟩
  | @called input c hfeeds hc hn hsends =>
    have hadmits := h.admits hslot ha hfeeds
    refine Or.inr ⟨input, c, hfeeds, hc, hadmits, hn, fun e he => ?_⟩
    obtain ⟨s, hs⟩ := h.refines
    obtain ⟨s', -, hs'⟩ := hs.next (next_call (h.up hslot) hc hadmits faults).1
    have hslotOk := hs'.slot n
    change SlotOk serverCluster s' n ((v.setSlot n _).slots n) at hslotOk
    rw [World.setSlot_self] at hslotOk
    have hself : ((server.node.withFaults faults).call c).1.selfId = n := hslotOk.2.selfId
    rcases hsends.sent e he with he | ⟨m, hm, rfl⟩
    · cases he
    · change m ∈ RaftNodeResult.messages ((server.node.withFaults faults).call c).2 at hm
      change envelope ((server.node.withFaults faults).call c).1.selfId input.repliedTo m ∈ _
      rw [hself]
      revert hm
      rcases ((server.node.withFaults faults).call c).2 with e | actions
      · intro hm
        cases hm
      · exact fun hm => List.mem_map_of_mem hm

/-- **One action** of the servers is one action of their nodes, or none. -/
theorem Shadows.next (h : Shadows w v) {action : ServiceAction} (hnext : w.next action = some w') :
    Shadows w' v ∨ ∃ action' v', v.next serverCluster action' = some v' ∧ Shadows w' v' ∧
      Traces w action action' := by
  obtain ⟨s, hs⟩ := h.refines
  have hrefines : ∀ {action' : Action} {v' : World}, v.next serverCluster action' = some v' →
      ∃ s', Refines serverCluster v' s' := fun hv => by
    obtain ⟨s', -, hs'⟩ := hs.next hv
    exact ⟨s', hs'⟩
  cases step_of_next hnext with
  | @handle n event faults server server' hslot ha hstep =>
    rcases h.event hslot ha hstep with ⟨hn, hsent⟩ | ⟨input, c, hfeeds, hc, hadmits, hn, hsent⟩
    · refine Or.inl (h.setSlot n (.up server') ?_ rfl (fun e he => ?_) ⟨s, hs⟩)
      · rw [World.setSlot, ServerSlot.slot, hn, ← h.up hslot, Function.update_eq_self]
      · dsimp only at he
        rw [hsent, List.append_nil] at he
        exact h.sent e he
    · obtain ⟨hv, -⟩ := next_call (h.up hslot) hc hadmits faults
      refine Or.inr ⟨_, _, hv, h.setSlot n (.up server') ?_ rfl (fun e he => ?_)
        (hrefines hv), .of_feeds rfl rfl hslot hstep hfeeds hc hn⟩
      · rw [ServerSlot.slot, hn]
      · rcases List.mem_append.1 he with he | he
        · exact List.mem_append_left _ (h.sent e he)
        · exact List.mem_append_right _ (hsent e he)
  | @crash n event faults server server' hslot ha hstep =>
    rcases h.event hslot ha hstep with ⟨hn, -⟩ | ⟨input, c, hfeeds, hc, hadmits, hn, -⟩
    · have hv : v.next serverCluster (.halt n) = some (v.setSlot n (.down server.node.disk)) := by
        simp [World.next, h.up hslot]
      refine Or.inr ⟨_, _, hv, h.setSlot n (.down server'.node.disk) ?_ rfl h.sent
        (hrefines hv), .of_none rfl fun p event' faults' server₁ server₁' hh hslot₁ hstep₁ => ?_⟩
      · rw [ServerSlot.slot, hn]
      · obtain ⟨rfl, rfl, rfl⟩ := (by simpa [ServiceAction.handler] using hh : _ ∧ _ ∧ _)
        obtain rfl := ServerSlot.up.inj (hslot.symm.trans hslot₁)
        obtain rfl := Option.some.inj (hstep.symm.trans hstep₁)
        exact hn
    · obtain ⟨-, hv⟩ := next_call (h.up hslot) hc hadmits faults
      refine Or.inr ⟨_, _, hv, h.setSlot n (.down server'.node.disk) ?_ rfl h.sent
        (hrefines hv), .of_feeds rfl rfl hslot hstep hfeeds hc hn⟩
      rw [ServerSlot.slot, hn]
  | @halt n server hslot =>
    have hv : v.next serverCluster (.halt n) = some (v.setSlot n (.down server.node.disk)) := by
      simp [World.next, h.up hslot]
    exact Or.inr ⟨_, _, hv, h.setSlot n (.down server.node.disk) rfl rfl h.sent
      (hrefines hv), .of_none rfl fun _ _ _ _ _ hh => by cases hh⟩
  | @restart n disk node hslot hn ho =>
    have hdown : v.slots n = .down disk := by
      rw [h.slots, hslot]
      rfl
    have hv : v.next serverCluster (.restart n) = some (v.setSlot n (.up node)) := by
      simp [World.next, hdown, hn, ho]
    exact Or.inr ⟨_, _, hv, h.setSlot n (.up { node }) rfl rfl h.sent
      (hrefines hv), .of_none rfl fun _ _ _ _ _ hh => by cases hh⟩

/-! ## Runs -/

namespace Run

/-- `r'` is the run of the nodes inside a run of the servers; `f` counts the actions of the
nodes. -/
structure Traced (r : Run) (r' : serverCluster.Run) (f : ℕ → ℕ) : Prop where
  zero : f 0 = 0
  last : f r.length = r'.length
  shadows : ∀ i ≤ r.length, f i ≤ r'.length ∧ Shadows (r.state i) (r'.state (f i))
  step : ∀ i < r.length, f (i + 1) = f i ∨
    f (i + 1) = f i + 1 ∧ Traces (r.state i) (r.action i) (r'.action (f i))

/-- **A run of the servers is a run of their nodes.** -/
theorem exists_trace (r : Run) : ∃ r' f, r.Traced r' f := by
  obtain ⟨r', f, hzero, hlast, hR, hM⟩ := r.projection (R := Shadows) (M := Traces) shadows_init
    fun h hnext => h.next hnext
  exact ⟨r', f, hzero, hlast, hR, hM⟩

namespace Traced

variable {r : Run} {r' : serverCluster.Run} {f : ℕ → ℕ} {i j : ℕ}

theorem mono (h : r.Traced r' f) (hij : i ≤ j) (hj : j ≤ r.length) : f i ≤ f j := by
  induction j, hij using Nat.le_induction with
  | base => exact le_rfl
  | succ j hij ih =>
    have hle := ih (by omega)
    rcases h.step j (by omega) with heq | ⟨heq, -⟩ <;> omega

/-- Each action of the nodes belongs to one of the servers. -/
theorem exists_step (h : r.Traced r' f) (hi : i ≤ r.length) {k : ℕ} (hk : k < f i) :
    ∃ j < i, f j = k ∧ Traces (r.state j) (r.action j) (r'.action k) := by
  induction i with
  | zero =>
    rw [h.zero] at hk
    cases hk
  | succ i ih =>
    by_cases hlt : k < f i
    · obtain ⟨j, hj, hjk⟩ := ih (by omega) hlt
      exact ⟨j, by omega, hjk⟩
    · rcases h.step i hi with heq | ⟨heq, htraces⟩
      · omega
      · obtain rfl : f i = k := by omega
        exact ⟨i, Nat.lt_succ_self i, rfl, htraces⟩

theorem slot (h : r.Traced r' f) (hi : i ≤ r.length) {n : ℕ} {server : Server}
    (hslot : (r.state i).slots n = .up server) : (r'.state (f i)).slots n = .up server.node :=
  (h.shadows i hi).2.up hslot

/-- What holds of all commands that the servers propose holds of all that the nodes are given. -/
theorem proposes (h : r.Traced r' f) {P : Command → Prop}
    (hP : ∀ i < r.length, ∀ n event faults server command,
      (r.action i).handler = some (n, event, faults) → (r.state i).slots n = .up server →
        server.silent.Feeds event (.propose command) → P command) : r'.Proposes P := by
  intro k hk n command faults hh
  rw [← h.last] at hk
  obtain ⟨j, hj, -, htraces⟩ := h.exists_step le_rfl hk
  obtain ⟨event, server, hhandler, hslot, hfeeds⟩ := htraces.source n _ faults hh
  exact hP j hj n event faults server command hhandler hslot hfeeds

end Traced

/-- **What holds of a server between two events**, in every run. -/
theorem server_invariant (r : Run) {i : ℕ} (hi : i ≤ r.length) {n : ℕ} {server : Server}
    (hslot : (r.state i).slots n = .up server) : server.Between := by
  suffices (∃ v, Shadows (r.state i) v) ∧ ∀ n server, (r.state i).slots n = .up server →
      server.Between from this.2 n server hslot
  refine r.invariant (P := fun w => (∃ v, Shadows w v) ∧ ∀ n server, w.slots n = .up server →
    server.Between) ⟨⟨_, shadows_init⟩, fun n server h => by cases h⟩ ?_ i hi
  rintro w action w' ⟨⟨v, hv⟩, hok⟩ hnext
  refine ⟨?_, fun p server hp => ?_⟩
  · rcases hv.next hnext with hv' | ⟨-, v', -, hv', -⟩
    · exact ⟨v, hv'⟩
    · exact ⟨v', hv'⟩
  -- the slot of the action, and the others
  have hset : ∀ {n : ℕ} {slot : ServerSlot}, w'.slots = (w.setSlot n slot).slots →
      (∀ server, slot = .up server → server.Between) → server.Between := by
    intro n slot hslots hserver
    rw [hslots] at hp
    by_cases hpn : p = n
    · subst hpn
      rw [setSlot_self] at hp
      exact hserver server hp
    · rw [setSlot_of_ne _ hpn] at hp
      exact hok p server hp
  cases step_of_next hnext with
  | @handle n event faults server₀ server₁ hslot ha hstep =>
    refine hset rfl fun server hs => ?_
    obtain rfl := ServerSlot.up.inj hs
    obtain ⟨hinv, hconsole, hrunning⟩ := hok n server₀ hslot
    have hend := Server.step_cases hstep
    have hsilent : server₀.silent.Invariant := hinv.of_eq rfl rfl rfl
    refine ⟨hend.invariant hsilent, ?_, hend.moves.stopped hsilent hrunning⟩
    cases hend.moves with
    | idle _ _ _ _ h => exact h hconsole
    | called _ _ _ hs => exact hs.consoleLine hconsole
  | crash => exact hset rfl fun server hs => by cases hs
  | halt => exact hset rfl fun server hs => by cases hs
  | @restart n disk node hslot hn ho =>
    refine hset rfl fun server hs => ?_
    obtain rfl := ServerSlot.up.inj hs
    obtain ⟨s, hr⟩ := hv.refines
    have hdisk := hr.slot n
    rw [hv.slots, hslot] at hdisk
    have hnode : NodeOk serverCluster s n node := .of_openFrom hr.sound hdisk ho
    have hstop : node.stopped = false := by
      obtain rfl := RaftNode.openFrom_eq ho
      rfl
    exact ⟨.start ho (hnode.running hstop).invariant, Nat.zero_le _, fun _ => hstop⟩

end Run

end Service

end DistributedKV
