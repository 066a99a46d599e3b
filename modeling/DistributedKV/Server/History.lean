import Mathlib.Order.Lattice.Nat
import DistributedKV.Cluster.Origins
import DistributedKV.Server.Accounts
import DistributedKV.Server.ReadAnswers
import DistributedKV.Store.KvObject

/-!
# What clients and consoles see of the servers

A run of the servers is a history of operations: the writes and reads that clients submit, the
writes of the consoles, and the replies. Behind it is the log that all servers apply. Each entry in
it that is not that of an election has been submitted in one step (`Service.Run.Traced.author`).
-/

namespace DistributedKV

open Replication (CommittedBy)

/-! ## The console -/

namespace Server

/-- The command of a console line. -/
def lineCommand (line : Bytes) : Option Command :=
  match nextWord line with
  | none => none
  | some (operation, input) =>
    match nextWord input with
    | none => none
    | some (key, input) =>
      if operation = ascii "put" then
        some { type := .put, key, value := input.dropWhile isSpace }
      else if operation = ascii "delete" then some { type := .delete, key }
      else none

/-- The command that the character completes. -/
def typed (server : Server) (character : UInt8) : Option Command :=
  if server.discardingLine = false ∧ character = 10 then lineCommand server.consoleLine else none

/-- The console gives the node no other command. -/
theorem readConsole_node (server : Server) (faults : Faults) (character : UInt8) :
    (server.readConsole faults character).node = server.node ∨
      ∃ command, server.typed character = some command ∧
        (server.readConsole faults character).node =
          ((server.node.withFaults faults).call (.propose command)).1 := by
  unfold readConsole
  split_ifs with hdiscard hend
  · exact Or.inl rfl
  · have htyped : server.typed character = lineCommand server.consoleLine := by
      rw [typed, if_pos ⟨by simpa using hdiscard, hend⟩]
    rw [htyped]
    dsimp only
    unfold handleConsoleLine lineCommand
    cases nextWord server.consoleLine with
    | none => exact Or.inl rfl
    | some word =>
      obtain ⟨operation, input⟩ := word
      dsimp only
      by_cases hquit : operation = ascii "quit"
      · rw [if_pos hquit]
        exact Or.inl rfl
      rw [if_neg hquit]
      cases nextWord input with
      | none => split_ifs <;> exact Or.inl rfl
      | some word =>
        obtain ⟨key, rest⟩ := word
        dsimp only
        by_cases hblock : operation = ascii "block" ∨ operation = ascii "unblock"
        · refine Or.inl ?_
          rw [if_pos hblock]
          split_ifs
          · rfl
          · cases server.parsePeer key <;> rfl
        rw [if_neg hblock]
        split_ifs
        · exact Or.inr ⟨_, rfl, node_process _ _ _⟩
        · exact Or.inr ⟨_, rfl, node_process _ _ _⟩
        · exact Or.inl rfl
  · exact Or.inl rfl
  · exact Or.inl rfl

end Server

/-! ## Histories -/

/-- What a reply tells about the operation. -/
def ClientReply.outcome : ClientReply → Option KvAnswer
  | .write reply => if reply.status = .committed then some .done else none
  | .read reply =>
    if reply.status = .found ∨ reply.status = .notFound then some (.value reply.value) else none
  | .status _ => none

/-- The reply promises that the write will not take effect. -/
def ClientReply.Refuses : ClientReply → Prop
  | .write reply =>
    reply.status = .notLeader ∨ reply.status = .busy ∨ reply.status = .invalidRequest
  | .read _ | .status _ => False

namespace Service.Run

variable {r : Run} {r' : serverCluster.Run} {f : ℕ → ℕ} {g : ℕ → Abstract} {i j k m n p s t : ℕ}
  {server server' : Server} {event : Server.Event} {faults : Faults} {log : List LogEntry}
  {e : LogEntry} {operation : KvOperation}

/-- In step `j`, a client or a console submits the operation to a server. -/
inductive Calls (r : Run) (j : ℕ) : KvOperation → Prop
  | write {n k : ℕ} {bytes : Bytes} {command : Command} (h : r.Accepts j n k bytes)
      (hd : decodeClientRequest bytes = .ok ⟨command⟩) : Calls r j (.write command)
  | read {n k : ℕ} {bytes key : Bytes} (h : r.Accepts j n k bytes)
      (hd : decodeClientReadRequest bytes = .ok ⟨key⟩) : Calls r j (.read key)
  | console {n : ℕ} {character : UInt8} {faults : Faults} {server : Server} {command : Command}
      (hj : j < r.length) (ha : (r.action j).handler = some (n, .console character, faults))
      (hslot : (r.state j).slots n = .up server) (hc : server.typed character = some command) :
      Calls r j (.write command)

/-- What the clients and the consoles see of a run. An operation has the name of the step in which
it is submitted. -/
def history (r : Run) : History ℕ KvOperation KvAnswer where
  Calls := r.Calls
  start j := j
  Returns j answer t := ∃ n k bytes reply, r.Accepts j n k bytes ∧ r.Answers t k reply ∧
    reply.outcome = some answer
  Refuses j := ∃ n k bytes t reply, r.Accepts j n k bytes ∧ r.Answers t k reply ∧ reply.Refuses

/-! ## What is known -/

/-- How much a server has committed, if it is up. -/
def committedAt (r : Run) (i n : ℕ) : ℕ :=
  match (r.state i).slots n with
  | .up server => server.node.commitIndex
  | .down _ => 0

/-- How much some server had committed by a time. -/
def known (r : Run) (t : ℕ) : ℕ :=
  (Finset.range (min t r.length + 1) ×ˢ serverCluster.members).sup fun p => r.committedAt p.1 p.2

theorem known_mono (r : Run) : Monotone r.known := fun s t hst =>
  Finset.sup_mono (Finset.product_subset_product_left
    (Finset.range_mono (by omega : min s r.length + 1 ≤ min t r.length + 1)))

theorem le_known (r : Run) (hi : i ≤ r.length) (hit : i ≤ t)
    (hslot : (r.state i).slots n = .up server) : server.node.commitIndex ≤ r.known t := by
  have hmem : (i, n) ∈ Finset.range (min t r.length + 1) ×ˢ serverCluster.members :=
    Finset.mk_mem_product (Finset.mem_range.2 (by omega)) (r.nodeOk hi hslot).1
  have hle := Finset.le_sup (f := fun p => r.committedAt p.1 p.2) hmem
  simp only [committedAt, hslot] at hle
  exact hle

/-- Who knows it. -/
theorem exists_of_lt_known (h : m < r.known t) : ∃ i n server, i ≤ t ∧ i ≤ r.length ∧
    (r.state i).slots n = .up server ∧ m < server.node.commitIndex := by
  obtain ⟨⟨i, n⟩, hmem, hlt⟩ := Finset.lt_sup_iff.1 h
  have hi := Finset.mem_range.1 (Finset.mem_product.1 hmem).1
  dsimp only [committedAt] at hlt hi
  split at hlt
  · next server hslot => exact ⟨i, n, server, by omega, by omega, hslot, hlt⟩
  · cases hlt

/-- What a server has committed is the front of the agreed log. -/
theorem Agreed.applied (hlog : r.Agreed log) (hi : i ≤ r.length)
    (hslot : (r.state i).slots n = .up server) :
    server.applied = log.take server.node.commitIndex ∧
      server.applied.length = server.node.commitIndex := by
  have happlied : server.applied = log.take server.node.commitIndex := by
    rw [Server.applied, r.lastApplied_eq hi hslot]
    exact (hlog i hi n server hslot).1
  obtain ⟨hstate, t, ht⟩ := r.applied_logInvariant hi hslot
  refine ⟨happlied, ?_⟩
  rw [← r.lastApplied_eq hi hslot, RaftNode.lastApplied, hstate,
    KvStateMachine.lastApplied_replay ht.wellFormed]

/-- The front of the log that is known. -/
theorem Agreed.take (hlog : r.Agreed log) (hm : m ≤ r.known t) :
    m ≤ log.length ∧ ∃ term, LogInvariant (log.take m) term := by
  cases m with
  | zero => exact ⟨Nat.zero_le _, 0, .nil 0⟩
  | succ m =>
    obtain ⟨i, n, server, -, hi, hslot, hlt⟩ := exists_of_lt_known hm
    obtain ⟨happlied, hlength⟩ := hlog.applied hi hslot
    obtain ⟨-, term, hinv⟩ := r.applied_logInvariant hi hslot
    have hle := congrArg List.length happlied
    rw [hlength, List.length_take] at hle
    refine ⟨by omega, term, ?_⟩
    have htake := hinv.take (m + 1)
    rwa [happlied, List.take_take, min_eq_left (by omega)] at htake

/-! ## Who has submitted an entry -/

/-- Each action of the nodes belongs to one of the servers, which makes it. -/
theorem Traced.exists_made (h : r.Traced r' f) (hi : i ≤ r.length) (hk : k < f i) :
    ∃ j < i, f j = k ∧ f (j + 1) = k + 1 ∧
      Traces (r.state j) (r.action j) (r'.action k) := by
  induction i with
  | zero =>
    rw [h.zero] at hk
    cases hk
  | succ i ih =>
    by_cases hlt : k < f i
    · obtain ⟨j, hj, hmade⟩ := ih (by omega) hlt
      exact ⟨j, by omega, hmade⟩
    · rcases h.step i hi with heq | ⟨heq, htraces⟩
      · omega
      · obtain rfl : f i = k := by omega
        exact ⟨i, Nat.lt_succ_self i, rfl, heq, htraces⟩

/-- An event on a server, and the disk that it leaves. -/
theorem event_step (hj : j < r.length) (ha : (r.action j).handler = some (n, event, faults))
    (hslot : (r.state j).slots n = .up server) :
    ∃ server', server.step (r.state j).clients.length faults event = some server' ∧
      ((r.state (j + 1)).slots n).disk = server'.node.disk := by
  have hnext := step_of_next (r.next_state j hj)
  generalize r.state (j + 1) = w at hnext
  generalize r.action j = action at hnext ha
  cases hnext with
  | handle faults' hslot' hadmits hstep | crash faults' hslot' hadmits hstep =>
    obtain ⟨rfl, rfl, rfl⟩ := (by simpa [ServiceAction.handler] using ha : _ ∧ _ ∧ _)
    obtain rfl := ServerSlot.up.inj (hslot.symm.trans hslot')
    refine ⟨_, hstep, ?_⟩
    dsimp only
    rw [setSlot_self]
    rfl
  | halt | restart => cases ha

theorem Traced.disk (h : r.Traced r' f) (hi : i ≤ r.length) (n : ℕ) :
    ((r'.state (f i)).slots n).disk = ((r.state i).slots n).disk := by
  rw [(h.shadows i hi).2.slots n]
  cases (r.state i).slots n <;> rfl

/-- In step `j` of the run of the servers, the nodes inside create the entry. -/
structure Author (r : Run) (r' : serverCluster.Run) (f : ℕ → ℕ) (j : ℕ) (e : LogEntry) :
    Prop where
  lt : j < r.length
  succ : f (j + 1) = f j + 1
  creates : ∃ p, r'.Creates (f j) p e
  calls : e.command = {} ∨ r.Calls j (.write e.command)
  carries : ∀ n k bytes, r.Accepts j n k bytes → r.Carries k e

/-- A step creates one entry. -/
theorem Author.unique {e' : LogEntry} (h : r.Author r' f j e) (h' : r.Author r' f j e') :
    e = e' := by
  obtain ⟨p, hc⟩ := h.creates
  obtain ⟨q, hc'⟩ := h'.creates
  exact (hc.unique hc').2

/-- An entry is created in one step. -/
theorem Author.step_unique (ht : r.Traced r' f) (hg : r'.Ghost g) (h : r.Author r' f i e)
    (h' : r.Author r' f j e) : i = j := by
  obtain ⟨p, hc⟩ := h.creates
  obtain ⟨q, hc'⟩ := h'.creates
  have heq := (hg.creates_unique hc hc' rfl rfl).1
  have hle : ∀ {i j : ℕ}, i < j → j < r.length → f (i + 1) ≤ f j := fun hlt hj =>
    ht.mono hlt hj.le
  have hsucc := h.succ
  have hsucc' := h'.succ
  rcases Nat.lt_trichotomy i j with hlt | rfl | hlt
  · have hmono := hle hlt h'.lt
    omega
  · rfl
  · have hmono := hle hlt h.lt
    omega

/-- **The entry of a submission.** Where the nodes create an entry, they win an election, or a
client or a console submits the command of the entry. -/
theorem Traced.author (h : r.Traced r' f) (hc : r'.Creates k p e) :
    ∃ j, f j = k ∧ r.Author r' f j e := by
  have hcreates := hc
  obtain ⟨node, c, ⟨hk, node₀, input, faults, ha', hup, hcall, rfl⟩, hnode, he⟩ := hcreates
  have hlast := hk
  rw [← h.last] at hlast
  obtain ⟨j, hj, rfl, hsucc, htraces⟩ := h.exists_made le_rfl hlast
  obtain ⟨event, server, ha, hslot, hfeeds⟩ := htraces.source p input faults ha'
  obtain ⟨server', hstep, hdisk'⟩ := event_step hj ha hslot
  -- the entry comes to the disk in this step
  have hnew : e ∈ server'.node.disk.log := by
    rw [← hdisk', ← h.disk hj p, hsucc]
    exact hc.mem_succ
  have hnot : e ∉ server.node.disk.log := by
    intro hold
    have hbefore : ((r.state j).slots p).disk = server.node.disk := by rw [hslot]; rfl
    rw [← hbefore, ← h.disk hj.le p] at hold
    exact hc.not_mem le_rfl hold
  refine ⟨j, rfl, hj, hsucc, ⟨p, hc⟩, ?_, fun n k bytes haccepts => ?_⟩
  · rcases hnode.source with ⟨-, hnoOp, -⟩ | ⟨-, rfl⟩
    · exact Or.inl hnoOp
    refine Or.inr ?_
    obtain rfl := Cluster.Run.propose_of_call hcall
    cases hfeeds with
    | write hb hd =>
      exact .write ⟨hj, rfl, by rw [Server.Event.client, if_pos (Or.inl hb)], faults, ha⟩ hd
    | @console character hid hlen =>
      obtain rfl : server.silent.readConsole faults character = server' := by
        unfold Server.step at hstep
        dsimp only at hstep
        split_ifs at hstep
        exact Option.some.inj hstep
      rcases Server.readConsole_node server.silent faults character with hn | ⟨command, htyped, hn⟩
      · rw [hn] at hnew
        exact absurd hnew hnot
      · rw [hn] at hnew
        obtain rfl := (RaftNode.mem_durable_propose hnew).resolve_left hnot
        exact .console hj ha hslot htyped
  · obtain ⟨faults', ha''⟩ := haccepts.action
    have hevent := ha.symm.trans ha''
    simp only [Option.some.injEq, Prod.mk.injEq] at hevent
    obtain ⟨rfl, rfl, rfl⟩ := hevent
    exact ⟨j, hj, p, _, faults, server, server', ha, hslot, haccepts.number, by
      rw [haccepts.frame]
      rfl, haccepts.number ▸ hstep, Or.inr ⟨hnew, hnot⟩⟩

end Service.Run

end DistributedKV
