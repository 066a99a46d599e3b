import DistributedKV.Raft.NodeReads
import DistributedKV.Server.Steps

/-!
# What a server sends

A step of a server makes at most one call of the node, and what it sends are messages of the
result. `process` makes the server give up in two cases only: the result is a fatal error, or a
message cannot be encoded.
-/

namespace DistributedKV.Server

open RaftNodeResult

variable {server server' : Server} {connection : ℕ} {faults : Faults} {event : Event}
  {result : RaftNodeResult} {repliedTo : Option AppendEntries}

/-- The frame of a message. -/
def frame (server : Server) (repliedTo : Option AppendEntries) (m : OutboundRaftMessage) :
    RaftEnvelope :=
  let frame := envelope server.node.selfId repliedTo m
  ⟨frame.sender, frame.message, frame.repliedTo⟩

/-- What `process` does to the wire and to the flags. -/
structure Sends (server : Server) (result : RaftNodeResult) (repliedTo : Option AppendEntries)
    (server' : Server) : Prop where
  sent : ∀ e ∈ server'.sent, e ∈ server.sent ∨
    ∃ m ∈ messages result, e = envelope server.node.selfId repliedTo m
  fatal : server'.fatal = true → server.fatal = true ∨
    (∃ e, result = .error e ∧ e.isFatal = true) ∨
      ∃ m ∈ messages result, (encodeRaftEnvelope (server.frame repliedTo m)).isOk = false
  running : server'.running = true → server.running = true ∧
    ∀ e, result = .error e → e.isFatal = false
  consoleLine : server.consoleLine.length ≤ maxConsoleLine →
    server'.consoleLine.length ≤ maxConsoleLine

/-- The servers differ in nothing that concerns their node, their peers or their console. -/
structure SameWire (server server' : Server) : Prop where
  node : server'.node = server.node
  sent : server'.sent = server.sent
  fatal : server'.fatal = server.fatal
  running : server'.running = server.running
  consoleLine : server'.consoleLine = server.consoleLine

theorem SameWire.sends (h : SameWire server server')
    (hresult : ∀ e, result = .error e → e.isFatal = false) :
    Sends server result repliedTo server' :=
  ⟨fun _ he => Or.inl (h.sent ▸ he), fun hf => Or.inl (h.fatal ▸ hf),
    fun hr => ⟨h.running ▸ hr, hresult⟩, fun hc => h.consoleLine ▸ hc⟩

theorem Sends.of_sameWire {server₁ : Server} (h : Sends server₁ result repliedTo server')
    (hs : SameWire server server₁) : Sends server result repliedTo server' where
  sent e he := by
    rw [← hs.node, ← hs.sent]
    exact h.sent e he
  fatal hfatal := by
    rw [← hs.fatal]
    simp only [frame] at h ⊢
    rw [← hs.node]
    exact h.fatal hfatal
  running hr := hs.running ▸ h.running hr
  consoleLine hc := h.consoleLine (hs.consoleLine ▸ hc)

theorem sendMessages_sends {actions : RaftNodeActions} (ms : List OutboundRaftMessage)
    (hm : ∀ m ∈ ms, m ∈ actions.messages) :
    Sends server (.ok actions) repliedTo (server.sendMessages repliedTo ms) := by
  induction ms generalizing server with
  | nil => exact SameWire.sends ⟨rfl, rfl, rfl, rfl, rfl⟩ fun _ h => by cases h
  | cons m ms ih =>
    have hrest : ∀ m ∈ ms, m ∈ actions.messages := fun m h => hm m (List.mem_cons_of_mem _ h)
    have hfirst : m ∈ messages (.ok actions) := hm m List.mem_cons_self
    rw [sendMessages]
    split_ifs
    · exact ih hrest
    dsimp only
    split
    · next e he =>
      refine ⟨fun e he => Or.inl he, fun _ => Or.inr (Or.inr ⟨m, hfirst, ?_⟩),
        fun hr => (by cases hr), id⟩
      rw [frame, he]
      rfl
    · have h : Sends { server with
          sent := server.sent ++ [envelope server.node.selfId repliedTo m] } (.ok actions)
          repliedTo _ := ih hrest
      refine ⟨fun e he => ?_, h.fatal, h.running, h.consoleLine⟩
      rcases h.sent e he with he | he
      · rcases List.mem_append.1 he with he | he
        · exact Or.inl he
        · exact Or.inr ⟨m, hfirst, List.mem_singleton.1 he⟩
      · exact Or.inr he

theorem foldl_answers (actions : RaftNodeActions) (server : Server) :
    SameWire server
      (actions.readyReads.foldl answerRead (actions.applied.foldl answerWrite server)) := by
  have hwrites : ∀ entries : List AppliedLogEntry,
      SameWire server (entries.foldl answerWrite server) := by
    intro entries
    induction entries using List.reverseRecOn with
    | nil => exact ⟨rfl, rfl, rfl, rfl, rfl⟩
    | append_singleton entries entry ih =>
      rw [List.foldl_append, List.foldl_cons, List.foldl_nil, answerWrite]
      split
      · exact ih
      · exact ⟨ih.node, ih.sent, ih.fatal, ih.running, ih.consoleLine⟩
  generalize actions.applied = applied
  induction actions.readyReads using List.reverseRecOn with
  | nil => exact hwrites applied
  | append_singleton reads ready ih =>
    rw [List.foldl_append, List.foldl_cons, List.foldl_nil, answerRead]
    split
    · exact ih
    · exact ⟨ih.node, ih.sent, ih.fatal, ih.running, ih.consoleLine⟩

/-- **What `process` sends.** -/
theorem process_sends (server : Server) (result : RaftNodeResult)
    (repliedTo : Option AppendEntries) :
    Sends server result repliedTo (server.process result repliedTo) := by
  have hexpired : SameWire server server.expirePending := ⟨rfl, rfl, rfl, rfl, rfl⟩
  unfold process
  cases result with
  | error e =>
    dsimp only
    split_ifs with hf
    · exact ⟨fun _ he => Or.inl he, fun _ => Or.inr (Or.inl ⟨e, rfl, hf⟩),
        fun hr => (by cases hr), id⟩
    · refine hexpired.sends fun e' he => ?_
      obtain rfl := Except.error.inj he
      simpa using hf
  | ok actions =>
    have hanswers := foldl_answers actions server.expirePending
    dsimp only
    revert hanswers
    generalize actions.readyReads.foldl answerRead
      (actions.applied.foldl answerWrite server.expirePending) = drained
    intro hanswers
    have h : Sends drained (.ok actions) repliedTo _ := sendMessages_sends actions.messages
      fun m h => h
    exact (h.of_sameWire hanswers).of_sameWire hexpired

/-! ## A step -/

/-- What a step does to the node and the wire: nothing, or it calls the node. -/
inductive Moves (server : Server) (faults : Faults) (event : Event) (server' : Server) : Prop
  | idle (hn : server'.node = server.node) (hs : server'.sent = server.sent)
      (hf : server'.fatal = true → server.fatal = true ∨ event = .pollFailure)
      (hr : server'.running = true → server.running = true)
      (hconsole : server.consoleLine.length ≤ maxConsoleLine →
        server'.consoleLine.length ≤ maxConsoleLine)
  | called {input : Input} {c : NodeCall} (hfeeds : server.Feeds event input)
      (hc : input.call = some c) (hn : server'.node = (server.called faults c).node)
      (hs : Sends (server.called faults c) (server.resultOf faults c) input.repliedTo server')

/-- **What a step does to the node and the wire.** -/
theorem StepEnd.moves (h : StepEnd server connection faults event server') :
    Moves server faults event server' := by
  have hasks : ∀ {bytes : Bytes} {c : NodeCall}, server.Asks bytes c → ∃ input,
      server.Feeds (.accept (some bytes)) input ∧ input.call = some c ∧ input.repliedTo = none := by
    rintro bytes c (⟨hb, hd⟩ | ⟨hb⟩)
    · exact ⟨_, .write hb hd, rfl, rfl⟩
    · exact ⟨_, .read hb, rfl, rfl⟩
  cases h with
  | quiet _ hsame =>
    exact .idle hsame.node hsame.sent (fun hf => Or.inl (hsame.fatal ▸ hf)) hsame.running
      hsame.consoleLine
  | @performed _ _ input c hfeeds hc _ hsame =>
    have hsends := process_sends (server.called faults c) (server.resultOf faults c) input.repliedTo
    refine .called hfeeds hc (hsame.node.trans (node_process _ _ _)) ⟨fun e he => ?_, fun hf => ?_,
      fun hr => hsends.running (hsame.running hr),
      fun hconsole => hsame.consoleLine (hsends.consoleLine hconsole)⟩
    · exact hsends.sent e (hsame.sent ▸ he)
    · exact hsends.fatal (hsame.fatal ▸ hf)
  | drained _ hf => exact .idle rfl rfl hf id id
  | answered => exact .idle rfl rfl Or.inl id id
  | joined => exact .idle rfl rfl Or.inl id id
  | refused hc hr =>
    obtain ⟨input, hfeeds, hcall, -⟩ := hasks hc
    refine .called hfeeds hcall rfl (SameWire.sends ⟨rfl, rfl, rfl, rfl, rfl⟩ fun e he => ?_)
    revert hr
    rw [he]
    rintro (- | - | - | - | -) <;> rfl
  | failed hc he hr =>
    obtain ⟨input, hfeeds, hcall, hreplied⟩ := hasks hc
    refine .called hfeeds hcall (node_process _ _ _) ?_
    rw [he, hreplied]
    exact (process_sends _ _ _).of_sameWire ⟨rfl, rfl, rfl, rfl, rfl⟩
  | proposed hc ha hi =>
    obtain ⟨input, hfeeds, hcall, hreplied⟩ := hasks hc
    refine .called hfeeds hcall (node_process _ _ _) ?_
    rw [ha, hreplied]
    exact (process_sends _ _ _).of_sameWire ⟨rfl, rfl, rfl, rfl, rfl⟩
  | reading hc _ ha hi =>
    obtain ⟨input, hfeeds, hcall, hreplied⟩ := hasks hc
    refine .called hfeeds hcall (node_process _ _ _) ?_
    rw [ha, hreplied]
    exact (process_sends _ _ _).of_sameWire ⟨rfl, rfl, rfl, rfl, rfl⟩

end DistributedKV.Server
