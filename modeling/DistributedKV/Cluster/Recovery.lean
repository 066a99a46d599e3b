import DistributedKV.Cluster.Files
import DistributedKV.Cluster.Safety
import DistributedKV.Raft.NodeRounds
import DistributedKV.Store.Decode

/-!
# A majority can go on

Whatever has happened to a cluster, two members whose log files open, that reach each other and can
write to their disks are enough: they can be restarted, elect one of them and bring all of its log
to the other (`BothUp.settles`), and from there on they commit what they are given
(`Cluster.FilesReached.recovers`). The third member may be down or cut off or its log file torn, and
nothing that was under way is needed.
-/

namespace DistributedKV

variable {cluster : Cluster} {Q : Finset ℕ} {n p q k : ℕ} {w w' : World} {a a' b b' : RaftNode}

/-- Every other member is a peer. -/
theorem Cluster.exists_peerIds (cluster : Cluster) (hp : p ∈ cluster.members)
    (hq : q ∈ cluster.members) (hne : q ≠ p) : ∃ i, cluster.peerIds p i = q := by
  by_contra hno
  rw [not_exists] at hno
  have hsub : ({q, p, cluster.peerIds p 0, cluster.peerIds p 1} : Finset ℕ) ⊆ cluster.members := by
    simp only [Finset.insert_subset_iff, Finset.singleton_subset_iff]
    exact ⟨hq, hp, cluster.peerIds_mem p hp 0, cluster.peerIds_mem p hp 1⟩
  have hcard := Finset.card_le_card hsub
  rw [Finset.card_insert_of_notMem, Finset.card_insert_of_notMem, Finset.card_pair
    (cluster.peerIds_ne p hp), cluster.card_members] at hcard
  · omega
  · simpa using ⟨(cluster.peerIds_ne_self p hp 0).symm, (cluster.peerIds_ne_self p hp 1).symm⟩
  · simpa using ⟨hne, Ne.symm (hno 0), Ne.symm (hno 1)⟩

/-! ## Actions of some members -/

/-- The input of a node in an exchange among the members in `Q`: a message of one of them, or the
timer that runs in the role of the node. -/
def Input.Exchanged (Q : Finset ℕ) (node : RaftNode) : Input → Prop
  | electionTimeout => node.role ≠ .leader
  | heartbeatTimeout => node.role = .leader
  | deliver envelope => envelope.sender ∈ Q
  | _ => False

/-- The action is part of an exchange among the members in `Q`, and its call succeeds. -/
inductive World.Exchange (Q : Finset ℕ) (w : World) : Action → Prop
  | call {n : ℕ} {input : Input} {node : RaftNode} {c : NodeCall} {actions : RaftNodeActions}
      (hn : n ∈ Q) (hslot : w.slots n = .up node) (hc : input.call = some c)
      (hi : input.Exchanged Q node) (hw : node.Working) (hok : (node.call c).2 = .ok actions) :
      Exchange Q w (.call n input {})

/-- The action is a call of a member in `Q` in which no write fails, and any message comes from a
member in `Q`. -/
def Action.Among (Q : Finset ℕ) : Action → Prop
  | call n input faults => n ∈ Q ∧ faults = {} ∧
      ∀ envelope, input = .deliver envelope → envelope.sender ∈ Q
  | _ => False

/-- The action is one of the members in `Q` and among them: a call, or that the process ends or
starts. It tears no file. -/
def FileWorld.Within (Q : Finset ℕ) : Action × Option Bytes → Prop
  | (action, none) => action.Among Q ∨ ∃ n ∈ Q, action = .halt n ∨ action = .restart n
  | (_, some _) => False

/-- So many actions of an exchange. -/
abbrev Cluster.Exchanges (cluster : Cluster) (Q : Finset ℕ) : ℕ → World → World → Prop :=
  SystemPath (World.next cluster) (World.Exchange Q)

/-- So many calls among the members in `Q`. -/
abbrev Cluster.Calls (cluster : Cluster) (Q : Finset ℕ) : ℕ → World → World → Prop :=
  SystemPath (World.next cluster) fun _ => Action.Among Q

/-- So many actions among the members in `Q`. -/
abbrev Cluster.Path (cluster : Cluster) (Q : Finset ℕ) : ℕ → FileWorld → FileWorld → Prop :=
  SystemPath (FileWorld.next cluster) fun _ => FileWorld.Within Q

theorem World.Exchange.among {action : Action} (h : w.Exchange Q action) : action.Among Q := by
  cases h with
  | call hn _ _ hi =>
    refine ⟨hn, rfl, fun envelope he => ?_⟩
    subst he
    exact hi

/-- An action that leaves the files whole. -/
theorem FileWorld.next_whole {w : FileWorld} {action : Action} {world : World}
    (ho : w.opens action = true) (hnext : w.world.next cluster action = some world) :
    w.next cluster (action, none) = some ⟨world, w.tails⟩ := by
  rw [FileWorld.next, if_pos ho, hnext]
  rfl

/-- The files have no say in calls. -/
theorem Cluster.Calls.path {w : FileWorld} {world : World}
    (h : cluster.Calls Q k w.world world) : cluster.Path Q k w ⟨world, w.tails⟩ := by
  have hfollowed : ∃ w', cluster.Path Q k w w' ∧ w' = ⟨world, w.tails⟩ := by
    refine h.simulation (R := fun world (w' : FileWorld) => w' = ⟨world, w.tails⟩) rfl ?_
    rintro s action s' _ rfl ha hnext
    refine ⟨(action, none), ⟨s', w.tails⟩, Or.inl ha, FileWorld.next_whole ?_ hnext, rfl⟩
    cases action with
    | call => rfl
    | crash | halt | restart => exact ha.elim
  obtain ⟨w', hpath, rfl⟩ := hfollowed
  exact hpath

theorem Cluster.Path.reached {w w' : FileWorld} (h : cluster.Path Q k w w')
    (hw : cluster.Reached w.world) : cluster.Reached w'.world :=
  h.invariant (I := fun w => cluster.Reached w.world) hw fun hs hnext =>
    hs.next (FileWorld.step_of_next hnext).world_next

/-- A member that is down can be started. -/
theorem World.starts (hn : n ∈ cluster.members) {disk : Disk}
    (hslot : w.slots n = .down disk) :
    ∃ node, w.next cluster (.restart n) = some (w.setSlot n (.up node)) ∧
      RaftNode.openFrom n (cluster.peerIds n) disk = some node := by
  have hids : ¬ (cluster.peerIds n 0 = cluster.peerIds n 1 ∨ cluster.peerIds n 0 = n ∨
      cluster.peerIds n 1 = n) := by
    simp [cluster.peerIds_ne n hn, cluster.peerIds_ne_self n hn]
  have hopen : RaftNode.openFrom n (cluster.peerIds n) disk = some _ := if_neg hids
  refine ⟨_, ?_, hopen⟩
  rw [World.next, hslot]
  dsimp only
  rw [if_pos hn, hopen]
  rfl

/-- A member whose log file opens can be restarted, wherever it stands. -/
theorem FileWorld.reopens (w : FileWorld) (hn : n ∈ cluster.members) (hQ : n ∈ Q)
    (hfile : (PersistentLog.openFile (w.logFile n)).isOk = true) :
    ∃ k ≤ 2, ∃ world node, cluster.Path Q k w ⟨world, w.tails⟩ ∧ world.slots n = .up node ∧
      RaftNode.openFrom n (cluster.peerIds n) (w.world.slots n).disk = some node ∧
      ∀ p ≠ n, world.slots p = w.world.slots p := by
  have hhalt : Within Q (.halt n, none) := Or.inr ⟨n, hQ, Or.inl rfl⟩
  have hrestart : Within Q (.restart n, none) := Or.inr ⟨n, hQ, Or.inr rfl⟩
  have hopens : ∀ world : World, (world.slots n).disk = (w.world.slots n).disk →
      opens ⟨world, w.tails⟩ (.restart n) = true := fun world hdisk => by
    have hsame : logFile ⟨world, w.tails⟩ n = w.logFile n := logFile_congr hdisk rfl
    rw [opens, hsame]
    exact hfile
  cases hslot : w.world.slots n with
  | down disk =>
    obtain ⟨node, hnext, hopen⟩ := World.starts hn hslot
    exact ⟨1, by decide, _, node, .single hrestart (next_whole (hopens _ rfl) hnext),
      World.setSlot_self .., hopen, fun p hp => World.setSlot_of_ne _ hp _⟩
  | up old =>
    have hdown : w.world.next cluster (.halt n) = some (w.world.setSlot n (.down old.disk)) := by
      rw [World.next, hslot]
    obtain ⟨node, hnext, hopen⟩ :=
      World.starts hn (w.world.setSlot_self n (.down old.disk))
    refine ⟨2, le_rfl, (w.world.setSlot n (.down old.disk)).setSlot n (.up node), node,
      .snoc (.single hhalt (next_whole rfl hdown)) hrestart (next_whole (hopens _ ?_) hnext),
      World.setSlot_self .., hopen, fun p hp => ?_⟩
    · rw [hslot, World.setSlot_self, Slot.disk, Slot.disk]
    · rw [World.setSlot_of_ne _ hp, World.setSlot_of_ne _ hp]

/-! ## Two members -/

/-- Two members in `Q` are up. -/
structure BothUp (cluster : Cluster) (Q : Finset ℕ) (p q : ℕ) (w : World) (a b : RaftNode) :
    Prop where
  refines : ∃ s, Refines cluster w s
  ne : p ≠ q
  left_mem : p ∈ Q
  right_mem : q ∈ Q
  left : w.slots p = .up a
  right : w.slots q = .up b

namespace BothUp

theorem symm (h : BothUp cluster Q p q w a b) : BothUp cluster Q q p w b a :=
  ⟨h.refines, h.ne.symm, h.right_mem, h.left_mem, h.right, h.left⟩

theorem ok (h : BothUp cluster Q p q w a b) : ∃ s, Refines cluster w s ∧
    p ∈ cluster.members ∧ NodeOk cluster s p a ∧ q ∈ cluster.members ∧ NodeOk cluster s q b := by
  obtain ⟨s, hs⟩ := h.refines
  have hp := hs.slot p
  have hq := hs.slot q
  rw [h.left] at hp
  rw [h.right] at hq
  exact ⟨s, hs, hp.1, hp.2, hq.1, hq.2⟩

theorem invariant (h : BothUp cluster Q p q w a b) (hs : a.stopped = false) : a.Invariant := by
  obtain ⟨s, -, -, ha, -⟩ := h.ok
  exact (ha.running hs).invariant

theorem selfId (h : BothUp cluster Q p q w a b) : a.selfId = p := by
  obtain ⟨s, -, -, ha, -⟩ := h.ok
  exact ha.selfId

theorem peerIds (h : BothUp cluster Q p q w a b) : a.peerIds = cluster.peerIds p := by
  obtain ⟨s, -, -, ha, -⟩ := h.ok
  exact ha.peerIds

theorem isPeer (h : BothUp cluster Q p q w a b) : a.isPeer q = true := by
  obtain ⟨s, -, hp, -, hq, -⟩ := h.ok
  obtain ⟨i, rfl⟩ := cluster.exists_peerIds hp hq h.ne.symm
  rw [← h.peerIds]
  exact a.isPeer_peerIds i

/-- **A call** of one of two members. -/
theorem call (h : BothUp cluster Q p q w a b) (hw : a.Working) (input : Input) {c : NodeCall}
    {actions : RaftNodeActions} (hc : input.call = some c) (ha : w.admits p input = true)
    (hcall : a.call c = (a', .ok actions)) :
    ∃ w', w.next cluster (.call p input {}) = some w' ∧ BothUp cluster Q p q w' a' b ∧
      w'.sent = w.sent ++ actions.messages.map (envelope p input.repliedTo) := by
  have hnext : w.next cluster (.call p input {}) =
      some { w.setSlot p (.up a') with
        sent := w.sent ++ actions.messages.map (envelope p input.repliedTo) } := by
    rw [World.next, h.left, hc]
    dsimp only
    rw [if_pos ha, hw.withFaults, hcall]
    rfl
  obtain ⟨s, hs⟩ := h.refines
  obtain ⟨s', -, hs'⟩ := hs.next hnext
  exact ⟨_, hnext, ⟨⟨s', hs'⟩, h.ne, h.left_mem, h.right_mem, w.setSlot_self p _,
    (w.setSlot_of_ne h.ne.symm _).trans h.right⟩, rfl⟩

/-- An input of one of two members in an exchange. -/
theorem input (h : BothUp cluster Q p q w a b) (hw : a.Working) {input : Input} {c : NodeCall}
    {actions : RaftNodeActions} (hi : input.Exchanged Q a) (hc : input.call = some c)
    (ha : w.admits p input = true) (hcall : a.call c = (a', .ok actions)) :
    ∃ w', cluster.Exchanges Q 1 w w' ∧ BothUp cluster Q p q w' a' b ∧
      ∀ m ∈ actions.messages, envelope p input.repliedTo m ∈ w'.sent := by
  obtain ⟨w', hnext, h', hsent⟩ := h.call hw input hc ha hcall
  refine ⟨w', .single (.call h.left_mem h.left hc hi hw (congrArg Prod.snd hcall)) hnext, h',
    fun m hm => ?_⟩
  rw [hsent]
  exact List.mem_append_right _ (List.mem_map_of_mem hm)

/-- A message of the one member to the other is delivered. -/
theorem deliver (h : BothUp cluster Q p q w a b) (hw : a.Working) {message : RaftMessage}
    {repliedTo : Option AppendEntries} (hm : ⟨q, p, message, repliedTo⟩ ∈ w.sent) {c : NodeCall}
    {actions : RaftNodeActions} (hc : (Input.deliver ⟨q, p, message, repliedTo⟩).call = some c)
    (hcall : a.call c = (a', .ok actions)) :
    ∃ w', cluster.Exchanges Q 1 w w' ∧ BothUp cluster Q p q w' a' b ∧ ∀ m ∈ actions.messages,
      envelope p (Input.deliver ⟨q, p, message, repliedTo⟩).repliedTo m ∈ w'.sent :=
  h.input hw h.right_mem hc (by simp [World.admits, hm]) hcall

/-! ## An election -/

/-- The election timer of one of two members fires. -/
theorem stands (h : BothUp cluster Q p q w a b) (ha : a.Rests) (ht : a.term < uint64Max) :
    ∃ w' a', cluster.Exchanges Q 1 w w' ∧ BothUp cluster Q p q w' a' b ∧ a.Stands a' ∧
      ⟨p, q, .requestVote ⟨a.term + 1, p, a.lastIndex, a.log.lastTerm⟩, none⟩ ∈ w'.sent := by
  obtain ⟨a', actions, hstand, ha', hmessages⟩ := RaftNode.onElectionTimeout_stands
    (h.invariant ha.running) ha.running ha.working ha.role ht
  have hrole : (Input.electionTimeout).Exchanged Q a := by
    rw [Input.Exchanged, Ne, RaftNode.role_eq_leader_iff]
    rintro ⟨hcached, -⟩
    rw [ha.role] at hcached
    cases hcached
  obtain ⟨w', hpath, h', hsent⟩ := h.input ha.working hrole rfl rfl hstand
  rw [h.selfId] at hmessages
  exact ⟨w', a', hpath, h', ha', hsent ⟨q, _⟩ (hmessages ▸ RaftNode.mem_broadcast h.isPeer _)⟩

/-- One of two members answers the other. -/
theorem answers (h : BothUp cluster Q p q w a b) (hs : a.stopped = false) (hw : a.Working)
    (hidle : a.dropLeadership = a) {term lastIndex lastTerm : ℕ}
    (hm : ⟨q, p, .requestVote ⟨term, q, lastIndex, lastTerm⟩, none⟩ ∈ w.sent) :
    ∃ w' metadata granted, cluster.Exchanges Q 1 w w' ∧
      BothUp cluster Q p q w' { a with metadata } b ∧ metadata.Working ∧
      RaftNode.term { a with metadata } = max a.term term ∧
      ⟨p, q, .requestVoteReply ⟨max a.term term, granted⟩, none⟩ ∈ w'.sent ∧
      (a.term < term → candidateLogIsUpToDate ⟨term, q, lastIndex, lastTerm⟩ a.log = true →
        granted = true) := by
  obtain ⟨metadata, granted, actions, hanswer, hw', hmessages, hterm, hgranted⟩ :=
    RaftNode.onRequestVote_answers hs hw hidle ⟨term, q, lastIndex, lastTerm⟩ h.isPeer
  rw [hterm] at hmessages
  obtain ⟨w', hpath, h', hsent⟩ := h.deliver hw hm rfl hanswer
  exact ⟨w', metadata, granted, hpath, h', hw', hterm,
    hsent ⟨q, _⟩ (hmessages ▸ List.mem_singleton_self _), hgranted⟩

end BothUp

/-- The node `a` has become `a'`, a leader of term `T` whose log ends with the no-op of the term and
who knows nothing of the log of its peer at position `i`. This was `b`, and is `b'` in that term. -/
structure Elected (i : Fin 2) (T : ℕ) (a b a' : RaftNode) (leader : RaftLeaderReplication)
    (b' : RaftNode) : Prop where
  heads : a'.Heads i leader
  progress : (leader.peers i).progress = ⟨a.lastIndex + 1, 0⟩
  working : a'.Working
  packed : a'.log.Packed
  log : a'.log.log = a.log.log ++ [⟨a.lastIndex + 1, T, {}⟩]
  term : a'.term = T
  voterRunning : b'.stopped = false
  voterWorking : b'.Working
  voterLog : b'.log = b.log
  voterCommit : b'.commitIndex = b.commitIndex
  voterTerm : b'.term = T
  older : ∀ e ∈ b.log.log, e.term < T

/-- **An election**: of two members that have been opened, the one whose log is up to date for the
other is elected. The other stands first, so that its term does not stop the election. -/
theorem BothUp.elects (h : BothUp cluster Q p q w a b) (ha : a.Rests) (hb : b.Rests) {i : Fin 2}
    (hi : cluster.peerIds p i = q)
    (hup : ∀ term n, candidateLogIsUpToDate ⟨term, n, a.log.lastIndex, a.log.lastTerm⟩ b.log = true)
    (hta : a.term < uint64Max) (htb : b.term + 1 < uint64Max) (hlast : a.lastIndex + 1 < uint64Max)
    (hroom : ∀ T ≠ 0,
      a.log.fileSize + PersistentLog.recordSize ⟨a.lastIndex + 1, T, {}⟩ ≤ offMax) :
    ∃ T w' a' leader b', T ≤ max a.term (b.term + 1) + 1 ∧ cluster.Exchanges Q 5 w w' ∧
      BothUp cluster Q p q w' a' b' ∧ Elected i T a b a' leader b' := by
  -- the member with the vote stands
  obtain ⟨w₁, b₁, hpath₁, h₁, hb₁, hrequest₁⟩ := h.symm.stands hb (by omega)
  -- the other member learns of the term
  obtain ⟨w₂, metadata₂, -, hpath₂, h₂, hw₂, hterm₂, -⟩ :=
    h₁.symm.answers ha.running ha.working ha.idle hrequest₁
  have ha₂ := ha.setMetadata hw₂
  have hlog₂ : RaftNode.log { a with metadata := metadata₂ } = a.log := rfl
  generalize ({ a with metadata := metadata₂ } : RaftNode) = a₂ at h₂ ha₂ hlog₂ hterm₂
  have hlast₂ : a₂.lastIndex = a.lastIndex := congrArg PersistentLog.lastIndex hlog₂
  -- and stands in the next one
  obtain ⟨w₃, a₃, hpath₃, h₃, ha₃, hrequest₃⟩ :=
    h₂.stands ha₂ (by rw [hterm₂]; exact max_lt hta htb)
  have hterm₃ := ha₃.term
  have helectionTerm₃ := ha₃.electionTerm
  generalize hT : max a.term (b.term + 1) + 1 = T
  rw [hlast₂, hlog₂, hterm₂, hT] at hrequest₃
  rw [hterm₂, hT] at hterm₃ helectionTerm₃
  -- the member with the vote gives it to the candidate
  obtain ⟨w₄, metadata₄, granted, hpath₄, h₄, hw₄, hterm₄, hreply, hgranted⟩ :=
    h₃.symm.answers hb₁.running hb₁.working hb₁.idle hrequest₃
  have hlater : b₁.term < T := by
    rw [hb₁.term]
    omega
  obtain rfl := hgranted hlater (by rw [hb₁.log]; exact hup _ _)
  rw [max_eq_right hlater.le] at hterm₄ hreply
  -- the candidate wins
  have hlog₃ : a₃.log = a.log := ha₃.log.trans hlog₂
  have hlast₃ : a₃.lastIndex = a.lastIndex := congrArg PersistentLog.lastIndex hlog₃
  have hsender : a₃.peerIds i = q := by rw [h₃.peerIds, hi]
  have hvote₃ := ha₃.vote
  rw [h₂.selfId, ← h₃.selfId] at hvote₃
  obtain ⟨a₅, leader, actions₅, hwins, hheads, hprogress, hw₅, hpacked, hlog, hterm₅⟩ :=
    RaftNode.onVoteReply_wins (h₃.invariant ha₃.running) ha₃.running ha₃.working
      (hlog₃ ▸ ha.packed) ha₃.role (helectionTerm₃.trans hterm₃.symm) hvote₃ ha₃.replied i
      (hlast₃ ▸ hlast) (by rw [hlog₃, hlast₃, hterm₃]; exact hroom T (by omega))
  rw [hterm₃, hsender] at hwins
  rw [hlast₃] at hprogress
  rw [hlog₃, hlast₃, hterm₃] at hlog
  obtain ⟨w₅, hpath₅, h₅, -⟩ := h₄.symm.deliver ha₃.working hreply rfl hwins
  refine ⟨T, w₅, a₅, leader, _, le_rfl, (((hpath₁.trans hpath₂).trans hpath₃).trans hpath₄).trans
    hpath₅, h₅, hheads, hprogress, hw₅, hpacked, hlog, hterm₅.trans hterm₃, hb₁.running,
    ⟨hw₄, hb₁.working.log⟩, hb₁.log, hb₁.commitIndex, hterm₄, fun e he => ?_⟩
  have hold := (h.symm.invariant hb.running).log.term_le e he
  omega

/-! ## A command -/

/-- Whether an entry can be encoded and how long its record is depends on its command only. -/
theorem LogEntry.Encodable.move {index term index' term' : ℕ} {command : Command}
    (h : (LogEntry.mk index term command).Encodable) (hi : index' ≠ 0) (ht : term' ≠ 0) :
    (LogEntry.mk index' term' command).Encodable ∧
      PersistentLog.recordSize ⟨index', term', command⟩ =
        PersistentLog.recordSize ⟨index, term, command⟩ := by
  obtain ⟨record, hrecord⟩ := h.exists_bytes
  obtain ⟨-, -, commandBytes, hcommand, hfits, -⟩ := encodeLogEntry_eq_ok_iff.1 hrecord
  have hmoved : encodeLogEntry ⟨index', term', command⟩ = .ok _ :=
    encodeLogEntry_eq_ok_iff.2 ⟨hi, ht, commandBytes, hcommand, hfits, rfl⟩
  refine ⟨.of_eq_ok hmoved, ?_⟩
  rw [PersistentLog.recordSize_eq hmoved, PersistentLog.recordSize_eq hrecord,
    length_encodeLogEntry hmoved, length_encodeLogEntry hrecord]

/-- All no-ops take up the same room. -/
theorem PersistentLog.recordSize_noOp {index term : ℕ} (hi : index ≠ 0) (ht : term ≠ 0) :
    recordSize ⟨index, term, {}⟩ = recordSize ⟨1, 1, {}⟩ :=
  ((encodable_noOp one_ne_zero one_ne_zero).move hi ht).2

/-- The logs of two members match. -/
theorem BothUp.log_matching (h : BothUp cluster Q p q w a b) (ha : a.stopped = false)
    (hb : b.stopped = false) {j : ℕ} {x e : LogEntry} (hx : b.log.log[j]? = some x)
    (he : a.log.log[j]? = some e) (hterm : x.term = e.term) :
    b.log.log.take (j + 1) = a.log.log.take (j + 1) := by
  obtain ⟨s, hs, -, hoka, -, hokb⟩ := h.ok
  have hla := ((hoka.running ha).facts hoka.disk).2
  have hlb := ((hokb.running hb).facts hokb.disk).2
  exact Replication.Invariant.log_matching (hlb ▸ hs.sound.invariant.log_backed q)
    (hla ▸ hs.sound.invariant.log_backed p) hx he hterm

/-- The new leader has to bring its log to its peer. -/
theorem BothUp.pair {leader : RaftLeaderReplication} {i : Fin 2} {T : ℕ} {a₀ b₀ : RaftNode}
    (h : BothUp cluster Q p q w a b) (he : Elected i T a₀ b₀ a leader b)
    (hb : b₀.log.Packed) (hcommit : b₀.commitIndex = 0) (hlast : a₀.lastIndex + 1 ≤ uint64Max)
    (hroom : (a₀.log.log.map PersistentLog.recordSize).sum +
      (b₀.log.log.map PersistentLog.recordSize).sum +
        PersistentLog.recordSize ⟨1, 1, {}⟩ ≤ offMax) :
    RaftNode.Pair i a leader b ∧
      RaftNode.gap a.lastIndex (leader.peers i).progress = 2 * a₀.lastIndex + 1 := by
  have hlastIndex : a.lastIndex = a₀.lastIndex + 1 := PersistentLog.lastIndex_of_append he.log
  have hnoOp : ⟨a₀.lastIndex + 1, T, {}⟩ ∈ a.log.log := by
    rw [he.log]
    exact List.mem_append_right _ (List.mem_singleton_self _)
  have hT : T ≠ 0 := (he.heads.invariant.log.encodable _ hnoOp).fields.2.1
  have hsize : PersistentLog.recordSize ⟨a₀.lastIndex + 1, T, {}⟩ =
      PersistentLog.recordSize ⟨1, 1, {}⟩ :=
    PersistentLog.recordSize_noOp (Nat.succ_ne_zero _) hT
  have hvoter := h.symm.invariant he.voterRunning
  have hold : b.commitIndex = 0 := he.voterCommit.trans hcommit
  refine ⟨⟨he.heads, he.working, ?_, by omega, ?_, ?_⟩, ?_⟩
  · rw [he.progress, he.term]
    refine ⟨hvoter, he.voterRunning, he.voterWorking, he.voterTerm, ?_⟩
    rw [hold]
    refine ⟨he.voterWorking.log, he.voterLog ▸ hb, hvoter.log.index, rfl,
      h.log_matching he.heads.running he.voterRunning, Nat.zero_le _, rfl, Or.inr ?_, ?_⟩
    · rw [he.voterLog]
      exact he.older
    · rw [he.voterLog, List.drop_zero, he.log, List.map_append, List.sum_append,
        List.map_singleton, List.sum_singleton, hsize]
      omega
  · refine ⟨⟨a₀.lastIndex + 1, T, {}⟩, ?_, he.term.symm⟩
    rw [he.log]
    simp
  · rw [he.progress]
    intro h0
    dsimp only at h0
    omega
  · rw [he.progress, RaftNode.gap]
    dsimp only
    omega

/-! ## Bringing the log to the peer -/

/-- The leader's gap to its peer is zero when it knows that the peer has all of its entries. -/
theorem RaftNode.Heads.gap_eq_zero_iff {leader : RaftLeaderReplication} {i : Fin 2}
    (h : a.Heads i leader) : RaftNode.gap a.lastIndex (leader.peers i).progress = 0 ↔
      (leader.peers i).progress.matchIndex = a.lastIndex := by
  have hlt := (h.bounds.peer i).match_lt
  have hle := (h.bounds.peer i).next_le
  rw [RaftNode.gap]
  omega

/-- A round, as part of an exchange. -/
theorem BothUp.round (h : BothUp cluster Q p q w a b) {i : Fin 2} (hi : cluster.peerIds p i = q)
    {leader : RaftLeaderReplication} (hpair : RaftNode.Pair i a leader b) :
    ∃ w' a' leader' b', cluster.Exchanges Q 3 w w' ∧ BothUp cluster Q p q w' a' b' ∧
      RaftNode.Pair i a' leader' b' ∧ RaftNode.Gains i a leader a' leader' b' := by
  obtain ⟨-, hrole, -⟩ := hpair.heads.invariant.leader_facts hpair.heads.leads
  obtain ⟨a', leader', b', hround, hpair', hgains⟩ := hpair.round (h.selfId ▸ h.symm.isPeer)
  obtain ⟨sending, hsending, request, reply, _, _, _, hsend, hrequest, hanswer, hreply, hlearn⟩ :=
    hround
  have hpeer : a.peerIds i = q := by rw [h.peerIds, hi]
  rw [hpeer] at hrequest hlearn
  rw [h.selfId] at hanswer hreply
  have htimer : (Input.heartbeatTimeout).Exchanged Q a := hrole
  obtain ⟨w₁, hpath₁, h₁, hsent₁⟩ := h.input hpair.working htimer rfl rfl hsend
  obtain ⟨w₂, hpath₂, h₂, hsent₂⟩ :=
    h₁.symm.deliver hpair.joins.working (hsent₁ _ hrequest) rfl hanswer
  obtain ⟨w₃, hpath₃, h₃, -⟩ := h₂.symm.deliver hsending (hsent₂ _ hreply) rfl hlearn
  exact ⟨w₃, a', leader', b', (hpath₁.trans hpath₂).trans hpath₃, h₃, hpair', hgains⟩

/-- **Settled**: `a` leads, it and its peer `b` have the same log and have committed all of it, and
nothing is on its way. -/
structure Settled (cluster : Cluster) (Q : Finset ℕ) (p q : ℕ) (i : Fin 2) (w : World)
    (a : RaftNode) (leader : RaftLeaderReplication) (b : RaftNode) : Prop where
  up : BothUp cluster Q p q w a b
  pair : RaftNode.Pair i a leader b
  all : (leader.peers i).progress.matchIndex = a.lastIndex
  pending : (leader.peers i).pending = none
  committed : a.lastIndex ≤ b.commitIndex
  knownLeader : b.knownLeader = some p

/-- **The rounds**: each of them lowers the gap, and one more commits the log at the peer. -/
theorem BothUp.rounds {i : Fin 2} (hi : cluster.peerIds p i = q) {g : ℕ} :
    ∀ {w : World} {a b : RaftNode} {leader : RaftLeaderReplication},
      BothUp cluster Q p q w a b → RaftNode.Pair i a leader b →
      RaftNode.gap a.lastIndex (leader.peers i).progress ≤ g →
      ∃ k w' a' leader' b', k ≤ 3 * (g + 1) ∧ cluster.Exchanges Q k w w' ∧
        Settled cluster Q p q i w' a' leader' b' ∧ a'.log = a.log ∧ a'.metadata = a.metadata := by
  induction g with
  | zero =>
    intro w a b leader h hpair hgap
    obtain ⟨w', a', leader', b', hpath, h', hpair', hgains⟩ := h.round hi hpair
    have hmatch := hpair.heads.gap_eq_zero_iff.1 (Nat.le_zero.1 hgap)
    have hlast : a'.lastIndex = a.lastIndex := congrArg PersistentLog.lastIndex hgains.log
    obtain ⟨hmatch', hnone, hcommitted⟩ := hgains.committed hmatch
    exact ⟨3, w', a', leader', b', le_rfl, hpath, ⟨h', hpair', hmatch'.trans hlast.symm, hnone,
      hlast.trans_le hcommitted, h.selfId ▸ hgains.knownLeader⟩, hgains.log, hgains.metadata⟩
  | succ g ih =>
    intro w a b leader h hpair hgap
    rcases Nat.lt_or_ge g (RaftNode.gap a.lastIndex (leader.peers i).progress) with hlt | hle
    · obtain ⟨w', a', leader', b', hpath, h', hpair', hgains⟩ := h.round hi hpair
      have hlast : a'.lastIndex = a.lastIndex := congrArg PersistentLog.lastIndex hgains.log
      have hgap' : RaftNode.gap a'.lastIndex (leader'.peers i).progress ≤ g := by
        rcases hgains.gap with hmatch | hless
        · rw [hpair'.heads.gap_eq_zero_iff.2 (hmatch.trans hlast.symm)]
          exact Nat.zero_le g
        · rw [hlast]
          omega
      obtain ⟨k, w'', a'', leader'', b'', hk, hpath', hsettled, hlog, hmetadata⟩ :=
        ih h' hpair' hgap'
      exact ⟨3 + k, w'', a'', leader'', b'', by omega, hpath.trans hpath', hsettled,
        hlog.trans hgains.log, hmetadata.trans hgains.metadata⟩
    · obtain ⟨k, w', a', leader', b', hk, hrest⟩ := ih h hpair hle
      exact ⟨k, w', a', leader', b', by omega, hrest⟩

/-- **Settling**: of two members that have been opened, the one whose log is up to date for the
other is elected and brings its log to the other. -/
theorem BothUp.settles (h : BothUp cluster Q p q w a b) (ha : a.Rests) (hb : b.Rests) {i : Fin 2}
    (hi : cluster.peerIds p i = q)
    (hup : ∀ term n, candidateLogIsUpToDate ⟨term, n, a.log.lastIndex, a.log.lastTerm⟩ b.log = true)
    (hta : a.term < uint64Max) (htb : b.term + 1 < uint64Max) (hlast : a.lastIndex + 1 < uint64Max)
    (hroom : (a.log.log.map PersistentLog.recordSize).sum +
      (b.log.log.map PersistentLog.recordSize).sum + PersistentLog.recordSize ⟨1, 1, {}⟩ ≤ offMax) :
    ∃ k T w' a' leader b', k ≤ 6 * a.lastIndex + 11 ∧ cluster.Exchanges Q k w w' ∧
      Settled cluster Q p q i w' a' leader b' ∧ a'.log.Packed ∧
      a'.log.log = a.log.log ++ [⟨a.lastIndex + 1, T, {}⟩] ∧ a'.term = T := by
  have hnoOp : ∀ T ≠ 0, a.log.fileSize +
      PersistentLog.recordSize ⟨a.lastIndex + 1, T, {}⟩ ≤ offMax := fun T hT => by
    rw [ha.packed.fileSize, PersistentLog.recordSize_noOp (Nat.succ_ne_zero _) hT]
    omega
  obtain ⟨T, w₁, a₁, leader₁, b₁, -, hpath₁, h₁, helected⟩ :=
    h.elects ha hb hi hup hta htb hlast hnoOp
  obtain ⟨hpair, hgap⟩ := h₁.pair helected hb.packed hb.commitIndex hlast.le hroom
  obtain ⟨k, w₂, a₂, leader₂, b₂, hk, hpath₂, hsettled, hlog, hmetadata⟩ :=
    h₁.rounds hi hpair hgap.le
  refine ⟨5 + k, T, w₂, a₂, leader₂, b₂, by omega, hpath₁.trans hpath₂, hsettled, ?_, ?_, ?_⟩
  · rw [hlog]
    exact helected.packed
  · rw [hlog]
    exact helected.log
  · rw [← helected.term, RaftNode.term, hmetadata, RaftNode.term]

/-! ## Recovery -/

/-- The process has the log `L`, has committed all of it and applied it. -/
structure RaftNode.Completes (node : RaftNode) (L : List LogEntry) : Prop where
  running : node.stopped = false
  log : node.log.log = L
  commitIndex : node.commitIndex = L.length
  applied : node.state = .replay L

/-- The member `c` leads in term `T`, the member `v` knows it, and both have completed `L`. -/
structure World.Serves (w : World) (c v T : ℕ) (L : List LogEntry) : Prop where
  leader : ∃ node, w.slots c = .up node ∧ node.role = .leader ∧ node.term = T ∧ node.Completes L
  follower : ∃ node, w.slots v = .up node ∧ node.knownLeader = some c ∧ node.Completes L

theorem RaftNode.Invariant.completes (h : a.Invariant) (hs : a.stopped = false)
    (hcommit : a.lastIndex ≤ a.commitIndex) : a.Completes a.log.log := by
  have hall : a.commitIndex = a.log.log.length := by
    rw [PersistentLog.length_log]
    exact Nat.le_antisymm h.commit_le hcommit
  refine ⟨hs, rfl, hall, ?_⟩
  rw [h.applied, hall, List.take_length]

theorem Settled.serves {i : Fin 2} {leader : RaftLeaderReplication}
    (h : Settled cluster Q p q i w a leader b) : w.Serves p q a.term a.log.log := by
  have hleads := h.pair.heads.invariant
  have hsame := h.pair.log_eq h.all
  have hlast : b.lastIndex = a.lastIndex := by
    rw [RaftNode.lastIndex, ← PersistentLog.length_log, hsame, PersistentLog.length_log,
      RaftNode.lastIndex]
  have hvoter := h.pair.joins.invariant.completes h.pair.joins.running
    (hlast.trans_le h.committed)
  rw [hsame] at hvoter
  exact ⟨⟨a, h.up.left, (hleads.leader_facts h.pair.heads.leads).2.1, rfl,
    hleads.completes h.pair.heads.running (h.pair.done h.all).ge⟩,
    b, h.up.right, h.knownLeader, hvoter⟩

/-- A command that is given to the leader of two settled members is committed by both. -/
theorem Settled.commits {i : Fin 2} {leader : RaftLeaderReplication}
    (h : Settled cluster Q p q i w a leader b) (hi : cluster.peerIds p i = q)
    (hpacked : a.log.Packed) {command : Command} (hc : command.type ≠ .noOp)
    (henc : (LogEntry.mk 1 1 command).Encodable) (hlast : a.lastIndex + 1 < uint64Max)
    (hroom : (a.log.log.map PersistentLog.recordSize).sum +
      PersistentLog.recordSize ⟨1, 1, command⟩ ≤ offMax) :
    ∃ k w', k ≤ 7 ∧ cluster.Calls Q k w w' ∧
      w'.Serves p q a.term (a.log.log ++ [⟨a.lastIndex + 1, a.term, command⟩]) := by
  have hleads := h.pair.heads.invariant
  obtain ⟨-, -, -, -, hvote⟩ := hleads.leader_facts h.pair.heads.leads
  have h0 : a.term ≠ 0 := hleads.vote_term (by rw [hvote]; rfl)
  obtain ⟨hmoved, hsize⟩ := henc.move (Nat.succ_ne_zero a.lastIndex) h0
  obtain ⟨a₁, leader₁, actions, hpropose, -, hpair, hlog, hterm, -, hgap⟩ := h.pair.propose hpacked
    h.all h.pending hc hmoved hlast (by rw [hsize]; exact hroom)
  obtain ⟨w₁, hnext, h₁, -⟩ := h.up.call h.pair.working (.propose command) rfl rfl hpropose
  have hamong : Action.Among Q (.call p (.propose command) {}) :=
    ⟨h.up.left_mem, rfl, fun _ he => by cases he⟩
  obtain ⟨k, w₂, a₂, leader₂, b₂, hk, hpath, hsettled, hlog₂, hmetadata₂⟩ :=
    h₁.rounds hi hpair hgap.le
  have hserves := hsettled.serves
  rw [hlog₂, hlog, RaftNode.term, hmetadata₂] at hserves
  change w₂.Serves p q a₁.term _ at hserves
  rw [hterm] at hserves
  have hsingle : cluster.Calls Q 1 w w₁ := .single hamong hnext
  exact ⟨1 + k, w₂, by omega, hsingle.trans (hpath.mono World.Exchange.among), hserves⟩

/-- Two members that have been opened, the first of them with a log that is up to date for the
other. -/
theorem BothUp.commits (h : BothUp cluster Q p q w a b) (ha : a.Rests) (hb : b.Rests)
    (hup : ∀ term n, candidateLogIsUpToDate ⟨term, n, a.log.lastIndex, a.log.lastTerm⟩ b.log = true)
    {command : Command} (hc : command.type ≠ .noOp) (henc : (LogEntry.mk 1 1 command).Encodable)
    (hta : a.term + 1 < uint64Max) (htb : b.term + 1 < uint64Max)
    (hlast : a.log.log.length + 2 < uint64Max)
    (hroom : (a.log.log.map PersistentLog.recordSize).sum +
      (b.log.log.map PersistentLog.recordSize).sum + PersistentLog.recordSize ⟨1, 1, {}⟩ +
        PersistentLog.recordSize ⟨1, 1, command⟩ ≤ offMax) :
    ∃ k T w', k ≤ 6 * a.log.log.length + 18 ∧ cluster.Calls Q k w w' ∧
      w'.Serves p q T (a.log.log ++
        [⟨a.log.log.length + 1, T, {}⟩, ⟨a.log.log.length + 2, T, command⟩]) := by
  have hlength : a.log.log.length = a.lastIndex := a.log.length_log
  rw [hlength] at hlast
  simp only [hlength]
  obtain ⟨s, -, hp, -, hq, -⟩ := h.ok
  obtain ⟨i, hi⟩ := cluster.exists_peerIds hp hq h.ne.symm
  obtain ⟨k₁, T, w₁, a₁, leader₁, b₁, hk₁, hpath₁, hsettled, hpacked, hlog, hterm⟩ :=
    h.settles ha hb hi hup (by omega) htb (by omega) (by omega)
  have hlast₁ : a₁.lastIndex = a.lastIndex + 1 := PersistentLog.lastIndex_of_append hlog
  have hT : T ≠ 0 := by
    have hmem : ⟨a.lastIndex + 1, T, {}⟩ ∈ a₁.log.log := by
      rw [hlog]
      exact List.mem_append_right _ (List.mem_singleton_self _)
    exact (hsettled.pair.heads.invariant.log.encodable _ hmem).fields.2.1
  have hnoOp : PersistentLog.recordSize ⟨a.lastIndex + 1, T, {}⟩ =
      PersistentLog.recordSize ⟨1, 1, {}⟩ :=
    PersistentLog.recordSize_noOp (Nat.succ_ne_zero _) hT
  have hroom₁ : (a₁.log.log.map PersistentLog.recordSize).sum +
      PersistentLog.recordSize ⟨1, 1, command⟩ ≤ offMax := by
    rw [hlog, List.map_append, List.sum_append, List.map_singleton, List.sum_singleton, hnoOp]
    omega
  obtain ⟨k₂, w₂, hk₂, hpath₂, hserves⟩ :=
    hsettled.commits hi hpacked hc henc (by omega) hroom₁
  rw [hterm, hlog, hlast₁, List.append_assoc] at hserves
  exact ⟨k₁ + k₂, T, w₂, by omega, (hpath₁.mono World.Exchange.among).trans hpath₂, hserves⟩

/-- **A majority can go on**: from any state that a run reaches, two members whose log files open
and have room for each other's logs can commit a command that has an encoding, with no help from
the third and in a number of actions that is linear in the length of the new leader's log. This log
stays. -/
theorem Cluster.FilesReached.recovers {w : FileWorld} (h : cluster.FilesReached w)
    (hp : p ∈ cluster.members) (hq : q ∈ cluster.members) (hne : p ≠ q)
    (hfile : ∀ n ∈ ({p, q} : Finset ℕ), (PersistentLog.openFile (w.logFile n)).isOk = true)
    {command : Command} (hc : command.type ≠ .noOp) (henc : (LogEntry.mk 1 1 command).Encodable)
    (hterm : ∀ n ∈ ({p, q} : Finset ℕ),
      (w.world.slots n).disk.metadata.currentTerm + 1 < uint64Max)
    (hindex : ∀ n ∈ ({p, q} : Finset ℕ), (w.world.slots n).disk.log.length + 2 < uint64Max)
    (hroom : ((w.world.slots p).disk.log.map PersistentLog.recordSize).sum +
      ((w.world.slots q).disk.log.map PersistentLog.recordSize).sum +
        PersistentLog.recordSize ⟨1, 1, {}⟩ + PersistentLog.recordSize ⟨1, 1, command⟩ ≤ offMax) :
    ∃ c v k T w', (c = p ∧ v = q ∨ c = q ∧ v = p) ∧
      k ≤ 6 * (w.world.slots c).disk.log.length + 22 ∧ cluster.Path {p, q} k w w' ∧
      w'.world.Serves c v T ((w.world.slots c).disk.log ++
        [⟨(w.world.slots c).disk.log.length + 1, T, {}⟩,
          ⟨(w.world.slots c).disk.log.length + 2, T, command⟩]) := by
  have hpQ : p ∈ ({p, q} : Finset ℕ) := Finset.mem_insert_self ..
  have hqQ : q ∈ ({p, q} : Finset ℕ) := Finset.mem_insert_of_mem (Finset.mem_singleton_self _)
  obtain ⟨k₁, hk₁, world₁, a, hpath₁, hslot₁, hopen₁, hkept₁⟩ := w.reopens hp hpQ (hfile p hpQ)
  have hfile₁ : FileWorld.logFile ⟨world₁, w.tails⟩ q = w.logFile q :=
    FileWorld.logFile_congr (congrArg Slot.disk (hkept₁ q hne.symm)) rfl
  obtain ⟨k₂, hk₂, world₂, b, hpath₂, hslot₂, hopen₂, hkept₂⟩ :=
    FileWorld.reopens ⟨world₁, w.tails⟩ hq hqQ (hfile₁ ▸ hfile q hqQ)
  dsimp only at hpath₂ hopen₂ hkept₂
  rw [hkept₁ q hne.symm] at hopen₂
  have hpath := hpath₁.trans hpath₂
  have hup : BothUp cluster {p, q} p q world₂ a b :=
    ⟨(Cluster.Path.reached hpath h.reached).exists_refines, hne, hpQ, hqQ, (hkept₂ p hne).trans hslot₁,
      hslot₂⟩
  obtain ⟨ha, hta, hla⟩ := RaftNode.openFrom_rests hopen₁
  obtain ⟨hb, htb, hlb⟩ := RaftNode.openFrom_rests hopen₂
  have htermp := hterm p hpQ
  have htermq := hterm q hqQ
  have hindexp := hindex p hpQ
  have hindexq := hindex q hqQ
  rw [← hta] at htermp
  rw [← htb] at htermq
  rw [← hla] at hindexp
  rw [← hlb] at hindexq
  rw [← hla, ← hlb] at hroom
  rcases candidateLogIsUpToDate_total a.log b.log with hbetter | hbetter
  · obtain ⟨k, T, world₃, hk, hcalls, hserves⟩ :=
      hup.commits ha hb hbetter hc henc htermp htermq hindexp hroom
    rw [hla] at hk hserves
    have hpath₃ : cluster.Path {p, q} k ⟨world₂, w.tails⟩ _ := Cluster.Calls.path hcalls
    exact ⟨p, q, k₁ + k₂ + k, T, _, Or.inl ⟨rfl, rfl⟩, by omega, hpath.trans hpath₃, hserves⟩
  · obtain ⟨k, T, world₃, hk, hcalls, hserves⟩ :=
      hup.symm.commits hb ha hbetter hc henc htermq htermp hindexq (by omega)
    rw [hlb] at hk hserves
    have hpath₃ : cluster.Path {p, q} k ⟨world₂, w.tails⟩ _ := Cluster.Calls.path hcalls
    exact ⟨q, p, k₁ + k₂ + k, T, _, Or.inr ⟨rfl, rfl⟩, by omega, hpath.trans hpath₃, hserves⟩

/-- Node 1 leads with two entries, and node 2 dies in the write of the second one: it leaves the
magic number and the version of the record. -/
def tornActions : List (Action × Option Bytes) :=
  (Cluster.Run.matchedActions.take 8).map (·, none) ++
    [(.crash 2 (.deliver ⟨1, 2, .appendEntries Cluster.Run.loggedAppend, none⟩)
      { log := [.uncertain false] }, some [0x44, 0x4B, 0x56, 0x4C, 1])]

theorem tornActions_possible :
    (tornActions.foldlM (FileWorld.next serverCluster) FileWorld.init).isSome := by
  decide +kernel

def tornRun : serverCluster.FileRun := .ofActions tornActions tornActions_possible

/-- The log file of node 2 does not open any more, and node 1 goes on with node 3, which has not run
yet. -/
theorem Cluster.FilesReached.recovers_torn :
    (PersistentLog.openFile ((tornRun.state 9).logFile 2)).isOk = false ∧
    ∃ c v k T w', (c = 1 ∧ v = 3 ∨ c = 3 ∧ v = 1) ∧
      k ≤ 6 * ((tornRun.state 9).world.slots c).disk.log.length + 22 ∧
      serverCluster.Path {1, 3} k (tornRun.state 9) w' ∧
      w'.world.Serves c v T (((tornRun.state 9).world.slots c).disk.log ++
        [⟨((tornRun.state 9).world.slots c).disk.log.length + 1, T, {}⟩,
          ⟨((tornRun.state 9).world.slots c).disk.log.length + 2, T,
            { type := .put, key := [1], value := [7] }⟩]) := by
  refine ⟨by decide +kernel, ?_⟩
  exact Cluster.FilesReached.recovers ⟨tornRun, rfl⟩ (by decide) (by decide) (by decide)
    (by decide +kernel) (by decide) (by decide +kernel) (by decide +kernel) (by decide +kernel)
    (by decide +kernel)

end DistributedKV
