import DistributedKV.Cluster.Settling
import DistributedKV.Cluster.Words
import DistributedKV.Store.LogFile

/-!
# The log files of a cluster

A process that dies in a write, or whose write fails and cannot be taken back, leaves some bytes
behind the records of its log file (`FileLog.append_extends`). Unless they are a record,
`PersistentLog::open` fails on the file from then on, `RaftNode::open` ends with `LogError`, and
nothing repairs the file. A cluster with its files runs as the cluster does, except that a call that
leaves the log in doubt may tear the file, and that no process starts on a file that does not open.
In every state of a run, the files that open are the ones that are not torn.
-/

namespace DistributedKV

variable {cluster : Cluster} {n p : ℕ} {action : Action}

/-! ## Processes that have stopped -/

namespace World

variable {w w' : World}

/-- No process of the node is at work. -/
def Idle (w : World) (n : ℕ) : Prop := ∀ node, w.slots n = .up node → node.stopped = true

/-- The action leaves the log file of the node at work in doubt. -/
def doubts (w : World) (action : Action) : Bool :=
  match action.handler with
  | some (n, input, faults) =>
    match w.slots n, input.call with
    | .up node, some c => !node.log.ioFailed && ((node.withFaults faults).call c).1.log.ioFailed
    | _, _ => false
  | none => false

theorem Idle.call (h : w.Idle n) {node : RaftNode} (hslot : w.slots n = .up node) (faults : Faults)
    (c : NodeCall) : ((node.withFaults faults).call c).1 = node.withFaults faults :=
  congrArg Prod.fst (@RaftNode.call_of_stopped (node.withFaults faults) (h node hslot) c)

theorem Idle.setSlot_down (w : World) (n : ℕ) (disk : Disk) : (w.setSlot n (.down disk)).Idle n :=
  fun node hslot => by
    rw [setSlot_self] at hslot
    cases hslot

/-- A slot changes, and if it is that of the node then nothing is at work in it. -/
theorem Idle.setSlot (h : w.Idle n) {slot : Slot}
    (hself : p = n → (∀ node, slot = .up node → node.stopped = true) ∧
      slot.disk = (w.slots n).disk) :
    (w.setSlot p slot).Idle n ∧ ((w.setSlot p slot).slots n).disk = (w.slots n).disk := by
  by_cases hp : p = n
  · obtain ⟨hstopped, hdisk⟩ := hself hp
    subst hp
    have hset := w.setSlot_self p slot
    exact ⟨fun node hslot => hstopped node (hset.symm.trans hslot), by rw [hset, hdisk]⟩
  · have hkept := w.setSlot_of_ne (Ne.symm hp) slot
    exact ⟨fun node hslot => h node (hkept.symm.trans hslot), by rw [hkept]⟩

/-- Where no process is at work, only a restart changes anything. -/
theorem Idle.next (h : w.Idle n) (hnext : w.next cluster action = some w')
    (hr : action ≠ .restart n) : w'.Idle n ∧ (w'.slots n).disk = (w.slots n).disk := by
  cases step_of_next hnext with
  | @call p input faults node c hslot hc ha =>
    refine h.setSlot (p := p) fun hp => ?_
    subst hp
    rw [h.call hslot, hslot]
    exact ⟨fun node' hup => Slot.up.inj hup ▸ h node hslot, rfl⟩
  | @crash p input faults node c hslot hc ha =>
    refine h.setSlot fun hp => ?_
    subst hp
    rw [h.call hslot, hslot]
    exact ⟨fun node' hup => (by cases hup), rfl⟩
  | @halt p node hslot =>
    refine h.setSlot fun hp => ?_
    subst hp
    rw [hslot]
    exact ⟨fun node' hup => (by cases hup), rfl⟩
  | restart hslot hn ho => exact h.setSlot fun hp => absurd (congrArg Action.restart hp) hr

theorem Idle.not_doubts (h : w.Idle n) {input : Input} {faults : Faults}
    (hh : action.handler = some (n, input, faults)) : w.doubts action = false := by
  rw [doubts, hh]
  dsimp only
  split
  · next node c hslot hc =>
    rw [h.call hslot]
    cases hio : node.log.ioFailed with
    | true => rfl
    | false => exact hio
  · rfl

end World

theorem Cluster.Reached.exists_refines {w : World} (h : cluster.Reached w) :
    ∃ s, Refines cluster w s := by
  obtain ⟨r, rfl⟩ := h
  obtain ⟨g, hg⟩ := r.exists_ghost
  exact ⟨g r.length, hg.refines _ le_rfl⟩

/-- A node whose log is in doubt stops. -/
theorem Cluster.Reached.idle_of_doubts {w w' : World} (h : cluster.Reached w)
    (hnext : w.next cluster action = some w') {input : Input} {faults : Faults}
    (hh : action.handler = some (n, input, faults)) (hd : w.doubts action = true) : w'.Idle n := by
  obtain ⟨s, hs⟩ := (h.next hnext).exists_refines
  cases World.step_of_next hnext with
  | @call p input' faults' node c hslot hc ha =>
    cases hh
    intro node' hslot'
    have hslot₀ := (w.setSlot_self n (.up ((node.withFaults faults).call c).1)).symm.trans hslot'
    obtain rfl := Slot.up.inj hslot₀
    rw [World.doubts, Action.handler] at hd
    dsimp only at hd
    rw [hslot, hc] at hd
    obtain ⟨-, hfailed⟩ := Bool.and_eq_true_iff.1 hd
    by_contra hrunning
    rw [Bool.not_eq_true] at hrunning
    have hok := hs.slot n
    rw [hslot'] at hok
    have hsynced := (hok.2.running hrunning).invariant.logSynced.ioFailed
    rw [hsynced] at hfailed
    cases hfailed
  | crash faults' hslot hc ha =>
    cases hh
    exact .setSlot_down w n _
  | halt => cases hh
  | restart => cases hh

/-! ## Torn files -/

/-- A cluster with the bytes that follow the last record in each log file. -/
structure FileWorld where
  world : World
  tails : ℕ → Bytes

namespace FileWorld

/-- Every data directory is empty. -/
def init : FileWorld := ⟨.init, fun _ => []⟩

/-- The log file of a node. -/
def logFile (w : FileWorld) (n : ℕ) : Bytes :=
  (encodeEntries (w.world.slots n).disk.log).toOption.getD [] ++ w.tails n

/-- If the action starts a process, the log file of the member opens. -/
def opens (w : FileWorld) : Action → Bool
  | .restart n => (PersistentLog.openFile (w.logFile n)).isOk
  | _ => true

/-- One action, and the bytes that it leaves behind the last record if it tears the log file of the
node at work; `none` where it is not possible. -/
def next (cluster : Cluster) (w : FileWorld) : Action × Option Bytes → Option FileWorld
  | (action, none) =>
    if w.opens action then (w.world.next cluster action).map fun world => ⟨world, w.tails⟩
    else none
  | (action, some tail) =>
    match action.handler with
    | some (n, _, _) =>
      if w.world.doubts action ∧ tail ≠ [] ∧ (decodeLogEntry tail).isOk = false then
        (w.world.next cluster action).map fun world => ⟨world, Function.update w.tails n tail⟩
      else none
    | none => none

/-- What an action that is possible does. -/
inductive Step (cluster : Cluster) (w : FileWorld) : Action × Option Bytes → FileWorld → Prop
  | whole {action : Action} {world : World} (ho : w.opens action = true)
      (hnext : w.world.next cluster action = some world) : Step cluster w (action, none)
        ⟨world, w.tails⟩
  | torn {action : Action} {n : ℕ} {input : Input} {faults : Faults} {world : World} {tail : Bytes}
      (hh : action.handler = some (n, input, faults)) (hd : w.world.doubts action = true)
      (hne : tail ≠ []) (htail : (decodeLogEntry tail).isOk = false)
      (hnext : w.world.next cluster action = some world) : Step cluster w (action, some tail)
        ⟨world, Function.update w.tails n tail⟩

variable {w w' : FileWorld} {a : Action × Option Bytes}

theorem logFile_congr (hdisk : (w'.world.slots n).disk = (w.world.slots n).disk)
    (htails : w'.tails n = w.tails n) : w'.logFile n = w.logFile n := by
  rw [logFile, hdisk, htails, logFile]

theorem step_of_next (h : w.next cluster a = some w') : Step cluster w a w' := by
  obtain ⟨action, tail⟩ := a
  unfold next at h
  cases tail with
  | none =>
    dsimp only at h
    split_ifs at h with ho
    obtain ⟨world, hnext, rfl⟩ := Option.map_eq_some_iff.1 h
    exact .whole ho hnext
  | some tail =>
    dsimp only at h
    split at h
    · next n input faults hh =>
      split_ifs at h with hd
      obtain ⟨world, hnext, rfl⟩ := Option.map_eq_some_iff.1 h
      exact .torn hh hd.1 hd.2.1 hd.2.2 hnext
    · cases h

/-- Whatever becomes of the files, the action is one of the cluster. -/
theorem Step.world_next (h : Step cluster w a w') :
    w.world.next cluster a.1 = some w'.world := by
  cases h with
  | whole _ hnext => exact hnext
  | torn _ _ _ _ hnext => exact hnext

end FileWorld

/-- A run of the cluster with its files. -/
abbrev Cluster.FileRun (cluster : Cluster) := SystemRun FileWorld.init (FileWorld.next cluster)

/-- A run reaches the state. -/
def Cluster.FilesReached (cluster : Cluster) (w : FileWorld) : Prop :=
  ∃ r : cluster.FileRun, r.state r.length = w

variable {w w' : FileWorld}

theorem Cluster.reached_init (cluster : Cluster) : cluster.Reached World.init :=
  ⟨⟨0, fun _ => World.init, fun _ => default, rfl, fun _ hi => absurd hi (Nat.not_lt_zero _)⟩, rfl⟩

/-- A run of the cluster with its files is one of the cluster. -/
theorem Cluster.FilesReached.reached (h : cluster.FilesReached w) : cluster.Reached w.world := by
  obtain ⟨r, rfl⟩ := h
  exact r.invariant (P := fun w => cluster.Reached w.world) cluster.reached_init
    (fun hs hnext => hs.next (FileWorld.step_of_next hnext).world_next) r.length le_rfl

/-! ## Opening the files -/

/-- The records of the entries on a disk. -/
theorem Cluster.Reached.exists_records {w : World} (h : cluster.Reached w)
    (hids : ∀ n ∈ cluster.members, n < 2 ^ 64) (n : ℕ) :
    ∃ bytes, PersistentLog.Records 0 (w.slots n).disk.log bytes := by
  obtain ⟨r, rfl⟩ := h
  obtain ⟨g, h⟩ := r.exists_ghost
  have hsound := (h.refines r.length le_rfl).sound
  have hterm := h.term_lt le_rfl (h.counted hids r.length le_rfl).slot
  have hlog := hsound.logInvariant_node n
  have hwords := hsound.logWords (hsound.invariant.log_backed n) fun e he =>
    (hsound.invariant.log_term n e he).trans_lt (hterm n)
  rw [(h.disk le_rfl n).log] at hlog hwords
  obtain ⟨bytes, hbytes⟩ := PersistentLog.exists_encodeEntries hlog.encodable
  refine ⟨bytes, PersistentLog.records_iff.2 ⟨hwords.entries, fun k e he => ?_, hbytes⟩⟩
  rw [hlog.index he, Nat.zero_add]

namespace FileWorld

/-- What holds in every state: the cluster is in a state that a run reaches, what is torn is no
record, and no process is at work on a torn file. -/
structure Sound (cluster : Cluster) (w : FileWorld) : Prop where
  reached : cluster.Reached w.world
  noRecord : ∀ n, w.tails n ≠ [] → (decodeLogEntry (w.tails n)).isOk = false
  idle : ∀ n, w.tails n ≠ [] → w.world.Idle n

theorem sound_init : init.Sound cluster where
  reached := cluster.reached_init
  noRecord _ hne := absurd rfl hne
  idle _ hne := absurd rfl hne

namespace Sound

theorem exists_logFile (h : w.Sound cluster) (hids : ∀ n ∈ cluster.members, n < 2 ^ 64) (n : ℕ) :
    ∃ bytes, PersistentLog.Records 0 (w.world.slots n).disk.log bytes ∧
      w.logFile n = bytes ++ w.tails n := by
  obtain ⟨bytes, hrecords⟩ := h.reached.exists_records hids n
  refine ⟨bytes, hrecords, ?_⟩
  rw [logFile, (PersistentLog.records_iff.1 hrecords).2.2]
  rfl

/-- A log file that is not torn opens, and recovers the log of the disk. -/
theorem openFile_whole (h : w.Sound cluster) (hids : ∀ n ∈ cluster.members, n < 2 ^ 64)
    (hwhole : w.tails n = []) : PersistentLog.openFile (w.logFile n) =
      .ok (.openFrom (w.world.slots n).disk.log) := by
  obtain ⟨bytes, hrecords, hfile⟩ := h.exists_logFile hids n
  rw [hfile, hwhole, List.append_nil]
  exact hrecords.openFile_eq

/-- A torn log file does not open. -/
theorem openFile_torn (h : w.Sound cluster) (hids : ∀ n ∈ cluster.members, n < 2 ^ 64)
    (hne : w.tails n ≠ []) : (PersistentLog.openFile (w.logFile n)).isOk = false := by
  obtain ⟨bytes, hrecords, hfile⟩ := h.exists_logFile hids n
  rw [hfile]
  exact hrecords.openFile_torn hne (h.noRecord n hne)

/-- **The files that open** are the ones that are not torn. -/
theorem isOk_openFile_iff (h : w.Sound cluster) (hids : ∀ n ∈ cluster.members, n < 2 ^ 64) :
    (PersistentLog.openFile (w.logFile n)).isOk = true ↔ w.tails n = [] := by
  by_cases hwhole : w.tails n = []
  · rw [h.openFile_whole hids hwhole]
    exact iff_of_true rfl hwhole
  · rw [h.openFile_torn hids hwhole]
    exact iff_of_false Bool.false_ne_true hwhole

variable {a : Action × Option Bytes}

/-- A torn file stays as it is. -/
theorem torn_next (h : w.Sound cluster) (hids : ∀ n ∈ cluster.members, n < 2 ^ 64)
    (hstep : Step cluster w a w') (hne : w.tails n ≠ []) :
    w'.tails n = w.tails n ∧ w'.world.Idle n ∧
      (w'.world.slots n).disk = (w.world.slots n).disk := by
  have hidle := h.idle n hne
  cases hstep with
  | @whole action world ho hnext =>
    refine ⟨rfl, hidle.next hnext ?_⟩
    rintro rfl
    exact hne ((h.isOk_openFile_iff hids).1 ho)
  | @torn action p input faults world tail hh hd _ _ hnext =>
    have hp : n ≠ p := by
      rintro rfl
      rw [hidle.not_doubts hh] at hd
      cases hd
    refine ⟨Function.update_of_ne hp _ _, hidle.next hnext ?_⟩
    rintro rfl
    cases hh

/-- **One step** keeps what holds in every state. -/
theorem step (h : w.Sound cluster) (hids : ∀ n ∈ cluster.members, n < 2 ^ 64)
    (hstep : Step cluster w a w') : w'.Sound cluster := by
  have hreached := h.reached.next hstep.world_next
  cases hstep with
  | whole ho hnext =>
    exact ⟨hreached, h.noRecord, fun n hne => (h.torn_next hids (.whole ho hnext) hne).2.1⟩
  | @torn action p input faults world tail hh hd hne htail hnext =>
    have hcases : ∀ n, Function.update w.tails p tail n ≠ [] →
        n = p ∨ n ≠ p ∧ w.tails n ≠ [] := fun n hn => by
      by_cases hp : n = p
      · exact Or.inl hp
      · rw [Function.update_of_ne hp] at hn
        exact Or.inr ⟨hp, hn⟩
    refine ⟨hreached, fun n hn => ?_, fun n hn => ?_⟩
    · dsimp only
      rcases hcases n hn with rfl | ⟨hp, hn'⟩
      · rw [Function.update_self]
        exact htail
      · rw [Function.update_of_ne hp]
        exact h.noRecord n hn'
    · rcases hcases n hn with rfl | ⟨-, hn'⟩
      · exact h.reached.idle_of_doubts hnext hh hd
      · exact (h.torn_next hids (.torn hh hd hne htail hnext) hn').2.1

end Sound

end FileWorld

theorem Cluster.FilesReached.sound (h : cluster.FilesReached w)
    (hids : ∀ n ∈ cluster.members, n < 2 ^ 64) : w.Sound cluster := by
  obtain ⟨r, rfl⟩ := h
  exact r.invariant FileWorld.sound_init
    (fun hs hnext => hs.step hids (FileWorld.step_of_next hnext)) r.length le_rfl

/-- **A torn file is never repaired**: a log file that does not open stays as it is, whatever
follows, and no process of its member is at work any more. -/
theorem Cluster.FilesReached.torn_stays (h : cluster.FilesReached w)
    (hids : ∀ n ∈ cluster.members, n < 2 ^ 64)
    (hfile : (PersistentLog.openFile (w.logFile n)).isOk = false)
    {P : FileWorld → Action × Option Bytes → Prop} {k : ℕ}
    (hpath : SystemPath (FileWorld.next cluster) P k w w') :
    w'.logFile n = w.logFile n ∧ w'.world.Idle n := by
  have hsound := h.sound hids
  have hne : w.tails n ≠ [] := fun hwhole => by
    rw [(hsound.isOk_openFile_iff hids).2 hwhole] at hfile
    cases hfile
  have hkept := hpath.invariant
    (I := fun w' => w'.Sound cluster ∧ w'.tails n = w.tails n ∧
      (w'.world.slots n).disk = (w.world.slots n).disk) ⟨hsound, rfl, rfl⟩
    fun ⟨hsound, htails, hdisk⟩ hnext => by
      have hstep := FileWorld.step_of_next hnext
      obtain ⟨htails', -, hdisk'⟩ := hsound.torn_next hids hstep (htails.trans_ne hne)
      exact ⟨hsound.step hids hstep, htails'.trans htails, hdisk'.trans hdisk⟩
  obtain ⟨hsound', htails, hdisk⟩ := hkept
  exact ⟨FileWorld.logFile_congr hdisk htails, hsound'.idle n (htails.trans_ne hne)⟩

end DistributedKV
