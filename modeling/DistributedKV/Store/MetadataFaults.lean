import DistributedKV.Foundations.Replacement
import DistributedKV.Store.MetadataCodec

/-!
# The term and vote store and its system calls

`persistent_metadata.cpp` down to the calls that open, write, sync, close and rename files, each of
which may fail, be interrupted, or be the last one before a crash. The slot holds the content of
the file under its name, if there is one. Terms and votes that were recovered, remembered or
confirmed are never lost: whatever is visible or durable advances them.
-/

namespace DistributedKV

open Replacement

/-- What becomes of the next call. A write that is done transfers that many bytes at most. A rename
that reports a failure may have `reached` the directory. -/
inductive CallOutcome
  | done (count : ℕ)
  | interrupted
  | failed (reached : Bool)
  | crash
  deriving DecidableEq, Repr

/-- Why a sequence of calls stops before its end. -/
inductive Stop (ε : Type)
  | error (e : ε)
  | crash
  deriving DecidableEq, Repr

inductive PersistentMetadataOpenError
  | ioError
  | truncatedRecord
  | corruptRecord
  | unsupportedVersion
  deriving DecidableEq, Repr

/-- A term and vote store in memory. -/
structure MetadataStore where
  state : RaftMetadata := {}
  ioFailed : Bool := false
  deriving DecidableEq

/-- The content of the file under its name, `none` if there is no such file. -/
abbrev MetadataDisk := Slot (Option Bytes)

section Calls

variable {ε : Type} (e : ε)

/-- A call that is not repeated when it is interrupted. -/
def callOnce : List CallOutcome → Except (Stop ε) (List CallOutcome)
  | [] => .ok []
  | .done _ :: script => .ok script
  | .crash :: _ => .error .crash
  | _ => .error (.error e)

/-- The loops around `fdatasync`, `fsync` and `read`. -/
def callUntilDone : List CallOutcome → Except (Stop ε) (List CallOutcome)
  | [] => .ok []
  | .done _ :: script => .ok script
  | .interrupted :: script => callUntilDone script
  | .failed _ :: _ => .error (.error e)
  | .crash :: _ => .error .crash

/-- `write_exact`, with what the file holds so far. -/
def writeTemp : List CallOutcome → Bytes → Bytes → Except (Stop ε) (Bytes × List CallOutcome)
  | [], content, input => .ok (content ++ input, [])
  | outcome :: script, content, input =>
    if input = [] then .ok (content, outcome :: script)
    else match outcome with
      | .done count =>
        if count = 0 then .error (.error e)
        else writeTemp script (content ++ input.take count) (input.drop count)
      | .interrupted => writeTemp script content input
      | .failed _ => .error (.error e)
      | .crash => .error .crash

end Calls

namespace MetadataStore

/-- The state in a record, with the error that `open` reports. -/
def decodeRecord (bytes : Bytes) : Except PersistentMetadataOpenError RaftMetadata :=
  match decodeRaftMetadata bytes with
  | .error .truncatedRecord => .error .truncatedRecord
  | .error .unsupportedVersion => .error .unsupportedVersion
  | .error _ => .error .corruptRecord
  | .ok state => .ok state

/-- `PersistentMetadata::open`: the calls up to the decoded state, if there is a file. -/
def readFile (disk : MetadataDisk) (script : List CallOutcome) :
    Except (Stop PersistentMetadataOpenError) (Option RaftMetadata × List CallOutcome) := do
  let script ← callOnce .ioError script
  let script ← callOnce .ioError script
  match disk.visible with
  | none => .ok (none, script)
  | some bytes =>
    let script ← callOnce .ioError script
    if bytes.length < raftMetadataRecordSize then .error (.error .truncatedRecord)
    else if bytes.length ≠ raftMetadataRecordSize then .error (.error .corruptRecord)
    else
      let script ← callUntilDone .ioError script
      match decodeRecord bytes with
      | .error e => .error (.error e)
      | .ok state => .ok (some state, script)

/-- `PersistentMetadata::open`. A state that has been read is certified by syncing the file and
its directory. -/
def openFrom (disk : MetadataDisk) (script : List CallOutcome) :
    Except (Stop PersistentMetadataOpenError) (MetadataStore × MetadataDisk) := do
  let (state, script) ← readFile disk script
  match state with
  | none => .ok ({}, disk)
  | some state =>
    let script ← callUntilDone .ioError script
    let _ ← callUntilDone .ioError script
    .ok ({ state }, disk.sync)

/-- The part of `persist` before the rename: a temporary file with the record. -/
def prepareTemp (bytes : Bytes) (script : List CallOutcome) :
    Except (Stop Unit) (Bytes × List CallOutcome) := do
  let script ← callOnce () script
  let script ← callOnce () script
  let (temp, script) ← writeTemp () script [] bytes
  let script ← callUntilDone () script
  let script ← callOnce () script
  .ok (temp, script)

def renameTemp (disk : MetadataDisk) (temp : Bytes) :
    List CallOutcome → MetadataDisk × Except (Stop Unit) (List CallOutcome)
  | [] => (disk.replace (some temp), .ok [])
  | .done _ :: script => (disk.replace (some temp), .ok script)
  | .interrupted :: _ => (disk, .error (.error ()))
  | .failed reached :: _ =>
    (if reached then disk.replace (some temp) else disk, .error (.error ()))
  | .crash :: _ => (disk, .error .crash)

/-- The disk, and the store with the reported result unless the process has crashed. -/
abbrev UpdateEnd := MetadataDisk × Option (MetadataStore × PersistentMetadataUpdateResult)

def persist (store : MetadataStore) (disk : MetadataDisk) (next : RaftMetadata)
    (script : List CallOutcome) : UpdateEnd :=
  match encodeRaftMetadata next with
  | .error _ => (disk, some (store, .ioError))
  | .ok bytes => match prepareTemp bytes script with
    | .error .crash => (disk, none)
    | .error (.error _) => (disk, some (store, .ioError))
    | .ok (temp, script) => match renameTemp disk temp script with
      | (disk, .error .crash) => (disk, none)
      | (disk, .error (.error _)) => (disk, some ({ store with ioFailed := true }, .ioError))
      | (disk, .ok script) => match callUntilDone () script with
        | .error .crash => (disk, none)
        | .error (.error _) => (disk, some ({ store with ioFailed := true }, .ioError))
        | .ok _ => (disk.sync, some ({ store with state := next }, .persisted))

def advanceTerm (store : MetadataStore) (disk : MetadataDisk) (term : ℕ)
    (script : List CallOutcome) : UpdateEnd :=
  if store.ioFailed then (disk, some (store, .ioError))
  else if term < store.state.currentTerm then (disk, some (store, .staleTerm))
  else if term = store.state.currentTerm then (disk, some (store, .unchanged))
  else store.persist disk ⟨term, none⟩ script

def voteFor (store : MetadataStore) (disk : MetadataDisk) (candidate : ℕ)
    (script : List CallOutcome) : UpdateEnd :=
  if store.ioFailed then (disk, some (store, .ioError))
  else if store.state.currentTerm = 0 then (disk, some (store, .invalidTerm))
  else if store.state.votedFor = some candidate then (disk, some (store, .unchanged))
  else if store.state.votedFor.isSome then (disk, some (store, .voteConflict))
  else store.persist disk ⟨store.state.currentTerm, some candidate⟩ script

end MetadataStore

/-! ## What is kept -/

/-- `after` keeps the term of `before`, and its vote as long as the term is the same. -/
structure RaftMetadata.KeptBy (before after : RaftMetadata) : Prop where
  term : before.currentTerm ≤ after.currentTerm
  vote : before.currentTerm = after.currentTerm → before.votedFor.isSome = true →
    after.votedFor = before.votedFor

theorem RaftMetadata.KeptBy.refl (state : RaftMetadata) : state.KeptBy state :=
  ⟨le_rfl, fun _ _ => rfl⟩

theorem RaftMetadata.KeptBy.trans {a b c : RaftMetadata} (hab : a.KeptBy b) (hbc : b.KeptBy c) :
    a.KeptBy c := by
  refine ⟨hab.term.trans hbc.term, fun hterm hsome => ?_⟩
  have hb : a.currentTerm = b.currentTerm := le_antisymm hab.term (hterm ▸ hbc.term)
  have hvote := hab.vote hb hsome
  rw [hbc.vote (hb ▸ hterm) (hvote ▸ hsome), hvote]

namespace MetadataStore

/-- The state that the next `open` recovers from a file; a missing file starts at term zero with no
vote. -/
def recover : Option Bytes → Option RaftMetadata
  | none => some {}
  | some bytes => match decodeRaftMetadata bytes with
    | .error _ => none
    | .ok state => some state

/-- What a file stands for keeps a state. -/
def Keeps (state : RaftMetadata) (content : Option Bytes) : Prop :=
  ∃ recovered, recover content = some recovered ∧ state.KeptBy recovered

theorem recover_inRange {content : Option Bytes} {state : RaftMetadata}
    (h : recover content = some state) : state.InRange := by
  cases content with
  | none =>
    obtain rfl := Option.some.inj h
    exact ⟨by decide, fun candidate hmem => by cases hmem⟩
  | some bytes =>
    rw [recover] at h
    split at h
    · cases h
    next state' hdecode =>
    obtain rfl := Option.some.inj h
    exact (decodeRaftMetadata_eq_ok_iff.1 hdecode).1

theorem recover_encode {state : RaftMetadata} {bytes : Bytes} (hr : state.InRange)
    (h : encodeRaftMetadata state = .ok bytes) : recover (some bytes) = some state := by
  rw [recover, decodeRaftMetadata_eq_ok_iff.2 ⟨hr, h⟩]

theorem recover_of_decodeRecord {bytes : Bytes} {state : RaftMetadata}
    (h : decodeRecord bytes = .ok state) : recover (some bytes) = some state := by
  unfold decodeRecord at h
  rw [recover]
  cases hd : decodeRaftMetadata bytes with
  | error e => cases e <;> simp [hd] at h
  | ok state' =>
    rw [hd] at h
    exact congrArg some (Except.ok.inj h)

/-! ## Calls -/

theorem bind_eq_ok {ε α β : Type} {x : Except ε α} {f : α → Except ε β} {b : β}
    (h : x >>= f = .ok b) : ∃ a, x = .ok a ∧ f a = .ok b := by
  cases x with
  | error e => cases h
  | ok a => exact ⟨a, rfl, h⟩

theorem writeTemp_eq {script script' : List CallOutcome} {content input temp : Bytes}
    (h : writeTemp () script content input = .ok (temp, script')) : temp = content ++ input := by
  induction script generalizing content input with
  | nil => exact (Prod.mk.inj (Except.ok.inj h)).1.symm
  | cons outcome script ih =>
    unfold writeTemp at h
    split_ifs at h with hempty
    · obtain rfl := (Prod.mk.inj (Except.ok.inj h)).1
      rw [hempty, List.append_nil]
    · cases outcome with
      | done count =>
        dsimp only at h
        split_ifs at h with hzero
        rw [ih h, List.append_assoc, List.take_append_drop]
      | interrupted => exact ih h
      | failed reached => cases h
      | crash => cases h

/-- A temporary file that is to be renamed holds the record. -/
theorem prepareTemp_eq {bytes temp : Bytes} {script script' : List CallOutcome}
    (h : prepareTemp bytes script = .ok (temp, script')) : temp = bytes := by
  obtain ⟨_, -, h⟩ := bind_eq_ok h
  obtain ⟨_, -, h⟩ := bind_eq_ok h
  obtain ⟨⟨temp', _⟩, hwrite, h⟩ := bind_eq_ok h
  obtain ⟨_, -, h⟩ := bind_eq_ok h
  obtain ⟨_, -, htemp⟩ := bind_eq_ok h
  rw [← (Prod.mk.inj (Except.ok.inj htemp)).1, writeTemp_eq hwrite]
  rfl

theorem renameTemp_disk (disk : MetadataDisk) (temp : Bytes) (script : List CallOutcome) :
    ((renameTemp disk temp script).1 = disk ∨
      (renameTemp disk temp script).1 = disk.replace (some temp)) ∧
    ∀ script', (renameTemp disk temp script).2 = .ok script' →
      (renameTemp disk temp script).1 = disk.replace (some temp) := by
  unfold renameTemp
  split
  · exact ⟨Or.inr rfl, fun _ _ => rfl⟩
  · exact ⟨Or.inr rfl, fun _ _ => rfl⟩
  · exact ⟨Or.inl rfl, fun _ h => by cases h⟩
  next reached _ =>
    cases reached with
    | true => exact ⟨Or.inr rfl, fun _ _ => rfl⟩
    | false => exact ⟨Or.inl rfl, fun _ h => by cases h⟩
  · exact ⟨Or.inl rfl, fun _ h => by cases h⟩

/-- A store whose state is what the disk holds. -/
structure Certified (store : MetadataStore) (disk : MetadataDisk) (content : Option Bytes) :
    Prop where
  ioFailed : store.ioFailed = false
  disk : disk = .settled content
  recover : recover content = some store.state

/-- The ends of an update towards `next` from a store whose state is what the disk holds: nothing
has happened, the new record is confirmed, or it is in doubt and the store takes no more
updates. -/
inductive PersistEnd (store : MetadataStore) (content : Option Bytes) (next : RaftMetadata) :
    UpdateEnd → Prop
  | kept (r : Option (MetadataStore × PersistentMetadataUpdateResult))
      (hr : r = none ∨ r = some (store, .ioError) ∨
        r = some ({ store with ioFailed := true }, .ioError)) :
      PersistEnd store content next (.settled content, r)
  | replaced {bytes : Bytes} (hbytes : recover (some bytes) = some next)
      (r : Option (MetadataStore × PersistentMetadataUpdateResult))
      (hr : r = none ∨ r = some ({ store with ioFailed := true }, .ioError)) :
      PersistEnd store content next (⟨some bytes, content⟩, r)
  | confirmed {bytes : Bytes} (hbytes : recover (some bytes) = some next) :
      PersistEnd store content next
        (.settled (some bytes), some ({ store with state := next }, .persisted))

theorem persist_end (store : MetadataStore) (content : Option Bytes) {next : RaftMetadata}
    (hr : next.InRange) (script : List CallOutcome) :
    PersistEnd store content next (store.persist (.settled content) next script) := by
  unfold persist
  cases hencode : encodeRaftMetadata next with
  | error e => exact .kept _ (Or.inr (Or.inl rfl))
  | ok bytes =>
    have hbytes := recover_encode hr hencode
    dsimp only
    cases htemp : prepareTemp bytes script with
    | error stop =>
      cases stop with
      | error e => exact .kept _ (Or.inr (Or.inl rfl))
      | crash => exact .kept _ (Or.inl rfl)
    | ok r =>
      obtain ⟨temp, script⟩ := r
      obtain rfl := prepareTemp_eq htemp
      have hrename := renameTemp_disk (.settled content) temp script
      dsimp only
      revert hrename
      generalize renameTemp (.settled content) temp script = r
      obtain ⟨disk, (e | _) | script⟩ := r
      · rintro ⟨rfl | rfl, -⟩
        · exact .kept _ (Or.inr (Or.inr rfl))
        · exact .replaced hbytes _ (Or.inr rfl)
      · rintro ⟨rfl | rfl, -⟩
        · exact .kept _ (Or.inl rfl)
        · exact .replaced hbytes _ (Or.inl rfl)
      · rintro ⟨-, hdone⟩
        obtain rfl := hdone script rfl
        dsimp only
        cases callUntilDone () script with
        | error stop =>
          cases stop with
          | error e => exact .replaced hbytes _ (Or.inr rfl)
          | crash => exact .replaced hbytes _ (Or.inl rfl)
        | ok script => exact .confirmed hbytes

/-- How an update that is reported can end, whatever was on the disk: before the rename, or after
it, when the record is confirmed or in doubt. -/
theorem persist_reported {store store' : MetadataStore} {disk : MetadataDisk}
    {next : RaftMetadata} {script : List CallOutcome} {result : PersistentMetadataUpdateResult}
    (h : (store.persist disk next script).2 = some (store', result)) :
    (result = .persisted ∧ store' = { store with state := next } ∧
        ∃ bytes, encodeRaftMetadata next = .ok bytes) ∨
      (result = .ioError ∧ store' = { store with ioFailed := true } ∧
        ∃ bytes, encodeRaftMetadata next = .ok bytes) ∨
      (result = .ioError ∧ store' = store ∧ ∀ bytes, encodeRaftMetadata next = .ok bytes →
        ∃ stop, prepareTemp bytes script = .error stop) := by
  unfold persist at h
  cases hencode : encodeRaftMetadata next with
  | error e =>
    rw [hencode] at h
    obtain ⟨rfl, rfl⟩ := Prod.mk.inj (Option.some.inj h)
    exact Or.inr (Or.inr ⟨rfl, rfl, fun bytes hno => by cases hno⟩)
  | ok bytes =>
    rw [hencode] at h
    dsimp only at h
    cases htemp : prepareTemp bytes script with
    | error stop =>
      rw [htemp] at h
      cases stop with
      | error e =>
        obtain ⟨rfl, rfl⟩ := Prod.mk.inj (Option.some.inj h)
        refine Or.inr (Or.inr ⟨rfl, rfl, fun bytes' heq => ?_⟩)
        obtain rfl := Except.ok.inj heq
        exact ⟨_, htemp⟩
      | crash => cases h
    | ok r =>
      obtain ⟨temp, script⟩ := r
      rw [htemp] at h
      dsimp only at h
      revert h
      generalize renameTemp disk temp script = r
      obtain ⟨disk, (e | _) | script⟩ := r
      · intro h
        obtain ⟨rfl, rfl⟩ := Prod.mk.inj (Option.some.inj h)
        exact Or.inr (Or.inl ⟨rfl, rfl, bytes, rfl⟩)
      · intro h
        cases h
      · dsimp only
        cases callUntilDone () script with
        | error stop =>
          intro h
          cases stop with
          | error e =>
            obtain ⟨rfl, rfl⟩ := Prod.mk.inj (Option.some.inj h)
            exact Or.inr (Or.inl ⟨rfl, rfl, bytes, rfl⟩)
          | crash => cases h
        | ok script =>
          intro h
          obtain ⟨rfl, rfl⟩ := Prod.mk.inj (Option.some.inj h)
          exact Or.inl ⟨rfl, rfl, bytes, rfl⟩

/-- The store at the level of records, with what a reopen would recover. -/
def toMetadata (store : MetadataStore) (durable : RaftMetadata) (outcomes : List WriteOutcome) :
    PersistentMetadata :=
  ⟨store.state, store.ioFailed, durable, outcomes⟩

theorem invalidState_eq {state : RaftMetadata} {bytes : Bytes}
    (h : encodeRaftMetadata state = .ok bytes) : PersistentMetadata.invalidState state = false := by
  simpa [PersistentMetadata.invalidState] using (encodeRaftMetadata_eq_ok_iff.1 h).1

/-- **The calls on the file refine the writes of records**: an update that is reported acts as the
update at the level of records does for some outcome. -/
theorem persist_refines {store store' : MetadataStore} {disk : MetadataDisk}
    {next : RaftMetadata} {script : List CallOutcome} {result : PersistentMetadataUpdateResult}
    (h : (store.persist disk next script).2 = some (store', result)) (durable : RaftMetadata) :
    ∃ outcomes, (store.toMetadata durable outcomes).persist next =
      (store'.toMetadata (if result = .persisted then next else durable) [], result) := by
  rcases persist_reported h with ⟨rfl, rfl, bytes, hencode⟩ | ⟨rfl, rfl, bytes, hencode⟩ |
    ⟨rfl, rfl, -⟩
  · refine ⟨[.done], ?_⟩
    rw [PersistentMetadata.persist, invalidState_eq hencode]
    rfl
  · refine ⟨[.uncertain false], ?_⟩
    rw [PersistentMetadata.persist, invalidState_eq hencode]
    rfl
  · cases hinvalid : PersistentMetadata.invalidState next with
    | true =>
      refine ⟨[], ?_⟩
      rw [PersistentMetadata.persist, hinvalid]
      rfl
    | false =>
      refine ⟨[.failed], ?_⟩
      rw [PersistentMetadata.persist, hinvalid]
      rfl

theorem advanceTerm_refines {store store' : MetadataStore} {disk : MetadataDisk} {term : ℕ}
    {script : List CallOutcome} {result : PersistentMetadataUpdateResult}
    (h : (store.advanceTerm disk term script).2 = some (store', result))
    (durable : RaftMetadata) : ∃ outcomes, (store.toMetadata durable outcomes).advanceTerm term =
      (store'.toMetadata (if result = .persisted then ⟨term, none⟩ else durable) [], result) := by
  unfold advanceTerm at h
  split_ifs at h with hio hlt heq
  · obtain ⟨rfl, rfl⟩ := Prod.mk.inj (Option.some.inj h)
    exact ⟨[], if_pos hio⟩
  · obtain ⟨rfl, rfl⟩ := Prod.mk.inj (Option.some.inj h)
    exact ⟨[], (if_neg hio).trans (if_pos hlt)⟩
  · obtain ⟨rfl, rfl⟩ := Prod.mk.inj (Option.some.inj h)
    exact ⟨[], ((if_neg hio).trans (if_neg hlt)).trans (if_pos heq)⟩
  · obtain ⟨outcomes, hpersist⟩ := persist_refines h durable
    exact ⟨outcomes, (((if_neg hio).trans (if_neg hlt)).trans (if_neg heq)).trans hpersist⟩

theorem voteFor_refines {store store' : MetadataStore} {disk : MetadataDisk} {candidate : ℕ}
    {script : List CallOutcome} {result : PersistentMetadataUpdateResult}
    (h : (store.voteFor disk candidate script).2 = some (store', result))
    (durable : RaftMetadata) : ∃ outcomes, (store.toMetadata durable outcomes).voteFor candidate =
      (store'.toMetadata (if result = .persisted then
        ⟨store.state.currentTerm, some candidate⟩ else durable) [], result) := by
  unfold voteFor at h
  split_ifs at h with hio hzero hsame hconflict
  · obtain ⟨rfl, rfl⟩ := Prod.mk.inj (Option.some.inj h)
    exact ⟨[], if_pos hio⟩
  · obtain ⟨rfl, rfl⟩ := Prod.mk.inj (Option.some.inj h)
    exact ⟨[], (if_neg hio).trans (if_pos hzero)⟩
  · obtain ⟨rfl, rfl⟩ := Prod.mk.inj (Option.some.inj h)
    exact ⟨[], ((if_neg hio).trans (if_neg hzero)).trans (if_pos hsame)⟩
  · obtain ⟨rfl, rfl⟩ := Prod.mk.inj (Option.some.inj h)
    exact ⟨[], (((if_neg hio).trans (if_neg hzero)).trans (if_neg hsame)).trans (if_pos hconflict)⟩
  · obtain ⟨outcomes, hpersist⟩ := persist_refines h durable
    exact ⟨outcomes, ((((if_neg hio).trans (if_neg hzero)).trans (if_neg hsame)).trans
      (if_neg hconflict)).trans hpersist⟩

/-- The ends of an update of a store that asks for some property of the state: it is refused or
found to hold, or a record with the property is written over what the disk holds. -/
inductive Ends (store : MetadataStore) (disk : MetadataDisk) (asked : RaftMetadata → Prop) :
    UpdateEnd → Prop
  | silent {result : PersistentMetadataUpdateResult} (hp : result ≠ .persisted)
      (hu : result = .unchanged → store.ioFailed = false ∧ asked store.state) :
      Ends store disk asked (disk, some (store, result))
  | written {content : Option Bytes} {next : RaftMetadata} {r : UpdateEnd}
      (hc : store.Certified disk content) (hk : store.state.KeptBy next) (ha : asked next)
      (hr : PersistEnd store content next r) : Ends store disk asked r

variable {store : MetadataStore} {disk : MetadataDisk}

theorem advanceTerm_ends
    (hc : store.ioFailed = false → ∃ content, store.Certified disk content) {term : ℕ}
    (ht : term < 2 ^ 64) (script : List CallOutcome) :
    Ends store disk (fun state => state.currentTerm = term)
      (store.advanceTerm disk term script) := by
  unfold advanceTerm
  split_ifs with hio hlt heq
  · exact .silent (by simp) (by simp)
  · exact .silent (by simp) (by simp)
  · exact .silent (by simp) fun _ => ⟨by simpa using hio, heq.symm⟩
  · obtain ⟨content, hcert⟩ := hc (by simpa using hio)
    have hr : RaftMetadata.InRange ⟨term, none⟩ := ⟨ht, fun _ hmem => by cases hmem⟩
    have hend := persist_end store content hr script
    rw [← hcert.disk] at hend
    exact .written hcert ⟨not_lt.1 hlt, fun hsame => absurd hsame.symm heq⟩ rfl hend

theorem voteFor_ends
    (hc : store.ioFailed = false → ∃ content, store.Certified disk content) {candidate : ℕ}
    (ht : candidate < 2 ^ 64) (script : List CallOutcome) :
    Ends store disk (fun state => state.votedFor = some candidate)
      (store.voteFor disk candidate script) := by
  unfold voteFor
  split_ifs with hio hzero hsame hconflict
  · exact .silent (by simp) (by simp)
  · exact .silent (by simp) (by simp)
  · exact .silent (by simp) fun _ => ⟨by simpa using hio, hsame⟩
  · exact .silent (by simp) (by simp)
  · obtain ⟨content, hcert⟩ := hc (by simpa using hio)
    have hr : RaftMetadata.InRange ⟨store.state.currentTerm, some candidate⟩ :=
      ⟨(recover_inRange hcert.recover).currentTerm, fun _ hmem => by
        obtain rfl := Option.some.inj hmem
        exact ht⟩
    have hend := persist_end store content hr script
    rw [← hcert.disk] at hend
    have hk : store.state.KeptBy ⟨store.state.currentTerm, some candidate⟩ :=
      ⟨le_rfl, fun _ hsome => absurd hsome hconflict⟩
    exact .written hcert hk rfl hend

end MetadataStore

/-! ## Runs -/

/-- A disk with the process that has the file open, if there is one. -/
structure MetadataWorld where
  disk : MetadataDisk
  process : Option MetadataStore := none
  deriving DecidableEq

/-- What can happen to the store: calls, with what becomes of the calls on the file, reopenings
after the process has ended, and crashes of the machine. -/
inductive MetadataEvent
  | reopen (script : List CallOutcome)
  | advanceTerm (term : UInt64) (script : List CallOutcome)
  | voteFor (candidate : UInt64) (script : List CallOutcome)
  | crash (survives : Bool)

/-- What an update asks of the state that it confirms. -/
def MetadataEvent.Asks : MetadataEvent → RaftMetadata → Prop
  | .advanceTerm term _, state => state.currentTerm = term.toNat
  | .voteFor candidate _, state => state.votedFor = some candidate.toNat
  | _, _ => False

/-- A call of `advance_term` or `vote_for`. -/
def MetadataEvent.IsUpdate : MetadataEvent → Prop
  | .advanceTerm _ _ => True
  | .voteFor _ _ => True
  | _ => False

namespace MetadataWorld

/-- A machine that has just started on a file, or on none. -/
def start (content : Option Bytes) : MetadataWorld := { disk := .settled content }

/-- The world behind an update, and the result if it is reported. -/
def afterUpdate (r : MetadataStore.UpdateEnd) :
    MetadataWorld × Option PersistentMetadataUpdateResult :=
  (⟨r.1, r.2.map Prod.fst⟩, r.2.map Prod.snd)

/-- One event, with the result of an update that is reported. -/
def next (w : MetadataWorld) :
    MetadataEvent → MetadataWorld × Option PersistentMetadataUpdateResult
  | .reopen script => match MetadataStore.openFrom w.disk script with
    | .error _ => (⟨w.disk, none⟩, none)
    | .ok (store, disk) => (⟨disk, some store⟩, none)
  | .advanceTerm term script => match w.process with
    | none => (w, none)
    | some store => afterUpdate (store.advanceTerm w.disk term.toNat script)
  | .voteFor candidate script => match w.process with
    | none => (w, none)
    | some store => afterUpdate (store.voteFor w.disk candidate.toNat script)
  | .crash survives => (⟨w.disk.crash survives, none⟩, none)

def run (w : MetadataWorld) (events : List MetadataEvent) : MetadataWorld :=
  events.foldl (fun w e => (w.next e).1) w

/-- What holds between the events. -/
structure Sound (w : MetadataWorld) : Prop where
  named : w.disk.visible = none → w.disk.durable = none
  kept : ∀ store, w.process = some store → w.disk.All (MetadataStore.Keeps store.state)
  certified : ∀ store, w.process = some store → store.ioFailed = false →
    ∃ content, store.Certified w.disk content

variable {w : MetadataWorld}

/-- Whatever stands under the name or is remembered by a process keeps the state. -/
structure Floor (w : MetadataWorld) (state : RaftMetadata) : Prop where
  disk : w.disk.All (MetadataStore.Keeps state)
  process : ∀ store, w.process = some store → state.KeptBy store.state

/-- One event keeps what holds, and every state that has been kept. -/
structure StepEnd (w w' : MetadataWorld) : Prop where
  sound : w'.Sound
  keeps : ∀ state, w.Floor state → w'.Floor state

/-- What an update confirms: the store is not in doubt, and its state is as asked. -/
def Confirms (asked : RaftMetadata → Prop) (r : MetadataStore.UpdateEnd) : Prop :=
  ∀ result, (afterUpdate r).2 = some result → result = .persisted ∨ result = .unchanged →
    ∃ store, (afterUpdate r).1.process = some store ∧ store.ioFailed = false ∧ asked store.state

open MetadataStore

theorem confirms_of_ioError {asked : RaftMetadata → Prop} {disk : MetadataDisk}
    {r : Option (MetadataStore × PersistentMetadataUpdateResult)}
    (h : ∀ store result, r = some (store, result) → result = .ioError) :
    Confirms asked (disk, r) := by
  intro result hresult hconfirmed
  obtain ⟨⟨store, result'⟩, hr, rfl⟩ := Option.map_eq_some_iff.1 hresult
  rw [h store result' hr] at hconfirmed
  rcases hconfirmed with hfalse | hfalse <;> cases hfalse

variable {store : MetadataStore} {content : Option Bytes} {next : RaftMetadata}
  {asked : RaftMetadata → Prop}

theorem stepEnd_kept (hprocess : w.process = some store) (hc : store.Certified w.disk content)
    {r : Option (MetadataStore × PersistentMetadataUpdateResult)}
    (hr : r = none ∨ r = some (store, .ioError) ∨
      r = some ({ store with ioFailed := true }, .ioError)) :
    StepEnd w (afterUpdate (.settled content, r)).1 ∧ Confirms asked (.settled content, r) := by
  have hself : Keeps store.state content := ⟨_, hc.recover, .refl _⟩
  have hdisk : ∀ state, w.Floor state → (Slot.settled content).All (Keeps state) :=
    fun state hfloor => hc.disk ▸ hfloor.disk
  rcases hr with rfl | rfl | rfl
  · exact ⟨⟨⟨id, fun _ hno => (by cases hno), fun _ hno => (by cases hno)⟩, fun state hfloor =>
      ⟨hdisk state hfloor, fun _ hno => (by cases hno)⟩⟩,
      confirms_of_ioError fun _ _ hno => (by cases hno)⟩
  · refine ⟨⟨⟨id, ?_, ?_⟩, fun state hfloor => ⟨hdisk state hfloor, ?_⟩⟩,
      confirms_of_ioError fun _ _ heq => ?_⟩
    · rintro store' heq
      obtain rfl := Option.some.inj heq
      exact Slot.all_settled.2 hself
    · rintro store' heq -
      obtain rfl := Option.some.inj heq
      exact ⟨content, hc.ioFailed, rfl, hc.recover⟩
    · rintro store' heq
      obtain rfl := Option.some.inj heq
      exact hfloor.process store hprocess
    · exact (Prod.mk.inj (Option.some.inj heq)).2.symm
  · refine ⟨⟨⟨id, ?_, ?_⟩, fun state hfloor => ⟨hdisk state hfloor, ?_⟩⟩,
      confirms_of_ioError fun _ _ heq => ?_⟩
    · rintro store' heq
      obtain rfl := Option.some.inj heq
      exact Slot.all_settled.2 hself
    · rintro store' heq hio
      obtain rfl := Option.some.inj heq
      cases hio
    · rintro store' heq
      obtain rfl := Option.some.inj heq
      exact hfloor.process store hprocess
    · exact (Prod.mk.inj (Option.some.inj heq)).2.symm

theorem stepEnd_replaced (hprocess : w.process = some store)
    (hc : store.Certified w.disk content) (hk : store.state.KeptBy next) {bytes : Bytes}
    (hbytes : recover (some bytes) = some next)
    {r : Option (MetadataStore × PersistentMetadataUpdateResult)}
    (hr : r = none ∨ r = some ({ store with ioFailed := true }, .ioError)) :
    StepEnd w (afterUpdate (⟨some bytes, content⟩, r)).1 ∧
      Confirms asked (⟨some bytes, content⟩, r) := by
  have hself : Keeps store.state content := ⟨_, hc.recover, .refl _⟩
  have hnext : Keeps store.state (some bytes) := ⟨next, hbytes, hk⟩
  have hdisk : ∀ state, w.Floor state → Slot.All (Keeps state) ⟨some bytes, content⟩ :=
    fun state hfloor => ⟨⟨next, hbytes, (hfloor.process store hprocess).trans hk⟩,
      (hc.disk ▸ hfloor.disk).2⟩
  rcases hr with rfl | rfl
  · exact ⟨⟨⟨fun hno => (by cases hno), fun _ hno => (by cases hno), fun _ hno => (by cases hno)⟩,
      fun state hfloor => ⟨hdisk state hfloor, fun _ hno => (by cases hno)⟩⟩,
      confirms_of_ioError fun _ _ hno => (by cases hno)⟩
  · refine ⟨⟨⟨fun hno => (by cases hno), ?_, ?_⟩, fun state hfloor => ⟨hdisk state hfloor, ?_⟩⟩,
      confirms_of_ioError fun _ _ heq => ?_⟩
    · rintro store' heq
      obtain rfl := Option.some.inj heq
      exact ⟨hnext, hself⟩
    · rintro store' heq hio
      obtain rfl := Option.some.inj heq
      cases hio
    · rintro store' heq
      obtain rfl := Option.some.inj heq
      exact hfloor.process store hprocess
    · exact (Prod.mk.inj (Option.some.inj heq)).2.symm

theorem stepEnd_confirmed (hprocess : w.process = some store)
    (hc : store.Certified w.disk content) (hk : store.state.KeptBy next) (ha : asked next)
    {bytes : Bytes} (hbytes : recover (some bytes) = some next) :
    StepEnd w (afterUpdate (.settled (some bytes),
        some ({ store with state := next }, .persisted))).1 ∧
      Confirms asked (.settled (some bytes), some ({ store with state := next }, .persisted)) := by
  refine ⟨⟨⟨id, ?_, ?_⟩, fun state hfloor => ⟨?_, ?_⟩⟩, fun result _ _ => ?_⟩
  · rintro store' heq
    obtain rfl := Option.some.inj heq
    exact Slot.all_settled.2 ⟨next, hbytes, .refl _⟩
  · rintro store' heq -
    obtain rfl := Option.some.inj heq
    exact ⟨some bytes, hc.ioFailed, rfl, hbytes⟩
  · exact Slot.all_settled.2 ⟨next, hbytes, (hfloor.process store hprocess).trans hk⟩
  · rintro store' heq
    obtain rfl := Option.some.inj heq
    exact (hfloor.process store hprocess).trans hk
  · exact ⟨{ store with state := next }, rfl, hc.ioFailed, ha⟩

theorem Sound.update (h : w.Sound) (hprocess : w.process = some store) {r : UpdateEnd}
    (hr : Ends store w.disk asked r) : StepEnd w (afterUpdate r).1 ∧ Confirms asked r := by
  cases hr with
  | @silent result hp hu =>
    have hself : (afterUpdate (w.disk, some (store, result))).1 = w := by
      rw [afterUpdate, Option.map_some, ← hprocess]
    rw [hself]
    refine ⟨⟨h, fun _ hs => hs⟩, fun result' hresult hconfirmed => ?_⟩
    obtain rfl := Option.some.inj hresult
    exact ⟨store, rfl, hu (hconfirmed.resolve_left hp)⟩
  | written hc hk ha hr =>
    cases hr with
    | kept r hr => exact stepEnd_kept hprocess hc hr
    | replaced hbytes r hr => exact stepEnd_replaced hprocess hc hk hbytes hr
    | confirmed hbytes => exact stepEnd_confirmed hprocess hc hk ha hbytes

/-- A reopening that succeeds: a new store, or one with the state of the file, which is then
durable. -/
theorem openFrom_ends {disk disk' : MetadataDisk} {script : List CallOutcome}
    (h : openFrom disk script = .ok (store, disk')) :
    (disk.visible = none ∧ store = {} ∧ disk' = disk) ∨
      ∃ state, recover disk.visible = some state ∧ store = { state } ∧ disk' = disk.sync := by
  obtain ⟨⟨found, _⟩, hread, h⟩ := bind_eq_ok h
  have hfound : (disk.visible = none ∧ found = none) ∨
      ∃ state, recover disk.visible = some state ∧ found = some state := by
    obtain ⟨_, -, hread⟩ := bind_eq_ok hread
    obtain ⟨_, -, hread⟩ := bind_eq_ok hread
    cases hv : disk.visible with
    | none =>
      rw [hv] at hread
      exact Or.inl ⟨rfl, (Prod.mk.inj (Except.ok.inj hread)).1.symm⟩
    | some bytes =>
      rw [hv] at hread
      obtain ⟨_, -, hread⟩ := bind_eq_ok hread
      split_ifs at hread with hshort hlong
      obtain ⟨_, -, hread⟩ := bind_eq_ok hread
      split at hread
      · cases hread
      next state hdecode =>
      exact Or.inr ⟨state, recover_of_decodeRecord hdecode,
        (Prod.mk.inj (Except.ok.inj hread)).1.symm⟩
  rcases hfound with ⟨hv, rfl⟩ | ⟨state, hrecover, rfl⟩
  · obtain ⟨rfl, rfl⟩ := Prod.mk.inj (Except.ok.inj h)
    exact Or.inl ⟨hv, rfl, rfl⟩
  · obtain ⟨_, -, h⟩ := bind_eq_ok h
    obtain ⟨_, -, hend⟩ := bind_eq_ok h
    obtain ⟨rfl, rfl⟩ := Prod.mk.inj (Except.ok.inj hend)
    exact Or.inr ⟨state, hrecover, rfl, rfl⟩

theorem stepEnd_idle (h : w.Sound) : StepEnd w ⟨w.disk, none⟩ :=
  ⟨⟨h.named, fun _ hno => (by cases hno), fun _ hno => (by cases hno)⟩, fun _ hfloor =>
    ⟨hfloor.disk, fun _ hno => (by cases hno)⟩⟩

/-- A state that has been read and certified. -/
theorem stepEnd_certified {state : RaftMetadata} (hrecover : recover content = some state)
    (hdisk : content = w.disk.visible) : StepEnd w ⟨.settled content, some { state }⟩ := by
  refine ⟨⟨id, ?_, ?_⟩, fun before hfloor => ?_⟩
  · rintro store heq
    obtain rfl := Option.some.inj heq
    exact Slot.all_settled.2 ⟨state, hrecover, .refl _⟩
  · rintro store heq -
    obtain rfl := Option.some.inj heq
    exact ⟨content, rfl, rfl, hrecover⟩
  · obtain ⟨recovered, hrecovered, hkept⟩ := hdisk ▸ hfloor.disk.1
    obtain rfl := Option.some.inj (hrecovered.symm.trans hrecover)
    refine ⟨Slot.all_settled.2 ⟨recovered, hrecover, hkept⟩, ?_⟩
    rintro store heq
    obtain rfl := Option.some.inj heq
    exact hkept

theorem stepEnd_reopen (h : w.Sound) {disk : MetadataDisk} {script : List CallOutcome}
    (hopen : openFrom w.disk script = .ok (store, disk)) : StepEnd w ⟨disk, some store⟩ := by
  rcases openFrom_ends hopen with ⟨hv, rfl, hdisk⟩ | ⟨state, hrecover, rfl, rfl⟩
  · have hsettled : w.disk = .settled none := by
      have hdurable := h.named hv
      generalize w.disk = disk at hv hdurable
      obtain ⟨visible, durable⟩ := disk
      rw [show visible = none from hv, show durable = none from hdurable]
      rfl
    rw [hdisk, hsettled]
    exact stepEnd_certified rfl hv.symm
  · exact stepEnd_certified hrecover rfl

theorem next_end (h : w.Sound) (e : MetadataEvent) :
    StepEnd w (w.next e).1 ∧ ∀ result, (w.next e).2 = some result →
      result = .persisted ∨ result = .unchanged → ∃ store, (w.next e).1.process = some store ∧
        store.ioFailed = false ∧ e.Asks store.state := by
  have hself : StepEnd w w := ⟨h, fun _ hall => hall⟩
  cases e with
  | reopen script =>
    unfold next
    dsimp only
    cases hopen : openFrom w.disk script with
    | error stop => exact ⟨stepEnd_idle h, fun _ hno => (by cases hno)⟩
    | ok r =>
      obtain ⟨store, disk⟩ := r
      exact ⟨stepEnd_reopen h hopen, fun _ hno => (by cases hno)⟩
  | advanceTerm term script =>
    unfold next
    dsimp only
    cases hprocess : w.process with
    | none => exact ⟨hself, fun _ hno => (by cases hno)⟩
    | some store =>
      exact h.update hprocess
        (advanceTerm_ends (h.certified store hprocess) (UInt64.toNat_lt term) script)
  | voteFor candidate script =>
    unfold next
    dsimp only
    cases hprocess : w.process with
    | none => exact ⟨hself, fun _ hno => (by cases hno)⟩
    | some store =>
      exact h.update hprocess
        (voteFor_ends (h.certified store hprocess) (UInt64.toNat_lt candidate) script)
  | crash survives =>
    exact ⟨⟨⟨id, fun _ hno => (by cases hno), fun _ hno => (by cases hno)⟩,
      fun _ hfloor => ⟨hfloor.disk.crash survives, fun _ hno => (by cases hno)⟩⟩,
      fun _ hno => (by cases hno)⟩

theorem run_end (h : w.Sound) (events : List MetadataEvent) : StepEnd w (w.run events) := by
  induction events generalizing w with
  | nil => exact ⟨h, fun _ hall => hall⟩
  | cons e events ih =>
    have hstep := (next_end h e).1
    have hrun := ih hstep.sound
    exact ⟨hrun.sound, fun state hall => hrun.keeps state (hstep.keeps state hall)⟩

theorem sound_start (content : Option Bytes) : (start content).Sound :=
  ⟨id, fun _ hno => (by cases hno), fun _ hno => (by cases hno)⟩

theorem next_of_ioFailed (hprocess : w.process = some store) (hio : store.ioFailed = true)
    {e : MetadataEvent} (he : e.IsUpdate) : w.next e = (w, some .ioError) := by
  have hself : afterUpdate (w.disk, some (store, .ioError)) = (w, some .ioError) := by
    rw [afterUpdate, Option.map_some, ← hprocess, Option.map_some]
  cases e with
  | reopen script => exact he.elim
  | advanceTerm term script =>
    rw [next, hprocess, ← hself]
    exact congrArg afterUpdate (if_pos hio)
  | voteFor candidate script =>
    rw [next, hprocess, ← hself]
    exact congrArg afterUpdate (if_pos hio)
  | crash survives => exact he.elim

/-- What the store guarantees at every moment: what is visible in a process, and so whatever has
been recovered or confirmed, is kept by every later process; a store that is not in doubt has the
state that is durable; only such a store confirms anything; an update that gets to the rename and
is not confirmed leaves the store in doubt; and a store in doubt refuses every update until the
file is reopened. -/
structure Guarantee (w : MetadataWorld) : Prop where
  kept : ∀ store, w.process = some store → ∀ later store',
    (w.run later).process = some store' → store.state.KeptBy store'.state
  durable : ∀ store, w.process = some store → store.ioFailed = false →
    ∃ content, w.disk = .settled content ∧ recover content = some store.state
  confirmed : ∀ e result, (w.next e).2 = some result →
    result = .persisted ∨ result = .unchanged → ∃ store,
      (w.next e).1.process = some store ∧ store.ioFailed = false ∧ e.Asks store.state
  doubted : ∀ store, w.process = some store → ∀ next script bytes temp,
    encodeRaftMetadata next = .ok bytes → prepareTemp bytes script = .ok temp →
      ∀ store' result, (store.persist w.disk next script).2 = some (store', result) →
        result = .persisted ∨ store'.ioFailed = true
  refused : ∀ store, w.process = some store → store.ioFailed = true → ∀ later,
    (∀ e ∈ later, e.IsUpdate) → w.run later = w ∧
      ∀ e, e.IsUpdate → (w.next e).2 = some .ioError

theorem guarantee (h : w.Sound) : w.Guarantee where
  kept store hprocess later store' hlater := by
    have hfloor : w.Floor store.state := by
      refine ⟨h.kept store hprocess, fun store₁ hprocess₁ => ?_⟩
      obtain rfl := Option.some.inj (hprocess.symm.trans hprocess₁)
      exact .refl _
    exact ((run_end h later).keeps _ hfloor).process store' hlater
  durable store hprocess hio := by
    obtain ⟨content, hc⟩ := h.certified store hprocess hio
    exact ⟨content, hc.disk, hc.recover⟩
  confirmed e := (next_end h e).2
  doubted store _ next script bytes temp hencode htemp store' result hreported := by
    rcases persist_reported hreported with ⟨rfl, -⟩ | ⟨-, rfl, -⟩ | ⟨-, -, hstop⟩
    · exact Or.inl rfl
    · exact Or.inr rfl
    · obtain ⟨stop, hno⟩ := hstop bytes hencode
      rw [htemp] at hno
      cases hno
  refused store hprocess hio later hupdates := by
    refine ⟨?_, fun e he => by rw [next_of_ioFailed hprocess hio he]⟩
    induction later with
    | nil => rfl
    | cons e later ih =>
      have hnext := next_of_ioFailed hprocess hio (hupdates e List.mem_cons_self)
      rw [run, List.foldl_cons, hnext]
      exact ih fun e' he' => hupdates e' (List.mem_cons_of_mem _ he')

/-- **Terms and votes never regress**: in every run over faults, crashes and reopenings, from any
file or from none, every moment has the guarantee. -/
theorem never_regresses (content : Option Bytes) (events : List MetadataEvent) :
    ((start content).run events).Guarantee :=
  guarantee (run_end (sound_start content) events).sound

/-- A vote whose replacement is visible but not yet durable is lost in a crash, and the term that
was confirmed before is not. -/
example : ((start none).run [.reopen [], .advanceTerm 1 [],
      .voteFor 2 [.done 0, .done 0, .done 26, .done 0, .done 0, .done 0, .failed false],
      .crash false, .reopen []]).process = some ⟨⟨1, none⟩, false⟩ := by
  decide +kernel

end MetadataWorld

end DistributedKV
