import DistributedKV.Raft.Merge
import DistributedKV.Raft.Requests

/-!
# Repairing a follower's log

A new leader and one follower, and nothing else: the leader goes back by one entry as long as the
follower rejects its requests, and once they have met it goes forward by up to four. `Follows` says
what the follower's log has in common with the leader's at any time. The exchange never fails, and
it ends with the leader's log on both sides (`repair_agrees`).
-/

namespace DistributedKV

open RaftLeaderReplication

/-! ## The exchange -/

/-- What the exchange changes, on the leader's side and on the follower's. -/
structure Exchange where
  leader : RaftLeaderReplication
  metadata : PersistentMetadata
  commitIndex : ℕ
  peerMetadata : PersistentMetadata
  peerLog : PersistentLog
  peerCommit : ℕ

namespace Exchange

/-- The pending request is delivered, and the reply to it; `none` where a call reports an error. -/
def round (election : RaftElection) (log : PersistentLog) (peerId : ℕ) (s : Exchange) :
    Option (Exchange × AppendReplyOutcome) :=
  match s.leader.makeRequest election s.metadata log s.commitIndex peerId 4 with
  | (_, .error _) => none
  | (leader, .ok request) =>
    match handleAppendEntries s.peerMetadata s.peerLog s.peerCommit request with
    | ⟨_, _, _, .error _⟩ => none
    | ⟨peerMetadata, peerLog, peerCommit, .ok reply⟩ =>
      let r := leader.handleReply election s.metadata log s.commitIndex peerId request reply
      some (⟨r.leader, r.metadata, r.commitIndex, peerMetadata, peerLog, peerCommit⟩, r.outcome)

/-- So many rounds, and what the leader made of the replies. -/
def rounds (election : RaftElection) (log : PersistentLog) (peerId : ℕ) :
    ℕ → Exchange → Option (Exchange × List AppendReplyOutcome)
  | 0, s => some (s, [])
  | n + 1, s => do
    let (s, outcome) ← s.round election log peerId
    let (s, outcomes) ← rounds election log peerId n s
    some (s, outcome :: outcomes)

end Exchange

/-! ## The follower -/

/-- The follower's log next to the leader's log `L` in term `T`, when the leader knows of `m`
entries that they share. -/
structure Follows (L : List LogEntry) (T m : ℕ) (log : PersistentLog) (commitIndex : ℕ) :
    Prop where
  working : log.Working
  packed : log.Packed
  index : ∀ {i e}, log.log[i]? = some e → e.index = i + 1
  matched : log.log.take m = L.take m
  matching : ∀ {i x e}, log.log[i]? = some x → L[i]? = some e → x.term = e.term →
    log.log.take (i + 1) = L.take (i + 1)
  commit_le : commitIndex ≤ log.log.length
  committed : log.log.take commitIndex = L.take commitIndex
  tail : log.log.length ≤ m ∨ ∀ e ∈ log.log, e.term < T
  room : (log.log.map PersistentLog.recordSize).sum +
    ((L.drop m).map PersistentLog.recordSize).sum ≤ offMax

namespace Follows

variable {L : List LogEntry} {T m k commitIndex : ℕ} {log log' : PersistentLog}
  {metadata : PersistentMetadata} {request : AppendEntries}

theorem getElem_eq {i : ℕ} {l : List LogEntry} {x e : LogEntry} {n : ℕ}
    (h : l.take n = L.take n) (hi : i < n) (hx : l[i]? = some x) (he : L[i]? = some e) : x = e := by
  have hget := congrArg (fun l => l[i]?) h
  simp only [List.getElem?_take_of_lt hi, hx, he] at hget
  exact Option.some.inj hget

/-- Where the previous entry matches, all before it do. -/
theorem take_of_previous (h : Follows L T m log commitIndex) (hcut : request.CutFrom L)
    (hp : previousMismatch log request = false) :
    log.log.take request.prevLogIndex = L.take request.prevLogIndex := by
  cases hk : request.prevLogIndex with
  | zero => rfl
  | succ j =>
    have hle := hcut.prev_le
    have he : L[j]? = some L[j] := List.getElem?_eq_getElem (by omega)
    cases hx : log.log[j]? with
    | none => simp [previousMismatch, hk, PersistentLog.entryAt_succ, hx] at hp
    | some x =>
      refine h.matching hx he ?_
      simpa [previousMismatch, hk, PersistentLog.entryAt_succ, hx, hcut.prevTerm,
        PersistentLog.termAt_succ he] using hp

/-- The entries of a request are those of the leader. -/
theorem getElem?_entries (hcut : request.CutFrom L) {i : ℕ} {e : LogEntry}
    (he : request.entries[i]? = some e) : L[request.prevLogIndex + i]? = some e := by
  obtain ⟨rest, hrest⟩ := hcut.entries
  rw [← List.getElem?_drop, ← hrest,
    List.getElem?_append_left (List.getElem?_eq_some_iff.1 he).1, he]

/-- No entry of the leader is refused. -/
theorem not_refusable (h : Follows L T m log commitIndex) (hcut : request.CutFrom L) :
    ¬ Refusable commitIndex log.log request.prevLogIndex request.entries := by
  rintro ⟨i, x, e, hx, he, ⟨hterm, hcommand⟩ | ⟨hterm, hlt⟩⟩
  · have hL := getElem?_entries hcut he
    rw [getElem_eq (h.matching hx hL hterm) (Nat.lt_succ_self _) hx hL] at hcommand
    exact hcommand rfl
  · rw [getElem_eq h.committed hlt hx (getElem?_entries hcut he)] at hterm
    exact hterm rfl

/-- The log before the entries and the entries are the leader's log up to there. -/
theorem take_append_entries (hcut : request.CutFrom L) :
    L.take request.prevLogIndex ++ request.entries =
      L.take (request.prevLogIndex + request.entries.length) := by
  rw [List.take_add, ← List.prefix_iff_eq_take.1 hcut.entries]

theorem sum_le_of_drop {m k : ℕ} (h : m ≤ k) :
    ((L.drop k).map PersistentLog.recordSize).sum ≤
      ((L.drop m).map PersistentLog.recordSize).sum := by
  obtain ⟨j, rfl⟩ := Nat.exists_eq_add_of_le h
  have hsum := congrArg (fun l => (l.map PersistentLog.recordSize).sum)
    (List.take_append_drop j (L.drop m))
  simp only [List.map_append, List.sum_append, List.drop_drop] at hsum
  omega

/-- There is room for all of the leader's log. -/
theorem room_all (h : Follows L T m log commitIndex) :
    (L.map PersistentLog.recordSize).sum ≤ offMax := by
  have hlog := congrArg (fun l => (l.map PersistentLog.recordSize).sum)
    (List.take_append_drop m log.log)
  have hL := congrArg (fun l => (l.map PersistentLog.recordSize).sum) (List.take_append_drop m L)
  simp only [List.map_append, List.sum_append, h.matched] at hlog hL
  have hroom := h.room
  omega

/-- There is room for the entries of a request. -/
theorem room_entries (h : Follows L T m log commitIndex) (hcut : request.CutFrom L)
    (hm : m ≤ request.prevLogIndex) :
    log.fileSize + (request.entries.map PersistentLog.recordSize).sum ≤ offMax := by
  obtain ⟨rest, hrest⟩ := hcut.entries
  have hdrop := sum_le_of_drop (L := L) hm
  have hroom := h.room
  rw [← hrest, List.map_append, List.sum_append] at hdrop
  rw [h.packed.fileSize]
  omega

/-- What the merged log has in common with the leader's. -/
theorem merged (h : Follows L T m log commitIndex) (hcut : request.CutFrom L)
    (hm : m ≤ request.prevLogIndex)
    (htake : log.log.take request.prevLogIndex = L.take request.prevLogIndex)
    (hk : request.prevLogIndex ≤ log.log.length)
    (hw : log'.Working) (hpacked : log'.Packed)
    (hlog' : log'.log = merge log.log request.prevLogIndex request.entries)
    (hkept : log'.log.take commitIndex = log.log.take commitIndex) (leaderCommit : ℕ)
    (hL : LogInvariant L T) :
    Follows L T (request.prevLogIndex + request.entries.length) log'
      (max commitIndex
        (min leaderCommit (request.prevLogIndex + request.entries.length))) := by
  have hmatched : log'.log.take (request.prevLogIndex + request.entries.length) =
      L.take (request.prevLogIndex + request.entries.length) := by
    rw [List.take_add, hlog', take_merge hk, merge_holds hk, htake, take_append_entries hcut]
  have hlength : request.prevLogIndex + request.entries.length ≤ log'.log.length := by
    rw [hlog']
    exact length_merge hk
  have hfits := hcut.length_le
  -- the log is as it was, or the leader's up to the last entry of the request
  have hcases : log'.log = log.log ∨
      log'.log = L.take (request.prevLogIndex + request.entries.length) := by
    rw [hlog']
    by_cases hholds : (log.log.drop request.prevLogIndex).take request.entries.length =
        request.entries
    · exact Or.inl (merge_of_holds hholds)
    · rw [merge, if_neg hholds, htake]
      exact Or.inr (take_append_entries hcut)
  refine ⟨hw, hpacked, ?_, hmatched, ?_, ?_, ?_, ?_, ?_⟩
  · intro i e he
    rcases hcases with hsame | hcopy
    · exact h.index (hsame ▸ he)
    · exact (hL.take _).index (hcopy ▸ he)
  · intro i x e hx he hterm
    rcases hcases with hsame | hcopy
    · rw [hsame] at hx ⊢
      exact h.matching hx he hterm
    · have hlt := (List.getElem?_eq_some_iff.1 hx).1
      rw [hcopy, List.length_take] at hlt
      rw [hcopy, List.take_take, Nat.min_eq_left (by omega)]
  · have hlen := congrArg List.length hkept
    rw [List.length_take, List.length_take, Nat.min_eq_left h.commit_le] at hlen
    omega
  · rcases Nat.le_total (min leaderCommit
        (request.prevLogIndex + request.entries.length)) commitIndex with hle | hle
    · rw [Nat.max_eq_left hle, hkept, h.committed]
    · rw [Nat.max_eq_right hle, ← Nat.min_eq_left (Nat.min_le_right leaderCommit _),
        ← List.take_take, hmatched, List.take_take]
  · rcases hcases with hsame | hcopy
    · rw [hsame]
      exact h.tail.imp_left fun htail => by omega
    · rw [hcopy, List.length_take]
      exact Or.inl (Nat.min_le_left _ _)
  · rcases hcases with hsame | hcopy
    · have hroom := h.room
      have hdrop := sum_le_of_drop (L := L)
        (show m ≤ request.prevLogIndex + request.entries.length by omega)
      rw [hsame]
      omega
    · rw [hcopy, ← List.sum_append, ← List.map_append, List.take_append_drop]
      exact h.room_all

/-- **The follower's half of a round**: it rejects the request if the leader is ahead of what they
share, or it takes the entries over. -/
theorem deliver (h : Follows L T m log commitIndex) (hL : LogInvariant L T)
    (hlen : L.length ≤ uint64Max) (hcut : request.CutFrom L) (hterm : request.term = T)
    (h0 : T ≠ 0) (hm : m ≤ request.prevLogIndex) (hio : metadata.ioFailed = false)
    (ht : metadata.state.currentTerm = T) :
    (m < request.prevLogIndex ∧ handleAppendEntries metadata log commitIndex request =
      ⟨metadata, log, commitIndex, .ok ⟨T, false⟩⟩) ∨
    ∃ log' commitIndex', handleAppendEntries metadata log commitIndex request =
        ⟨metadata, log', commitIndex', .ok ⟨T, true⟩⟩ ∧
      Follows L T (request.prevLogIndex + request.entries.length) log' commitIndex' := by
  subst hterm
  have hunchanged : metadata.advanceTerm request.term = (metadata, .unchanged) := by
    simp [PersistentMetadata.advanceTerm, hio, ht]
  have hvalid := hcut.validEntries hL hlen
  have hcommit : ¬ log.lastIndex < commitIndex := by
    have hle := h.commit_le
    rw [PersistentLog.length_log] at hle
    omega
  cases hp : previousMismatch log request with
  | true =>
    refine Or.inl ⟨lt_of_le_of_ne hm fun heq => ?_, ?_⟩
    · have hprevious : L.take request.prevLogIndex <+: log.log := by
        rw [← heq, ← h.matched]
        exact List.take_prefix m log.log
      rw [hcut.previousMismatch_eq_false hprevious] at hp
      cases hp
    · simp [handleAppendEntries, hunchanged, ht, h0, hvalid, hcommit, hp]
  | false =>
    have htake := h.take_of_previous hcut hp
    have hk := prevLogIndex_le hp
    have hconsecutive : Consecutive request.prevLogIndex request.entries :=
      consecutive_of_validEntriesFrom (validEntries_fields hvalid).2.2
    have hend := appendLoop_merges commitIndex hconsecutive hk h.index h.commit_le
    have hworks : LoopWorks (appendLoop commitIndex log request.entries) :=
      appendLoop_working hconsecutive hk h.working h.packed (h.room_entries hcut hm)
    refine Or.inr ?_
    cases hloop : appendLoop commitIndex log request.entries with
    | mk log' result =>
      rw [hloop] at hend hworks
      cases hend with
      | merged _ hmerged hkept =>
        refine ⟨log', max commitIndex (min request.leaderCommit
          (request.prevLogIndex + request.entries.length)), ?_,
          h.merged hcut hm htake hk hworks.working hworks.packed hmerged hkept _ hL⟩
        simp [handleAppendEntries, hunchanged, ht, h0, hvalid, hcommit, hp, hloop]
      | refused _ _ hrefusable => exact absurd hrefusable (h.not_refusable hcut)
      | failed => exact absurd rfl hworks.result

end Follows

/-! ## The leader -/

namespace RaftLeaderReplication

variable {leader : RaftLeaderReplication} {election : RaftElection}
  {metadata : PersistentMetadata} {log : PersistentLog} {commitIndex peerId : ℕ} {i : Fin 2}
  {request : AppendEntries}

/-- A leader that is to send to a peer without a pending request cuts one from its log. -/
theorem makeRequest_eq (hi : leader.findPeer peerId = some i)
    (hactive : leader.active election metadata = true) (hp : (leader.peers i).pending = none)
    {k maxEntries : ℕ} (hnext : (leader.peers i).progress.nextIndex = k + 1)
    (hk : k ≤ log.lastIndex) (hcommit : commitIndex ≤ log.lastIndex) (hmax : maxEntries ≠ 0) :
    leader.makeRequest election metadata log commitIndex peerId maxEntries =
      (leader.setPeer i { leader.peers i with
          pending := some (leader.requestFrom log.log commitIndex k maxEntries) },
        .ok (leader.requestFrom log.log commitIndex k maxEntries)) := by
  have hend := makeRequest_rule leader election metadata log commitIndex peerId maxEntries
  generalize leader.makeRequest election metadata log commitIndex peerId maxEntries = r at hend
  cases hend with
  | error e hwhy =>
    exfalso
    rcases hwhy with h | h | h | h | ⟨j, hj, h⟩
    · simp [h] at hi
    · simp [h] at hactive
    · exact hmax h
    · omega
    · obtain rfl := Option.some.inj (hi.symm.trans hj)
      omega
  | pending j hj request h =>
    obtain rfl := Option.some.inj (hi.symm.trans hj)
    rw [hp] at h
    cases h
  | fresh j hj h k' hk' =>
    obtain rfl := Option.some.inj (hi.symm.trans hj)
    obtain rfl : k = k' := by omega
    rfl

theorem cutFrom_requestFrom (leader : RaftLeaderReplication) {L : List LogEntry} {k : ℕ}
    (hk : k ≤ L.length) (commitIndex maxEntries : ℕ) :
    (leader.requestFrom L commitIndex k maxEntries).CutFrom L :=
  ⟨hk, rfl, List.take_prefix _ _, fun h => absurd rfl h⟩

/-- A rejection of the pending request takes the leader one entry back. -/
theorem handleReply_rejected (hi : leader.findPeer peerId = some i)
    (hactive : leader.active election metadata = true)
    (hp : (leader.peers i).pending = some request)
    (hlow : (leader.peers i).progress.matchIndex + 1 < (leader.peers i).progress.nextIndex) :
    leader.handleReply election metadata log commitIndex peerId request ⟨leader.term, false⟩ =
      ⟨leader.setPeer i ⟨(leader.peers i).id, ⟨(leader.peers i).progress.nextIndex - 1,
        (leader.peers i).progress.matchIndex⟩, none⟩, metadata, commitIndex, .retry⟩ := by
  simp [handleReply, hi, hactive, hp, hlow]

/-- An acceptance of the pending request takes the leader forward. -/
theorem handleReply_accepted (hi : leader.findPeer peerId = some i)
    (hactive : leader.active election metadata = true)
    (hp : (leader.peers i).pending = some request) (hcommit : commitIndex ≤ log.lastIndex) :
    ∃ commitIndex' outcome, leader.handleReply election metadata log commitIndex peerId request
        ⟨leader.term, true⟩ =
          ⟨leader.setPeer i (accepted (leader.peers i)
            (request.prevLogIndex + request.entries.length)), metadata, commitIndex', outcome⟩ ∧
      commitIndex' ≤ log.lastIndex ∧ (outcome = .recorded ∨ outcome = .committed) := by
  cases hc : (leader.setPeer i (accepted (leader.peers i)
      (request.prevLogIndex + request.entries.length))).advanceCommitIndex log commitIndex with
  | none =>
    refine ⟨commitIndex, .recorded, ?_, hcommit, Or.inl rfl⟩
    rw [accepted] at hc ⊢
    simp [handleReply, hi, hactive, hp, hc]
  | some c =>
    refine ⟨c, .committed, ?_, ?_, Or.inr rfl⟩
    · rw [accepted] at hc ⊢
      simp [handleReply, hi, hactive, hp, hc]
    · obtain ⟨k, e, rfl, -, he, -⟩ := advanceCommitIndex_eq_some hc
      have hlt := (List.getElem?_eq_some_iff.1 he).1
      rwa [PersistentLog.length_log] at hlt

end RaftLeaderReplication

/-! ## The rounds -/

/-- Leader and follower between two rounds, in the leader's term. -/
structure Repairing (election : RaftElection) (log : PersistentLog) (peerId : ℕ) (i : Fin 2)
    (s : Exchange) : Prop where
  active : s.leader.active election s.metadata = true
  find : s.leader.findPeer peerId = some i
  pending : (s.leader.peers i).pending = none
  match_lt : (s.leader.peers i).progress.matchIndex < (s.leader.peers i).progress.nextIndex
  next_le : (s.leader.peers i).progress.nextIndex ≤ log.lastIndex + 1
  commit_le : s.commitIndex ≤ log.lastIndex
  ioFailed : s.peerMetadata.ioFailed = false
  term : s.peerMetadata.state.currentTerm = s.leader.term
  follows : Follows log.log s.leader.term (s.leader.peers i).progress.matchIndex s.peerLog
    s.peerCommit

/-- The leader's log, with its entries in order and room for their indices. -/
structure LeaderLog (log : PersistentLog) (T : ℕ) : Prop where
  invariant : LogInvariant log.log T
  length_le : log.log.length ≤ uint64Max
  term_ne : T ≠ 0

/-- What a round does to the leader's record of the peer. -/
inductive Progressed (last : ℕ) (peer peer' : PeerProgress) : AppendReplyOutcome → Prop
  | retry (hn : peer'.nextIndex + 1 = peer.nextIndex) (hm : peer'.matchIndex = peer.matchIndex) :
      Progressed last peer peer' .retry
  | accepted {outcome : AppendReplyOutcome} (ho : outcome = .recorded ∨ outcome = .committed)
      (hn : peer'.nextIndex = peer'.matchIndex + 1)
      (hm : peer'.matchIndex = last ∨ peer.matchIndex < peer'.matchIndex) :
      Progressed last peer peer' outcome

theorem Repairing.round {election : RaftElection} {log : PersistentLog} {peerId : ℕ} {i : Fin 2}
    {s : Exchange} (h : Repairing election log peerId i s) (hlog : LeaderLog log s.leader.term) :
    ∃ s' outcome, s.round election log peerId = some (s', outcome) ∧
      Repairing election log peerId i s' ∧ s'.leader.term = s.leader.term ∧
      Progressed log.lastIndex (s.leader.peers i).progress (s'.leader.peers i).progress
        outcome := by
  obtain ⟨k, hnext⟩ : ∃ k, (s.leader.peers i).progress.nextIndex = k + 1 :=
    Nat.exists_eq_succ_of_ne_zero (Nat.ne_of_gt (Nat.zero_lt_of_lt h.match_lt))
  have hk : k ≤ log.lastIndex := by
    have hle := h.next_le
    omega
  have hmatch : (s.leader.peers i).progress.matchIndex ≤ k := by
    have hlt := h.match_lt
    omega
  have hrequest := makeRequest_eq h.find h.active h.pending hnext hk h.commit_le
    (show 4 ≠ 0 by decide)
  have hcut := s.leader.cutFrom_requestFrom (PersistentLog.length_log log ▸ hk) s.commitIndex 4
  generalize hr : s.leader.requestFrom log.log s.commitIndex k 4 = request at hrequest hcut
  have hprev : request.prevLogIndex = k := by rw [← hr]; rfl
  have hterm : request.term = s.leader.term := by rw [← hr]; rfl
  have hlength : request.entries.length = min 4 (log.lastIndex - k) := by
    rw [← hr, requestFrom, List.length_take, List.length_drop, PersistentLog.length_log]
  -- the leader once the request is out
  obtain ⟨sent, hsent⟩ : ∃ sent, sent =
      s.leader.setPeer i { s.leader.peers i with pending := some request } := ⟨_, rfl⟩
  rw [← hsent] at hrequest
  have hid : (sent.peers i).id = (s.leader.peers i).id := by rw [hsent, setPeer_self]
  have hprogress : (sent.peers i).progress = (s.leader.peers i).progress := by
    rw [hsent, setPeer_self]
  have hfind : sent.findPeer peerId = some i := by
    rw [hsent, findPeer_setPeer (by rfl), h.find]
  have hactive : sent.active election s.metadata = true := hsent ▸ h.active
  have hsentTerm : sent.term = s.leader.term := by rw [hsent, setPeer]
  have hpending : (sent.peers i).pending = some request := by rw [hsent, setPeer_self]
  -- the leader once the reply is in
  have hnext' : ∀ {peer : PeerState} {commitIndex peerCommit : ℕ} {peerLog : PersistentLog},
      peer.id = (s.leader.peers i).id → peer.pending = none →
      peer.progress.matchIndex < peer.progress.nextIndex →
      peer.progress.nextIndex ≤ log.lastIndex + 1 → commitIndex ≤ log.lastIndex →
      Follows log.log s.leader.term peer.progress.matchIndex peerLog peerCommit →
      Repairing election log peerId i ⟨sent.setPeer i peer, s.metadata, commitIndex,
        s.peerMetadata, peerLog, peerCommit⟩ := by
    intro peer commitIndex peerCommit peerLog hpeer hp hlt hle hcommit hfollows
    refine ⟨hactive, ?_, ?_, ?_, ?_, hcommit, h.ioFailed, ?_, ?_⟩
    · rw [findPeer_setPeer (hpeer.trans hid.symm), hfind]
    · rw [setPeer_self, hp]
    · rwa [setPeer_self]
    · rwa [setPeer_self]
    · exact h.term.trans hsentTerm.symm
    · rw [setPeer_self]
      exact hsentTerm ▸ hfollows
  have hdeliver := h.follows.deliver hlog.invariant hlog.length_le hcut hterm hlog.term_ne
    (hprev ▸ hmatch) h.ioFailed h.term
  unfold Exchange.round
  rw [hrequest]
  dsimp only
  rcases hdeliver with ⟨hlt, hreject⟩ | ⟨log', commitIndex', haccept, hfollows⟩
  · rw [hreject]
    dsimp only
    rw [← hsentTerm, handleReply_rejected hfind hactive hpending (by rw [hprogress]; omega)]
    refine ⟨_, _, rfl, hnext' hid rfl ?_ ?_ h.commit_le ?_, rfl, ?_⟩
    · rw [hprogress]
      dsimp only
      omega
    · rw [hprogress]
      dsimp only
      omega
    · rw [hprogress]
      exact h.follows
    · refine .retry ?_ ?_
      · rw [setPeer_self, hprogress, hnext]
        rfl
      · rw [setPeer_self, hprogress]
  · rw [haccept]
    dsimp only
    obtain ⟨commitIndex, outcome, hreply, hcommit, houtcome⟩ :=
      handleReply_accepted hfind hactive hpending h.commit_le
    rw [← hsentTerm, hreply]
    have hmax : max (s.leader.peers i).progress.matchIndex
        (request.prevLogIndex + request.entries.length) =
          request.prevLogIndex + request.entries.length := by omega
    have hfits := hcut.length_le
    rw [PersistentLog.length_log] at hfits
    refine ⟨_, _, rfl, hnext' hid rfl (Nat.lt_succ_self _) ?_ hcommit ?_, rfl, ?_⟩
    · rw [accepted, hprogress, hmax]
      exact Nat.succ_le_succ hfits
    · rw [accepted, hprogress, hmax]
      exact hfollows
    · refine .accepted houtcome ?_ ?_
      · rw [setPeer_self, accepted]
      · rw [setPeer_self, accepted, hprogress]
        dsimp only
        omega

/-- **The rounds**: none fails, the rejections use up the way back, and with every acceptance the
leader knows of more until it knows of everything. -/
theorem Repairing.rounds {election : RaftElection} {log : PersistentLog} {peerId : ℕ} {i : Fin 2}
    {s : Exchange} (h : Repairing election log peerId i s) (hlog : LeaderLog log s.leader.term)
    (n : ℕ) :
    ∃ s' outcomes, s.rounds election log peerId n = some (s', outcomes) ∧
      Repairing election log peerId i s' ∧ s'.leader.term = s.leader.term ∧
      (∀ o ∈ outcomes, o = .retry ∨ o = .recorded ∨ o = .committed) ∧
      outcomes.count .retry + (s.leader.peers i).progress.matchIndex + 1 ≤
        (s.leader.peers i).progress.nextIndex ∧
      ((s.leader.peers i).progress.nextIndex + log.lastIndex ≤
          n + 2 * (s.leader.peers i).progress.matchIndex + 1 →
        (s'.leader.peers i).progress.matchIndex = log.lastIndex) := by
  induction n generalizing s with
  | zero =>
    have hlt := h.match_lt
    have hle := h.next_le
    refine ⟨s, [], rfl, h, rfl, by simp, ?_, fun hn => ?_⟩
    · rw [List.count_nil]
      omega
    · omega
  | succ n ih =>
    obtain ⟨s₁, outcome, hround, h₁, hterm₁, hprogress⟩ := h.round hlog
    obtain ⟨s', outcomes, hrounds, h', hterm', hall, hcount, hdone⟩ := ih h₁ (hterm₁ ▸ hlog)
    refine ⟨s', outcome :: outcomes, ?_, h', hterm'.trans hterm₁, ?_, ?_, fun hn => ?_⟩
    · rw [Exchange.rounds, hround, Option.bind_eq_bind, Option.bind_some]
      dsimp only
      rw [hrounds]
      rfl
    · intro o ho
      rcases List.mem_cons.1 ho with rfl | ho
      · cases hprogress with
        | retry => exact Or.inl rfl
        | accepted ho => exact Or.inr ho
      · exact hall o ho
    · have hlt := h.match_lt
      generalize (s.leader.peers i).progress = peer, (s₁.leader.peers i).progress = peer₁
        at hprogress hcount hlt ⊢
      cases hprogress with
      | retry hnext hmatch =>
        rw [List.count_cons_self]
        omega
      | accepted ho hnext hmatch =>
        rw [List.count_cons_of_ne (by rcases ho with rfl | rfl <;> simp)]
        omega
    · have hlt := h.match_lt
      have hle₁ := h₁.next_le
      generalize (s.leader.peers i).progress = peer, (s₁.leader.peers i).progress = peer₁
        at hprogress hdone hlt hle₁ hn
      refine hdone ?_
      cases hprogress with
      | retry hnext hmatch => omega
      | accepted ho hnext hmatch => omega

/-! ## Agreement -/

namespace RaftLeaderReplication

variable {leader leader' : RaftLeaderReplication} {election : RaftElection}
  {metadata : PersistentMetadata} {log log' : PersistentLog} {commitIndex index : ℕ}
  {command : Command}

/-- A new leader is active. -/
theorem active_of_create (h : create election metadata log commitIndex = some leader) :
    leader.active election metadata = true ∧ leader.term ≠ 0 ∧
      log.lastIndex + 1 < uint64Max ∧ commitIndex ≤ log.lastIndex := by
  have hleader := create_eq_some h
  unfold create at h
  dsimp only at h
  split_ifs at h with hguard
  simp only [not_or, not_lt, not_le, ne_eq, not_not] at hguard
  obtain ⟨h0, hmax, hcommit, hrole, hvote⟩ := hguard
  subst hleader
  exact ⟨by simp [active, hrole, hvote], h0, by omega, hcommit⟩

theorem appendCommand_eq_ok (h : leader.appendCommand election metadata log command =
    (leader', log', .ok index)) : leader' = leader ∧
      log.append ⟨log.lastIndex + 1, leader.term, command⟩ = (log', .appended) := by
  unfold appendCommand at h
  dsimp only at h
  split_ifs at h
  · simp at h
  · simp at h
  cases happend : log.append ⟨log.lastIndex + 1, leader.term, command⟩ with
  | mk log₁ result =>
    rw [happend] at h
    cases result with
    | appended =>
      obtain ⟨rfl, hrest⟩ := Prod.mk.inj h
      exact ⟨rfl, by rw [(Prod.mk.inj hrest).1]⟩
    | unexpectedIndex | invalidEntry | ioError => simp at h

end RaftLeaderReplication

/-- **Log repair ends in agreement**: a new leader that has appended its no-op, and a follower in
its term with a log that matches the leader's as the logs of two nodes do, with storage that works
and nothing committed but what they share. However many rounds they go through, no call fails and
the leader never finds the follower inconsistent; it sees no more rejections than it had entries
before its no-op, and in the end the follower has the leader's log and the leader knows. -/
theorem repair_agrees {election : RaftElection} {metadata peerMetadata : PersistentMetadata}
    {oldLog leaderLog peerLog : PersistentLog} {leader leader' : RaftLeaderReplication}
    {commitIndex index peerId peerCommit : ℕ}
    (hcreate : create election metadata oldLog commitIndex = some leader)
    (hnoop : leader.appendCommand election metadata oldLog {} = (leader', leaderLog, .ok index))
    (hlog : LogInvariant leaderLog.log metadata.state.currentTerm)
    (hpeer : ∃ j, peerId = election.peerIds j)
    (hmetadata : peerMetadata.Working)
    (hterm : peerMetadata.state.currentTerm = metadata.state.currentTerm)
    (hbuilt : peerLog.Built) (hworking : peerLog.Working)
    (hroom : peerLog.fileSize + (leaderLog.log.map PersistentLog.recordSize).sum ≤ offMax)
    (hbelow : ∀ e ∈ peerLog.log, e.term < metadata.state.currentTerm)
    (hmatching : ∀ i x e, peerLog.log[i]? = some x → leaderLog.log[i]? = some e →
      x.term = e.term → peerLog.log.take (i + 1) = leaderLog.log.take (i + 1))
    (hcommit : peerCommit ≤ peerLog.lastIndex)
    (hcommitted : peerLog.log.take peerCommit = leaderLog.log.take peerCommit) (n : ℕ) :
    ∃ s outcomes, Exchange.rounds election leaderLog peerId n
        ⟨leader', metadata, commitIndex, peerMetadata, peerLog, peerCommit⟩ = some (s, outcomes) ∧
      (∀ o ∈ outcomes, o = .retry ∨ o = .recorded ∨ o = .committed) ∧
      outcomes.count .retry ≤ oldLog.lastIndex ∧
      (oldLog.lastIndex + leaderLog.lastIndex ≤ n → s.peerLog.log = leaderLog.log ∧
        s.leader.progress peerId = some ⟨leaderLog.lastIndex + 1, leaderLog.lastIndex⟩) := by
  obtain ⟨hactive, h0, hmax, hle⟩ := active_of_create hcreate
  obtain ⟨rfl, happend⟩ := appendCommand_eq_ok hnoop
  have hleader := create_eq_some hcreate
  have hleaderTerm : leader'.term = metadata.state.currentTerm := by rw [hleader]
  have hlast := PersistentLog.log_of_append happend
  have hlength : leaderLog.lastIndex = oldLog.lastIndex + 1 := by
    rw [← PersistentLog.length_log, hlast, List.length_append, PersistentLog.length_log]
    rfl
  have hid : ∀ j, (leader'.peers j).id = election.peerIds j := fun j => by rw [hleader]
  obtain ⟨i, hi⟩ : ∃ i, leader'.findPeer peerId = some i := by
    obtain ⟨j, rfl⟩ := hpeer
    rw [findPeer, hid, hid]
    by_cases hzero : election.peerIds 0 = election.peerIds j
    · exact ⟨0, if_pos hzero⟩
    · have hall : ∀ j : Fin 2, j = 0 ∨ j = 1 := by decide
      refine ⟨1, ?_⟩
      rw [if_neg hzero, if_pos]
      rcases hall j with rfl | rfl
      · exact absurd rfl hzero
      · rfl
  have hprogress : (leader'.peers i).progress = ⟨oldLog.lastIndex + 1, 0⟩ := by rw [hleader]
  have hstart : Repairing election leaderLog peerId i
      ⟨leader', metadata, commitIndex, peerMetadata, peerLog, peerCommit⟩ := by
    refine ⟨hactive, hi, by rw [hleader], ?_, ?_, ?_, hmetadata.ioFailed,
      hterm.trans hleaderTerm.symm, ?_⟩
    · rw [hprogress]
      exact Nat.succ_pos _
    · rw [hprogress, hlength]
      exact Nat.le_succ _
    · exact hle.trans (hlength ▸ Nat.le_succ _)
    · rw [hprogress]
      refine ⟨hworking, hbuilt.packed, hbuilt.sequential.1.index, rfl, hmatching _ _ _,
        PersistentLog.length_log peerLog ▸ hcommit, hcommitted, Or.inr (hleaderTerm ▸ hbelow), ?_⟩
      rw [← hbuilt.packed.fileSize]
      exact hroom
  have hleaderLog : LeaderLog leaderLog leader'.term := by
    refine ⟨hleaderTerm ▸ hlog, ?_, h0⟩
    rw [PersistentLog.length_log]
    omega
  obtain ⟨s, outcomes, hrounds, hs, hsterm, hall, hcount, hdone⟩ := hstart.rounds hleaderLog n
  refine ⟨s, outcomes, hrounds, hall, ?_, fun hn => ?_⟩
  · rw [hprogress] at hcount
    dsimp only at hcount
    omega
  · have hmatch : (s.leader.peers i).progress.matchIndex = leaderLog.lastIndex := by
      refine hdone ?_
      rw [hprogress]
      dsimp only
      omega
    have hfollows := hs.follows
    rw [hmatch, ← PersistentLog.length_log] at hfollows
    have htake : s.peerLog.log.take leaderLog.log.length = leaderLog.log := by
      rw [hfollows.matched, List.take_length]
    constructor
    · rcases hfollows.tail with hshort | hlow
      · rwa [List.take_of_length_le hshort] at htake
      · -- the follower holds the no-op
        have hmem : LogEntry.mk (oldLog.lastIndex + 1) leader'.term {} ∈ s.peerLog.log := by
          refine List.mem_of_mem_take (i := leaderLog.log.length) ?_
          rw [htake, hlast]
          exact List.mem_append_right _ (List.mem_singleton.2 rfl)
        exact absurd (hlow _ hmem) (by rw [hsterm]; exact lt_irrefl _)
    · have hlt := hs.match_lt
      have hnext := hs.next_le
      rw [hmatch] at hlt
      rw [progress, hs.find, Option.map_some, Option.some.injEq]
      cases hp : (s.leader.peers i).progress with
      | mk next matchIndex =>
        rw [hp] at hmatch hlt hnext
        dsimp only at hmatch hlt hnext
        rw [hmatch, show next = leaderLog.lastIndex + 1 by omega]

/-- Node 1 has won the election of term 2. -/
def wonElection : RaftElection where
  selfId := 1
  peerIds i := if i = 0 then 2 else 3
  cachedRole := .leader
  electionTerm := 2

def wonRecord : PersistentMetadata := .openFrom ⟨2, some 1⟩

/-- The log of the new leader: its follower has two entries that it lacks. -/
def shorterLog : PersistentLog := .openFrom [⟨1, 1, {}⟩]

theorem repair_agrees_diverged : ∃ leader s outcomes,
    create wonElection wonRecord shorterLog 1 = some leader ∧
    Exchange.rounds wonElection (shorterLog.append ⟨2, 2, {}⟩).1 3 3
      ⟨leader, wonRecord, 1, .openFrom ⟨2, none⟩, divergedLog, 1⟩ = some (s, outcomes) ∧
    s.peerLog.log = [⟨1, 1, {}⟩, ⟨2, 2, {}⟩] := by
  have hbuilt : divergedLog.Built :=
    .reopened ((((PersistentLog.Built.opened []).append ⟨1, 1, {}⟩).append ⟨2, 1, {}⟩).append
      ⟨3, 1, {}⟩) []
  have hleaderLog : (shorterLog.append ⟨2, 2, {}⟩).1.log = [⟨1, 1, {}⟩, ⟨2, 2, {}⟩] := rfl
  have hcreate : create wonElection wonRecord shorterLog 1 = some ⟨1, 2,
      fun i => ⟨wonElection.peerIds i, ⟨2, 0⟩, none⟩, false⟩ := rfl
  have hinvariant : LogInvariant (shorterLog.append ⟨2, 2, {}⟩).1.log 2 := by
    have hfirst := (LogInvariant.nil 2).concat (e := ⟨1, 1, {}⟩) rfl
      (encodable_noOp (by decide) (by decide)) (by simp) (by decide)
    exact hfirst.concat (e := ⟨2, 2, {}⟩) rfl (encodable_noOp (by decide) (by decide)) (by simp)
      (by decide)
  have hmatching : ∀ i x e, divergedLog.log[i]? = some x →
      (shorterLog.append ⟨2, 2, {}⟩).1.log[i]? = some e → x.term = e.term →
        divergedLog.log.take (i + 1) = (shorterLog.append ⟨2, 2, {}⟩).1.log.take (i + 1) := by
    intro i x e hx he hterm
    match i with
    | 0 => rfl
    | 1 =>
      obtain rfl := Option.some.inj hx
      obtain rfl := Option.some.inj he
      cases hterm
    | i + 2 => cases he
  obtain ⟨s, outcomes, hrounds, -, -, hdone⟩ := @repair_agrees wonElection wonRecord
    (.openFrom ⟨2, none⟩) shorterLog (shorterLog.append ⟨2, 2, {}⟩).1 divergedLog _ _ 1 2 3 1
    hcreate rfl hinvariant ⟨1, rfl⟩ ⟨rfl, rfl⟩ rfl hbuilt ⟨rfl, rfl⟩ (by decide) (by decide)
    hmatching (by decide) rfl 3
  exact ⟨_, s, outcomes, hcreate, hrounds, (hdone (by decide)).1.trans hleaderLog⟩

end DistributedKV
