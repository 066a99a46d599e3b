import DistributedKV.Cluster.Simulation

/-!
# Safety of the cluster

What holds of every run of the cluster, whatever is lost, duplicated, delayed or reordered, and
wherever a process crashes: one leader a term, matching logs, sound replication progress, and
committed entries that stay.
-/

namespace DistributedKV

open Replication (CommittedBy Backed)

theorem Disk.entryAt_eq (disk : Disk) (index : ℕ) :
    disk.entryAt index = if index = 0 then none else disk.log[index - 1]? := by
  rw [entryAt, PersistentLog.entryAt_eq, PersistentLog.log_openFrom]

/-- The entries of a prefix of a log, by index. -/
theorem PersistentLog.entryAt_of_prefix {log : PersistentLog} {l : List LogEntry} {c i : ℕ}
    {e : LogEntry} (hp : log.log.take c <+: l) (hi : i ≤ c) (he : log.entryAt i = some e) :
    i ≠ 0 ∧ l[i - 1]? = some e := by
  rw [PersistentLog.entryAt_eq] at he
  split_ifs at he with h0
  refine ⟨h0, Replication.getElem?_of_prefix hp ?_⟩
  rw [List.getElem?_take_of_lt (by omega), he]

/-- The entry that a request carries for an index. -/
def AppendEntries.entryAt (request : AppendEntries) (index : ℕ) : Option LogEntry :=
  if index ≤ request.prevLogIndex then none else request.entries[index - request.prevLogIndex - 1]?

namespace Cluster.Run

/-- The request with the first entry of term 1. -/
def firstAppend : AppendEntries := ⟨1, 1, 0, 0, [⟨1, 1, {}⟩], 0, 0⟩

/-- Node 1 is elected in term 1 and commits its first entry, which only node 2 has copied. Then
node 2 is elected in term 2. -/
def electedActions : List Action :=
  [.restart 1, .restart 2, .call 1 .electionTimeout {},
    .call 2 (.deliver ⟨1, 2, .requestVote ⟨1, 1, 0, 0⟩, none⟩) {},
    .call 1 (.deliver ⟨2, 1, .requestVoteReply ⟨1, true⟩, none⟩) {},
    .call 2 (.deliver ⟨1, 2, .appendEntries firstAppend, none⟩) {},
    .call 1 (.deliver ⟨2, 1, .appendEntriesReply ⟨1, true⟩, some firstAppend⟩) {},
    .call 2 .electionTimeout {},
    .call 1 (.deliver ⟨2, 1, .requestVote ⟨2, 2, 1, 1⟩, none⟩) {},
    .call 2 (.deliver ⟨1, 2, .requestVoteReply ⟨2, true⟩, none⟩) {}]

theorem electedActions_possible :
    (electedActions.foldlM (World.next serverCluster) World.init).isSome := by
  decide +kernel

def electedRun : serverCluster.Run := .ofActions electedActions electedActions_possible

variable {cluster : Cluster} {r : cluster.Run} {g : ℕ → Abstract}

/-! ## Election safety -/

/-- The votes of the abstract state have been on disk. -/
theorem Ghost.vote_recorded (h : r.Ghost g) {p T c : ℕ} {j : ℕ} (hj : j ≤ r.length)
    (hv : (g j).vote p T = some c) :
    ∃ i ≤ j, ((r.state i).slots p).disk.metadata = ⟨T, some c⟩ := by
  induction j with
  | zero =>
    rw [h.zero] at hv
    cases hv
  | succ j ih =>
    have hlater : (g j).vote p T = some c →
        ∃ i ≤ j + 1, ((r.state i).slots p).disk.metadata = ⟨T, some c⟩ := fun hv => by
      obtain ⟨i, hi, hm⟩ := ih (by omega) hv
      exact ⟨i, hi.trans (Nat.le_succ j), hm⟩
    obtain ⟨n, he⟩ := (h.moves j hj).effect
    by_cases hp : p = n
    · subst hp
      rcases he.votes hv with hv | ⟨ht, -⟩
      · exact hlater hv
      · have hrec := (h.disk hj p).recorded
        have hterm : ((r.state (j + 1)).slots p).disk.metadata.currentTerm = T := by
          rw [← hrec.term, ht]
        have hvote := hrec.vote
        rw [hterm, hv] at hvote
        refine ⟨j + 1, le_rfl, ?_⟩
        rw [← hterm, hvote]
    · rw [he.steps.frame.vote p hp] at hv
      exact hlater hv

/-- **Election safety**: at most one node ever reports to be the leader of a term, and only if two
nodes have durably voted for it in that term. -/
theorem election_safety (r : cluster.Run) :
    (∀ j ≤ r.length, ∀ k ≤ r.length, ∀ n p node node', (r.state j).slots n = .up node →
      (r.state k).slots p = .up node' → node.role = .leader → node'.role = .leader →
      node.term = node'.term → n = p) ∧
    ∀ j ≤ r.length, ∀ n node, (r.state j).slots n = .up node → node.role = .leader →
      ∃ p q, p ≠ q ∧ ∀ x ∈ [p, q], x ∈ cluster.members ∧
        ∃ i ≤ j, ((r.state i).slots x).disk.metadata = ⟨node.term, some n⟩ := by
  obtain ⟨g, h⟩ := r.exists_ghost
  constructor
  · intro j hj k hk n p node node' hn hp hrole hrole' ht
    obtain ⟨L, hL⟩ := (h.slot hj hn).2.leads hrole
    obtain ⟨L', hL'⟩ := (h.slot hk hp).2.leads hrole'
    obtain ⟨X, hX, -⟩ := (h.grows hj le_rfl).leader hL
    obtain ⟨X', hX', -⟩ := (h.grows hk le_rfl).leader hL'
    rw [ht, hX'] at hX
    exact (Prod.mk.inj (Option.some.inj hX)).1.symm
  · intro j hj n node hn hrole
    obtain ⟨L, hL⟩ := (h.slot hj hn).2.leads hrole
    obtain ⟨l, -, -, Q, hQ, hv⟩ := (h.refines j hj).sound.invariant.leader_elected hL
    obtain ⟨p, q, hp, hq, hne, hpm, hqm⟩ := QuorumSystem.exists_pair_of_majority
      cluster.card_members hQ
    refine ⟨p, q, hne, fun x hx => ?_⟩
    rcases List.mem_cons.1 hx with rfl | hx
    · exact ⟨hpm, h.vote_recorded hj (hv x hp).1⟩
    · obtain rfl := List.mem_singleton.1 hx
      exact ⟨hqm, h.vote_recorded hj (hv x hq).1⟩

theorem election_safety_elected : ∃ p q, p ≠ q ∧ ∀ x ∈ [p, q], x ∈ serverCluster.members ∧
    ∃ i ≤ 5, ((electedRun.state i).slots x).disk.metadata = ⟨1, some 1⟩ :=
  (election_safety electedRun).2 5 (by decide) 1 _ rfl rfl

/-! ## Committed entries -/

/-- What a node knows to be committed, in terms of the abstract state at the end of the run. -/
theorem Ghost.committed (h : r.Ghost g) {j k : ℕ} (hjk : j ≤ k) (hk : k ≤ r.length) {n : ℕ}
    {node : RaftNode} (hslot : (r.state j).slots n = .up node) :
    ∃ t, CommittedBy (g k) t (node.log.log.take node.commitIndex) := by
  obtain ⟨t, ht⟩ := (h.slot (hjk.trans hk) hslot).2.committed
  exact ⟨t, ht.grows (h.grows hjk hk)⟩

/-- **Committed entries stay**: once a node has committed an entry, no node ever commits another
one at its index, and two disks hold it from then on. -/
theorem committed_stable (r : cluster.Run) {j k i n : ℕ} {node : RaftNode} {e : LogEntry}
    (hjk : j ≤ k) (hk : k ≤ r.length) (hslot : (r.state j).slots n = .up node)
    (hi : i ≤ node.commitIndex) (he : node.log.entryAt i = some e) :
    (∀ p node', (r.state k).slots p = .up node' → i ≤ node'.commitIndex →
      node'.log.entryAt i = some e) ∧
    ∃ p q, p ≠ q ∧ ∀ x ∈ [p, q], x ∈ cluster.members ∧
      ((r.state k).slots x).disk.entryAt i = some e := by
  obtain ⟨g, h⟩ := r.exists_ghost
  have hs := (h.refines k hk).sound.invariant
  obtain ⟨t, ht⟩ := h.committed hjk hk hslot
  constructor
  · intro p node' hslot' hi'
    obtain ⟨t', ht'⟩ := h.committed le_rfl hk hslot'
    have hle := (h.slot hk hslot').2.commit_le
    rcases hs.committedBy_comparable ht ht' with hp | hp
    · obtain ⟨h0, he'⟩ := PersistentLog.entryAt_of_prefix hp hi he
      rw [PersistentLog.entryAt_eq, if_neg h0]
      rwa [List.getElem?_take_of_lt (by omega)] at he'
    · obtain ⟨h0, he'⟩ := PersistentLog.entryAt_of_prefix (List.prefix_refl _) hi he
      have hlt : i - 1 < (node'.log.log.take node'.commitIndex).length := by
        rw [List.length_take, PersistentLog.length_log]
        exact lt_min (by omega) (by change node'.commitIndex ≤ node'.log.lastIndex at hle; omega)
      have hget := Replication.getElem?_of_prefix hp (List.getElem?_eq_getElem hlt)
      rw [PersistentLog.entryAt_eq, if_neg h0, ← List.getElem?_take_of_lt (j := node'.commitIndex)
        (by omega), List.getElem?_eq_getElem hlt, ← hget, he']
  · obtain ⟨h0, he'⟩ := PersistentLog.entryAt_of_prefix (List.prefix_refl _) hi he
    obtain ⟨Q, hQ, hlog⟩ := hs.committedBy_quorum ht fun hnil => by simp [hnil] at he'
    obtain ⟨p, q, hp, hq, hne, hpm, hqm⟩ := QuorumSystem.exists_pair_of_majority
      cluster.card_members hQ
    have hdisk : ∀ x ∈ Q, ((r.state k).slots x).disk.entryAt i = some e := fun x hx => by
      have hx' := hlog x hx
      rw [(h.disk hk x).log] at hx'
      rw [Disk.entryAt_eq, if_neg h0]
      exact Replication.getElem?_of_prefix hx' he'
    refine ⟨p, q, hne, fun x hx => ?_⟩
    rcases List.mem_cons.1 hx with rfl | hx
    · exact ⟨hpm, hdisk x hp⟩
    · obtain rfl := List.mem_singleton.1 hx
      exact ⟨hqm, hdisk x hq⟩

theorem committed_stable_elected : ∃ p q, p ≠ q ∧ ∀ x ∈ [p, q], x ∈ serverCluster.members ∧
    ((electedRun.state 10).slots x).disk.entryAt 1 = some ⟨1, 1, {}⟩ := by
  obtain ⟨node, hslot, hc, he⟩ : ∃ node, (electedRun.state 7).slots 1 = .up node ∧
      node.commitIndex = 1 ∧ node.log.entryAt 1 = some ⟨1, 1, {}⟩ := ⟨_, rfl, rfl, rfl⟩
  exact (committed_stable electedRun (k := 10) (by decide) (by decide) hslot hc.ge he).2

/-! ## Log matching -/

/-- Two backed logs that hold entries of one index and one term agree up to there. -/
theorem Ghost.agree (h : r.Ghost g) {i : ℕ} (hi : i ≤ r.length) {l l' : List LogEntry}
    (hl : Backed LogEntry.term (g i) l) (hl' : Backed LogEntry.term (g i) l') {e e' : LogEntry}
    (he : e ∈ l) (he' : e' ∈ l') (hindex : e.index = e'.index) (hterm : e.term = e'.term) :
    e = e' ∧ l[e.index - 1]? = some e ∧ e.index ≠ 0 ∧ l.take e.index = l'.take e.index := by
  have hs := (h.refines i hi).sound
  obtain ⟨k, hk⟩ := List.mem_iff_getElem?.1 he
  obtain ⟨k', hk'⟩ := List.mem_iff_getElem?.1 he'
  have hek := (hs.placed hl hk).index
  have hek' := (hs.placed hl' hk').index
  obtain rfl : k = k' := by omega
  have htake := Replication.Invariant.log_matching hl hl' hk hk' hterm
  refine ⟨?_, ?_, by omega, by rw [hek, htake]⟩
  · have := congrArg (fun l => l[k]?) htake
    simpa [List.getElem?_take_of_lt (Nat.lt_succ_self k), hk, hk'] using this
  · rw [hek, Nat.add_sub_cancel, hk]

theorem getElem?_of_take_eq {l l' : List LogEntry} {c k : ℕ} (h : l.take c = l'.take c)
    (hk : k < c) : l[k]? = l'[k]? := by
  rw [← List.getElem?_take_of_lt hk, h, List.getElem?_take_of_lt hk]

/-- **Log matching**: where two disks, or a disk and a request that has been sent, hold entries of
one index and one term, the entries are the same and so is everything before them. -/
theorem disks_match (r : cluster.Run) {i : ℕ} (hi : i ≤ r.length) (p : ℕ) :
    (∀ q, ∀ e ∈ ((r.state i).slots p).disk.log, ∀ e' ∈ ((r.state i).slots q).disk.log,
      e.index = e'.index → e.term = e'.term → e = e' ∧ ∀ k < e.index,
        ((r.state i).slots p).disk.entryAt k = ((r.state i).slots q).disk.entryAt k) ∧
    ∀ envelope ∈ (r.state i).sent, ∀ request, envelope.message = .appendEntries request →
      ∀ e ∈ ((r.state i).slots p).disk.log, ∀ e' ∈ request.entries,
        e.index = e'.index → e.term = e'.term → e = e' ∧
          (∀ k < e.index, request.prevLogIndex < k →
            ((r.state i).slots p).disk.entryAt k = request.entryAt k) ∧
          (request.prevLogIndex ≠ 0 → ∃ x,
            ((r.state i).slots p).disk.entryAt request.prevLogIndex = some x ∧
              x.term = request.prevLogTerm) := by
  obtain ⟨g, h⟩ := r.exists_ghost
  have hs := (h.refines i hi).sound
  have hbacked : ∀ q, Backed LogEntry.term (g i) ((r.state i).slots q).disk.log := fun q => by
    rw [← (h.disk hi q).log]
    exact hs.invariant.log_backed q
  constructor
  · intro q e he e' he' hindex hterm
    obtain ⟨heq, -, -, htake⟩ := h.agree hi (hbacked p) (hbacked q) he he' hindex hterm
    refine ⟨heq, fun k hk => ?_⟩
    rw [Disk.entryAt_eq, Disk.entryAt_eq]
    split_ifs
    · rfl
    · exact getElem?_of_take_eq htake (by omega)
  · intro envelope hmem request hm e he e' he' hindex hterm
    have hok := (h.refines i hi).message envelope hmem
    rw [MessageOk, hm] at hok
    obtain ⟨-, L, hreq⟩ := hok
    have hL := hs.invariant.leader_backed hreq.leader
    obtain ⟨k', hk'⟩ := List.mem_iff_getElem?.1 he'
    -- the request carries the entries of `L` after those before it
    have hsub : ∀ {k x}, request.entries[k]? = some x → L[request.prevLogIndex + k]? = some x :=
      fun hx => by
        rw [← List.getElem?_drop]
        exact Replication.getElem?_of_prefix hreq.entries hx
    have heL : e' ∈ L := List.mem_of_getElem? (hsub hk')
    have hlast := (hs.placed hL (hsub hk')).index
    have hlen : k' < request.entries.length := (List.getElem?_eq_some_iff.1 hk').1
    obtain ⟨heq, -, -, htake⟩ := h.agree hi (hbacked p) hL he heL hindex hterm
    refine ⟨heq, fun k hk hprev => ?_, fun h0 => ?_⟩
    · have hget : request.entries[k - request.prevLogIndex - 1]? =
          some request.entries[k - request.prevLogIndex - 1] :=
        List.getElem?_eq_getElem (by omega)
      rw [Disk.entryAt_eq, if_neg (by omega), AppendEntries.entryAt, if_neg (by omega),
        getElem?_of_take_eq htake (by omega), hget, ← hsub hget]
      congr 1
      omega
    · have hle := hreq.prev_le
      obtain ⟨m, hm⟩ := Nat.exists_eq_succ_of_ne_zero h0
      have hget : L[m]? = some L[m] := List.getElem?_eq_getElem (by omega)
      refine ⟨L[m], ?_, ?_⟩
      · rw [Disk.entryAt_eq, if_neg h0, getElem?_of_take_eq htake (by omega), ← hget]
        congr 1
        omega
      · rw [hreq.prevTerm, hm, PersistentLog.termAt_succ hget]

/-- The command of a put, and the request that carries it after the first entry. -/
def loggedCommand : Command := { type := .put, key := [107], value := [118] }

def loggedAppend : AppendEntries := ⟨1, 1, 1, 1, [⟨2, 1, loggedCommand⟩], 1, 0⟩

/-- Node 1 is elected in term 1, is given a command and brings both entries to node 2. -/
def matchedActions : List Action :=
  electedActions.take 5 ++ [.call 1 (.propose loggedCommand) {},
    .call 2 (.deliver ⟨1, 2, .appendEntries firstAppend, none⟩) {},
    .call 1 (.deliver ⟨2, 1, .appendEntriesReply ⟨1, true⟩, some firstAppend⟩) {},
    .call 2 (.deliver ⟨1, 2, .appendEntries loggedAppend, none⟩) {}]

theorem matchedActions_possible :
    (matchedActions.foldlM (World.next serverCluster) World.init).isSome := by
  decide +kernel

def matchedRun : serverCluster.Run := .ofActions matchedActions matchedActions_possible

/-- The entry at index 2, on two disks and in the request that has brought it. -/
theorem disks_match_matched :
    (∀ k < 2, ((matchedRun.state 9).slots 1).disk.entryAt k =
      ((matchedRun.state 9).slots 2).disk.entryAt k) ∧
    ∃ x, ((matchedRun.state 9).slots 2).disk.entryAt 1 = some x ∧ x.term = 1 := by
  have hlog : ((matchedRun.state 9).slots 1).disk.log = [⟨1, 1, {}⟩, ⟨2, 1, loggedCommand⟩] ∧
      ((matchedRun.state 9).slots 2).disk.log = [⟨1, 1, {}⟩, ⟨2, 1, loggedCommand⟩] := by
    decide +kernel
  have hsent : ⟨1, 2, .appendEntries loggedAppend, none⟩ ∈ (matchedRun.state 9).sent := by
    decide +kernel
  have hfirst : ⟨2, 1, loggedCommand⟩ ∈ ((matchedRun.state 9).slots 1).disk.log := by
    rw [hlog.1]
    decide
  have hsecond : ⟨2, 1, loggedCommand⟩ ∈ ((matchedRun.state 9).slots 2).disk.log := by
    rw [hlog.2]
    decide
  exact ⟨((disks_match matchedRun (i := 9) (by decide) 1).1 2 _ hfirst _ hsecond rfl rfl).2,
    ((disks_match matchedRun (i := 9) (by decide) 2).2 _ hsent loggedAppend rfl _ hsecond
      ⟨2, 1, loggedCommand⟩ (by decide) rfl rfl).2.2 (by decide)⟩

/-! ## Replication progress -/

/-- A node with a replication object runs. -/
theorem Ghost.running (h : r.Ghost g) {i : ℕ} (hi : i ≤ r.length) {n : ℕ} {node : RaftNode}
    (hslot : (r.state i).slots n = .up node) {leader : RaftLeaderReplication}
    (hl : node.leader = some leader) : node.stopped = false ∧ RunningOk (g i) n node := by
  have hnode := (h.slot hi hslot).2
  cases hs : node.stopped with
  | true =>
    rw [hnode.stopped hs] at hl
    cases hl
  | false => exact ⟨rfl, hnode.running hs⟩

/-- **Replication progress is sound**: what an active leader believes a peer to hold, the peer's
disk holds unless the peer has gone on to a later term. -/
theorem progress_sound (r : cluster.Run) {i n p : ℕ} (hi : i ≤ r.length) {node : RaftNode}
    {leader : RaftLeaderReplication} (hslot : (r.state i).slots n = .up node)
    (hl : node.leader = some leader) (hactive : node.leaderActive leader = true)
    (hp : node.isPeer p = true) :
    ∃ progress, node.peerProgress p = some progress ∧
      progress.matchIndex < progress.nextIndex ∧ progress.nextIndex ≤ node.lastIndex + 1 ∧
      (((r.state i).slots p).disk.metadata.currentTerm ≤ node.term →
        ∀ k, 1 ≤ k → k ≤ progress.matchIndex → ∃ e, node.log.entryAt k = some e ∧
          ((r.state i).slots p).disk.entryAt k = some e) := by
  obtain ⟨g, h⟩ := r.exists_ghost
  have hs := (h.refines i hi).sound.invariant
  obtain ⟨-, hrun⟩ := h.running hi hslot hl
  have hok := hrun.leader hl
  obtain ⟨a, rfl⟩ : ∃ a, p = node.peerIds a := by
    simp only [RaftNode.isPeer, decide_eq_true_eq] at hp
    exact hp.elim (fun h => ⟨0, h⟩) fun h => ⟨1, h⟩
  obtain ⟨j, hj⟩ := Option.ne_none_iff_exists'.1 (hok.findPeer (i := a))
  have hpeer := hok.peer j
  have hid := findPeer_id hj
  have hnext := hpeer.next_le
  have hmatch := hpeer.match_lt
  rw [PersistentLog.length_log] at hnext
  refine ⟨(leader.peers j).progress, ?_, hpeer.match_lt, hnext, fun hterm k hk hkm => ?_⟩
  · simp only [RaftNode.peerProgress, hl, hactive, if_true, RaftLeaderReplication.progress, hj,
      Option.map_some]
  · have hack := hpeer.acked (by omega)
    rw [hid] at hack
    have hdisk := h.disk hi (node.peerIds a)
    have hprefix := hs.ack_log hack hok.lead le_rfl fun t c L hlt hle => by
      rw [hdisk.recorded.term] at hle
      omega
    rw [hdisk.log] at hprefix
    have hlt : k - 1 < node.log.log.length := by
      rw [PersistentLog.length_log]
      omega
    refine ⟨node.log.log[k - 1], ?_, ?_⟩
    · rw [PersistentLog.entryAt_eq, if_neg (by omega), List.getElem?_eq_getElem hlt]
    · rw [Disk.entryAt_eq, if_neg (by omega)]
      refine Replication.getElem?_of_prefix hprefix ?_
      rw [List.getElem?_take_of_lt (by omega), List.getElem?_eq_getElem hlt]

theorem progress_sound_elected : ∃ node progress, (electedRun.state 7).slots 1 = .up node ∧
    node.peerProgress 2 = some progress ∧ progress.matchIndex < progress.nextIndex := by
  obtain ⟨node, leader, hslot, hl, hactive, hp⟩ : ∃ node leader,
      (electedRun.state 7).slots 1 = .up node ∧ node.leader = some leader ∧
      node.leaderActive leader = true ∧ node.isPeer 2 = true := ⟨_, _, rfl, rfl, rfl, rfl⟩
  obtain ⟨progress, hprogress, hlt, -⟩ := progress_sound electedRun (i := 7) (by decide) hslot hl
    hactive hp
  exact ⟨node, progress, hslot, hprogress, hlt⟩

/-! ## Defensive branches -/

/-- **Followers never find a correct leader corrupt**: whatever reaches a node that has not stopped,
`handle_append_entries` returns neither `InvalidRequest` nor `CommittedConflict`, and
`apply_committed` succeeds where `on_append_entries` and `on_append_reply` call it. -/
theorem never_corrupt (r : cluster.Run) {i n : ℕ} (hi : i ≤ r.length) {node : RaftNode}
    (hslot : (r.state i).slots n = .up node) (hstop : node.stopped = false) (faults : Faults) :
    ∀ envelope ∈ (r.state i).sent, envelope.receiver = n →
      (∀ request, envelope.message = .appendEntries request → ∀ outcome,
        handleAppendEntries (node.withFaults faults).metadata (node.withFaults faults).log
          node.commitIndex request = outcome →
        outcome.result ≠ .error .invalidRequest ∧ outcome.result ≠ .error .committedConflict ∧
          ∀ reply, outcome.result = .ok reply → reply.success = true →
            (applyCommitted outcome.log node.state outcome.commitIndex).2.isOk = true) ∧
      ∀ reply request leader, envelope.message = .appendEntriesReply reply →
        envelope.repliedTo = some request → node.leader = some leader → ∀ outcome,
        leader.handleReply node.election (node.withFaults faults).metadata
          (node.withFaults faults).log node.commitIndex envelope.sender request reply = outcome →
        outcome.outcome = .committed →
          (applyCommitted (node.withFaults faults).log node.state outcome.commitIndex).2.isOk =
            true := by
  obtain ⟨g, h⟩ := r.exists_ghost
  have hs := (h.refines i hi).sound
  have hnode := (h.slot hi hslot).2.withFaults faults
  have hrun := hnode.running hstop
  have happly : ∀ {log : PersistentLog} {t c : ℕ}, LogInvariant log.log t →
      log.log.take node.commitIndex = node.log.log.take node.commitIndex →
      node.commitIndex ≤ c → c ≤ log.lastIndex →
      (applyCommitted log node.state c).2.isOk = true := by
    intro log t c hlog htake hc hl
    obtain ⟨results, happ, -⟩ := applyCommitted_eq hlog.wellFormed hc hl
    have hstate : node.state = .replay (node.log.log.take node.commitIndex) := hnode.applied
    rw [htake, ← hstate] at happ
    rw [happ]
    rfl
  intro envelope hmem hto
  constructor
  · rintro request hm outcome rfl
    have hok := (h.refines i hi).message envelope hmem
    rw [MessageOk, hm] at hok
    have hend := handleAppendEntries_follows hs hnode hstop hok.2
    revert hend
    change FollowEnd cluster (g i) n (node.withFaults faults) request (handleAppendEntries
      (node.withFaults faults).metadata (node.withFaults faults).log node.commitIndex request) → _
    generalize handleAppendEntries (node.withFaults faults).metadata (node.withFaults faults).log
      node.commitIndex request = outcome
    rintro (⟨m, log, s', -, -, -, -, -⟩ | ⟨-⟩ | ⟨m, s', -, -, -, -, -, -, -⟩ |
      ⟨m, log, c, s', he, -, hlog, -, -, -, -, hle, hc, htake⟩)
    · exact ⟨by simp, by simp, fun reply hr => by cases hr⟩
    · refine ⟨by simp, by simp, fun reply hr hsucc => ?_⟩
      obtain rfl := Except.ok.inj hr
      cases hsucc
    · refine ⟨by simp, by simp, fun reply hr hsucc => ?_⟩
      obtain rfl := Except.ok.inj hr
      cases hsucc
    · refine ⟨by simp, by simp, fun reply hr hsucc => ?_⟩
      have hlogInv := (hs.effect he).logInvariant_node n
      rw [hlog] at hlogInv
      exact happly hlogInv htake hle hc
  · rintro reply request leader - - hl outcome rfl hcommitted
    have hend := leader.handleReply_rule node.election (node.withFaults faults).log
      node.commitIndex envelope.sender request reply (A := fun _ => True) hrun.invariant.metadata
      trivial fun _ _ => trivial
    revert hcommitted hend
    generalize leader.handleReply node.election (node.withFaults faults).metadata
      (node.withFaults faults).log node.commitIndex envelope.sender request reply = outcome
    rintro hcommitted (⟨-⟩ | ⟨m, -, -, -, -⟩ | ⟨m, -, -⟩ | ⟨j, -, -, -, -, -⟩ |
      ⟨j, -, -, -, -, k, -, -⟩ | ⟨j, -, -, -, -, l, -⟩ | ⟨j, -, -, -, -, l, -, c, hc⟩)
    · cases hcommitted
    · cases hcommitted
    · cases hcommitted
    · cases hcommitted
    · cases hcommitted
    · cases hcommitted
    · obtain ⟨k, e, rfl, hle, he, -⟩ := RaftLeaderReplication.advanceCommitIndex_eq_some hc
      have hk := (List.getElem?_eq_some_iff.1 he).1
      rw [PersistentLog.length_log] at hk
      exact happly hrun.invariant.log rfl (hle.trans (Nat.le_succ k)) hk

theorem never_corrupt_elected : ∃ node, (electedRun.state 5).slots 2 = .up node ∧
    (handleAppendEntries node.metadata node.log node.commitIndex firstAppend).result ≠
      .error .invalidRequest := by
  obtain ⟨node, hslot, hstop, hself⟩ : ∃ node, (electedRun.state 5).slots 2 = .up node ∧
      node.stopped = false ∧ node.withFaults {} = node := ⟨_, rfl, rfl, rfl⟩
  have h := (never_corrupt electedRun (i := 5) (by decide) hslot hstop {}
    ⟨1, 2, .appendEntries firstAppend, none⟩ (by decide +kernel) rfl).1 firstAppend rfl _ rfl
  rw [hself] at h
  exact ⟨node, hslot, h.1⟩

end Cluster.Run

end DistributedKV
