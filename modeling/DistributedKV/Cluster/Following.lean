import DistributedKV.Cluster.Elections
import DistributedKV.Raft.Requests

/-!
# Append requests refine the abstract protocol

A request carries a part of its leader's log, so it is valid, it never contradicts what the node
has committed, and the loop over its entries only copies that log.
-/

namespace DistributedKV

open Replication (Step Grows CommittedBy)

variable {cluster : Cluster} {s s' : Abstract} {n : ℕ} {node node' : RaftNode}

/-! ## Requests are valid -/

/-- A leader's log fits into 64-bit indices. -/
theorem length_lt_of_placed {L : List LogEntry} (h : ∀ {k e}, L[k]? = some e → Placed k e) :
    L.length < uint64Max := by
  cases hlen : L.length with
  | zero => decide
  | succ k =>
    have hk : L[k]? = some L[k] := List.getElem?_eq_getElem (by omega)
    have hi := (h hk).index
    have hlt := (h hk).lt
    omega

theorem Requested.cutFrom {request : AppendEntries} {L : List LogEntry}
    (h : Requested s request L) : request.CutFrom L :=
  ⟨h.prev_le, h.prevTerm, h.entries, h.probe⟩

theorem Requested.validEntries (hs : s.Sound cluster) {request : AppendEntries} {L : List LogEntry}
    (h : Requested s request L) : validEntries request = true :=
  h.cutFrom.validEntries (hs.logInvariant_leader h.leader)
    (length_lt_of_placed fun he => hs.leaderLogs h.leader he).le

/-! ## The loop copies the leader's log -/

/-- What holds in the loop over the entries of a request, after those up to position `k`, in terms
of the log `L` of the leader of the node's term. -/
structure Copied (cluster : Cluster) (s : Abstract) (n : ℕ) (L old : List LogEntry)
    (commitIndex last k : ℕ) (entries l : List LogEntry) : Prop where
  reach : ∃ s', Effect cluster n s s' ∧ s'.term = s.term ∧ s'.vote = s.vote ∧
    s'.leader = s.leader ∧ s'.log n = l
  agree : l.take k = L.take k
  le : k ≤ l.length
  last : k + entries.length = last
  entries : entries <+: L.drop k
  committed : l.take commitIndex = old.take commitIndex
  commit_le : commitIndex ≤ l.length

namespace Copied

variable {L old entries l : List LogEntry} {commitIndex last k c : ℕ} {e x : LogEntry}

/-- **Log matching**, for an entry of the node's log in the loop. -/
theorem take_succ (hs : s.Sound cluster) (hL : s.leader (s.term n) = some (c, L))
    (h : Copied cluster s n L old commitIndex last k (e :: entries) l) (hx : l[k]? = some x)
    (ht : x.term = e.term) : l.take (k + 1) = L.take (k + 1) := by
  obtain ⟨s', he, hterm, hvote, hleader, hlog⟩ := h.reach
  have hs' := hs.effect he
  refine Replication.Invariant.log_matching (hlog ▸ hs'.invariant.log_backed n) ?_ hx
    (getElem?_of_prefix_drop h.entries).1 ht
  exact hs'.invariant.leader_backed (by rw [hleader, hL])

theorem skip (hs : s.Sound cluster) (hL : s.leader (s.term n) = some (c, L))
    (h : Copied cluster s n L old commitIndex last k (e :: entries) l) (hx : l[k]? = some x)
    (ht : x.term = e.term) : Copied cluster s n L old commitIndex last (k + 1) entries l where
  reach := h.reach
  agree := h.take_succ hs hL hx ht
  le := (List.getElem?_eq_some_iff.1 hx).1
  entries := (getElem?_of_prefix_drop h.entries).2
  committed := h.committed
  commit_le := h.commit_le
  last := by
    rw [← h.last, List.length_cons]
    omega

theorem truncate (hL : s.leader (s.term n) = some (c, L))
    (h : Copied cluster s n L old commitIndex last k (e :: entries) l) (hx : l[k]? = some x)
    (ht : x.term ≠ e.term) (hk : commitIndex ≤ k) :
    Copied cluster s n L old commitIndex last k (e :: entries) (l.take k) where
  reach := by
    obtain ⟨s', he, hterm, hvote, hleader, hlog⟩ := h.reach
    have hstep : Step cluster.quorum LogEntry.term n s' _ := .truncate s' c L k x e
      (by rw [hterm, hleader, hL]) (by rw [hlog, h.agree]) (by rw [hlog, hx])
      (getElem?_of_prefix_drop h.entries).1 ht
    refine ⟨_, he.trans (.of_step hstep rfl rfl) rfl, hterm, hvote, hleader, ?_⟩
    rw [← hlog]
    exact Function.update_self ..
  agree := by rw [List.take_take, min_self, h.agree]
  le := by
    rw [List.length_take]
    exact le_min le_rfl h.le
  entries := h.entries
  committed := by rw [List.take_take, min_eq_left hk, h.committed]
  commit_le := by
    rw [List.length_take]
    exact le_min hk (hk.trans h.le)
  last := h.last

theorem append (hL : s.leader (s.term n) = some (c, L))
    (h : Copied cluster s n L old commitIndex last k (e :: entries) l) (hk : l.length = k) :
    Copied cluster s n L old commitIndex last (k + 1) entries (l ++ [e]) := by
  have he := (getElem?_of_prefix_drop h.entries).1
  have htake : l ++ [e] = L.take (k + 1) := by
    obtain ⟨hlt, rfl⟩ := List.getElem?_eq_some_iff.1 he
    have hl : l = L.take k := by rw [← h.agree, ← hk, List.take_length]
    rw [List.take_succ_eq_append_getElem hlt, ← hl]
  refine ⟨?_, ?_, by simp [hk], ?_, (getElem?_of_prefix_drop h.entries).2, ?_, ?_⟩
  · obtain ⟨s', heff, hterm, hvote, hleader, hlog⟩ := h.reach
    have hstep : Step cluster.quorum LogEntry.term n s' _ := .copy s' c L e
      (by rw [hterm, hleader, hL]) (by rw [hlog, htake]; exact List.take_prefix _ _)
    refine ⟨_, heff.trans (.of_step hstep rfl rfl) rfl, hterm, hvote, hleader, ?_⟩
    rw [← hlog]
    exact Function.update_self ..
  · rw [htake, List.take_take, min_self]
  · rw [← h.last, List.length_cons]
    omega
  · rw [List.take_append_of_le_length h.commit_le, h.committed]
  · rw [List.length_append]
    exact h.commit_le.trans (Nat.le_add_right _ _)

end Copied

/-- How the loop over the entries of a leader's request ends. -/
inductive CopyEnd (cluster : Cluster) (s : Abstract) (n : ℕ) (L old : List LogEntry)
    (commitIndex last : ℕ) : PersistentLog × Except AppendEntriesHandleError Unit → Prop
  | copied (log : PersistentLog)
      (h : Copied cluster s n L old commitIndex last last [] log.log) :
      CopyEnd cluster s n L old commitIndex last (log, .ok ())
  | failed (log : PersistentLog)
      (hm : ∃ k es, Copied cluster s n L old commitIndex last k es log.log)
      (hd : ∃ k es, Copied cluster s n L old commitIndex last k es log.durable) :
      CopyEnd cluster s n L old commitIndex last (log, .error .persistenceError)

/-- **The loop over the entries of a request**: it copies them, or a write fails. -/
theorem appendLoop_copied (hs : s.Sound cluster) {request : AppendEntries} {L : List LogEntry}
    (hreq : Requested s request L) (ht : s.term n = request.term) {log : PersistentLog}
    (hsync : log.Synced) (hlog : s.log n = log.log) {commitIndex : ℕ}
    (hle : commitIndex ≤ log.log.length)
    (hc : CommittedBy s request.term (log.log.take commitIndex))
    (hp : previousMismatch log request = false) :
    CopyEnd cluster s n L log.log commitIndex (request.prevLogIndex + request.entries.length)
      (appendLoop commitIndex log request.entries) := by
  have hL : s.leader (s.term n) = some (request.leaderId, L) := by rw [ht, hreq.leader]
  have hLlog := hs.logInvariant_leader hreq.leader
  obtain ⟨hprev, hagree⟩ : request.prevLogIndex ≤ log.log.length ∧
      log.log.take request.prevLogIndex = L.take request.prevLogIndex := by
    cases hk : request.prevLogIndex with
    | zero => exact ⟨Nat.zero_le _, rfl⟩
    | succ k =>
      have hlen := hreq.prev_le
      rw [hk] at hlen
      have hget : L[k]? = some L[k] := List.getElem?_eq_getElem (by omega)
      rw [previousMismatch, hk, PersistentLog.entryAt_succ, hreq.prevTerm, hk,
        PersistentLog.termAt_succ hget] at hp
      cases hx : log.log[k]? with
      | none => simp [hx] at hp
      | some x =>
        have hxt : x.term = L[k].term := by simpa [hx] using hp
        exact ⟨(List.getElem?_eq_some_iff.1 hx).1, Replication.Invariant.log_matching
          (hlog ▸ hs.invariant.log_backed n) (hs.invariant.leader_backed hL) hx hget hxt⟩
  have hend := appendLoop_rule
    (I := Copied cluster s n L log.log commitIndex (request.prevLogIndex + request.entries.length))
    (fun h => ⟨hLlog.index (getElem?_of_prefix_drop h.entries).1, h.le⟩)
    (fun h hx ht _ => h.skip hs hL hx ht) (fun h hx ht hk => h.truncate hL hx ht hk)
    (fun h hk _ => h.append hL hk) request.entries hsync
    ⟨⟨s, .refl cluster n s, rfl, rfl, rfl, hlog⟩, hagree, hprev, rfl, hreq.entries, rfl, hle⟩
  revert hend
  generalize appendLoop commitIndex log request.entries = r
  rintro (⟨log', k, -, h⟩ | ⟨log', k, e, x, es, hs', h, hx, hxt, hxc⟩ |
    ⟨log', k, e, x, es, hs', h, hx, hxt, hk⟩ | ⟨log', hm, hd⟩)
  · obtain rfl := h.last
    exact .copied log' h
  · -- one term at one position, hence one command
    have htake := h.take_succ hs hL hx hxt
    have he := (getElem?_of_prefix_drop h.entries).1
    have hxe : some x = some e := by
      rw [← hx, ← he, ← List.getElem?_take_of_lt (Nat.lt_succ_self k), htake,
        List.getElem?_take_of_lt (Nat.lt_succ_self k)]
    rw [Option.some.inj hxe] at hxc
    exact absurd rfl hxc
  · -- the leader has what the node has committed
    have hpre := hs.invariant.committedBy_prefix_leader hc le_rfl hreq.leader
    have he := (getElem?_of_prefix_drop h.entries).1
    have hxL : L[k]? = some x := by
      refine Replication.getElem?_of_prefix hpre ?_
      rw [← h.committed, List.getElem?_take_of_lt hk, hx]
    rw [he] at hxL
    rw [Option.some.inj hxL] at hxt
    exact absurd rfl hxt
  · exact .failed log' hm hd

/-! ## The handler -/

/-- **How `handle_append_entries` ends** on a request that carries a part of a leader's log: it
never finds the request invalid, and never in conflict with what is committed. -/
inductive FollowEnd (cluster : Cluster) (s : Abstract) (n : ℕ) (node : RaftNode)
    (request : AppendEntries) : AppendOutcome → Prop
  | failed (metadata : PersistentMetadata) (log : PersistentLog) (s' : Abstract)
      (he : Effect cluster n s s')
      (hm : metadata.state = node.metadata.state ∨ metadata.state.votedFor ≠ some n)
      (hdisk : DiskOk s' n ⟨metadata.durable, log.durable⟩)
      (htake : log.log.take node.commitIndex = node.log.log.take node.commitIndex)
      (hle : node.commitIndex ≤ log.log.length) :
      FollowEnd cluster s n node request ⟨metadata, log, node.commitIndex, .error .persistenceError⟩
  | stale (h : request.term < node.term) :
      FollowEnd cluster s n node request
        ⟨node.metadata, node.log, node.commitIndex, .ok ⟨node.term, false⟩⟩
  | mismatch (metadata : PersistentMetadata) (s' : Abstract) (he : Effect cluster n s s')
      (hrec : Recorded s' n metadata.state) (hlog : s'.log n = node.log.log)
      (ht : metadata.state.currentTerm = request.term) (h0 : request.term ≠ 0)
      (hle : node.term ≤ request.term) (hprev : request.prevLogIndex ≠ 0)
      (hack : ¬ s'.ack n request.term request.prevLogIndex) :
      FollowEnd cluster s n node request
        ⟨metadata, node.log, node.commitIndex, .ok ⟨request.term, false⟩⟩
  | appended (metadata : PersistentMetadata) (log : PersistentLog) (c : ℕ) (s' : Abstract)
      (he : Effect cluster n s s') (hrec : Recorded s' n metadata.state)
      (hlog : s'.log n = log.log) (ht : metadata.state.currentTerm = request.term)
      (h0 : request.term ≠ 0)
      (hack : s'.ack n request.term (request.prevLogIndex + request.entries.length))
      (hcommitted : CommittedBy s' request.term (log.log.take c))
      (hle : node.commitIndex ≤ c) (hc : c ≤ log.lastIndex)
      (htake : log.log.take node.commitIndex = node.log.log.take node.commitIndex) :
      FollowEnd cluster s n node request ⟨metadata, log, c, .ok ⟨request.term, true⟩⟩

/-- What a request makes known to be committed. -/
theorem Copied.committedBy {request : AppendEntries} {L old l : List LogEntry} {c last : ℕ}
    (hreq : Requested s request L) (hg : Grows LogEntry.term s s')
    (hc : CommittedBy s request.term (old.take c))
    (h : Copied cluster s n L old c last last [] l) :
    CommittedBy s' request.term (l.take (max c (min request.leaderCommit last))) := by
  rcases max_choice c (min request.leaderCommit last) with hmax | hmax
  · rw [hmax, h.committed]
    exact hc.grows hg
  · rw [hmax]
    refine (hreq.committed.grows hg).of_isPrefix ?_
    have hl : l.take (min request.leaderCommit last) = L.take (min request.leaderCommit last) := by
      have := congrArg (List.take request.leaderCommit) h.agree
      rwa [List.take_take, List.take_take] at this
    rw [hl]
    exact List.take_prefix_take_left (min_le_left _ _)

theorem handleAppendEntries_follows (hs : s.Sound cluster) (h : NodeOk cluster s n node)
    (hstop : node.stopped = false) {request : AppendEntries} (hok : RequestOk s request) :
    FollowEnd cluster s n node request
      (handleAppendEntries node.metadata node.log node.commitIndex request) := by
  have hrun := h.running hstop
  obtain ⟨hrec, hlog⟩ := hrun.facts h.disk
  obtain ⟨L, hreq⟩ := hok
  have hzero : request.term ≠ 0 := fun h0 => by
    have hl := hreq.leader
    rw [h0, hs.leader_zero] at hl
    cases hl
  have hcommit : node.commitIndex ≤ node.log.log.length := by
    rw [PersistentLog.length_log]
    exact h.commit_le
  have hend := handleAppendEntries_rule node.log node.commitIndex request (A := fun m =>
      Writes cluster n s m ∧ (m = node.metadata.state ∨ m.votedFor ≠ some n))
    hrun.invariant.metadata ⟨.refl hrec, Or.inl rfl⟩ fun ht => ⟨.enter hs hrec ht, Or.inr (by simp)⟩
  -- the node in the request's term, and the loop that it runs there
  have hloop : ∀ {m : PersistentMetadata}, Writes cluster n s m.state →
      m.state.currentTerm = request.term → previousMismatch node.log request = false →
      ∃ s₁, Effect cluster n s s₁ ∧ s₁.Sound cluster ∧ Recorded s₁ n m.state ∧
        Requested s₁ request L ∧ CommittedBy s₁ request.term (node.log.log.take node.commitIndex) ∧
        CopyEnd cluster s₁ n L node.log.log node.commitIndex
          (request.prevLogIndex + request.entries.length)
          (appendLoop node.commitIndex node.log request.entries) := by
    rintro m ⟨s₁, he, hq, hr⟩ ht hp
    have hs₁ := hs.effect he
    have hg := he.grows hs
    have hreq₁ : Requested s₁ request L := ⟨by rw [hq.leader]; exact hreq.leader, hreq.prev_le,
      hreq.prevTerm, hreq.entries, hreq.commit_le, committedBy_quiet hq hreq.committed, hreq.probe⟩
    have hle : node.term ≤ request.term := by
      rw [← ht, ← hr.term]
      exact hrec.term.ge.trans (hg.term_le n)
    have hc : CommittedBy s₁ request.term (node.log.log.take node.commitIndex) :=
      (hrun.committed.grows hg).mono hle
    exact ⟨s₁, he, hs₁, hr, hreq₁, hc, appendLoop_copied hs₁ hreq₁ (hr.term.trans ht)
      hrun.invariant.logSynced (by rw [hq.log, hlog]) hcommit hc hp⟩
  revert hend
  generalize handleAppendEntries node.metadata node.log node.commitIndex request = r
  rintro (⟨m, hm, ⟨s', he, hq, hr⟩, -⟩ | ⟨hstale⟩ | ⟨m, -, -, -, hbad⟩ |
    ⟨m, -, ⟨⟨s', he, hq, hr⟩, -⟩, ht, h0, hp⟩ | ⟨m, hm, ⟨hw, hor⟩, ht, h0, -, hp, log, e, hres⟩ |
    ⟨m, -, ⟨hw, -⟩, ht, h0, -, hp, log, hres⟩)
  · refine .failed m node.log s' he (Or.inl hm) ⟨hr, ?_⟩ rfl hcommit
    rw [hq.log]
    exact h.disk.log
  · exact .stale (hstale.resolve_left hzero)
  · rcases hbad with hbad | hbad
    · rw [hreq.validEntries hs] at hbad
      cases hbad
    · exact absurd h.commit_le (not_le.2 hbad)
  · refine .mismatch m s' he hr (by rw [hq.log, hlog]) ht h0 ?_ (fun h0 => ?_) fun hack => ?_
    · rw [← ht, ← hr.term]
      exact hrec.term.ge.trans ((he.grows hs).term_le n)
    · simp [previousMismatch, h0] at hp
    · -- what a node has acknowledged in its own term is still in its log
      rw [hq.ack] at hack
      have hterm := (he.grows hs).term_le n
      rw [hr.term, ht] at hterm
      have hprefix := hs.invariant.ack_log hack hreq.leader le_rfl fun t c L' hlt hle => by omega
      rw [hlog] at hprefix
      rw [hreq.cutFrom.previousMismatch_eq_false hprefix] at hp
      cases hp
  · obtain ⟨s₁, he, hs₁, hr, -, -, hcopy⟩ := hloop hw ht hp
    rw [hres] at hcopy
    cases hcopy with
    | failed _ hm' hd =>
      obtain ⟨k, es, hmem⟩ := hm'
      obtain ⟨k', es', hdur⟩ := hd
      obtain ⟨s₂, he₂, hterm, hvote, -, hlog₂⟩ := hdur.reach
      refine .failed m log s₂ (he.trans he₂ (by rw [hterm])) hor
        ⟨⟨by rw [hterm, hm.durable, hr.term], by rw [hvote, hm.durable, hr.vote]⟩, hlog₂⟩
        hmem.committed hmem.commit_le
  · obtain ⟨s₁, he, hs₁, hr, hreq₁, hc, hcopy⟩ := hloop hw ht hp
    rw [hres] at hcopy
    cases hcopy with
    | copied _ hcopied =>
      obtain ⟨s₂, he₂, hterm, hvote, hleader, hlog₂⟩ := hcopied.reach
      -- the node acknowledges what it has copied
      have hack : Step cluster.quorum LogEntry.term n s₂ _ := .acknowledge s₂ request.leaderId L
        (request.prevLogIndex + request.entries.length)
        (by rw [hterm, hr.term, ht, hleader, hreq₁.leader]) ?_ ?_
      · have he₃ := he₂.trans (.of_step hack rfl rfl) rfl
        refine .appended m log _ _ (he.trans he₃ ?_) ⟨?_, ?_⟩ hlog₂ ht h0 ?_
          (hcopied.committedBy hreq₁ (he₃.grows hs₁) hc) (le_max_left _ _) ?_ hcopied.committed
        · exact congrFun hterm n
        · rw [← hr.term]
          exact congrFun hterm n
        · rw [← hr.vote]
          exact congrFun (congrFun hvote n) _
        · exact Or.inr ⟨rfl, by rw [hterm, hr.term, ht], rfl⟩
        · rw [← PersistentLog.length_log]
          have h1 := hcopied.commit_le
          have h2 := hcopied.le
          omega
      · have h1 := hreq.entries.length_le
        have h2 := hreq.prev_le
        rw [List.length_drop] at h1
        omega
      · rw [hlog₂, ← hcopied.agree]
        exact List.take_prefix _ _

/-- The end of the handler, on a follower that applies what has become committed. -/
theorem applyReady_simulates (hs : s.Sound cluster) (h : NodeOk cluster s n node)
    (he : Effect cluster n s s') (hself : node'.selfId = node.selfId)
    (hpeers : node'.peerIds = node.peerIds) (hrec : Recorded s' n node'.metadata.state)
    (hlog : s'.log n = node'.log.log) {c : ℕ}
    (hstate : node'.state = .replay (node'.log.log.take c)) (hc : c ≤ node'.commitIndex)
    (hle : node'.commitIndex ≤ node'.lastIndex)
    (hcommitted : CommittedBy s' node'.term (node'.log.log.take node'.commitIndex))
    (hrole : node'.election.cachedRole = .follower) (hstop : node'.stopped = false)
    {repliedTo : Option AppendEntries} {actions : RaftNodeActions}
    {f : RaftNodeActions → RaftNodeActions}
    (hf : ∀ applied, ∀ m ∈ (f { actions with applied }).messages, SendOk s' n repliedTo m)
    {r : RaftNode × RaftNodeResult} (hr : r = match node'.applyReady actions with
      | (node, none) => node.stop .inconsistentState
      | (node, some actions) => (node, .ok (f actions)))
    (hcont : RaftNode.Continues node r.1) : Simulates cluster s n repliedTo r := by
  have hlogInv := (hs.effect he).logInvariant_node n
  rw [hlog] at hlogInv
  obtain ⟨applied, happ, -⟩ := RaftNode.applyReady_eq hlogInv hstate hc hle actions
  rw [happ] at hr
  subst hr
  have hinv := (hcont hstop).1
  refine ⟨s', he, h.of_running hstop hself hpeers (.of_follower hinv hcommitted
    (role_follower_of_cachedRole hrole)) hrec hlog, fun actions' ha => ?_⟩
  obtain rfl := Except.ok.inj ha
  exact hf applied

theorem onAppendEntries_simulates (hs : s.Sound cluster) (h : NodeOk cluster s n node)
    (hstop : node.stopped = false) {envelope : Envelope} {request : AppendEntries}
    (hm : envelope.message = .appendEntries request) (hok : MessageOk s envelope) :
    Simulates cluster s n (some request) (node.onAppendEntries envelope.sender request) := by
  have hrun := h.running hstop
  have hrec := (hrun.facts h.disk).1
  have hcont := RaftNode.onAppendEntries_continues hrun.invariant hstop envelope.sender request
  have hself : node.election.selfId = n := hrun.invariant.selfId.trans h.selfId
  rw [MessageOk, hm] at hok
  rw [RaftNode.onAppendEntries, if_neg (by simp [hstop])] at hcont ⊢
  by_cases hp : node.isPeer envelope.sender = false
  · rw [if_pos hp]
    exact simulates_self h fun actions ha => by cases ha
  rw [if_neg hp] at hcont ⊢
  by_cases hl : request.leaderId ≠ envelope.sender
  · rw [if_pos hl]
    exact simulates_self h fun actions ha => by cases ha
  rw [if_neg hl] at hcont ⊢
  have hend := handleAppendEntries_follows hs h hstop hok.2
  dsimp only at hcont ⊢
  revert hcont hend
  generalize handleAppendEntries node.metadata node.log node.commitIndex request = r
  rintro hcont (⟨m, log, s', he, hor, hdisk, htake, hle⟩ | ⟨hstale⟩ |
    ⟨m, s', he, hrec', hlog, ht, h0, hle, hprev, hack⟩ |
    ⟨m, log, c, s', he, hrec', hlog, ht, h0, hack, hcommitted, hle, hc, htake⟩)
  · refine simulates_stop he ?_
    have hle' : node.commitIndex ≤ log.lastIndex := by rwa [← PersistentLog.length_log]
    split_ifs with hlt
    · exact h.of_stop (he.grows hs) _ rfl rfl rfl hdisk rfl htake hle'
        fun hr => leads_of_metadata h (he.grows hs) hself hor hr
    · exact h.of_stop (he.grows hs) _ rfl rfl rfl hdisk rfl htake hle'
        fun hr => leads_of_metadata h (he.grows hs) hself hor hr
  · have hne : request.term ≠ node.metadata.state.currentTerm := hstale.ne
    have hf : ¬ (request.term ≠ 0 ∧ request.term = node.term) := fun hf => hne hf.2
    simp only [hf, decide_false, Bool.false_eq_true, if_false] at hcont ⊢
    rw [if_neg (lt_irrefl _)] at hcont ⊢
    refine ⟨s, .refl cluster n s, h, fun actions ha msg hmsg => ?_⟩
    obtain rfl := Except.ok.inj ha
    obtain rfl := List.mem_singleton.1 hmsg
    refine ⟨fun request' hr => ?_, hrec.term.symm, fun request' hr _ heq => ?_⟩
    · obtain rfl := Option.some.inj hr
      exact ⟨fun hf => (by cases hf), fun _ heq => absurd heq.symm hne⟩
    · obtain rfl := Option.some.inj hr
      exact absurd heq.symm hne
  · have hf : request.term ≠ 0 ∧ request.term = request.term := ⟨h0, rfl⟩
    have hcommitted : CommittedBy s' m.state.currentTerm (node.log.log.take node.commitIndex) := by
      refine (hrun.committed.grows (he.grows hs)).mono ?_
      rw [ht]
      exact hle
    simp only [hf, ne_eq, not_false_eq_true, and_self, decide_true, if_true, Bool.false_eq_true,
      if_false] at hcont ⊢
    have hmsgs : ∀ actions : RaftNodeActions, actions.messages =
        [⟨envelope.sender, .appendEntriesReply ⟨request.term, false⟩⟩] → ∀ m ∈ actions.messages,
          SendOk s' n (some request) m := by
      intro actions ha msg hmsg
      rw [ha] at hmsg
      obtain rfl := List.mem_singleton.1 hmsg
      refine ⟨fun request' hr => ?_, (hrec'.term.trans ht).symm, fun request' hr _ _ => ?_⟩
      · obtain rfl := Option.some.inj hr
        exact ⟨fun hf => (by cases hf), fun _ _ => hprev⟩
      · obtain rfl := Option.some.inj hr
        exact hack
    split_ifs at hcont ⊢
    all_goals
      have hinv := (hcont hstop).1
      refine ⟨s', he, h.of_running hstop rfl rfl (.of_follower hinv hcommitted ?_) hrec' hlog, ?_⟩
      · refine role_follower_of_cachedRole ?_
        simp only [RaftNode.dropLeadership, RaftElection.observeLeader, ne_eq, h0,
          not_false_eq_true,
          ht, and_self, if_true]
        rfl
      · intro actions ha
        obtain rfl := Except.ok.inj ha
        exact hmsgs _ rfl
  · have hf : request.term ≠ 0 ∧ request.term = request.term := ⟨h0, rfl⟩
    have hlogInv := (hs.effect he).logInvariant_node n
    rw [hlog] at hlogInv
    simp only [hf, ne_eq, not_false_eq_true, and_self, decide_true, if_true] at hcont ⊢
    have hmsgs : ∀ actions : RaftNodeActions, actions.messages = [] →
        ∀ m ∈ actions.messages ++ [⟨envelope.sender, .appendEntriesReply ⟨request.term, true⟩⟩],
          SendOk s' n (some request) m := by
      intro actions ha msg hmsg
      rw [ha] at hmsg
      obtain rfl := List.mem_singleton.1 hmsg
      refine ⟨fun request' hr => ?_, (hrec'.term.trans ht).symm, fun _ _ hf => (by cases hf)⟩
      obtain rfl := Option.some.inj hr
      exact ⟨fun _ => ⟨rfl, hack⟩, fun hf => by cases hf⟩
    split_ifs at hcont ⊢
    all_goals
      refine applyReady_simulates hs h he ?_ ?_ ?_ ?_ (c := node.commitIndex) ?_ ?_ ?_ ?_ ?_ ?_ ?_
        rfl hcont
      · rfl
      · rfl
      · exact hrec'
      · exact hlog
      · exact hrun.invariant.applied.trans (congrArg _ htake.symm)
      · exact hle
      · exact hc
      · change CommittedBy s' m.state.currentTerm _
        rw [ht]
        exact hcommitted
      · simp only [RaftNode.dropLeadership, RaftElection.observeLeader, ne_eq, h0,
          not_false_eq_true, ht, and_self, if_true]
        rfl
      · exact hstop
      · exact fun applied => hmsgs _ rfl

end DistributedKV
