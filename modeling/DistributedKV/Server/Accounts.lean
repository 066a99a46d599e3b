import Mathlib.Algebra.BigOperators.Group.Finset.Basic
import DistributedKV.Server.Refusals

/-!
# Clients of the whole service

Every client is known to the one process that has accepted its frame. As long as the process lives,
the client waits in it or has been answered by it, and nobody else ever answers it. So over the
whole run, whatever crashes, a client gets one reply or none (`Service.Run.answered_at_most_once`).
-/

namespace DistributedKV

theorem Server.Event.eq_of_client {event : Server.Event} {bytes : Bytes}
    (h : event.client = some bytes) : event = .accept (some bytes) := by
  cases event with
  | accept frame =>
    cases frame with
    | none => cases h
    | some frame =>
      rw [client] at h
      split_ifs at h
      rw [Option.some.inj h]
  | console | deadline | pollFailure | finish => cases h

namespace Service

variable {w : Service} {n p k : ℕ}

/-- The clients that wait in a server. -/
def waiting (w : Service) (n : ℕ) : List ℕ :=
  match w.slots n with
  | .up server => server.waiting
  | .down _ => []

theorem waiting_of_up {server : Server} (h : w.slots n = .up server) :
    w.waiting n = server.waiting := by
  rw [waiting, h]

/-- How often a client occurs among those that were answered or wait. -/
def account (w : Service) (k : ℕ) : ℕ :=
  (w.replies.map Prod.fst).count k + ∑ n ∈ serverCluster.members, (w.waiting n).count k

/-- What a slot contributes. -/
theorem sum_waiting {w' : Service} {slot : ServerSlot} (hn : n ∈ serverCluster.members)
    (hslots : w'.slots = (w.setSlot n slot).slots) (k : ℕ) :
    (∑ p ∈ serverCluster.members, (w'.waiting p).count k) + (w.waiting n).count k =
      (∑ p ∈ serverCluster.members, (w.waiting p).count k) + (w'.waiting n).count k := by
  have hrest : ∑ p ∈ serverCluster.members.erase n, (w'.waiting p).count k =
      ∑ p ∈ serverCluster.members.erase n, (w.waiting p).count k := by
    refine Finset.sum_congr rfl fun p hp => ?_
    rw [waiting, waiting, hslots, setSlot_of_ne _ (Finset.ne_of_mem_erase hp)]
  rw [← Finset.add_sum_erase _ _ hn, ← Finset.add_sum_erase _ (fun p => (w.waiting p).count k) hn,
    hrest]
  omega

namespace Run

variable {r : Run} {i j s t m : ℕ} {server server' : Server} {bytes bytes' : Bytes}
  {event : Server.Event} {faults : Faults} {reply reply' : ClientReply}

/-! ## Acceptance -/

/-- In step `s`, server `n` accepts client `k` with the frame, whether it outlives the step or
not. -/
structure Accepts (r : Run) (s n k : ℕ) (bytes : Bytes) : Prop where
  lt : s < r.length
  number : (r.state s).clients.length = k
  frame : (Server.Event.accept (some bytes)).client = some bytes
  action : ∃ faults, (r.action s).handler = some (n, .accept (some bytes), faults)

theorem Accepts.clients (h : r.Accepts s n k bytes) :
    (r.state (s + 1)).clients = (r.state s).clients ++ [bytes] := by
  obtain ⟨faults, ha⟩ := h.action
  rw [r.clients_succ h.lt, ha, Option.bind_some, h.frame, Option.toList_some]

/-- A client is accepted once. -/
theorem Accepts.unique (h : r.Accepts s n k bytes) (h' : r.Accepts t p k bytes') :
    s = t ∧ n = p ∧ bytes = bytes' := by
  have hle : ∀ {s t n p : ℕ} {bytes bytes' : Bytes}, r.Accepts s n k bytes →
      r.Accepts t p k bytes' → ¬ s < t := by
    intro s t n p bytes bytes' h h' hlt
    have hmono := (r.clients_mono hlt h'.lt.le).length_le
    rw [h.clients, List.length_append, List.length_singleton, h.number, h'.number] at hmono
    omega
  obtain rfl : s = t := by
    have h1 := hle h h'
    have h2 := hle h' h
    omega
  obtain ⟨faults, ha⟩ := h.action
  obtain ⟨faults', ha'⟩ := h'.action
  simp only [ha, Option.some.injEq, Prod.mk.injEq, Server.Event.accept.injEq] at ha'
  exact ⟨rfl, ha'.1, ha'.2.1⟩

/-- The frame of a client. -/
theorem Accepts.client (h : r.Accepts s n k bytes) (hi : s < i) (hle : i ≤ r.length) :
    (r.state i).clients[k]? = some bytes := by
  refine Replication.getElem?_of_prefix (r.clients_mono hi hle) ?_
  rw [h.clients, ← h.number, List.getElem?_concat_length]

/-- Every client was accepted. -/
theorem exists_accepts (r : Run) (hi : i ≤ r.length)
    (hk : (r.state i).clients[k]? = some bytes) : ∃ s < i, ∃ n, r.Accepts s n k bytes := by
  induction i with
  | zero =>
    rw [r.state_zero] at hk
    cases hk
  | succ i ih =>
    by_cases hold : k < (r.state i).clients.length
    · have hsame := Replication.getElem?_of_prefix (r.clients_mono (Nat.le_succ i) hi)
        (List.getElem?_eq_getElem hold)
      obtain ⟨s, hs, h⟩ := ih (by omega)
        ((List.getElem?_eq_getElem hold).trans (hsame.symm.trans hk))
      exact ⟨s, by omega, h⟩
    · rw [r.clients_succ hi, List.getElem?_append_right (by omega)] at hk
      cases hclient : (r.action i).handler.bind fun h => h.2.1.client with
      | none =>
        rw [hclient] at hk
        cases hk
      | some frame =>
        obtain ⟨⟨n, event, faults⟩, ha, hframe⟩ := Option.bind_eq_some_iff.1 hclient
        obtain rfl := Server.Event.eq_of_client hframe
        rw [hclient, Option.toList_some, List.getElem?_singleton] at hk
        split_ifs at hk with hnew
        obtain rfl := Option.some.inj hk
        exact ⟨i, Nat.lt_succ_self i, n, hi, by omega, hframe, faults, ha⟩

/-! ## Who knows a client -/

/-- A client of the process that runs as server `n` from step `s` to state `i`. -/
structure Known (r : Run) (s i n k : ℕ) : Prop where
  le : s ≤ i
  accepts : ∃ bytes, r.Accepts s n k bytes
  up : ∀ m, s < m → m ≤ i → ∃ server, (r.state m).slots n = .up server

/-- The clients that a step leaves waiting or answers, if those before it are known. -/
theorem Handles.known (hh : r.Handles i n event faults server server')
    (hold : ∀ k ∈ server.waiting, ∃ s < i, r.Known s i n k) (hk : k ∈ server'.accounted) :
    ∃ s ≤ i, r.Known s (i + 1) n k := by
  have hup : ∃ server, (r.state (i + 1)).slots n = .up server := ⟨server', hh.slot'⟩
  rcases List.mem_append.1 ((hh.stepEnd.accounted hh.invariant).subset hk) with hk | hk
  · obtain ⟨bytes, hb, rfl⟩ := List.mem_map.1 hk
    have hclient := Option.mem_toList.1 hb
    obtain rfl := Server.Event.eq_of_client hclient
    refine ⟨i, le_rfl, Nat.le_succ i, ⟨bytes, hh.lt, rfl, hclient, faults, ?_⟩, fun m h1 h2 => ?_⟩
    · rw [hh.action]
      rfl
    · obtain rfl : m = i + 1 := by omega
      exact hup
  · obtain ⟨s, hs, h⟩ := hold k hk
    refine ⟨s, hs.le, h.le.trans (Nat.le_succ i), h.accepts, fun m h1 h2 => ?_⟩
    rcases Nat.lt_or_eq_of_le h2 with hlt | rfl
    · exact h.up m h1 (Nat.le_of_lt_succ hlt)
    · exact hup

/-- **Whoever waits** has been accepted by the process in which it waits. -/
theorem known_of_waiting (r : Run) (hi : i ≤ r.length) (hslot : (r.state i).slots n = .up server)
    (hk : k ∈ server.waiting) : ∃ s < i, r.Known s i n k := by
  induction i generalizing server k with
  | zero =>
    rw [r.state_zero] at hslot
    cases hslot
  | succ i ih =>
    rcases r.slot_succ hi hslot with hsame | ⟨event, faults, before, hh⟩ | ⟨node, rfl⟩
    · obtain ⟨s, hs, h⟩ := ih (by omega) hsame hk
      refine ⟨s, by omega, h.le.trans (Nat.le_succ i), h.accepts, fun m h1 h2 => ?_⟩
      rcases Nat.lt_or_eq_of_le h2 with hlt | rfl
      · exact h.up m h1 (Nat.le_of_lt_succ hlt)
      · exact ⟨server, hslot⟩
    · obtain ⟨s, hs, h⟩ := hh.known (fun k hk => ih (by omega) hh.slot hk)
        (List.mem_append_right _ hk)
      exact ⟨s, Nat.lt_succ_of_le hs, h⟩
    · cases hk

/-- A reply comes from the process that has accepted the client. -/
theorem Handles.reply_known (hh : r.Handles i n event faults server server')
    (hr : (k, reply) ∈ server'.replies) : ∃ s ≤ i, r.Known s (i + 1) n k :=
  hh.known (fun _ hk => r.known_of_waiting hh.lt.le hh.slot hk)
    (List.mem_append_left _ (List.mem_map_of_mem hr))

/-! ## Accounts -/

/-- No client occurs twice, and only those that have been accepted do. -/
def Accounted (w : Service) : Prop :=
  ∀ k, w.account k ≤ 1 ∧ (w.clients.length ≤ k → w.account k = 0)

/-- A slot that forgets its clients. -/
theorem Accounted.of_lost {w w' : Service} (h : Accounted w) {slot : ServerSlot}
    (hn : n ∈ serverCluster.members) (hslots : w'.slots = (w.setSlot n slot).slots)
    (hnone : w'.waiting n = []) (hreplies : w'.replies = w.replies)
    (hclients : w.clients.length ≤ w'.clients.length) : Accounted w' := by
  intro k
  obtain ⟨hone, hzero⟩ := h k
  have hsum := sum_waiting hn hslots k
  rw [hnone, List.count_nil] at hsum
  rw [Service.account] at hone hzero ⊢
  rw [hreplies]
  exact ⟨by omega, fun hle => by have hold := hzero (by omega); omega⟩

/-- A step accounts for its clients. -/
theorem Handles.account (hh : r.Handles i n event faults server server')
    (h : Accounted (r.state i)) (hreplies :
      (r.state (i + 1)).replies = (r.state i).replies ++ server'.replies)
    (hslots : (r.state (i + 1)).slots = ((r.state i).setSlot n (.up server')).slots) :
    Accounted (r.state (i + 1)) := by
  intro k
  obtain ⟨hone, hzero⟩ := h k
  have hsum := sum_waiting (r.nodeOk hh.lt.le hh.slot).1 hslots k
  rw [waiting_of_up hh.slot, waiting_of_up hh.slot'] at hsum
  -- the clients of the step
  have hperm := (hh.stepEnd.accounted hh.invariant).count_eq k
  have hsilent : server.silent.accounted = server.waiting := rfl
  rw [hsilent, Server.accounted, List.count_append, List.count_append] at hperm
  have hlength : (r.state (i + 1)).clients.length =
      (r.state i).clients.length + event.client.toList.length := by
    rw [r.clients_succ hh.lt, hh.action, List.length_append]
    rfl
  rw [Service.account] at hone hzero ⊢
  rw [hreplies, List.map_append, List.count_append, hlength]
  cases hclient : event.client with
  | none =>
    rw [hclient, Option.toList_none, List.map_nil, List.count_nil] at hperm
    simp only [Option.toList_none, List.length_nil]
    exact ⟨by omega, fun hle => by have hold := hzero (by omega); omega⟩
  | some bytes =>
    simp only [hclient, Option.toList_some, List.map_singleton, List.count_singleton,
      beq_iff_eq] at hperm
    simp only [Option.toList_some, List.length_singleton]
    by_cases hk : (r.state i).clients.length = k
    · have hold := hzero hk.le
      rw [if_pos hk] at hperm
      exact ⟨by omega, fun hle => by omega⟩
    · rw [if_neg hk] at hperm
      exact ⟨by omega, fun hle => by have hold := hzero (by omega); omega⟩

/-- **Every client is accounted for** at most once: it was answered, or it waits in one server. -/
theorem accounted (r : Run) (hi : i ≤ r.length) : Accounted (r.state i) := by
  induction i with
  | zero =>
    intro k
    rw [r.state_zero]
    exact ⟨Nat.zero_le 1, fun _ => rfl⟩
  | succ i ih =>
    have hold := ih (by omega)
    have hmono := (r.clients_mono (Nat.le_succ i) hi).length_le
    have hnext := step_of_next (r.next_state i hi)
    generalize hw : r.state (i + 1) = w at hnext
    rw [Nat.succ_eq_add_one, hw] at hmono
    generalize ha : r.action i = action at hnext
    cases hnext with
    | @handle n event faults before after hslot hadmits hstep =>
      have hslot' : (r.state (i + 1)).slots n = .up after := by
        rw [hw]
        exact setSlot_self ..
      have hh : r.Handles i n event faults before after := ⟨hi, ha, hslot, hstep, hslot'⟩
      rw [← hw]
      exact hh.account hold (by rw [hw]) (by rw [hw])
    | @crash n event faults before after hslot hadmits hstep =>
      refine hold.of_lost (r.nodeOk (Nat.le_of_succ_le hi) hslot).1 rfl ?_ rfl hmono
      simp [waiting, setSlot]
    | @halt n before hslot =>
      refine hold.of_lost (r.nodeOk (Nat.le_of_succ_le hi) hslot).1 rfl ?_ rfl hmono
      simp [waiting]
    | @restart n disk node hslot hn ho =>
      refine hold.of_lost hn rfl ?_ rfl hmono
      rw [waiting_of_up (setSlot_self ..)]
      rfl

/-- In step `t`, some server sends the reply to client `k`. -/
def Answers (r : Run) (t k : ℕ) (reply : ClientReply) : Prop :=
  ∃ n event faults server server', r.Handles t n event faults server server' ∧
    (k, reply) ∈ server'.replies

theorem Answers.replies (h : r.Answers t k reply) : t < r.length ∧ ∃ new,
    (r.state (t + 1)).replies = (r.state t).replies ++ new ∧ (k, reply) ∈ new := by
  obtain ⟨n, event, faults, server, server', hh, hr⟩ := h
  refine ⟨hh.lt, server'.replies, ?_, hr⟩
  have hnext := step_of_next (r.next_state t hh.lt)
  have hslot' := hh.slot'
  generalize r.state (t + 1) = w at hnext hslot'
  rw [hh.action] at hnext
  cases hnext with
  | handle faults hslot hadmits hstep =>
    obtain rfl := ServerSlot.up.inj (hh.slot.symm.trans hslot)
    obtain rfl := Option.some.inj (hh.step.symm.trans hstep)
    rfl

theorem replies_mono (r : Run) (hij : i ≤ j) (hj : j ≤ r.length) :
    (r.state i).replies <+: (r.state j).replies := by
  induction j, hij using Nat.le_induction with
  | base => exact List.prefix_refl _
  | succ j hij ih =>
    refine (ih (by omega)).trans ?_
    have hnext := step_of_next (r.next_state j hj)
    generalize r.state (j + 1) = w at hnext
    generalize r.action j = action at hnext
    cases hnext with
    | handle => exact List.prefix_append _ _
    | crash | halt | restart => exact List.prefix_refl _

/-- No client is answered twice. -/
theorem Answers.unique (h : r.Answers t k reply) (h' : r.Answers s k reply') :
    s = t ∧ reply' = reply := by
  have hnodup : ∀ {i : ℕ}, i ≤ r.length → ((r.state i).replies.map Prod.fst).Nodup := by
    intro i hi
    refine List.nodup_iff_count_le_one.2 fun k => ?_
    have hle := (r.accounted hi k).1
    rw [account] at hle
    omega
  -- the later one of two replies would be a second one
  have hlater : ∀ {s t : ℕ} {reply reply' : ClientReply}, r.Answers t k reply →
      r.Answers s k reply' → ¬ t < s := by
    intro s t reply reply' h h' hlt
    obtain ⟨ht, new, hnew, hmem⟩ := h.replies
    obtain ⟨hs, new', hnew', hmem'⟩ := h'.replies
    have hold : (k, reply) ∈ (r.state s).replies := by
      refine (r.replies_mono hlt hs.le).subset ?_
      rw [Nat.succ_eq_add_one, hnew]
      exact List.mem_append_right _ hmem
    have hdisjoint := hnodup hs
    rw [hnew', List.map_append, List.nodup_append] at hdisjoint
    exact hdisjoint.2.2 k (List.mem_map_of_mem hold) k (List.mem_map_of_mem hmem') rfl
  obtain rfl : s = t := by
    have h1 := hlater h h'
    have h2 := hlater h' h
    omega
  obtain ⟨ht, new, hnew, hmem⟩ := h.replies
  obtain ⟨-, new', hnew', hmem'⟩ := h'.replies
  obtain rfl := List.append_cancel_left (hnew.symm.trans hnew')
  have hfst := hnodup ht
  rw [hnew, List.map_append, List.nodup_append] at hfst
  exact ⟨rfl, (Prod.mk.inj (List.inj_on_of_nodup_map hfst.2.1 hmem' hmem rfl)).2⟩

/-- Who is answered was accepted by the same process. -/
theorem Answers.accepted (h : r.Answers t k reply) : ∃ s ≤ t, ∃ n bytes, r.Accepts s n k bytes ∧
    ∀ m, s < m → m ≤ t + 1 → ∃ server, (r.state m).slots n = .up server := by
  obtain ⟨n, event, faults, server, server', hh, hr⟩ := h
  obtain ⟨s, hs, hknown⟩ := hh.reply_known hr
  obtain ⟨bytes, haccepts⟩ := hknown.accepts
  exact ⟨s, hs, n, bytes, haccepts, hknown.up⟩

end Run

end Service

end DistributedKV
