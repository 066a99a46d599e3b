import DistributedKV.Foundations.Replication.Growth

/-!
# The invariant of the replicated log

Every log is made of pieces of leaders' logs: up to any entry it agrees with the log of that
entry's term (`Backed`). What a node has acknowledged stays in its log, and in the log with which
it votes, as long as no leader in between lacks it (`Invariant.ack_log`, `Invariant.ack_snapshot`).
Everything else about safety follows from these two.
-/

namespace Replication

variable {N E : Type*} {q : QuorumSystem N} {term : E → ℕ}

/-- Up to each of its entries, the log agrees with the log of the leader of the entry's term. -/
def Backed (term : E → ℕ) (s : State N E) (l : List E) : Prop :=
  ∀ k e, l[k]? = some e → ∃ c L, s.leader (term e) = some (c, L) ∧ l.take (k + 1) <+: L

/-- The leaders of the terms after `T` and up to `U` have `l` in their logs. -/
def Respected (s : State N E) (T : ℕ) (l : List E) (U : ℕ) : Prop :=
  ∀ t c L, T < t → t ≤ U → s.leader t = some (c, L) → l <+: L

/-- A log with which the leader of a term was elected, and its voters. -/
def ElectedWith (q : QuorumSystem N) (term : E → ℕ) (s : State N E) (T : ℕ) (c : N)
    (l : List E) : Prop :=
  s.candidacy c T = some l ∧
    ∃ Q, q.IsQuorum Q ∧ ∀ p ∈ Q, s.vote p T = some c ∧
      ∃ v, s.snapshot p T = some v ∧ UpToDate term l v

/-- A quorum has acknowledged the first `i` entries of the log of the leader of term `T`, the last
of which is an entry of that term. -/
def Chosen (q : QuorumSystem N) (term : E → ℕ) (s : State N E) (T i : ℕ) : Prop :=
  ∃ c L k e, s.leader T = some (c, L) ∧ i = k + 1 ∧ L[k]? = some e ∧ term e = T ∧
    ∃ Q, q.IsQuorum Q ∧ ∀ p ∈ Q, ∃ m, i ≤ m ∧ s.ack p T m

structure Invariant (q : QuorumSystem N) (term : E → ℕ) (s : State N E) : Prop where
  log_backed : ∀ p, Backed term s (s.log p)
  log_term : ∀ p, ∀ e ∈ s.log p, term e ≤ s.term p
  leader_backed : ∀ {T c L}, s.leader T = some (c, L) → Backed term s L
  leader_term : ∀ {T c L}, s.leader T = some (c, L) → ∀ e ∈ L, term e ≤ T
  leader_le : ∀ {T c L}, s.leader T = some (c, L) → T ≤ s.term c
  leader_elected : ∀ {T c L}, s.leader T = some (c, L) → ∃ l, l <+: L ∧ ElectedWith q term s T c l
  candidacy : ∀ {c T l}, s.candidacy c T = some l →
    s.vote c T = some c ∧ (∀ e ∈ l, term e < T) ∧ Backed term s l
  vote_le : ∀ {p T c}, s.vote p T = some c → T ≤ s.term p
  vote_early : ∀ {p T c}, s.vote p T = some c → s.leader T = none →
    ∃ v l, s.snapshot p T = some v ∧ s.candidacy c T = some l ∧ UpToDate term l v
  snapshot : ∀ {p T v}, s.snapshot p T = some v → (∃ c, s.vote p T = some c) ∧ Backed term s v
  ack_le : ∀ {p T m}, s.ack p T m → T ≤ s.term p ∧
    ∃ c L, s.leader T = some (c, L) ∧ m ≤ L.length
  ack_log : ∀ {p T m c L i}, s.ack p T m → s.leader T = some (c, L) → i ≤ m →
    Respected s T (L.take i) (s.term p) → L.take i <+: s.log p
  ack_snapshot : ∀ {p T m c L i U v}, s.ack p T m → s.leader T = some (c, L) → i ≤ m →
    s.snapshot p U = some v → T < U → Respected s T (L.take i) (U - 1) → L.take i <+: v
  committed : ∀ T, s.committed T ≠ 0 → Chosen q term s T (s.committed T)

/-! ## Logs and growth -/

theorem Backed.take {s : State N E} {l : List E} (h : Backed term s l) (k : ℕ) :
    Backed term s (l.take k) := by
  intro j e he
  rw [List.getElem?_take] at he
  split_ifs at he with hj
  obtain ⟨c, L, hL, hp⟩ := h j e he
  exact ⟨c, L, hL, by rwa [List.take_take, min_eq_left (by omega)]⟩

theorem Backed.of_isPrefix {s : State N E} {l l' : List E} (h : Backed term s l') (hp : l <+: l') :
    Backed term s l := by
  rw [List.prefix_iff_eq_take.1 hp]
  exact h.take _

theorem Backed.grows {s s' : State N E} (hg : Grows term s s') {l : List E}
    (h : Backed term s l) : Backed term s' l := by
  intro k e he
  obtain ⟨c, L, hL, hp⟩ := h k e he
  obtain ⟨L', hL', hpre⟩ := hg.leader_prefix hL
  exact ⟨c, L', hL', hp.trans hpre⟩

/-- A backed log followed by an entry whose term's log it extends to is backed. -/
theorem Backed.concat {s : State N E} {l : List E} {e : E} {c : N} {L : List E}
    (h : Backed term s l) (hL : s.leader (term e) = some (c, L)) (hp : l ++ [e] <+: L) :
    Backed term s (l ++ [e]) := by
  intro k e' he'
  rcases Nat.lt_trichotomy k l.length with hk | hk | hk
  · rw [List.getElem?_append_left hk] at he'
    obtain ⟨c', L', hL', hp'⟩ := h k e' he'
    exact ⟨c', L', hL', by rwa [List.take_append_of_le_length (by omega)]⟩
  · subst hk
    simp only [List.getElem?_concat_length, Option.some.injEq] at he'
    subst he'
    exact ⟨c, L, hL, (List.take_prefix _ _).trans hp⟩
  · rw [List.getElem?_eq_none (by simp; omega)] at he'
    cases he'

theorem ElectedWith.grows {s s' : State N E} (hg : Grows term s s') {T : ℕ} {c : N} {l : List E}
    (h : ElectedWith q term s T c l) : ElectedWith q term s' T c l := by
  obtain ⟨hc, Q, hQ, hv⟩ := h
  refine ⟨hg.candidacy hc, Q, hQ, fun p hp => ?_⟩
  obtain ⟨h1, v, h2, h3⟩ := hv p hp
  exact ⟨hg.vote h1, v, hg.snapshot h2, h3⟩

theorem Chosen.grows {s s' : State N E} (hg : Grows term s s') {T i : ℕ}
    (h : Chosen q term s T i) : Chosen q term s' T i := by
  obtain ⟨c, L, k, e, hL, hi, he, ht, Q, hQ, ha⟩ := h
  obtain ⟨X, hX, -⟩ := hg.leader hL
  have hk : k < L.length := (List.getElem?_eq_some_iff.1 he).1
  refine ⟨c, L ++ X, k, e, hX, hi, by rw [List.getElem?_append_left hk, he], ht, Q, hQ,
    fun p hp => ?_⟩
  obtain ⟨m, hm, hack⟩ := ha p hp
  exact ⟨m, hm, hg.ack hack⟩

/-- The entries of a list that a longer one extends by foreign entries. -/
theorem prefix_of_prefix_append {l L X : List E} (h : l <+: L ++ X) (hX : ∀ e ∈ X, e ∉ l) :
    l <+: L := by
  rcases Nat.lt_or_ge L.length l.length with hlen | hlen
  · obtain ⟨Y, hY⟩ := h
    have hl : l[L.length]? = some l[L.length] := List.getElem?_eq_getElem hlen
    have : (L ++ X)[L.length]? = some l[L.length] := by
      rw [← hY, List.getElem?_append_left hlen, hl]
    rw [List.getElem?_append_right le_rfl, Nat.sub_self] at this
    exact absurd (List.getElem_mem hlen) (hX _ (List.mem_of_getElem? this))
  · exact List.prefix_of_prefix_length_le h (List.prefix_append L X) hlen

/-- What was missing in a leader's log is still missing after it has grown. -/
theorem Respected.of_grows {s s' : State N E} (hg : Grows term s s') {T U U' : ℕ} {l : List E}
    (hl : ∀ e ∈ l, term e ≤ T) (hU : U ≤ U') (h : Respected s' T l U') : Respected s T l U := by
  intro t c L hT ht hL
  obtain ⟨X, hX, hXt⟩ := hg.leader hL
  refine prefix_of_prefix_append (h t c _ hT (ht.trans hU) hX) fun e he hel => ?_
  have h1 := hl e hel
  have h2 := hXt e he
  omega

namespace Invariant

/-- The entries of a log have terms up to that of any later entry. -/
theorem backed_sorted {s : State N E} (hs : Invariant q term s) {l : List E}
    (hl : Backed term s l) {i j : ℕ} {e e' : E} (hij : i ≤ j) (hi : l[i]? = some e)
    (hj : l[j]? = some e') : term e ≤ term e' := by
  obtain ⟨c, L, hL, hp⟩ := hl j e' hj
  refine hs.leader_term hL e (hp.subset ?_)
  refine List.mem_of_getElem? (i := i) ?_
  rw [List.getElem?_take, if_pos (by omega), hi]

theorem init : Invariant q term (State.init : State N E) where
  log_backed p k e h := by simp [State.init] at h
  log_term p e h := by simp [State.init] at h
  leader_backed h := by simp [State.init] at h
  leader_term h := by simp [State.init] at h
  leader_le h := by simp [State.init] at h
  leader_elected h := by simp [State.init] at h
  candidacy h := by simp [State.init] at h
  vote_le h := by simp [State.init] at h
  vote_early h := by simp [State.init] at h
  snapshot h := by simp [State.init] at h
  ack_le h := by simp [State.init] at h
  ack_log h := by simp [State.init] at h
  ack_snapshot h := by simp [State.init] at h
  committed T h := by simp [State.init] at h

/-! ## Growth -/

theorem vote_fresh {s : State N E} (hs : Invariant q term s) {n : N} {T : ℕ}
    (hv : s.vote n T = none) : s.snapshot n T = none ∧ s.candidacy n T = none := by
  constructor
  · cases h : s.snapshot n T with
    | none => rfl
    | some v =>
      obtain ⟨⟨c, hc⟩, -⟩ := hs.snapshot h
      simp [hv] at hc
  · cases h : s.candidacy n T with
    | none => rfl
    | some l =>
      have := (hs.candidacy h).1
      simp [hv] at this

variable [DecidableEq N]

theorem grows {s s' : State N E} (hs : Invariant q term s) {n : N} (h : Step q term n s s') :
    Grows term s s' := by
  have hrefl : Grows term s s := .refl s
  cases h with
  | advanceTerm t ht =>
    refine { hrefl with term_le := fun p => ?_ }
    by_cases hp : p = n
    · subst hp
      simpa using ht.le
    · simp [Function.update_of_ne hp]
  | stand hv hl =>
    have hg : Grows term s (s.castVote n n) :=
      State.castVote_grows hv fun _ => (hs.vote_fresh hv).1
    refine { hg with candidacy := fun {p T l} h => ?_ }
    simp only [update₂_apply]
    split_ifs with hp
    · rw [hp.1, hp.2, (hs.vote_fresh hv).2] at h
      cases h
    · exact h
  | grant c l hv hc hu => exact State.castVote_grows hv fun _ => (hs.vote_fresh hv).1
  | elect hc hn hq =>
    refine { hrefl with leader := fun {T c L} h => ?_ }
    have hT : T ≠ s.term n := by
      rintro rfl
      simp [hn] at h
    exact ⟨[], by simpa [Function.update_of_ne hT] using h, by simp⟩
  | extend e hl he =>
    refine { hrefl with leader := fun {T c L} h => ?_, ack := fun h => Or.inl h }
    by_cases hT : T = s.term n
    · subst hT
      rw [hl] at h
      simp only [Option.some.injEq, Prod.mk.injEq] at h
      obtain ⟨rfl, rfl⟩ := h
      exact ⟨[e], by simp, by simp [he]⟩
    · exact ⟨[], by simpa [Function.update_of_ne hT] using h, by simp⟩
  | truncate c L k e e' hl hp he he' hne => exact { hrefl with }
  | copy c L e hl hp => exact { hrefl with }
  | acknowledge c L m hl hm hp => exact { hrefl with ack := fun h => Or.inl h }
  | commit i L e hl hi he het hq =>
    refine { hrefl with committed := fun T => ?_ }
    by_cases hT : T = s.term n
    · subst hT
      simpa using hi.trans (Nat.le_succ i)
    · simp [Function.update_of_ne hT]

end Invariant

end Replication
