import DistributedKV.Foundations.Replication.Preservation

/-!
# Safety of the replicated log

Log matching, leader completeness and the agreement of committed logs, each as a property of one
state that satisfies the invariant. Since the record of the past never shrinks (`Grows`), such a
property relates what any two moments of a run have recorded.
-/

namespace Replication

variable {N E : Type*} {q : QuorumSystem N} {term : E → ℕ} {s : State N E}

/-- The log `l` is within what the leader of some term up to `t` knows to be committed. -/
def CommittedBy (s : State N E) (t : ℕ) (l : List E) : Prop :=
  l = [] ∨ ∃ T c L, T ≤ t ∧ s.leader T = some (c, L) ∧ l <+: L.take (s.committed T)

theorem getElem?_of_prefix {α : Type*} {l l' : List α} (h : l <+: l') {k : ℕ} {a : α}
    (ha : l[k]? = some a) : l'[k]? = some a := by
  obtain ⟨x, rfl⟩ := h
  rw [List.getElem?_append_left (List.getElem?_eq_some_iff.1 ha).1, ha]

namespace CommittedBy

theorem nil (s : State N E) (t : ℕ) : CommittedBy s t [] := Or.inl rfl

theorem mono {t t' : ℕ} {l : List E} (h : CommittedBy s t l) (ht : t ≤ t') :
    CommittedBy s t' l := by
  rcases h with rfl | ⟨T, c, L, hT, hL, hp⟩
  · exact nil s t'
  · exact Or.inr ⟨T, c, L, hT.trans ht, hL, hp⟩

theorem of_isPrefix {t : ℕ} {l l' : List E} (h : CommittedBy s t l') (hp : l <+: l') :
    CommittedBy s t l := by
  rcases h with rfl | ⟨T, c, L, hT, hL, hp'⟩
  · rw [List.prefix_nil.1 hp]
    exact nil s t
  · exact Or.inr ⟨T, c, L, hT, hL, hp.trans hp'⟩

theorem grows {s s' : State N E} (hg : Grows term s s') {t : ℕ} {l : List E}
    (h : CommittedBy s t l) : CommittedBy s' t l := by
  rcases h with rfl | ⟨T, c, L, hT, hL, hp⟩
  · exact nil s' t
  · obtain ⟨L', hL', hpre⟩ := hg.leader_prefix hL
    refine Or.inr ⟨T, c, L', hT, hL', hp.trans ?_⟩
    exact (List.take_prefix_take_left (hg.committed T)).trans (hpre.take _)

end CommittedBy

namespace Invariant

/-! ## Log matching -/

/-- **Log matching**: two logs with entries of one term at one position agree up to there. -/
theorem log_matching {l l' : List E} (hl : Backed term s l) (hl' : Backed term s l') {k : ℕ}
    {e e' : E} (he : l[k]? = some e) (he' : l'[k]? = some e') (ht : term e = term e') :
    l.take (k + 1) = l'.take (k + 1) := by
  obtain ⟨c, L, hL, hp⟩ := hl k e he
  obtain ⟨c', L', hL', hp'⟩ := hl' k e' he'
  rw [ht, hL'] at hL
  simp only [Option.some.injEq, Prod.mk.injEq] at hL
  obtain ⟨rfl, rfl⟩ := hL
  have h1 : k < l.length := (List.getElem?_eq_some_iff.1 he).1
  have h2 : k < l'.length := (List.getElem?_eq_some_iff.1 he').1
  exact List.IsPrefix.eq_of_length
    (List.prefix_of_prefix_length_le hp hp' (by simp; omega)) (by simp; omega)

/-- A log whose last entry has term `T` is a prefix of the log of the leader of `T`. -/
theorem prefix_leader_of_last {l : List E} (hl : Backed term s l) {e : E}
    (he : l.getLast? = some e) : ∃ c L, s.leader (term e) = some (c, L) ∧ l <+: L := by
  rw [List.getLast?_eq_getElem?] at he
  obtain ⟨c, L, hL, hp⟩ := hl _ e he
  have hlen : l.length - 1 < l.length := (List.getElem?_eq_some_iff.1 he).1
  rw [List.take_of_length_le (by omega)] at hp
  exact ⟨c, L, hL, hp⟩

theorem lastTerm_of_getLast? {l : List E} {e : E} (he : l.getLast? = some e) :
    lastTerm term l = term e := by
  simp [lastTerm, he]

/-! ## Leader completeness -/

/-- **Leader completeness**: what a quorum has acknowledged in a term is in the log of every
leader of a later term, and was so at its election. -/
theorem elected_complete (hs : Invariant q term s) {T i : ℕ} (hch : Chosen q term s T i) {c : N}
    {L : List E} (hL : s.leader T = some (c, L)) {U : ℕ} (hU : T < U) {c' : N} {l : List E}
    (hl : ElectedWith q term s U c' l) : L.take i <+: l := by
  induction U using Nat.strong_induction_on generalizing c' l with
  | _ U ih =>
    obtain ⟨hcand, Q, hQ, hvotes⟩ := hl
    obtain ⟨c₀, L₀, k, e, hL₀, rfl, he, het, R, hR, hacks⟩ := hch
    rw [hL] at hL₀
    simp only [Option.some.injEq, Prod.mk.injEq] at hL₀
    obtain ⟨rfl, rfl⟩ := hL₀
    -- a voter of the election that acknowledged the entries before
    obtain ⟨p, hpQ, hpR⟩ := q.meet hQ hR
    obtain ⟨hvote, v, hv, hup⟩ := hvotes p hpQ
    obtain ⟨m, hm, hack⟩ := hacks p hpR
    have hresp : Respected s T (L.take (k + 1)) (U - 1) := by
      intro t c₁ L₁ hT ht hL₁
      obtain ⟨l₁, hl₁, hel⟩ := hs.leader_elected hL₁
      exact (ih t (by omega) hT hel).trans hl₁
    have hpv : L.take (k + 1) <+: v := hs.ack_snapshot hack hL hm hv hU hresp
    obtain ⟨-, hlt, hlb⟩ := hs.candidacy hcand
    have hvb := (hs.snapshot hv).2
    have hkL : k < L.length := (List.getElem?_eq_some_iff.1 he).1
    have hkv : v[k]? = some e :=
      getElem?_of_prefix hpv (by rw [List.getElem?_take, if_pos (by omega), he])
    have hklen : k < v.length := (List.getElem?_eq_some_iff.1 hkv).1
    obtain ⟨ev, hev⟩ : ∃ ev, v.getLast? = some ev := by
      rw [← Option.isSome_iff_exists, List.getLast?_isSome]
      rintro rfl
      simp at hklen
    have hTv : T ≤ lastTerm term v := by
      rw [lastTerm_of_getLast? hev, ← het]
      rw [List.getLast?_eq_getElem?] at hev
      exact hs.backed_sorted hvb (by omega) hkv hev
    have hne : l ≠ [] := by
      rintro rfl
      rcases hup with h | ⟨-, h⟩
      · simp [lastTerm] at h
      · simp only [List.length_nil, Nat.le_zero] at h
        omega
    obtain ⟨el, hel⟩ : ∃ el, l.getLast? = some el :=
      Option.isSome_iff_exists.1 (List.getLast?_isSome.2 hne)
    obtain ⟨c₂, L₂, hL₂, hpl⟩ := prefix_leader_of_last hlb hel
    have hTl : T ≤ term el := by
      have hlast : lastTerm term l = term el := lastTerm_of_getLast? hel
      rcases hup with h | ⟨h, -⟩ <;> omega
    rcases Nat.lt_or_eq_of_le hTl with hlt' | heq
    · -- the candidate's last entry is of a later term, whose leader has the entries
      have helU : term el < U := hlt el (List.mem_of_getLast? hel)
      obtain ⟨l₂, hl₂, hel₂⟩ := hs.leader_elected hL₂
      have hp₂ : L.take (k + 1) <+: L₂ := (ih (term el) helU hlt' hel₂).trans hl₂
      refine List.prefix_of_prefix_length_le hp₂ hpl ?_
      by_contra hlen
      have hlL : l <+: L.take (k + 1) := List.prefix_of_prefix_length_le hpl hp₂ (by omega)
      have : el ∈ L.take (k + 1) := hlL.subset (List.mem_of_getLast? hel)
      have := hs.take_le hL _ el this
      omega
    · -- the candidate's last entry is of the same term, so the longer log wins
      rw [← heq, hL] at hL₂
      simp only [Option.some.injEq, Prod.mk.injEq] at hL₂
      obtain ⟨rfl, rfl⟩ := hL₂
      refine List.prefix_of_prefix_length_le (List.take_prefix _ _) hpl ?_
      have hvl : v.length ≤ l.length := by
        rcases hup with h | ⟨-, h⟩
        · rw [lastTerm_of_getLast? hel] at h
          omega
        · exact h
      simp only [List.length_take]
      omega

theorem leader_complete (hs : Invariant q term s) {T i : ℕ} (hch : Chosen q term s T i) {c : N}
    {L : List E} (hL : s.leader T = some (c, L)) {U : ℕ} (hU : T < U) {c' : N} {L' : List E}
    (hL' : s.leader U = some (c', L')) : L.take i <+: L' := by
  obtain ⟨l, hl, hel⟩ := hs.leader_elected hL'
  exact (hs.elected_complete hch hL hU hel).trans hl

/-- What a leader knows to be committed, if anything, has been chosen. -/
theorem take_committed (hs : Invariant q term s) {T : ℕ} {c : N} {L : List E}
    (hL : s.leader T = some (c, L)) {U : ℕ} (hU : T ≤ U) {c' : N} {L' : List E}
    (hL' : s.leader U = some (c', L')) : L.take (s.committed T) <+: L' := by
  rcases Nat.lt_or_eq_of_le hU with hU | rfl
  · by_cases h0 : s.committed T = 0
    · simp [h0]
    · exact hs.leader_complete (hs.committed T h0) hL hU hL'
  · rw [hL] at hL'
    simp only [Option.some.injEq, Prod.mk.injEq] at hL'
    rw [← hL'.2]
    exact List.take_prefix _ _

/-! ## Committed logs -/

/-- A leader has everything that was committed up to its term. -/
theorem committedBy_prefix_leader (hs : Invariant q term s) {t : ℕ} {l : List E}
    (h : CommittedBy s t l) {U : ℕ} (hU : t ≤ U) {c : N} {L : List E}
    (hL : s.leader U = some (c, L)) : l <+: L := by
  rcases h with rfl | ⟨T, c₀, L₀, hT, hL₀, hp⟩
  · exact List.nil_prefix
  · exact hp.trans (hs.take_committed hL₀ (hT.trans hU) hL)

/-- **Agreement**: of two committed logs one is a prefix of the other. -/
theorem committedBy_comparable (hs : Invariant q term s) {t t' : ℕ} {l l' : List E}
    (h : CommittedBy s t l) (h' : CommittedBy s t' l') : l <+: l' ∨ l' <+: l := by
  rcases h with rfl | ⟨T, c, L, -, hL, hp⟩
  · exact Or.inl List.nil_prefix
  rcases h' with rfl | ⟨T', c', L', -, hL', hp'⟩
  · exact Or.inr List.nil_prefix
  rcases Nat.le_total T T' with hT | hT
  · exact List.prefix_or_prefix_of_prefix (hp.trans (hs.take_committed hL hT hL'))
      (hp'.trans (List.take_prefix _ _))
  · exact List.prefix_or_prefix_of_prefix (hp.trans (List.take_prefix _ _))
      (hp'.trans (hs.take_committed hL' hT hL))

/-- **Durability**: a quorum of nodes holds a nonempty committed log. -/
theorem committedBy_quorum (hs : Invariant q term s) {t : ℕ} {l : List E}
    (h : CommittedBy s t l) (hne : l ≠ []) :
    ∃ Q, q.IsQuorum Q ∧ ∀ p ∈ Q, l <+: s.log p := by
  rcases h with rfl | ⟨T, c, L, -, hL, hp⟩
  · exact absurd rfl hne
  have h0 : s.committed T ≠ 0 := by
    intro h0
    rw [h0, List.take_zero, List.prefix_nil] at hp
    exact hne hp
  have hch := hs.committed T h0
  have hresp : ∀ U, Respected s T (L.take (s.committed T)) U :=
    fun U t c₁ L₁ hT _ hL₁ => hs.leader_complete hch hL hT hL₁
  obtain ⟨c', L', k, e, hL', hk, he, het, Q, hQ, hack⟩ := hch
  refine ⟨Q, hQ, fun p hpQ => hp.trans ?_⟩
  obtain ⟨m, hm, ha⟩ := hack p hpQ
  exact hs.ack_log ha hL hm (hresp _)

/-! ## Reading the committed log -/

/-- No leader is ahead of a quorum. -/
theorem term_le_of_quorum (hs : Invariant q term s) {T : ℕ} {c : N} {L : List E}
    (hL : s.leader T = some (c, L)) {Q : Finset N} (hQ : q.IsQuorum Q) {U : ℕ}
    (hU : ∀ p ∈ Q, s.term p ≤ U) : T ≤ U := by
  obtain ⟨l, -, -, R, hR, hvotes⟩ := hs.leader_elected hL
  obtain ⟨p, hpQ, hpR⟩ := q.meet hQ hR
  exact (hs.vote_le (hvotes p hpR).1).trans (hU p hpQ)

/-- **Read index**: while no node of a quorum has left term `U` for a later one, nothing beyond
entry `k` is committed, if this is, perhaps later, an entry of term `U` in the log of its leader,
and the leader has committed no more than that in the term so far. -/
theorem length_le_of_quorum (hs : Invariant q term s) {s' : State N E}
    (hs' : Invariant q term s') (hg : Grows term s s') {Q : Finset N} (hQ : q.IsQuorum Q)
    {U : ℕ} (hU : ∀ p ∈ Q, s.term p ≤ U) {c : N} {L : List E} (hL : s'.leader U = some (c, L))
    {k : ℕ} {e : E} (he : L[k]? = some e) (het : term e = U) (hk : s.committed U ≤ k + 1)
    {t : ℕ} {l : List E} (hl : CommittedBy s t l) : l.length ≤ k + 1 := by
  rcases hl with rfl | ⟨T, c₀, L₀, -, hL₀, hp⟩
  · exact Nat.zero_le _
  rcases Nat.lt_or_eq_of_le (hs.term_le_of_quorum hL₀ hQ hU) with hT | rfl
  · -- the entries of `l` have earlier terms, and the leader has them all
    have hl : CommittedBy s T l := Or.inr ⟨T, c₀, L₀, le_rfl, hL₀, hp⟩
    have hpre := hs'.committedBy_prefix_leader (hl.grows hg) hT.le hL
    by_contra hlt
    have hkl : k < l.length := by omega
    have hlk := getElem?_of_prefix hpre (List.getElem?_eq_getElem hkl)
    have heq : l[k] = e := Option.some.inj (hlk.symm.trans he)
    have hmem : e ∈ L₀ :=
      (hp.trans (List.take_prefix _ _)).subset (heq ▸ List.getElem_mem hkl)
    have := hs.leader_term hL₀ e hmem
    omega
  · have hlen := hp.length_le
    rw [List.length_take] at hlen
    omega

end Invariant

end Replication
