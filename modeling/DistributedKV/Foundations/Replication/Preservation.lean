import DistributedKV.Foundations.Replication.Invariant

/-!
# The invariant is preserved

One lemma per kind of step, and `Invariant.step` and `Invariant.steps` from them.
-/

namespace Replication

variable {N E : Type*} {q : QuorumSystem N} {term : E → ℕ}

theorem Respected.mono {s : State N E} {T U U' : ℕ} {l : List E} (hU : U ≤ U')
    (h : Respected s T l U') : Respected s T l U :=
  fun t c L hT ht hL => h t c L hT (ht.trans hU) hL

namespace Invariant

variable {s : State N E} {n : N}

/-- The log of a term's leader determines what `Respected` says about its first entries. -/
theorem take_le (hs : Invariant q term s) {T : ℕ} {c : N} {L : List E}
    (hL : s.leader T = some (c, L)) (i : ℕ) : ∀ e ∈ L.take i, term e ≤ T :=
  fun e he => hs.leader_term hL e (List.mem_of_mem_take he)

/-- `ack_log` of the state before a step, read with the leaders of the state after it. -/
theorem ack_log_of_grows (hs : Invariant q term s) {s' : State N E} (hg : Grows term s s')
    {p : N} {T m i : ℕ} {c : N} {L' : List E} (ha : s.ack p T m)
    (hL : s'.leader T = some (c, L')) (hi : i ≤ m)
    (hr : Respected s' T (L'.take i) (s'.term p)) :
    ∃ L, s.leader T = some (c, L) ∧ L'.take i = L.take i ∧
      Respected s T (L.take i) (s.term p) ∧ L.take i <+: s.log p := by
  obtain ⟨-, c₀, L, hL₀, hm⟩ := hs.ack_le ha
  obtain ⟨rfl, hpre⟩ := hg.leader_eq hL₀ hL
  obtain ⟨X, rfl⟩ := hpre
  rw [List.take_append_of_le_length (by omega)] at hr ⊢
  have hr' := Respected.of_grows hg (hs.take_le hL₀ i) (hg.term_le p) hr
  exact ⟨L, hL₀, rfl, hr', hs.ack_log ha hL₀ hi hr'⟩

/-- `ack_snapshot` of the state before a step, read with the leaders of the state after it. -/
theorem ack_snapshot_of_grows (hs : Invariant q term s) {s' : State N E} (hg : Grows term s s')
    {p : N} {T m i U : ℕ} {c : N} {L' v : List E} (ha : s.ack p T m)
    (hL : s'.leader T = some (c, L')) (hi : i ≤ m) (hv : s.snapshot p U = some v) (hU : T < U)
    (hr : Respected s' T (L'.take i) (U - 1)) : L'.take i <+: v := by
  obtain ⟨-, c₀, L, hL₀, hm⟩ := hs.ack_le ha
  obtain ⟨rfl, X, rfl⟩ := hg.leader_eq hL₀ hL
  rw [List.take_append_of_le_length (by omega)] at hr ⊢
  exact hs.ack_snapshot ha hL₀ hi hv hU
    (Respected.of_grows hg (hs.take_le hL₀ i) le_rfl hr)

theorem commit (hs : Invariant q term s) {i : ℕ} {L : List E} {e : E}
    (hl : s.leader (s.term n) = some (n, L)) (he : L[i]? = some e) (het : term e = s.term n)
    (hq : ∃ Q, q.IsQuorum Q ∧ ∀ p ∈ Q, ∃ m, i < m ∧ s.ack p (s.term n) m) :
    Invariant q term
      { s with committed := Function.update s.committed (s.term n) (i + 1) } :=
  { hs with
    committed := fun T h => by
      by_cases hT : T = s.term n
      · subst hT
        simp only [Function.update_self]
        obtain ⟨Q, hQ, ha⟩ := hq
        exact ⟨n, L, i, e, hl, rfl, he, het, Q, hQ, ha⟩
      · simp only [Function.update_of_ne hT] at h ⊢
        exact hs.committed T h }

variable [DecidableEq N]

theorem advanceTerm (hs : Invariant q term s) {t : ℕ} (ht : s.term n < t) :
    Invariant q term { s with term := Function.update s.term n t } := by
  have hle : ∀ p, s.term p ≤ Function.update s.term n t p := by
    intro p
    by_cases hp : p = n
    · subst hp
      simpa using ht.le
    · simp [Function.update_of_ne hp]
  exact { hs with
    log_term := fun p e he => (hs.log_term p e he).trans (hle p)
    leader_le := fun h => (hs.leader_le h).trans (hle _)
    vote_le := fun h => (hs.vote_le h).trans (hle _)
    ack_le := fun h => ⟨(hs.ack_le h).1.trans (hle _), (hs.ack_le h).2⟩
    ack_log := fun ha hL hi hr => hs.ack_log ha hL hi (Respected.mono (hle _) hr) }

/-- A vote, together with a record of candidacies that backs it. -/
theorem castVote (hs : Invariant q term s) {c : N} (cand : N → ℕ → Option (List E))
    (hv : s.vote n (s.term n) = none)
    (hold : ∀ {c T l}, s.candidacy c T = some l → cand c T = some l)
    (hnew : ∃ l, cand c (s.term n) = some l ∧ UpToDate term l (s.log n))
    (hok : ∀ {c' T l}, cand c' T = some l → (s.castVote n c).vote c' T = some c' ∧
      (∀ e ∈ l, term e < T) ∧ Backed term s l) :
    Invariant q term { s.castVote n c with candidacy := cand } := by
  have hcast : Grows term s (s.castVote n c) :=
    State.castVote_grows hv fun _ => (hs.vote_fresh hv).1
  have hg : Grows term s { s.castVote n c with candidacy := cand } :=
    { hcast with candidacy := hold }
  have hvote : ∀ {p T c'}, (s.castVote n c).vote p T = some c' →
      s.vote p T = some c' ∨ p = n ∧ T = s.term n ∧ c' = c := by
    intro p T c' h
    simp only [State.castVote, update₂_apply] at h
    split_ifs at h with hp
    · exact Or.inr ⟨hp.1, hp.2, (Option.some.inj h).symm⟩
    · exact Or.inl h
  have hsnap : ∀ {p T v}, (s.castVote n c).snapshot p T = some v →
      s.snapshot p T = some v ∨
        p = n ∧ T = s.term n ∧ v = s.log n ∧ s.leader (s.term n) = none := by
    intro p T v h
    unfold State.castVote at h
    cases hl : s.leader (s.term n) with
    | some _ =>
      simp only [hl] at h
      exact Or.inl h
    | none =>
      simp only [hl, update₂_apply] at h
      split_ifs at h with hp
      · exact Or.inr ⟨hp.1, hp.2, (Option.some.inj h).symm, rfl⟩
      · exact Or.inl h
  exact { hs with
    leader_elected := fun h => by
      obtain ⟨l, hl, he⟩ := hs.leader_elected h
      exact ⟨l, hl, he.grows hg⟩
    candidacy := hok
    vote_le := fun h => by
      rcases hvote h with h | ⟨rfl, rfl, -⟩
      · exact hs.vote_le h
      · exact le_rfl
    vote_early := fun {p T c'} h hn => by
      rcases hvote h with h | ⟨rfl, rfl, rfl⟩
      · obtain ⟨v, l, h1, h2, h3⟩ := hs.vote_early h hn
        exact ⟨v, l, hg.snapshot h1, hold h2, h3⟩
      · obtain ⟨l, hl, hu⟩ := hnew
        have hn' : s.leader (s.term p) = none := hn
        exact ⟨s.log p, l, by simp [State.castVote, hn', update₂_apply], hl, hu⟩
    snapshot := fun {p T v} h => by
      rcases hsnap h with h | ⟨rfl, rfl, rfl, -⟩
      · obtain ⟨⟨c', hc'⟩, hb⟩ := hs.snapshot h
        exact ⟨⟨c', hg.vote hc'⟩, hb⟩
      · exact ⟨⟨c, by simp [State.castVote, update₂_apply]⟩, hs.log_backed p⟩
    ack_snapshot := fun {p T m c' L i U v} ha hL hi hv hU hr => by
      rcases hsnap hv with h | ⟨rfl, rfl, rfl, hn⟩
      · exact hs.ack_snapshot ha hL hi h hU hr
      · -- the voter's term has no leader yet, so the terms before it are all that matter
        refine hs.ack_log ha hL hi fun t c₁ L₁ hT ht hL₁ => ?_
        have hne : t ≠ s.term p := by
          rintro rfl
          simp [hn] at hL₁
        exact hr t c₁ L₁ hT (by omega) hL₁
    committed := fun T h => (hs.committed T h).grows hg }

theorem stand (hs : Invariant q term s) (hv : s.vote n (s.term n) = none)
    (hl : ∀ e ∈ s.log n, term e < s.term n) :
    Invariant q term { s.castVote n n with
      candidacy := update₂ s.candidacy n (s.term n) (some (s.log n)) } := by
  refine hs.castVote _ hv ?_ ⟨s.log n, by simp [update₂_apply], .refl term _⟩ ?_
  · intro c T l h
    rw [update₂_apply]
    split_ifs with hp
    · rw [hp.1, hp.2, (hs.vote_fresh hv).2] at h
      cases h
    · exact h
  · intro c T l h
    rw [update₂_apply] at h
    split_ifs at h with hp
    · obtain ⟨rfl, rfl⟩ := hp
      obtain rfl := Option.some.inj h
      exact ⟨by simp [State.castVote, update₂_apply], hl, hs.log_backed c⟩
    · obtain ⟨h1, h2, h3⟩ := hs.candidacy h
      refine ⟨?_, h2, h3⟩
      simp only [State.castVote, update₂_apply]
      rwa [if_neg hp]

theorem grant (hs : Invariant q term s) {c : N} {l : List E} (hv : s.vote n (s.term n) = none)
    (hc : s.candidacy c (s.term n) = some l) (hu : UpToDate term l (s.log n)) :
    Invariant q term (s.castVote n c) := by
  refine hs.castVote s.candidacy hv (fun h => h) ⟨l, hc, hu⟩ ?_
  intro c' T l' h
  obtain ⟨h1, h2, h3⟩ := hs.candidacy h
  refine ⟨?_, h2, h3⟩
  simp only [State.castVote, update₂_apply]
  split_ifs with hp
  · rw [hp.1, hp.2, hv] at h1
    cases h1
  · exact h1

theorem elect (hs : Invariant q term s) (hc : s.candidacy n (s.term n) = some (s.log n))
    (hn : s.leader (s.term n) = none)
    (hq : ∃ Q, q.IsQuorum Q ∧ ∀ p ∈ Q, s.vote p (s.term n) = some n) :
    Invariant q term
      { s with leader := Function.update s.leader (s.term n) (some (n, s.log n)) } := by
  have hstep : Step q term n s _ := .elect s hc hn hq
  have hg := hs.grows hstep
  set s' : State N E :=
    { s with leader := Function.update s.leader (s.term n) (some (n, s.log n)) } with hs'
  have hleader : ∀ {T c L}, s'.leader T = some (c, L) →
      s.leader T = some (c, L) ∨ T = s.term n ∧ c = n ∧ L = s.log n := by
    intro T c L h
    by_cases hT : T = s.term n
    · subst hT
      simp only [hs', Function.update_self, Option.some.injEq, Prod.mk.injEq] at h
      exact Or.inr ⟨rfl, h.1.symm, h.2.symm⟩
    · simp only [hs', Function.update_of_ne hT] at h
      exact Or.inl h
  have hback : ∀ {l}, Backed term s l → Backed term s' l := fun h => h.grows hg
  have hself : s'.leader (s.term n) = some (n, s.log n) := by simp [hs']
  exact {
    log_backed := fun p => hback (hs.log_backed p)
    log_term := hs.log_term
    leader_backed := fun h => by
      rcases hleader h with h | ⟨rfl, rfl, rfl⟩
      · exact hback (hs.leader_backed h)
      · exact hback (hs.log_backed _)
    leader_term := fun h => by
      rcases hleader h with h | ⟨rfl, rfl, rfl⟩
      · exact hs.leader_term h
      · exact hs.log_term _
    leader_le := fun h => by
      rcases hleader h with h | ⟨rfl, rfl, rfl⟩
      · exact hs.leader_le h
      · exact le_rfl
    leader_elected := fun {T c L} h => by
      rcases hleader h with h | ⟨rfl, rfl, rfl⟩
      · obtain ⟨l, hl, he⟩ := hs.leader_elected h
        exact ⟨l, hl, he.grows hg⟩
      · obtain ⟨Q, hQ, hvotes⟩ := hq
        refine ⟨s.log c, List.prefix_rfl, hc, Q, hQ, fun p hp => ⟨hvotes p hp, ?_⟩⟩
        obtain ⟨v, l, h1, h2, h3⟩ := hs.vote_early (hvotes p hp) hn
        rw [hc] at h2
        obtain rfl := Option.some.inj h2
        exact ⟨v, h1, h3⟩
    candidacy := fun h => by
      obtain ⟨h1, h2, h3⟩ := hs.candidacy h
      exact ⟨h1, h2, hback h3⟩
    vote_le := hs.vote_le
    vote_early := fun h hn' => hs.vote_early h (hg.leader_none hn')
    snapshot := fun h => ⟨(hs.snapshot h).1, hback (hs.snapshot h).2⟩
    ack_le := fun h => by
      obtain ⟨h1, c, L, hL, hm⟩ := hs.ack_le h
      obtain ⟨X, hX, -⟩ := hg.leader hL
      exact ⟨h1, c, L ++ X, hX, by simp; omega⟩
    ack_log := fun ha hL hi hr => by
      obtain ⟨L, -, hLi, -, hp⟩ := hs.ack_log_of_grows hg ha hL hi hr
      rwa [hLi]
    ack_snapshot := fun ha hL hi hv hU hr => hs.ack_snapshot_of_grows hg ha hL hi hv hU hr
    committed := fun T h => (hs.committed T h).grows hg }

theorem extend (hs : Invariant q term s) {e : E} (hl : s.leader (s.term n) = some (n, s.log n))
    (he : term e = s.term n) :
    Invariant q term { s.addAck n ((s.log n).length + 1) with
      log := Function.update s.log n (s.log n ++ [e])
      leader := Function.update s.leader (s.term n) (some (n, s.log n ++ [e])) } := by
  have hstep : Step q term n s _ := .extend s e hl he
  have hg := hs.grows hstep
  set s' : State N E := { s.addAck n ((s.log n).length + 1) with
    log := Function.update s.log n (s.log n ++ [e])
    leader := Function.update s.leader (s.term n) (some (n, s.log n ++ [e])) } with hs'
  have hself : s'.leader (s.term n) = some (n, s.log n ++ [e]) := by simp [hs']
  have hlog : s'.log n = s.log n ++ [e] := by simp [hs']
  have hlog' : ∀ p, p ≠ n → s'.log p = s.log p := fun p hp => by simp [hs', hp]
  have hleader : ∀ {T c L}, s'.leader T = some (c, L) →
      s.leader T = some (c, L) ∨ T = s.term n ∧ c = n ∧ L = s.log n ++ [e] := by
    intro T c L h
    by_cases hT : T = s.term n
    · subst hT
      rw [hself] at h
      simp only [Option.some.injEq, Prod.mk.injEq] at h
      exact Or.inr ⟨rfl, h.1.symm, h.2.symm⟩
    · simp only [hs', Function.update_of_ne hT] at h
      exact Or.inl h
  have hback : ∀ {l}, Backed term s l → Backed term s' l := fun h => h.grows hg
  have hnew : Backed term s' (s.log n ++ [e]) :=
    (hback (hs.log_backed n)).concat (by rw [he]; exact hself) List.prefix_rfl
  have hterm : ∀ e' ∈ s.log n ++ [e], term e' ≤ s.term n := by
    intro e' he'
    rcases List.mem_append.1 he' with h | h
    · exact hs.log_term n e' h
    · rw [List.mem_singleton.1 h, he]
  exact {
    log_backed := fun p => by
      by_cases hp : p = n
      · rw [hp, hlog]
        exact hnew
      · rw [hlog' p hp]
        exact hback (hs.log_backed p)
    log_term := fun p e' he' => by
      by_cases hp : p = n
      · subst hp
        rw [hlog] at he'
        exact hterm e' he'
      · rw [hlog' p hp] at he'
        exact hs.log_term p e' he'
    leader_backed := fun h => by
      rcases hleader h with h | ⟨rfl, rfl, rfl⟩
      · exact hback (hs.leader_backed h)
      · exact hnew
    leader_term := fun h => by
      rcases hleader h with h | ⟨rfl, rfl, rfl⟩
      · exact hs.leader_term h
      · exact hterm
    leader_le := fun h => by
      rcases hleader h with h | ⟨rfl, rfl, rfl⟩
      · exact hs.leader_le h
      · exact le_rfl
    leader_elected := fun {T c L} h => by
      rcases hleader h with h | ⟨rfl, rfl, rfl⟩
      · obtain ⟨l, hl, he⟩ := hs.leader_elected h
        exact ⟨l, hl, he.grows hg⟩
      · obtain ⟨l, hl, he⟩ := hs.leader_elected hl
        exact ⟨l, hl.trans (List.prefix_append _ _), he.grows hg⟩
    candidacy := fun h => by
      obtain ⟨h1, h2, h3⟩ := hs.candidacy h
      exact ⟨h1, h2, hback h3⟩
    vote_le := hs.vote_le
    vote_early := fun h hn' => hs.vote_early h (hg.leader_none hn')
    snapshot := fun h => ⟨(hs.snapshot h).1, hback (hs.snapshot h).2⟩
    ack_le := fun h => by
      rcases h with h | ⟨rfl, rfl, rfl⟩
      · obtain ⟨h1, c, L, hL, hm⟩ := hs.ack_le h
        obtain ⟨X, hX, -⟩ := hg.leader hL
        exact ⟨h1, c, L ++ X, hX, by simp; omega⟩
      · exact ⟨le_rfl, _, _, hself, by simp⟩
    ack_log := fun {p T m c L i} ha hL hi hr => by
      rcases ha with ha | ⟨rfl, rfl, rfl⟩
      · obtain ⟨L₀, -, hLi, -, hp⟩ := hs.ack_log_of_grows hg ha hL hi hr
        rw [hLi]
        by_cases hpn : p = n
        · subst hpn
          rw [hlog]
          exact hp.trans (List.prefix_append _ _)
        · rwa [hlog' p hpn]
      · rw [hself] at hL
        simp only [Option.some.injEq, Prod.mk.injEq] at hL
        rw [hlog, ← hL.2]
        exact List.take_prefix _ _
    ack_snapshot := fun {p T m c L i U v} ha hL hi hv hU hr => by
      rcases ha with ha | ⟨rfl, rfl, rfl⟩
      · exact hs.ack_snapshot_of_grows hg ha hL hi hv hU hr
      · obtain ⟨c', hc'⟩ := (hs.snapshot hv).1
        have := hs.vote_le hc'
        omega
    committed := fun T h => (hs.committed T h).grows hg }

/-- The log of a node that follows the leader of its term is replaced by one that is backed and
keeps the common part with that leader's log. -/
theorem replaceLog (hs : Invariant q term s) {c : N} {L l : List E}
    (hL : s.leader (s.term n) = some (c, L)) (hb : Backed term s l)
    (ht : ∀ e ∈ l, term e ≤ s.term n)
    (hkeep : ∀ x, x <+: s.log n → x <+: L → x <+: l) :
    Invariant q term { s with log := Function.update s.log n l } := by
  have hlog : ∀ p, p ≠ n → Function.update s.log n l p = s.log p :=
    fun p hp => Function.update_of_ne hp _ _
  exact { hs with
    log_backed := fun p => by
      change Backed term s (Function.update s.log n l p)
      by_cases hp : p = n
      · subst hp
        rwa [Function.update_self]
      · rw [hlog p hp]
        exact hs.log_backed p
    log_term := fun p e he => by
      by_cases hp : p = n
      · subst hp
        simp only [Function.update_self] at he
        exact ht e he
      · simp only [hlog p hp] at he
        exact hs.log_term p e he
    ack_log := fun {p T m c' L' i} ha hL' hi hr => by
      have hold := hs.ack_log ha hL' hi hr
      by_cases hp : p = n
      · subst hp
        simp only [Function.update_self]
        refine hkeep _ hold ?_
        -- the leader of the current term has what was acknowledged in an earlier one
        rcases Nat.lt_or_eq_of_le (hs.ack_le ha).1 with hT | hT
        · exact hr _ c L hT le_rfl hL
        · rw [hT, hL] at hL'
          simp only [Option.some.injEq, Prod.mk.injEq] at hL'
          rw [hL'.2]
          exact List.take_prefix _ _
      · simpa [hlog p hp] using hold }

theorem truncate (hs : Invariant q term s) {c : N} {L : List E} {k : ℕ} {e e' : E}
    (hl : s.leader (s.term n) = some (c, L)) (he : (s.log n)[k]? = some e)
    (he' : L[k]? = some e') (hne : term e ≠ term e') :
    Invariant q term { s with log := Function.update s.log n ((s.log n).take k) } := by
  refine hs.replaceLog hl ((hs.log_backed n).take k)
    (fun x hx => hs.log_term n x (List.mem_of_mem_take hx)) fun x hx hxL => ?_
  have hlen : x.length ≤ k := by
    by_contra hk
    have hk : k < x.length := by omega
    have h1 := List.prefix_iff_getElem?.1 hx k hk
    have h2 := List.prefix_iff_getElem?.1 hxL k hk
    rw [he] at h1
    rw [he'] at h2
    exact hne (congrArg term (Option.some.inj (h1.trans h2.symm)))
  exact List.prefix_take_iff.2 ⟨hx, hlen⟩

theorem copy (hs : Invariant q term s) {c : N} {L : List E} {e : E}
    (hl : s.leader (s.term n) = some (c, L)) (hp : s.log n ++ [e] <+: L) :
    Invariant q term { s with log := Function.update s.log n (s.log n ++ [e]) } :=
  hs.replaceLog hl ((hs.leader_backed hl).of_isPrefix hp)
    (fun x hx => hs.leader_term hl x (hp.subset hx))
    fun _ hx _ => hx.trans (List.prefix_append _ _)

theorem acknowledge (hs : Invariant q term s) {c : N} {L : List E} {m : ℕ}
    (hl : s.leader (s.term n) = some (c, L)) (hm : m ≤ L.length) (hp : L.take m <+: s.log n) :
    Invariant q term (s.addAck n m) := by
  have hstep : Step q term n s _ := .acknowledge s c L m hl hm hp
  have hg := hs.grows hstep
  exact { hs with
    ack_le := fun h => by
      rcases h with h | ⟨rfl, rfl, rfl⟩
      · exact hs.ack_le h
      · exact ⟨le_rfl, c, L, hl, hm⟩
    ack_log := fun {p T m' c' L' i} ha hL hi hr => by
      rcases ha with ha | ⟨rfl, rfl, rfl⟩
      · exact hs.ack_log ha hL hi hr
      · have hL' : s.leader (s.term p) = some (c', L') := hL
        rw [hl] at hL'
        simp only [Option.some.injEq, Prod.mk.injEq] at hL'
        rw [← hL'.2]
        exact (List.take_prefix_take_left hi).trans hp
    ack_snapshot := fun {p T m' c' L' i U v} ha hL hi hv hU hr => by
      rcases ha with ha | ⟨rfl, rfl, rfl⟩
      · exact hs.ack_snapshot ha hL hi hv hU hr
      · obtain ⟨c₁, hc₁⟩ := (hs.snapshot hv).1
        have := hs.vote_le hc₁
        omega
    committed := fun T h => (hs.committed T h).grows hg }

/-- **Every step preserves the invariant.** -/
theorem step (hs : Invariant q term s) {s' : State N E} (h : Step q term n s s') :
    Invariant q term s' := by
  cases h with
  | advanceTerm t ht => exact hs.advanceTerm ht
  | stand hv hl => exact hs.stand hv hl
  | grant c l hv hc hu => exact hs.grant hv hc hu
  | elect hc hn hq => exact hs.elect hc hn hq
  | extend e hl he => exact hs.extend hl he
  | truncate c L k e e' hl hp he he' hne => exact hs.truncate hl he he' hne
  | copy c L e hl hp => exact hs.copy hl hp
  | acknowledge c L m hl hm hp => exact hs.acknowledge hl hm hp
  | commit i L e hl hi he het hq => exact hs.commit hl he het hq

theorem anySteps (hs : Invariant q term s) {s' : State N E} (h : AnySteps q term s s') :
    Invariant q term s' ∧ Grows term s s' := by
  induction h with
  | refl => exact ⟨hs, Grows.refl s⟩
  | tail _ h ih =>
    obtain ⟨n, h⟩ := h
    exact ⟨ih.1.step h, ih.2.trans (ih.1.grows h)⟩

theorem steps (hs : Invariant q term s) {s' : State N E} (h : Steps q term n s s') :
    Invariant q term s' ∧ Grows term s s' := hs.anySteps h.any

end Invariant

end Replication
