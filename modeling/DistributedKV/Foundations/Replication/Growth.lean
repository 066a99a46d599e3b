import DistributedKV.Foundations.Replication.State

/-!
# What steps preserve

`Grows` says that the record of the past is never lost, and `Frame` that a step of a node leaves
what belongs to the other nodes alone. Both are transitive, so they hold of any number of steps.
-/

namespace Replication

variable {N E : Type*} {q : QuorumSystem N} {term : E → ℕ}

/-- Nothing that a message may carry is ever taken back. -/
structure Grows (term : E → ℕ) (s s' : State N E) : Prop where
  term_le : ∀ p, s.term p ≤ s'.term p
  vote : ∀ {p T c}, s.vote p T = some c → s'.vote p T = some c
  snapshot : ∀ {p T v}, s.snapshot p T = some v → s'.snapshot p T = some v
  candidacy : ∀ {p T l}, s.candidacy p T = some l → s'.candidacy p T = some l
  leader : ∀ {T c L}, s.leader T = some (c, L) →
    ∃ X, s'.leader T = some (c, L ++ X) ∧ ∀ e ∈ X, term e = T
  ack : ∀ {p T m}, s.ack p T m → s'.ack p T m
  committed : ∀ T, s.committed T ≤ s'.committed T

namespace Grows

theorem refl (s : State N E) : Grows term s s where
  term_le _ := le_rfl
  vote h := h
  snapshot h := h
  candidacy h := h
  leader h := ⟨[], by simpa using h, by simp⟩
  ack h := h
  committed _ := le_rfl

theorem trans {s₁ s₂ s₃ : State N E} (h : Grows term s₁ s₂) (h' : Grows term s₂ s₃) :
    Grows term s₁ s₃ where
  term_le p := (h.term_le p).trans (h'.term_le p)
  vote hv := h'.vote (h.vote hv)
  snapshot hv := h'.snapshot (h.snapshot hv)
  candidacy hv := h'.candidacy (h.candidacy hv)
  leader hl := by
    obtain ⟨X, hX, hXt⟩ := h.leader hl
    obtain ⟨Y, hY, hYt⟩ := h'.leader hX
    refine ⟨X ++ Y, by rw [hY, List.append_assoc], fun e he => ?_⟩
    rcases List.mem_append.1 he with he | he
    · exact hXt e he
    · exact hYt e he
  ack ha := h'.ack (h.ack ha)
  committed T := (h.committed T).trans (h'.committed T)

/-- The log of a term's leader only gets longer. -/
theorem leader_prefix {s s' : State N E} (h : Grows term s s') {T : ℕ} {c : N} {L : List E}
    (hl : s.leader T = some (c, L)) : ∃ L', s'.leader T = some (c, L') ∧ L <+: L' := by
  obtain ⟨X, hX, -⟩ := h.leader hl
  exact ⟨L ++ X, hX, List.prefix_append L X⟩

/-- A term without a leader had none before. -/
theorem leader_none {s s' : State N E} (h : Grows term s s') {T : ℕ} (hn : s'.leader T = none) :
    s.leader T = none := by
  cases hl : s.leader T with
  | none => rfl
  | some p =>
    obtain ⟨c, L⟩ := p
    obtain ⟨X, hX, -⟩ := h.leader hl
    simp [hX] at hn

theorem leader_eq {s s' : State N E} (h : Grows term s s') {T : ℕ} {c c' : N} {L L' : List E}
    (hl : s.leader T = some (c, L)) (hl' : s'.leader T = some (c', L')) : c' = c ∧ L <+: L' := by
  obtain ⟨L'', h1, h2⟩ := h.leader_prefix hl
  rw [h1] at hl'
  simp only [Option.some.injEq, Prod.mk.injEq] at hl'
  obtain ⟨rfl, rfl⟩ := hl'
  exact ⟨rfl, h2⟩

end Grows

/-- A step of `n` concerns only `n`. -/
structure Frame (n : N) (s s' : State N E) : Prop where
  term : ∀ p, p ≠ n → s'.term p = s.term p
  log : ∀ p, p ≠ n → s'.log p = s.log p
  vote : ∀ p, p ≠ n → s'.vote p = s.vote p
  leader : ∀ {T c L}, c ≠ n → s'.leader T = some (c, L) → s.leader T = some (c, L)
  committed : ∀ {T c L}, c ≠ n → s'.leader T = some (c, L) → s'.committed T = s.committed T
  ack : ∀ {p T m}, p ≠ n → s'.ack p T m → s.ack p T m

namespace Frame

theorem refl (n : N) (s : State N E) : Frame n s s where
  term _ _ := rfl
  log _ _ := rfl
  vote _ _ := rfl
  leader _ h := h
  committed _ _ := rfl
  ack _ h := h

theorem trans {n : N} {s₁ s₂ s₃ : State N E} (h : Frame n s₁ s₂) (h' : Frame n s₂ s₃) :
    Frame n s₁ s₃ where
  term p hp := (h'.term p hp).trans (h.term p hp)
  log p hp := (h'.log p hp).trans (h.log p hp)
  vote p hp := (h'.vote p hp).trans (h.vote p hp)
  leader hc hl := h.leader hc (h'.leader hc hl)
  committed hc hl := (h'.committed hc hl).trans (h.committed hc (h'.leader hc hl))
  ack hp ha := h.ack hp (h'.ack hp ha)

end Frame

variable [DecidableEq N]

theorem State.castVote_grows {s : State N E} {n c : N} (hv : s.vote n (s.term n) = none)
    (hs : s.leader (s.term n) = none → s.snapshot n (s.term n) = none) :
    Grows term s (s.castVote n c) where
  term_le _ := le_rfl
  vote {p T c'} h := by
    simp only [State.castVote, update₂_apply]
    split_ifs with hp
    · rw [hp.1, hp.2, hv] at h
      cases h
    · exact h
  snapshot {p T v} h := by
    unfold State.castVote
    cases hl : s.leader (s.term n) with
    | some _ => exact h
    | none =>
      simp only [update₂_apply]
      split_ifs with hp
      · rw [hp.1, hp.2, hs hl] at h
        cases h
      · exact h
  candidacy h := h
  leader h := ⟨[], by simpa [State.castVote] using h, by simp⟩
  ack h := h
  committed _ := le_rfl

theorem State.castVote_frame (s : State N E) (n c : N) : Frame n s (s.castVote n c) where
  term _ _ := rfl
  log _ _ := rfl
  vote p hp := by
    funext T
    simp [State.castVote, update₂_apply, hp]
  leader _ h := h
  committed _ _ := rfl
  ack _ h := h

theorem Step.frame {n : N} {s s' : State N E} (h : Step q term n s s') : Frame n s s' := by
  cases h with
  | advanceTerm t ht =>
    exact ⟨fun p hp => Function.update_of_ne hp _ _, fun _ _ => rfl, fun _ _ => rfl,
      fun _ h => h, fun _ _ => rfl, fun _ h => h⟩
  | stand hv hl =>
    have hf := s.castVote_frame n n
    exact ⟨hf.term, hf.log, hf.vote, hf.leader, hf.committed, hf.ack⟩
  | grant c l hv hc hu => exact s.castVote_frame n c
  | elect hc hn hq =>
    refine ⟨fun _ _ => rfl, fun _ _ => rfl, fun _ _ => rfl, ?_, fun _ _ => rfl, fun _ h => h⟩
    intro T c L hcn hl
    by_cases hT : T = s.term n
    · subst hT
      simp only [Function.update_self, Option.some.injEq, Prod.mk.injEq] at hl
      exact absurd hl.1.symm hcn
    · simpa [Function.update_of_ne hT] using hl
  | extend e hl he =>
    refine ⟨fun _ _ => rfl, fun p hp => Function.update_of_ne hp _ _, fun _ _ => rfl, ?_,
      fun _ _ => rfl, ?_⟩
    · intro T c L hcn hl'
      by_cases hT : T = s.term n
      · subst hT
        simp only [Function.update_self, Option.some.injEq, Prod.mk.injEq] at hl'
        exact absurd hl'.1.symm hcn
      · simpa [Function.update_of_ne hT] using hl'
    · rintro p T m hp (h | h)
      · exact h
      · exact absurd h.1 hp
  | truncate c L k e e' hl hp he he' hne =>
    exact ⟨fun _ _ => rfl, fun p hp => Function.update_of_ne hp _ _, fun _ _ => rfl,
      fun _ h => h, fun _ _ => rfl, fun _ h => h⟩
  | copy c L e hl hp =>
    exact ⟨fun _ _ => rfl, fun p hp => Function.update_of_ne hp _ _, fun _ _ => rfl,
      fun _ h => h, fun _ _ => rfl, fun _ h => h⟩
  | acknowledge c L m hl hm hp =>
    refine ⟨fun _ _ => rfl, fun _ _ => rfl, fun _ _ => rfl, fun _ h => h, fun _ _ => rfl, ?_⟩
    rintro p T k hp (h | h)
    · exact h
    · exact absurd h.1 hp
  | commit i L e hl hi he het hq =>
    refine ⟨fun _ _ => rfl, fun _ _ => rfl, fun _ _ => rfl, fun _ h => h, ?_, fun _ h => h⟩
    intro T c L' hcn hl'
    have hT : T ≠ s.term n := by
      rintro rfl
      rw [show s.leader (s.term n) = some (c, L') from hl', Option.some.injEq,
        Prod.mk.injEq] at hl
      exact hcn hl.1
    exact Function.update_of_ne hT _ _

theorem Steps.frame {n : N} {s s' : State N E} (h : Steps q term n s s') : Frame n s s' := by
  induction h with
  | refl => exact Frame.refl n s
  | tail _ h ih => exact ih.trans h.frame

end Replication
