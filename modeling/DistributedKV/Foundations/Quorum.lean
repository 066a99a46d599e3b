import Mathlib.Data.Finset.Card

/-!
# Quorum systems

A quorum system is a family of node sets of which any two meet. The majorities of a finite set of
members are one.
-/

/-- A family of sets of nodes any two of which have a node in common. -/
structure QuorumSystem (N : Type*) where
  IsQuorum : Finset N → Prop
  meet : ∀ {Q R : Finset N}, IsQuorum Q → IsQuorum R → ∃ p ∈ Q, p ∈ R

namespace QuorumSystem

variable {N : Type*} [DecidableEq N]

/-- The majorities of a finite set of members. -/
def majority (members : Finset N) : QuorumSystem N where
  IsQuorum Q := Q ⊆ members ∧ members.card < 2 * Q.card
  meet := by
    rintro Q R ⟨hQ, hQc⟩ ⟨hR, hRc⟩
    obtain ⟨p, hp⟩ := Finset.inter_nonempty_of_card_lt_card_add_card hQ hR (by omega)
    exact ⟨p, Finset.mem_of_mem_inter_left hp, Finset.mem_of_mem_inter_right hp⟩

/-- Two distinct members are a majority of three. -/
theorem majority_pair {members : Finset N} (hc : members.card = 3) {p r : N} (hp : p ∈ members)
    (hr : r ∈ members) (hne : p ≠ r) : (majority members).IsQuorum {p, r} := by
  refine ⟨?_, ?_⟩
  · intro x hx
    rcases Finset.mem_insert.1 hx with rfl | hx
    · exact hp
    · rwa [Finset.mem_singleton.1 hx]
  · rw [hc, Finset.card_pair hne]
    omega

/-- A majority of three has two distinct members. -/
theorem exists_pair_of_majority {members : Finset N} (hc : members.card = 3) {Q : Finset N}
    (hQ : (majority members).IsQuorum Q) :
    ∃ p r, p ∈ Q ∧ r ∈ Q ∧ p ≠ r ∧ p ∈ members ∧ r ∈ members := by
  obtain ⟨hsub, hcard⟩ := hQ
  obtain ⟨p, hp, r, hr, hne⟩ := Finset.one_lt_card.1 (by omega : 1 < Q.card)
  exact ⟨p, r, hp, hr, hne, hsub hp, hsub hr⟩

end QuorumSystem
