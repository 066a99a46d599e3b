import Mathlib.Algebra.BigOperators.Group.Multiset.Basic
import Mathlib.Algebra.GroupWithZero.Nat
import Mathlib.Algebra.Order.BigOperators.Group.Finset
import Mathlib.Algebra.Order.Monoid.Prod
import Mathlib.Order.WellFounded

/-!
# Exchanges that settle

Parties that only react to messages. A message in flight is lost or handled once, and what its
handler sends is then in flight as well. The exchange ends if the parties have a rank which no
message raises and messages have a weight such that handling a message at an unchanged rank sends
messages of less total weight (`wellFounded_messageStep`). Such a rank is found party by party:
`sum_ranks_lt` and `sum_ranks_eq` carry it from the party that handles the message to all of them.
-/

variable {S M R : Type*}

/-- One message in flight is lost, or handled: `handles s m s' sent` is what handling it may do. -/
inductive MessageStep (handles : S → M → S → List M → Prop) :
    S × Multiset M → S × Multiset M → Prop
  | drop (s : S) (m : M) (flight : Multiset M) : MessageStep handles (s, m ::ₘ flight) (s, flight)
  | deliver {s s' : S} {m : M} {sent : List M} (h : handles s m s' sent) (flight : Multiset M) :
      MessageStep handles (s, m ::ₘ flight) (s', flight + (sent : Multiset M))

/-- **The rule of settling**: an exchange ends if every message that is handled lowers the rank of
the parties, or leaves it and is replaced by messages of less weight. -/
theorem wellFounded_messageStep [LT R] [WellFoundedLT R] {handles : S → M → S → List M → Prop}
    (rank : S → R) (weight : M → ℕ) (hpos : ∀ m, 0 < weight m)
    (h : ∀ {s m s' sent}, handles s m s' sent → rank s' < rank s ∨
      rank s' = rank s ∧ (sent.map weight).sum < weight m) :
    WellFounded fun after before : S × Multiset M => MessageStep handles before after := by
  refine Subrelation.wf (r := InvImage (Prod.Lex (· < ·) (· < ·)) fun x : S × Multiset M =>
    (rank x.1, (x.2.map weight).sum)) ?_ (InvImage.wf _ (WellFounded.prod_lex wellFounded_lt
      wellFounded_lt))
  rintro after before (⟨s, m, flight⟩ | ⟨hh, flight⟩)
  · refine Prod.Lex.right _ ?_
    rw [Multiset.map_cons, Multiset.sum_cons]
    exact Nat.lt_add_of_pos_left (hpos m)
  · rcases h hh with hlt | ⟨heq, hlt⟩
    · exact Prod.Lex.left _ _ hlt
    · rw [InvImage, heq]
      refine Prod.Lex.right _ ?_
      rw [Multiset.map_cons, Multiset.sum_cons, Multiset.map_add, Multiset.sum_add,
        Multiset.map_coe, Multiset.sum_coe, Nat.add_comm]
      exact Nat.add_lt_add_right hlt _

section

variable {ι : Type*} {members : Finset ι} {rank rank' : ι → R} {n : ι}

/-- What one party's rank goes down by, the sum goes down by. -/
theorem sum_ranks_lt [AddCommMonoid R] [PartialOrder R] [IsOrderedCancelAddMonoid R]
    (hn : n ∈ members) (hother : ∀ p ≠ n, rank' p = rank p) (h : rank' n < rank n) :
    ∑ p ∈ members, rank' p < ∑ p ∈ members, rank p := by
  refine Finset.sum_lt_sum (fun p _ => ?_) ⟨n, hn, h⟩
  by_cases hp : p = n
  · subst hp
    exact h.le
  · exact (hother p hp).le

theorem sum_ranks_eq [AddCommMonoid R] (hother : ∀ p ≠ n, rank' p = rank p)
    (h : rank' n = rank n) : ∑ p ∈ members, rank' p = ∑ p ∈ members, rank p := by
  refine Finset.sum_congr rfl fun p _ => ?_
  by_cases hp : p = n
  · subst hp
    exact h
  · exact hother p hp

end
