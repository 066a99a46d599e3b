import DistributedKV.Foundations.Quorum
import Mathlib.Data.List.Infix
import Mathlib.Logic.Function.Basic
import Mathlib.Logic.Relation

/-!
# An abstract replicated log

Nodes keep a term, a vote per term and a log; a node that a quorum voted for in a term leads the
term and extends its log, and the other nodes of the term copy that log. There are no messages:
what a node may rely on is recorded for good in the state (which log a candidate stood with, what
a node voted for, the log of the leader of each term, how much of it each node has acknowledged),
so a message is any record of the past and may arrive at any time and any number of times. A node
that crashes keeps its term, its votes and its log, hence a crash is no step at all.

Each step changes one durable thing at one node. An implementation that writes several things in
one event takes several steps, and a crash between two writes is a shorter sequence of steps.
-/

namespace Replication

variable {N E : Type*} [DecidableEq N] (q : QuorumSystem N) (term : E → ℕ)

/-- The state of all nodes, with the record of the past. -/
structure State (N E : Type*) where
  /-- The current term of a node. -/
  term : N → ℕ
  /-- The log of a node. -/
  log : N → List E
  /-- For whom a node voted in a term. -/
  vote : N → ℕ → Option N
  /-- The voter's log at the vote, recorded when the term had no leader yet. -/
  snapshot : N → ℕ → Option (List E)
  /-- The log with which a node stood for election in a term. -/
  candidacy : N → ℕ → Option (List E)
  /-- The leader of a term and its log, as far as it has grown. -/
  leader : ℕ → Option (N × List E)
  /-- `ack p T m`: in term `T`, node `p` held the first `m` entries of the leader's log. -/
  ack : N → ℕ → ℕ → Prop
  /-- How many entries the leader of a term knows to be committed. -/
  committed : ℕ → ℕ

/-- The state before the first step. -/
def State.init : State N E where
  term _ := 0
  log _ := []
  vote _ _ := none
  snapshot _ _ := none
  candidacy _ _ := none
  leader _ := none
  ack _ _ _ := False
  committed _ := 0

/-- The term of the last entry of a log, zero for the empty log. -/
def lastTerm (l : List E) : ℕ := (l.getLast?.map term).getD 0

/-- The log `l` may be elected by a voter whose log is `v`. -/
def UpToDate (l v : List E) : Prop :=
  lastTerm term v < lastTerm term l ∨
    lastTerm term v = lastTerm term l ∧ v.length ≤ l.length

theorem UpToDate.refl (l : List E) : UpToDate term l l := Or.inr ⟨rfl, le_rfl⟩

/-- Set a table with two indices at one place. -/
def update₂ {A B C : Type*} [DecidableEq A] [DecidableEq B] (f : A → B → C) (a : A) (b : B)
    (c : C) : A → B → C :=
  Function.update f a (Function.update (f a) b c)

theorem update₂_apply {A B C : Type*} [DecidableEq A] [DecidableEq B] (f : A → B → C) (a x : A)
    (b y : B) (c : C) : update₂ f a b c x y = if x = a ∧ y = b then c else f x y := by
  unfold update₂
  by_cases hx : x = a
  · subst hx
    by_cases hy : y = b <;> simp [Function.update, hy]
  · simp [Function.update, hx]

namespace State

/-- Node `n` votes for `c` in its current term. -/
def castVote (s : State N E) (n c : N) : State N E :=
  { s with
    vote := update₂ s.vote n (s.term n) (some c)
    snapshot := match s.leader (s.term n) with
      | none => update₂ s.snapshot n (s.term n) (some (s.log n))
      | some _ => s.snapshot }

/-- Node `n` records an acknowledgement in its current term. -/
def addAck (s : State N E) (n : N) (m : ℕ) : State N E :=
  { s with ack := fun p T k => s.ack p T k ∨ (p = n ∧ T = s.term n ∧ k = m) }

end State

/-- The steps of node `n`. -/
inductive Step (n : N) : State N E → State N E → Prop
  /-- Enter a later term. -/
  | advanceTerm (s : State N E) (t : ℕ) (ht : s.term n < t) :
      Step n s { s with term := Function.update s.term n t }
  /-- Stand for election, with a vote for oneself. -/
  | stand (s : State N E) (hv : s.vote n (s.term n) = none)
      (hl : ∀ e ∈ s.log n, term e < s.term n) :
      Step n s { s.castVote n n with
        candidacy := update₂ s.candidacy n (s.term n) (some (s.log n)) }
  /-- Vote for a candidate whose log is up to date. -/
  | grant (s : State N E) (c : N) (l : List E) (hv : s.vote n (s.term n) = none)
      (hc : s.candidacy c (s.term n) = some l) (hu : UpToDate term l (s.log n)) :
      Step n s (s.castVote n c)
  /-- Win the election of the current term. -/
  | elect (s : State N E) (hc : s.candidacy n (s.term n) = some (s.log n))
      (hn : s.leader (s.term n) = none)
      (hq : ∃ Q, q.IsQuorum Q ∧ ∀ p ∈ Q, s.vote p (s.term n) = some n) :
      Step n s { s with leader := Function.update s.leader (s.term n) (some (n, s.log n)) }
  /-- As the leader of the current term, append an entry. -/
  | extend (s : State N E) (e : E) (hl : s.leader (s.term n) = some (n, s.log n))
      (he : term e = s.term n) :
      Step n s { s.addAck n ((s.log n).length + 1) with
        log := Function.update s.log n (s.log n ++ [e])
        leader := Function.update s.leader (s.term n) (some (n, s.log n ++ [e])) }
  /-- Remove the entries from the first one that differs from the leader's log. -/
  | truncate (s : State N E) (c : N) (L : List E) (k : ℕ) (e e' : E)
      (hl : s.leader (s.term n) = some (c, L)) (hp : (s.log n).take k = L.take k)
      (he : (s.log n)[k]? = some e) (he' : L[k]? = some e') (hne : term e ≠ term e') :
      Step n s { s with log := Function.update s.log n ((s.log n).take k) }
  /-- Copy the next entry of the leader's log. -/
  | copy (s : State N E) (c : N) (L : List E) (e : E)
      (hl : s.leader (s.term n) = some (c, L)) (hp : s.log n ++ [e] <+: L) :
      Step n s { s with log := Function.update s.log n (s.log n ++ [e]) }
  /-- Acknowledge the first entries of the leader's log. -/
  | acknowledge (s : State N E) (c : N) (L : List E) (m : ℕ)
      (hl : s.leader (s.term n) = some (c, L)) (hm : m ≤ L.length)
      (hp : L.take m <+: s.log n) :
      Step n s (s.addAck n m)
  /-- As the leader, commit up to an entry of the own term that a quorum has acknowledged. -/
  | commit (s : State N E) (i : ℕ) (L : List E) (e : E)
      (hl : s.leader (s.term n) = some (n, L)) (hi : s.committed (s.term n) ≤ i)
      (he : L[i]? = some e) (het : term e = s.term n)
      (hq : ∃ Q, q.IsQuorum Q ∧ ∀ p ∈ Q, ∃ m, i < m ∧ s.ack p (s.term n) m) :
      Step n s { s with committed := Function.update s.committed (s.term n) (i + 1) }

/-- Any number of steps of node `n`. -/
abbrev Steps (n : N) : State N E → State N E → Prop := Relation.ReflTransGen (Step q term n)

/-- Any number of steps of any nodes. -/
abbrev AnySteps : State N E → State N E → Prop :=
  Relation.ReflTransGen fun s s' => ∃ n, Step q term n s s'

variable {q term}

theorem Steps.any {n : N} {s s' : State N E} (h : Steps q term n s s') :
    AnySteps q term s s' :=
  Relation.ReflTransGen.mono (fun _ _ h => ⟨n, h⟩) _ _ h

end Replication
