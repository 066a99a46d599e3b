import Mathlib.Algebra.GroupWithZero.Nat
import Mathlib.Data.List.Basic
import Mathlib.Data.Nat.Notation
import Mathlib.Tactic.Common

/-!
# Computations that are checked

What a program computes with 64-bit words and reads from a buffer can go wrong in three ways: the
result of an operation on words is not that of the operation on numbers, a position is not one of
the buffer, or a loop does not end. A `Checked` computation ends with a fault where that would
happen. For each operation there is a rule with the condition under which there is no fault, and a
loop has the rule of an invariant and a measure.
-/

inductive Checked.Fault
  | wrap
  | outOfBounds
  | endless
  deriving DecidableEq, Repr

universe u

/-- A result, or what goes wrong. -/
abbrev Checked (α : Type u) : Type u := Except Checked.Fault α

namespace Checked

variable {α β σ : Type u}

@[simp] theorem ok_bind (a : α) (f : α → Checked β) : (Except.ok a >>= f) = f a := rfl

@[simp] theorem pure_eq (a : α) : (pure a : Checked α) = .ok a := rfl

/-- An early return. -/
theorem ite_eq_ok {c : Prop} [Decidable c] {a b : α} {x : Checked α} (h : ¬c → x = .ok b) :
    (if c then .ok a else x) = .ok (if c then a else b) := by
  split_ifs with hc
  · rfl
  · exact h hc

/-! ## Words -/

def add (a b : ℕ) : Checked ℕ := if a + b < 2 ^ 64 then .ok (a + b) else .error .wrap

def sub (a b : ℕ) : Checked ℕ := if b ≤ a then .ok (a - b) else .error .wrap

/-- The sum of two numbers of 32 bits. -/
def add32 (a b : ℕ) : Checked ℕ := if a + b < 2 ^ 32 then .ok (a + b) else .error .wrap

theorem add_eq {a b : ℕ} (h : a + b < 2 ^ 64) : add a b = .ok (a + b) := if_pos h

theorem sub_eq {a b : ℕ} (h : b ≤ a) : sub a b = .ok (a - b) := if_pos h

theorem add32_eq {a b : ℕ} (h : a + b < 2 ^ 32) : add32 a b = .ok (a + b) := if_pos h

/-- **The checks are those of words**: without a fault the operation on the words has the result of
the operation on the numbers, and with one it does not. -/
theorem add_word (x y : UInt64) :
    add x.toNat y.toNat = .ok (x + y).toNat ∨
      add x.toNat y.toNat = .error .wrap ∧ (x + y).toNat ≠ x.toNat + y.toNat := by
  rw [UInt64.toNat_add, add]
  have hx := x.toNat_lt
  have hy := y.toNat_lt
  split_ifs with h
  · exact Or.inl (by rw [Nat.mod_eq_of_lt h])
  · exact Or.inr ⟨rfl, by omega⟩

theorem sub_word (x y : UInt64) :
    sub x.toNat y.toNat = .ok (x - y).toNat ∨
      sub x.toNat y.toNat = .error .wrap ∧ (x - y).toNat + y.toNat ≠ x.toNat := by
  rw [UInt64.toNat_sub, sub]
  have hx := x.toNat_lt
  have hy := y.toNat_lt
  split_ifs with h
  · refine Or.inl (congrArg _ ?_)
    omega
  · exact Or.inr ⟨rfl, by omega⟩

/-! ## Buffers -/

/-- What stands at a position. -/
def read (input : List α) (i : ℕ) : Checked α :=
  match input[i]? with
  | some a => .ok a
  | none => .error .outOfBounds

/-- The `n` elements from a position on. -/
def slice (input : List α) (i n : ℕ) : Checked (List α) :=
  if i ≤ input.length ∧ n ≤ input.length - i then .ok ((input.drop i).take n)
  else .error .outOfBounds

theorem read_getElem {input : List α} {i : ℕ} (h : i < input.length) :
    read input i = .ok input[i] := by
  rw [read, List.getElem?_eq_getElem h]

theorem read_eq {input : List α} {i : ℕ} (h : i < input.length) (d : α) :
    read input i = .ok (input.getD i d) := by
  rw [read_getElem h, List.getD_eq_getElem?_getD, List.getElem?_eq_getElem h, Option.getD_some]

theorem slice_eq {input : List α} {i n : ℕ} (h : i + n ≤ input.length) :
    slice input i n = .ok ((input.drop i).take n) := by
  rw [slice, if_pos ⟨by omega, by omega⟩]

/-! ## Loops -/

/-- **The counting rule**: a loop that counts to `n`, by its state after each round. -/
theorem foldlM_range {round : σ → ℕ → Checked σ} (state : ℕ → σ) {n : ℕ}
    (h : ∀ k < n, round (state k) k = .ok (state (k + 1))) :
    (List.range n).foldlM round (state 0) = .ok (state n) := by
  induction n with
  | zero => rfl
  | succ n ih =>
    rw [List.range_succ, List.foldlM_append, ih fun k hk => h k (by omega), ok_bind]
    exact (congrArg (· >>= _) (h n (Nat.lt_succ_self n))).trans rfl

/-- A loop of at most `fuel` rounds, each of which goes on with a state or ends with a result. -/
def loop (round : σ → Checked (σ ⊕ α)) : ℕ → σ → Checked α
  | 0, _ => .error .endless
  | fuel + 1, s => do
    match ← round s with
    | .inl s => loop round fuel s
    | .inr a => .ok a

/-- **The loop rule**: every round that starts in the invariant either ends with a result that
meets the specification, or goes on in the invariant with a smaller measure and a specification
that is no weaker. -/
theorem loop_spec {round : σ → Checked (σ ⊕ α)} (I : σ → Prop) (measure : σ → ℕ)
    (spec : σ → α → Prop)
    (hround : ∀ s, I s → (∃ a, round s = .ok (.inr a) ∧ spec s a) ∨
      ∃ s', round s = .ok (.inl s') ∧ I s' ∧ measure s' < measure s ∧ ∀ a, spec s' a → spec s a)
    {fuel : ℕ} {s : σ} (hI : I s) (hfuel : measure s < fuel) :
    ∃ a, loop round fuel s = .ok a ∧ spec s a := by
  induction fuel generalizing s with
  | zero => exact absurd hfuel (Nat.not_lt_zero _)
  | succ fuel ih =>
    rw [loop]
    rcases hround s hI with ⟨a, hend, ha⟩ | ⟨s', hnext, hI', hlt, hspec⟩
    · rw [hend]
      exact ⟨a, rfl, ha⟩
    · rw [hnext]
      obtain ⟨a, heq, ha⟩ := ih hI' (by omega)
      exact ⟨a, heq, hspec a ha⟩

/-- The loop rule, for a result that the state determines. -/
theorem loop_eq {round : σ → Checked (σ ⊕ α)} (I : σ → Prop) (measure : σ → ℕ) (result : σ → α)
    (hround : ∀ s, I s → round s = .ok (.inr (result s)) ∨
      ∃ s', round s = .ok (.inl s') ∧ I s' ∧ measure s' < measure s ∧ result s' = result s)
    {fuel : ℕ} {s : σ} (hI : I s) (hfuel : measure s < fuel) :
    loop round fuel s = .ok (result s) := by
  have hspec : ∃ a, loop round fuel s = .ok a ∧ a = result s := by
    refine loop_spec I measure (fun s a => a = result s) (fun s hs => ?_) hI hfuel
    rcases hround s hs with hend | ⟨s', hnext, hI', hlt, hresult⟩
    · exact Or.inl ⟨_, hend, rfl⟩
    · exact Or.inr ⟨s', hnext, hI', hlt, fun a ha => ha.trans hresult⟩
  obtain ⟨a, heq, rfl⟩ := hspec
  exact heq

end Checked
