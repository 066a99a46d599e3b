import Mathlib.Logic.Function.Iterate
import Mathlib.Data.List.Basic

/-!
# Shift registers with feedback

A register of `w` bits that moves down one place at a time and mixes in a polynomial when a one
falls out, as cyclic redundancy checks do. A chunk of bits is mixed into the low end and moved
through (`absorb`). With the top bit of the polynomial set the register loses nothing
(`step_injective`), so a burst of chunks that fits into the register is never absorbed without a
trace (`absorbAll_burst`).
-/

namespace ShiftRegister

variable {w d : ℕ} {poly x y : BitVec w}

/-- One move of the register. -/
def step (poly x : BitVec w) : BitVec w :=
  if x.getLsbD 0 then (x >>> 1) ^^^ poly else x >>> 1

/-- A chunk is mixed in and moved through. -/
def absorb (poly x : BitVec w) (chunk : BitVec d) : BitVec w :=
  (step poly)^[d] (x ^^^ chunk.setWidth w)

def absorbAll (poly x : BitVec w) (chunks : List (BitVec d)) : BitVec w :=
  chunks.foldl (absorb poly) x

/-- Some chunks as one word, the first one lowest. -/
def word : List (BitVec d) → BitVec w
  | [] => 0
  | chunk :: chunks => chunk.setWidth w ^^^ (word chunks <<< d)

/-! ## One move -/

/-- The register moves what it holds in parts. -/
theorem step_xor (poly x y : BitVec w) : step poly (x ^^^ y) = step poly x ^^^ step poly y := by
  unfold step
  rw [BitVec.getLsbD_xor, BitVec.ushiftRight_xor_distrib]
  cases x.getLsbD 0 <;> cases y.getLsbD 0
  · rfl
  · exact BitVec.xor_assoc _ _ _
  · rw [BitVec.xor_assoc (x >>> 1), BitVec.xor_comm (y >>> 1), ← BitVec.xor_assoc]
    rfl
  · have hcancel : (x >>> 1 ^^^ poly) ^^^ (y >>> 1 ^^^ poly) = x >>> 1 ^^^ y >>> 1 := by
      rw [BitVec.xor_comm (y >>> 1), BitVec.xor_assoc, ← BitVec.xor_assoc poly, BitVec.xor_self,
        BitVec.zero_xor]
    exact hcancel.symm

theorem step_iterate_xor (n : ℕ) (x y : BitVec w) :
    (step poly)^[n] (x ^^^ y) = (step poly)^[n] x ^^^ (step poly)^[n] y := by
  induction n generalizing x y with
  | zero => rfl
  | succ n ih => rw [Function.iterate_succ_apply, step_xor, ih]; rfl

/-- The bit that has fallen out can be read off at the top. -/
theorem msb_step (h : poly.msb = true) (x : BitVec w) : (step poly x).msb = x.getLsbD 0 := by
  have hshift : (x >>> 1).msb = false := by
    rw [BitVec.msb_ushiftRight]
    simp
  unfold step
  cases hx : x.getLsbD 0 <;> simp [BitVec.msb_xor, hshift, h]

/-- **Nothing is lost** in a move. -/
theorem step_injective (h : poly.msb = true) : Function.Injective (step poly) := by
  intro x y heq
  have hlow : x.getLsbD 0 = y.getLsbD 0 := by rw [← msb_step h, heq, msb_step h]
  have hshift : x >>> 1 = y >>> 1 := by
    unfold step at heq
    rw [hlow] at heq
    split_ifs at heq
    · exact (BitVec.xor_left_inj poly).1 heq
    · exact heq
  apply BitVec.eq_of_getLsbD_eq
  intro i hi
  cases i with
  | zero => exact hlow
  | succ i =>
    have hget := congrArg (fun z => z.getLsbD i) hshift
    simpa [BitVec.getLsbD_ushiftRight, Nat.add_comm] using hget

/-- Zeros fall out without a trace. -/
theorem step_iterate_of_low (n : ℕ) (h : ∀ i < n, x.getLsbD i = false) :
    (step poly)^[n] x = x >>> n := by
  induction n with
  | zero => rw [BitVec.ushiftRight_zero]; rfl
  | succ n ih =>
    rw [Function.iterate_succ_apply', ih fun i hi => h i (Nat.lt_succ_of_lt hi), step,
      if_neg (by simpa using h n (Nat.lt_succ_self n)), BitVec.shiftRight_add]

/-! ## Words -/

/-- A word ends with its last chunk. -/
theorem getLsbD_word_of_le (chunks : List (BitVec d)) {i : ℕ} (h : d * chunks.length ≤ i) :
    (word chunks : BitVec w).getLsbD i = false := by
  induction chunks generalizing i with
  | nil => simp [word]
  | cons chunk chunks ih =>
    rw [List.length_cons, Nat.mul_succ] at h
    rw [word, BitVec.getLsbD_xor, BitVec.getLsbD_setWidth, BitVec.getLsbD_shiftLeft,
      BitVec.getLsbD_of_ge chunk i (by omega), ih (by omega)]
    simp

theorem word_injective {chunks chunks' : List (BitVec d)} (hlen : chunks.length = chunks'.length)
    (hw : d * chunks.length ≤ w) (h : (word chunks : BitVec w) = word chunks') :
    chunks = chunks' := by
  induction chunks generalizing chunks' with
  | nil => exact (List.length_eq_zero_iff.1 hlen.symm).symm
  | cons chunk chunks ih =>
    cases chunks' with
    | nil => cases hlen
    | cons chunk' chunks' =>
      rw [List.length_cons, Nat.mul_succ] at hw
      have hlen' : chunks.length = chunks'.length := Nat.succ.inj hlen
      have hbit : ∀ i < w, (chunk.getLsbD i ^^ (!decide (i < d) &&
          (word chunks : BitVec w).getLsbD (i - d))) = (chunk'.getLsbD i ^^ (!decide (i < d) &&
            (word chunks' : BitVec w).getLsbD (i - d))) := by
        intro i hi
        have hget := congrArg (fun z => z.getLsbD i) h
        simpa only [word, BitVec.getLsbD_xor, BitVec.getLsbD_setWidth, BitVec.getLsbD_shiftLeft, hi,
          decide_true, Bool.true_and] using hget
      have hchunk : chunk = chunk' := by
        apply BitVec.eq_of_getLsbD_eq
        intro i hi
        simpa [hi] using hbit i (by omega)
      have hword : (word chunks : BitVec w) = word chunks' := by
        apply BitVec.eq_of_getLsbD_eq
        intro i hi
        by_cases hlow : i < d * chunks.length
        · have hget := hbit (i + d) (by omega)
          rw [BitVec.getLsbD_of_ge chunk _ (by omega), BitVec.getLsbD_of_ge chunk' _ (by omega),
            Nat.add_sub_cancel, decide_eq_false (Nat.not_lt.2 (Nat.le_add_left d i))] at hget
          simpa using hget
        · rw [getLsbD_word_of_le chunks (Nat.not_lt.1 hlow),
            getLsbD_word_of_le chunks' (hlen' ▸ Nat.not_lt.1 hlow)]
      rw [hchunk, ih hlen' (by omega) hword]

/-! ## Many chunks -/

/-- Chunks that fit into the register are absorbed as one word. -/
theorem absorbAll_eq (chunks : List (BitVec d)) (x : BitVec w) (hw : d * chunks.length ≤ w) :
    absorbAll poly x chunks = (step poly)^[d * chunks.length] (x ^^^ word chunks) := by
  induction chunks generalizing x with
  | nil => simp [absorbAll, word]
  | cons chunk chunks ih =>
    rw [List.length_cons, Nat.mul_succ] at hw ⊢
    have hhigh : (step poly)^[d] ((word chunks : BitVec w) <<< d) = word chunks := by
      rw [step_iterate_of_low d fun i hi => by simp [BitVec.getLsbD_shiftLeft, hi]]
      apply BitVec.eq_of_getLsbD_eq
      intro i hi
      by_cases hlow : i < d * chunks.length
      · rw [BitVec.getLsbD_ushiftRight, BitVec.getLsbD_shiftLeft, decide_eq_true (by omega),
          decide_eq_false (Nat.not_lt.2 (Nat.le_add_right d i)), Nat.add_sub_cancel_left]
        rfl
      · rw [BitVec.getLsbD_ushiftRight, BitVec.getLsbD_shiftLeft, Nat.add_sub_cancel_left,
          getLsbD_word_of_le chunks (Nat.not_lt.1 hlow), Bool.and_false]
    calc absorbAll poly x (chunk :: chunks)
        = absorbAll poly (absorb poly x chunk) chunks := rfl
      _ = (step poly)^[d * chunks.length] (absorb poly x chunk ^^^ word chunks) :=
          ih _ (by omega)
      _ = (step poly)^[d * chunks.length] ((step poly)^[d]
            ((x ^^^ chunk.setWidth w) ^^^ (word chunks <<< d))) := by
          rw [step_iterate_xor d, hhigh, absorb]
      _ = (step poly)^[d * chunks.length + d] (x ^^^ word (chunk :: chunks)) := by
          rw [← Function.iterate_add_apply, word, BitVec.xor_assoc]

theorem absorbAll_append (x : BitVec w) (front back : List (BitVec d)) :
    absorbAll poly x (front ++ back) = absorbAll poly (absorbAll poly x front) back :=
  List.foldl_append

theorem absorbAll_injective (h : poly.msb = true) (chunks : List (BitVec d)) :
    Function.Injective fun x => absorbAll poly x chunks := by
  induction chunks with
  | nil => exact fun x y heq => heq
  | cons chunk chunks ih =>
    intro x y heq
    have habsorb : absorb poly x chunk = absorb poly y chunk := ih heq
    exact (BitVec.xor_left_inj _).1 ((step_injective h).iterate d habsorb)

/-- **A burst leaves a trace**: two strings of chunks that differ only in a burst no longer than
the register leave it in different states. -/
theorem absorbAll_burst (h : poly.msb = true) (x : BitVec w) (front back : List (BitVec d))
    {chunks chunks' : List (BitVec d)} (hlen : chunks.length = chunks'.length)
    (hw : d * chunks.length ≤ w) (hne : chunks ≠ chunks') :
    absorbAll poly x (front ++ chunks ++ back) ≠ absorbAll poly x (front ++ chunks' ++ back) := by
  intro heq
  simp only [absorbAll_append] at heq
  have hstate := absorbAll_injective h back heq
  rw [absorbAll_eq chunks _ hw, absorbAll_eq chunks' _ (hlen ▸ hw), ← hlen] at hstate
  exact hne (word_injective hlen hw
    ((BitVec.xor_right_inj _).1 ((step_injective h).iterate _ hstate)))

end ShiftRegister
