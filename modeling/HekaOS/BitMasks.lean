import Mathlib.Data.Nat.Notation
import Mathlib.Tactic.ByContra
import Mathlib.Order.Defs.LinearOrder

/-!
# Sets of bits in a machine word

A word as the set of its bits: single bits, setting and clearing one of them, and isolating the
lowest one with `x & (~x + 1)`.
-/

namespace HekaOS.BitMasks

variable {w i j : ℕ} {x : BitVec w}

theorem getLsbD_bit (hj : j < w) (i : ℕ) : (1#w <<< j).getLsbD i = decide (i = j) := by
  rw [← BitVec.twoPow_eq, BitVec.getLsbD_twoPow]
  simp only [hj, decide_true, Bool.true_and, eq_comm]

theorem getLsbD_setBit (hj : j < w) (i : ℕ) :
    (x ||| 1#w <<< j).getLsbD i = (x.getLsbD i || decide (i = j)) := by
  rw [BitVec.getLsbD_or, getLsbD_bit hj]

theorem getLsbD_clearBit (hj : j < w) (i : ℕ) :
    (x &&& ~~~(1#w <<< j)).getLsbD i = (x.getLsbD i && !decide (i = j)) := by
  rw [BitVec.getLsbD_and, BitVec.getLsbD_not, getLsbD_bit hj]
  by_cases hi : i < w
  · simp [hi]
  · have : x.getLsbD i = false := BitVec.getLsbD_of_ge x i (by omega)
    simp [this]

/-- Testing a bit with a mask. -/
theorem and_bit_ne_zero (hj : j < w) : x &&& 1#w <<< j ≠ 0#w ↔ x.getLsbD j = true := by
  constructor
  · intro h
    by_contra hx
    apply h
    apply BitVec.eq_of_getLsbD_eq
    intro i _
    rw [BitVec.getLsbD_and, getLsbD_bit hj, BitVec.getLsbD_zero]
    by_cases hij : i = j
    · rw [hij, Bool.not_eq_true _ |>.mp hx, Bool.false_and]
    · simp [hij]
  · intro h hzero
    have hbit := congrArg (fun y => BitVec.getLsbD y j) hzero
    simp [BitVec.getLsbD_and, getLsbD_bit hj, h] at hbit

/-- `x & (~x + 1)` is the lowest bit of `x`. -/
theorem lowest_bit (hx : x ≠ 0#w) : ∃ j < w, x &&& (~~~x + 1#w) = 1#w <<< j ∧ x.getLsbD j = true ∧
    ∀ i < j, x.getLsbD i = false := by
  have hlow : ∀ i < x.ctz.toNat, x.getLsbD i = false := fun i hi => BitVec.getLsbD_false_of_lt_ctz hi
  have hbit : x.getLsbD x.ctz.toNat = true := BitVec.getLsbD_true_ctz_of_ne_zero hx
  have hlt : x.ctz.toNat < w := BitVec.lt_of_getLsbD hbit
  refine ⟨x.ctz.toNat, hlt, ?_, hbit, hlow⟩
  generalize x.ctz.toNat = j at hlow hbit hlt
  rw [← BitVec.neg_eq_not_add]
  apply BitVec.eq_of_getLsbD_eq
  intro i hi
  rw [BitVec.getLsbD_and, BitVec.getLsbD_neg, getLsbD_bit hlt]
  -- below the lowest bit both words are clear, above it they differ
  rcases Nat.lt_trichotomy i j with h | h | h
  · simp [hlow i h, Nat.ne_of_lt h]
  · subst h
    have hnone : ¬∃ k < i, x.getLsbD k = true := by
      rintro ⟨k, hk, hxk⟩
      rw [hlow k hk] at hxk
      exact nomatch hxk
    simp [hbit, hnone]
  · have hsome : ∃ k < i, x.getLsbD k = true := ⟨j, h, hbit⟩
    simp [hsome, hi, Nat.ne_of_gt h]

end HekaOS.BitMasks
