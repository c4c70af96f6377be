import Mathlib.Data.Finset.Card
import Mathlib.Data.Finset.Range
import Mathlib.Data.Fintype.Basic
import Mathlib.Logic.Function.Basic
import HekaOS.BitMasks

/-!
# Bitmaps packed into 32-bit words

A set of numbers as an array of words: bit `i % 32` of word `i / 32` stands for `i`.
-/

namespace HekaOS.WordBitmap
open BitMasks

abbrev Bitmap := ℕ → BitVec 32

variable {bm : Bitmap} {i j w : ℕ} {l : List ℕ}

def bitmapSet (bm : Bitmap) (i : ℕ) : Bitmap :=
  Function.update bm (i / 32) (bm (i / 32) ||| 1#32 <<< (i % 32))

def bitmapClear (bm : Bitmap) (i : ℕ) : Bitmap :=
  Function.update bm (i / 32) (bm (i / 32) &&& ~~~(1#32 <<< (i % 32)))

def bitmapTest (bm : Bitmap) (i : ℕ) : Bool := (bm (i / 32)).getLsbD (i % 32)

theorem bit_lt (i : ℕ) : i % 32 < 32 := Nat.mod_lt i (by decide)

theorem bitmapTest_set : bitmapTest (bitmapSet bm i) j = (bitmapTest bm j || decide (j = i)) := by
  unfold bitmapTest bitmapSet
  by_cases hword : j / 32 = i / 32
  · have hbit : j % 32 = i % 32 ↔ j = i := by omega
    rw [hword, Function.update_self, getLsbD_setBit (bit_lt i)]
    simp only [hbit]
  · have hne : j ≠ i := fun he => hword (he ▸ rfl)
    rw [Function.update_of_ne hword]
    simp [hne]

theorem bitmapTest_clear : bitmapTest (bitmapClear bm i) j = (bitmapTest bm j && !decide (j = i)) := by
  unfold bitmapTest bitmapClear
  by_cases hword : j / 32 = i / 32
  · have hbit : j % 32 = i % 32 ↔ j = i := by omega
    rw [hword, Function.update_self, getLsbD_clearBit (bit_lt i)]
    simp only [hbit]
  · have hne : j ≠ i := fun he => hword (he ▸ rfl)
    rw [Function.update_of_ne hword]
    simp [hne]

/-- Setting a list of bits. -/
theorem bitmapTest_foldl_set : bitmapTest (l.foldl bitmapSet bm) j = true ↔ bitmapTest bm j = true ∨ j ∈ l := by
  induction l generalizing bm with
  | nil => simp
  | cons i l ih =>
    rw [List.foldl_cons, ih, bitmapTest_set, Bool.or_eq_true, decide_eq_true_iff, List.mem_cons, or_assoc]

/-- Clearing a list of bits. -/
theorem bitmapTest_foldl_clear :
    bitmapTest (l.foldl bitmapClear bm) j = true ↔ bitmapTest bm j = true ∧ j ∉ l := by
  induction l generalizing bm with
  | nil => simp
  | cons i l ih =>
    rw [List.foldl_cons, ih, bitmapTest_clear, Bool.and_eq_true, Bool.not_eq_true', decide_eq_false_iff_not,
      List.mem_cons, not_or, and_assoc]

/-- All bits of a full word are set. -/
theorem bitmapTest_of_full (h : bm w = BitVec.allOnes 32) (hj : j < 32) : bitmapTest bm (w * 32 + j) = true := by
  have hword : (w * 32 + j) / 32 = w := by omega
  have hbit : (w * 32 + j) % 32 = j := by omega
  rw [bitmapTest, hword, hbit, h, BitVec.getLsbD_allOnes]
  exact decide_eq_true hj

/-- The bits of the words `0` to `n - 1`, word by word. -/
theorem range_eq_flatMap (n : ℕ) :
    List.range (n * 32) = (List.range n).flatMap fun w => (List.range 32).map fun b => w * 32 + b := by
  induction n with
  | zero => rfl
  | succ n ih =>
    have hlast : List.range (n + 1) = List.range n ++ [n] := List.range_succ
    rw [hlast, List.flatMap_append, ← ih, Nat.succ_mul, List.range_add, List.flatMap_singleton]

/-- A bitmap is known by its bits. -/
theorem bitmap_ext {bm' : Bitmap} (h : ∀ i, bitmapTest bm i = bitmapTest bm' i) : bm = bm' := by
  funext w
  apply BitVec.eq_of_getLsbD_eq
  intro j hj
  have hbit := h (w * 32 + j)
  unfold bitmapTest at hbit
  have hword : (w * 32 + j) / 32 = w := by omega
  have hplace : (w * 32 + j) % 32 = j := by omega
  rw [hword, hplace] at hbit
  exact hbit

/-- Clearing bits that were clear before they were set. -/
theorem foldl_clear_set (h : ∀ i ∈ l, bitmapTest bm i = false) : l.foldl bitmapClear (l.foldl bitmapSet bm) = bm := by
  apply bitmap_ext
  intro i
  rw [Bool.eq_iff_iff, bitmapTest_foldl_clear, bitmapTest_foldl_set]
  constructor
  · rintro ⟨hset | hmem, hno⟩
    · exact hset
    · exact absurd hmem hno
  · intro hset
    refine ⟨.inl hset, fun hmem => ?_⟩
    exact nomatch (h i hmem).symm.trans hset

/-- Counting the places below a bound that pass a test. -/
theorem countP_range (test : ℕ → Bool) (n : ℕ) :
    (List.range n).countP test = ((Finset.range n).filter fun i => test i = true).card := by
  induction n with
  | zero => rfl
  | succ n ih =>
    rw [List.range_succ, List.countP_append, ih, Finset.range_add_one, Finset.filter_insert]
    cases hn : test n with
    | false => simp [hn]
    | true => simp [hn]

end HekaOS.WordBitmap
