import Mathlib.Data.Nat.Digits.Lemmas

/-!
# Numerals

Numbers written in a base, the most significant digit first and without leading zeros.
-/

namespace HekaOS.Numerals

variable {b n k m : ℕ} {ds : List ℕ}

/-- What a string of digits stands for. -/
def value (b : ℕ) (ds : List ℕ) : ℕ := ds.foldl (fun v d => v * b + d) 0

def numeral (b n : ℕ) : List ℕ := if n = 0 then [0] else (Nat.digits b n).reverse

theorem value_reverse (b : ℕ) (ds : List ℕ) : value b ds.reverse = Nat.ofDigits b ds := by
  rw [value, List.foldl_reverse, Nat.ofDigits_eq_foldr]
  congr 1
  funext d v
  rw [Nat.cast_id, Nat.mul_comm, Nat.add_comm]

theorem value_numeral (b n : ℕ) : value b (numeral b n) = n := by
  unfold numeral
  split
  · rename_i hzero
    rw [hzero, value, List.foldl_cons, List.foldl_nil, Nat.zero_mul]
  · rw [value_reverse, Nat.ofDigits_digits]

theorem numeral_of_pos (h : n ≠ 0) : numeral b n = (Nat.digits b n).reverse := if_neg h

theorem numeral_lt (hb : 1 < b) {d : ℕ} (hd : d ∈ numeral b n) : d < b := by
  unfold numeral at hd
  split at hd
  · rw [List.mem_singleton.mp hd]
    omega
  · exact Nat.digits_lt_base hb (List.mem_reverse.mp hd)

theorem numeral_ne_nil (b n : ℕ) : numeral b n ≠ [] := by
  unfold numeral
  split
  · exact List.cons_ne_nil 0 []
  · rename_i hpos
    rw [Ne, List.reverse_eq_nil_iff, Nat.digits_eq_nil_iff_eq_zero]
    exact hpos

/-- Only zero is written with a zero in front. -/
theorem numeral_head (h : (numeral b n).head? = some 0) : n = 0 := by
  by_contra hpos
  have hnil : Nat.digits b n ≠ [] := Nat.digits_ne_nil_iff_ne_zero.mpr hpos
  rw [numeral_of_pos hpos, List.head?_reverse, List.getLast?_eq_some_getLast hnil] at h
  exact Nat.getLast_digit_ne_zero b hpos (Option.some.inj h)

theorem numeral_length_le (hb : 1 < b) (hk : 0 < k) (hn : n < b ^ k) : (numeral b n).length ≤ k := by
  unfold numeral
  split
  · exact hk
  · rw [List.length_reverse]
    exact (Nat.digits_length_le_iff hb n).mpr hn

/-- An accumulator that wraps ends at the value, modulo the same number. -/
theorem foldl_mod (b m : ℕ) (ds : List ℕ) (v : ℕ) :
    ds.foldl (fun v d => (v * b + d) % m) (v % m) = ds.foldl (fun v d => v * b + d) v % m := by
  induction ds generalizing v with
  | nil => rfl
  | cons d ds ih =>
    have hstep : (v % m * b + d) % m = (v * b + d) % m := by
      rw [Nat.add_mod, Nat.mod_mul_mod, ← Nat.add_mod]
    rw [List.foldl_cons, List.foldl_cons, hstep, ih]

end HekaOS.Numerals
