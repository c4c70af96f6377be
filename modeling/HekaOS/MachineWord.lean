import Mathlib.Data.Nat.Bitwise
import Mathlib.Tactic.Ring

/-!
# 32-bit words as natural numbers

Unsigned machine words are natural numbers below `2 ^ 32`; every operation that can
leave that range is reduced explicitly. The masks a kernel applies to addresses
clear or keep a block of low bits, which is division and remainder by a power of two.
-/

namespace HekaOS.MachineWord

/-- The number of values of an unsigned 32-bit word. -/
def wordSize : ℕ := 2 ^ 32

/-- Unsigned addition. -/
def add32 (a b : ℕ) : ℕ := (a + b) % wordSize

/-- Unsigned subtraction. -/
def sub32 (a b : ℕ) : ℕ := (a + (wordSize - b % wordSize)) % wordSize

theorem add32_lt (a b : ℕ) : add32 a b < wordSize := Nat.mod_lt _ (by decide)

theorem sub32_lt (a b : ℕ) : sub32 a b < wordSize := Nat.mod_lt _ (by decide)

theorem add32_of_lt {a b : ℕ} (h : a + b < wordSize) : add32 a b = a + b := Nat.mod_eq_of_lt h

theorem sub32_of_le {a b : ℕ} (h : b ≤ a) (ha : a < wordSize) : sub32 a b = a - b := by
  have hb : b % wordSize = b := Nat.mod_eq_of_lt (by omega)
  have he : a + (wordSize - b) = a - b + wordSize := by omega
  rw [sub32, hb, he, Nat.add_mod_right, Nat.mod_eq_of_lt (by omega)]

/-- `x & ~(2 ^ k - 1)` on 32-bit words. -/
def clearLow (k x : ℕ) : ℕ := x &&& (wordSize - 2 ^ k)

/-- Clearing the low `k` bits rounds down to a multiple of `2 ^ k`. -/
theorem clearLow_eq {k x : ℕ} (hk : k ≤ 32) (hx : x < wordSize) :
    clearLow k x = x / 2 ^ k * 2 ^ k := by
  have hpow : wordSize - 2 ^ k = (2 ^ (32 - k) - 1) * 2 ^ k := by
    have : wordSize = 2 ^ (32 - k) * 2 ^ k := by
      rw [← pow_add, Nat.sub_add_cancel hk]; rfl
    rw [this, Nat.sub_mul, one_mul]
  apply Nat.eq_of_testBit_eq
  intro i
  rw [clearLow, hpow, Nat.testBit_and, Nat.testBit_mul_two_pow, Nat.testBit_mul_two_pow,
    Nat.testBit_two_pow_sub_one, Nat.testBit_div_two_pow]
  by_cases hik : k ≤ i
  · by_cases hi : i < 32
    · have hs : i - k < 32 - k := by omega
      simp [hik, hs]
    · have hz : x.testBit i = false :=
        Nat.testBit_eq_false_of_lt (hx.trans_le (Nat.pow_le_pow_right (by omega) (by omega)))
      simp [hz, hik]
  · simp [hik]

/-- Words whose low `k` bits are clear are joined with `k`-bit flags by addition. -/
theorem or_low {k a b : ℕ} (hb : b < 2 ^ k) : (a * 2 ^ k) ||| b = a * 2 ^ k + b := by
  rw [← Nat.shiftLeft_eq, Nat.shiftLeft_add_eq_or_of_lt hb]

theorem and_low (k x : ℕ) : x &&& (2 ^ k - 1) = x % 2 ^ k := Nat.and_two_pow_sub_one_eq_mod x k

/-- Byte `k` of a word is replaced. -/
def putByte (k v w : ℕ) : ℕ := w / 256 ^ (k + 1) * 256 ^ (k + 1) + v * 256 ^ k + w % 256 ^ k

theorem putByte_zero (k : ℕ) : putByte k 0 0 = 0 := by simp [putByte]

theorem putByte_pos {k v w : ℕ} (hv : v ≠ 0) : 0 < putByte k v w := by
  have hbyte : 0 < v * 256 ^ k := Nat.mul_pos (Nat.pos_of_ne_zero hv) (Nat.pow_pos (by decide))
  unfold putByte
  omega

end HekaOS.MachineWord
