import Mathlib.Logic.Function.Basic
import HekaOS.MachineWord

/-!
# Byte-addressed memory

A memory gives every address a byte. Words are stored little-endian over four consecutive
addresses; two words that do not overlap do not disturb each other.
-/

namespace HekaOS.ByteMemory
open MachineWord

abbrev Memory := ℕ → ℕ

def store8 (m : Memory) (a v : ℕ) : Memory := Function.update m a (v % 256)

def load32 (m : Memory) (a : ℕ) : ℕ :=
  m a % 256 + 256 * (m (a + 1) % 256) + 256 ^ 2 * (m (a + 2) % 256) + 256 ^ 3 * (m (a + 3) % 256)

def store32 (m : Memory) (a v : ℕ) : Memory := fun x =>
  if a ≤ x ∧ x < a + 4 then v / 256 ^ (x - a) % 256 else m x

/-- Little-endian bytes of a word. -/
def wordBytes (v : ℕ) : List ℕ := [v % 256, v / 256 % 256, v / 256 ^ 2 % 256, v / 256 ^ 3 % 256]

/-- Store bytes from an address on; addresses wrap at the word size. -/
def storeBytes : Memory → ℕ → List ℕ → Memory
  | m, _, [] => m
  | m, a, b :: bs => storeBytes (store8 m (a % wordSize) b) (a + 1) bs

def loadBytes (m : Memory) (a len : ℕ) : List ℕ :=
  (List.range len).map fun i => m ((a + i) % wordSize) % 256

/-- The `i`-th word of a string of bytes. -/
def wordAt (bytes : List ℕ) (i : ℕ) : ℕ := load32 (fun k => bytes.getD k 0) (4 * i)

variable {m : Memory} {a b v x : ℕ}

theorem load32_lt : load32 m a < wordSize := by
  have h : ∀ n, n % 256 < 256 := fun n => Nat.mod_lt _ (by decide)
  have := h (m a)
  have := h (m (a + 1))
  have := h (m (a + 2))
  have := h (m (a + 3))
  simp only [load32, wordSize]
  omega

theorem store32_at {i : ℕ} (hi : i < 4) : store32 m a v (a + i) = v / 256 ^ i % 256 := by
  simp only [store32, Nat.le_add_right, Nat.add_lt_add_iff_left, hi, and_self, ↓reduceIte,
    Nat.add_sub_cancel_left]

theorem load32_store32 (hv : v < wordSize) : load32 (store32 m a v) a = v := by
  have h₀ : store32 m a v a = v % 256 := by
    have := store32_at (m := m) (a := a) (v := v) (by decide : 0 < 4)
    simpa using this
  rw [load32, h₀, store32_at (by decide), store32_at (by decide), store32_at (by decide)]
  simp only [wordSize] at hv
  omega

theorem store32_of_ne (hx : x < a ∨ a + 4 ≤ x) : store32 m a v x = m x := by
  simp only [store32]
  rw [if_neg (by omega)]

/-- Words that do not overlap are independent. -/
theorem load32_store32_of_disjoint (h : b + 4 ≤ a ∨ a + 4 ≤ b) :
    load32 (store32 m a v) b = load32 m b := by
  simp only [load32]
  rw [store32_of_ne (by omega), store32_of_ne (by omega), store32_of_ne (by omega),
    store32_of_ne (by omega)]

theorem storeBytes_apply {bs : List ℕ} (h : a + bs.length ≤ wordSize) (x : ℕ) :
    storeBytes m a bs x = if a ≤ x ∧ x < a + bs.length then bs.getD (x - a) 0 % 256 else m x := by
  induction bs generalizing m a with
  | nil =>
    rw [if_neg (by simp)]
    rfl
  | cons b bs ih =>
    rw [List.length_cons] at h ⊢
    have ha : a % wordSize = a := Nat.mod_eq_of_lt (by omega)
    rw [storeBytes, ih (by omega), ha]
    by_cases hx : x = a
    · subst hx
      rw [if_neg (by omega), if_pos (by omega), store8, Function.update_self]
      simp
    · rw [store8, Function.update_of_ne hx]
      by_cases hin : a + 1 ≤ x ∧ x < a + 1 + bs.length
      · rw [if_pos hin, if_pos (by omega)]
        have hsucc : x - a = x - (a + 1) + 1 := by omega
        rw [hsucc, List.getD_cons_succ]
      · rw [if_neg hin, if_neg (by omega)]

/-- The bytes stand in memory from an address on. -/
def Holds (m : Memory) (a : ℕ) (bs : List ℕ) : Prop := ∀ i < bs.length, m (a + i) % 256 = bs.getD i 0

theorem holds_storeBytes {bs : List ℕ} (h : a + bs.length ≤ wordSize) (hbs : ∀ b ∈ bs, b < 256) :
    Holds (storeBytes m a bs) a bs := by
  intro i hi
  have hmem : bs.getD i 0 < 256 := by
    rw [List.getD_eq_getElem _ _ hi]
    exact hbs _ (List.getElem_mem hi)
  rw [storeBytes_apply h, if_pos (by omega), Nat.add_sub_cancel_left, Nat.mod_mod, Nat.mod_eq_of_lt hmem]

/-- The bytes stand there in every memory that agrees with the first on their range. -/
theorem Holds.congr {m' : Memory} {bs : List ℕ} (h : Holds m a bs)
    (hm : ∀ x, a ≤ x → x < a + bs.length → m' x = m x) : Holds m' a bs := by
  intro i hi
  rw [hm _ (by omega) (by omega)]
  exact h i hi

theorem Holds.storeBytes_of_disjoint {bs cs : List ℕ} (h : Holds m a bs) (hb : b + cs.length ≤ wordSize)
    (hdisjoint : a + bs.length ≤ b ∨ b + cs.length ≤ a) : Holds (storeBytes m b cs) a bs := by
  refine h.congr fun x hx hx' => ?_
  rw [storeBytes_apply hb, if_neg (by omega)]

theorem holds_append {bs cs : List ℕ} : Holds m a (bs ++ cs) ↔ Holds m a bs ∧ Holds m (a + bs.length) cs := by
  constructor
  · intro h
    constructor
    · intro i hi
      rw [h i (by rw [List.length_append]; omega), List.getD_append _ _ _ _ hi]
    · intro i hi
      have hget := h (bs.length + i) (by rw [List.length_append]; omega)
      rwa [List.getD_append_right _ _ _ _ (by omega), Nat.add_sub_cancel_left, ← Nat.add_assoc] at hget
  · rintro ⟨h₁, h₂⟩ i hi
    rw [List.length_append] at hi
    by_cases hlt : i < bs.length
    · rw [List.getD_append _ _ _ _ hlt]
      exact h₁ i hlt
    · rw [List.getD_append_right _ _ _ _ (by omega), ← h₂ (i - bs.length) (by omega)]
      congr 2
      omega

theorem Holds.loadBytes_eq {bs : List ℕ} (h : Holds m a bs) (ha : a + bs.length ≤ wordSize) :
    loadBytes m a bs.length = bs := by
  apply List.ext_getElem
  · simp [loadBytes]
  · intro i hi hi'
    have hlt : (a + i) % wordSize = a + i := Nat.mod_eq_of_lt (by omega)
    simp only [loadBytes, List.getElem_map, List.getElem_range, hlt]
    rw [h i hi', List.getD_eq_getElem _ _ hi']

theorem Holds.load32_eq {bs : List ℕ} (h : Holds m a bs) (hbs : bs.length = 4) :
    load32 m a = wordAt bs 0 := by
  have hbyte : ∀ i < 4, m (a + i) % 256 = bs.getD i 0 % 256 := by
    intro i hi
    rw [← h i (by omega), Nat.mod_mod]
  have h₀ := hbyte 0 (by decide)
  rw [Nat.add_zero] at h₀
  rw [wordAt, load32, load32, h₀, hbyte 1 (by decide), hbyte 2 (by decide), hbyte 3 (by decide)]

theorem wordAt_zero {w : ℕ} (hw : w < wordSize) (bs : List ℕ) : wordAt (wordBytes w ++ bs) 0 = w := by
  simp only [wordAt, load32, wordBytes, List.cons_append, List.nil_append, Nat.mul_zero, Nat.zero_add,
    List.getD_cons_zero, List.getD_cons_succ, wordSize] at *
  omega

theorem wordAt_succ (w i : ℕ) (bs : List ℕ) : wordAt (wordBytes w ++ bs) (i + 1) = wordAt bs i := by
  have hshift : ∀ k, (wordBytes w ++ bs).getD (4 * (i + 1) + k) 0 = bs.getD (4 * i + k) 0 := by
    intro k
    have hk : 4 * (i + 1) + k = 4 * i + k + 4 := by ring
    simp only [wordBytes, List.cons_append, List.nil_append, hk, List.getD_cons_succ]
  have h₀ := hshift 0
  simp only [Nat.add_zero] at h₀
  simp only [wordAt, load32, hshift, h₀]

/-- Words are read back from their bytes. -/
theorem wordAt_flatMap {ws : List ℕ} (hws : ∀ w ∈ ws, w < wordSize) (i : ℕ) (hi : i < ws.length) :
    wordAt (ws.flatMap wordBytes) i = ws.getD i 0 := by
  induction ws generalizing i with
  | nil => exact absurd hi (Nat.not_lt_zero i)
  | cons w ws ih =>
    rw [List.flatMap_cons]
    cases i with
    | zero => exact wordAt_zero (hws w List.mem_cons_self) _
    | succ i =>
      rw [wordAt_succ, List.getD_cons_succ]
      exact ih (fun v hv => hws v (List.mem_cons_of_mem w hv)) i (Nat.lt_of_succ_lt_succ hi)

theorem wordBytes_lt {w b : ℕ} (h : b ∈ wordBytes w) : b < 256 := by
  simp only [wordBytes, List.mem_cons, List.not_mem_nil, or_false] at h
  omega

end HekaOS.ByteMemory
