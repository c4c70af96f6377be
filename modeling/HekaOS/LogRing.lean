import Mathlib.Data.List.DropRight
import Mathlib.Logic.Function.Basic

/-!
# Log rings

A ring of `size` slots that is never full: an element goes to the slot `idx`, and when every slot is in
use it takes the place of the oldest one. Beside the index the ring counts its elements, up to `size`.
-/

namespace HekaOS.LogRing

variable {α : Type*} {size idx len p n k : ℕ} {buf : ℕ → α} {c : α} {l : List α}

/-- The elements in `n` slots from the place `p` on, round the end of the ring. -/
def span (size : ℕ) (buf : ℕ → α) (p n : ℕ) : List α := (List.range n).map fun i => buf ((p + i) % size)

/-- The ring is what the elements `l`, put in one after the other, leave. -/
structure Holds (size : ℕ) (buf : ℕ → α) (idx len : ℕ) (l : List α) : Prop where
  idx : idx = l.length % size
  len : len = min l.length size
  slots : ∀ k (hk : k < l.length), l.length ≤ k + size → buf (k % size) = l[k]

/-- Places less than a round apart are different slots. -/
theorem mod_ne_of_lt (hk : k < n) (hn : n < k + size) : k % size ≠ n % size := by
  intro heq
  have hround : (n - k) % size = 0 := Nat.sub_mod_eq_zero_of_mod_eq heq.symm
  rw [Nat.mod_eq_of_lt (by omega)] at hround
  omega

theorem Holds.nil (size : ℕ) (buf : ℕ → α) : Holds size buf 0 0 ([] : List α) := by
  refine ⟨?_, ?_, fun k hk => ?_⟩
  · rw [List.length_nil, Nat.zero_mod]
  · rw [List.length_nil, Nat.zero_min]
  · exact absurd hk (Nat.not_lt_zero k)

theorem Holds.idx_lt (hsize : 0 < size) (h : Holds size buf idx len l) : idx < size := by
  rw [h.idx]
  exact Nat.mod_lt _ hsize

/-- One more element. -/
theorem Holds.put (h : Holds size buf idx len l) (c : α) :
    Holds size (Function.update buf idx c) ((idx + 1) % size) (if len < size then len + 1 else len) (l ++ [c]) := by
  have hidx := h.idx
  have hlen := h.len
  have hlength : (l ++ [c]).length = l.length + 1 := by
    rw [List.length_append, List.length_singleton]
  refine ⟨?_, ?_, fun k hk hnew => ?_⟩
  · rw [hlength, hidx, Nat.mod_add_mod]
  · rw [hlength]
    split <;> omega
  · rw [hlength] at hk hnew
    by_cases hlast : k = l.length
    · subst hlast
      rw [← hidx, Function.update_self, List.getElem_append_right (Nat.le_refl _)]
      simp
    · have hold : k < l.length := by omega
      have hne : k % size ≠ idx := by
        rw [hidx]
        exact mod_ne_of_lt hold (by omega)
      rw [Function.update_of_ne hne, List.getElem_append_left hold]
      exact h.slots k hold (by omega)

theorem span_congr {q : ℕ} (h : p % size = q % size) : span size buf p n = span size buf q n := by
  refine List.map_congr_left fun i _ => ?_
  rw [Nat.add_mod, h, ← Nat.add_mod]

theorem span_succ (p n : ℕ) : span size buf p (n + 1) = buf (p % size) :: span size buf (p + 1) n := by
  rw [span, List.range_succ_eq_map, List.map_cons, List.map_map, Nat.add_zero]
  congr 1
  refine List.map_congr_left fun i _ => ?_
  dsimp only [Function.comp]
  rw [Nat.succ_eq_add_one, Nat.add_comm i 1, Nat.add_assoc]

/-- From any place that has not been overwritten on, the ring shows what was put in since. -/
theorem Holds.span (h : Holds size buf idx len l) (hp : p ≤ l.length) (hnew : l.length ≤ p + size) :
    span size buf p (l.length - p) = l.drop p := by
  have hlength : (LogRing.span size buf p (l.length - p)).length = (l.drop p).length := by
    rw [LogRing.span, List.length_map, List.length_range, List.length_drop]
  refine List.ext_getElem hlength fun i hi hi' => ?_
  rw [List.length_drop] at hi'
  simp only [LogRing.span, List.getElem_map, List.getElem_range, List.getElem_drop]
  exact h.slots (p + i) (by omega) (by omega)

/-- The slots from the oldest element on show the newest elements in order. -/
theorem Holds.newest (h : Holds size buf idx len l) :
    LogRing.span size buf (if len < size then 0 else idx) len = l.rtake size := by
  have hlen := h.len
  rw [List.rtake]
  by_cases hroom : len < size
  · have hall : l.length - size = 0 := by omega
    have hcount : len = l.length - 0 := by omega
    rw [if_pos hroom, hall, hcount]
    exact h.span (Nat.zero_le _) (by omega)
  · have hstart : idx % size = (l.length - size) % size := by
      rw [h.idx, Nat.mod_mod]
      have hsplit : l.length = l.length - size + size := by omega
      rw [hsplit, Nat.add_mod_right, Nat.add_sub_cancel]
    have hcount : len = l.length - (l.length - size) := by omega
    rw [if_neg hroom, span_congr hstart, hcount]
    exact h.span (Nat.sub_le _ _) (by omega)

end HekaOS.LogRing
