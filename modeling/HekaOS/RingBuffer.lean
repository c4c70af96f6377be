import Mathlib.Data.List.Basic
import Mathlib.Logic.Function.Basic

/-!
# Ring buffers

A queue in an array of `size` slots. New elements go to the slot `head`, the oldest one is in the
slot `tail`, and the two are equal exactly while the queue is empty, so that one slot stays free.
-/

namespace HekaOS.RingBuffer

variable {α : Type*} {size head tail i j n : ℕ} {buf : ℕ → α} {c : α} {q : List α} {cap : ℕ}

/-- The next slot. -/
def next (size i : ℕ) : ℕ := if i + 1 = size then 0 else i + 1

/-- The slot `k` places behind `i`, less than a round away. -/
def slot (size i k : ℕ) : ℕ := if i + k < size then i + k else i + k - size

/-- How many elements are in the queue. -/
def count (size head tail : ℕ) : ℕ := if tail ≤ head then head - tail else head + size - tail

/-- The elements of the queue, the oldest one first. -/
def contents (size : ℕ) (buf : ℕ → α) (head tail : ℕ) : List α :=
  (List.range (count size head tail)).map fun k => buf (slot size tail k)

theorem next_lt (hi : i < size) : next size i < size := by
  unfold next
  split <;> omega

theorem count_lt (hhead : head < size) (htail : tail < size) : count size head tail < size := by
  unfold count
  split <;> omega

/-- The queue is full when the next slot behind the head is the tail. -/
theorem next_eq_iff (hhead : head < size) (htail : tail < size) :
    next size head = tail ↔ count size head tail + 1 = size := by
  unfold next count
  split <;> split <;> omega

theorem count_push (htail : tail < size) (h : next size head ≠ tail) :
    count size (next size head) tail = count size head tail + 1 := by
  unfold next at h ⊢
  unfold count
  by_cases hlast : head + 1 = size
  · rw [if_pos hlast] at h ⊢
    split <;> split <;> omega
  · rw [if_neg hlast] at h ⊢
    split <;> split <;> omega

theorem count_pop (hhead : head < size) (htail : tail < size) (h : head ≠ tail) :
    count size head tail = count size head (next size tail) + 1 := by
  unfold next count
  split <;> split <;> split <;> omega

/-- The head is the slot behind the last element. -/
theorem slot_count (hhead : head < size) (htail : tail < size) : slot size tail (count size head tail) = head := by
  unfold slot count
  split <;> split <;> omega

/-- Places less than a round apart are different slots. -/
theorem slot_ne (hi : i < j) (hj : j < size) : slot size tail i ≠ slot size tail j := by
  unfold slot
  split <;> split <;> omega

theorem slot_zero (htail : tail < size) : slot size tail 0 = tail := if_pos htail

theorem slot_succ (hi : i + 1 < size) : slot size tail (i + 1) = slot size (next size tail) i := by
  unfold slot next
  split <;> split <;> split <;> omega

theorem contents_length : (contents size buf head tail).length = count size head tail := by
  rw [contents, List.length_map, List.length_range]

/-- The queue is empty where the head meets the tail. -/
theorem contents_self : contents size buf tail tail = [] := by
  have hcount : count size tail tail = 0 := by
    rw [count, if_pos (Nat.le_refl tail), Nat.sub_self]
  rw [contents, hcount]
  rfl

/-- An element is put behind the others. -/
theorem contents_push (hhead : head < size) (htail : tail < size) (h : next size head ≠ tail) :
    contents size (Function.update buf head c) (next size head) tail = contents size buf head tail ++ [c] := by
  have hlt := count_lt hhead htail
  unfold contents
  rw [count_push htail h, List.range_succ, List.map_append, List.map_singleton, slot_count hhead htail,
    Function.update_self]
  congr 1
  refine List.map_congr_left fun k hk => ?_
  have hk := List.mem_range.mp hk
  have hne : slot size tail k ≠ head := by
    rw [← slot_count hhead htail]
    exact slot_ne hk hlt
  exact Function.update_of_ne hne _ _

/-- The oldest element is taken. -/
theorem contents_pop (hhead : head < size) (htail : tail < size) (h : head ≠ tail) :
    contents size buf head tail = buf tail :: contents size buf head (next size tail) := by
  have hlt := count_lt hhead htail
  unfold contents
  rw [count_pop hhead htail h] at hlt ⊢
  rw [List.range_succ_eq_map, List.map_cons, slot_zero htail, List.map_map]
  congr 1
  refine List.map_congr_left fun k hk => ?_
  have hk := List.mem_range.mp hk
  exact congrArg buf (slot_succ (by omega))

/-- Put an element into a queue of at most `cap` elements; it is lost when the queue is full. -/
def push (cap : ℕ) (q : List α) (c : α) : List α := if q.length < cap then q ++ [c] else q

/-- Putting elements one by one keeps as many of them as there is room for. -/
theorem foldl_push (cap : ℕ) (l q : List α) : l.foldl (push cap) q = q ++ l.take (cap - q.length) := by
  induction l generalizing q with
  | nil => simp
  | cons c l ih =>
    rw [List.foldl_cons, ih, push]
    split
    · rename_i hroom
      have hsucc : cap - q.length = cap - (q ++ [c]).length + 1 := by
        rw [List.length_append, List.length_singleton]
        omega
      rw [hsucc, List.take_succ_cons, List.append_assoc, List.singleton_append]
    · rename_i hfull
      have hnone : cap - q.length = 0 := by omega
      rw [hnone, List.take_zero, List.take_zero]

end HekaOS.RingBuffer
