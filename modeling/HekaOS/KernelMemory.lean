import Mathlib.Logic.Function.Basic
import HekaOS.MachineWord

/-!
# Kernel calls that may not return, and word-addressed kernel memory

A kernel call ends normally, ends in `kpanic` with its message, spins in a loop that does
not end within the fuel given to it, or reads a struct through a null pointer. Kernel data is kept in 32-bit words
indexed by their byte address; the null pointer is the word `0`.
-/

namespace HekaOS.KernelMemory

/-- Why a kernel call does not return. -/
inductive Stop where
  | kpanic (message : String)
  | spin
  | nullPointer
  deriving DecidableEq

abbrev Kernel (α : Type) := Except Stop α

def kpanic {α : Type} (message : String) : Kernel α := .error (.kpanic message)

/-- The result of a walk, with `spin` when it did not end. -/
def ended {α : Type} : Option α → Kernel α
  | none => .error .spin
  | some a => .ok a

@[simp] theorem ended_eq_ok {α : Type} {o : Option α} {a : α} : ended o = .ok a ↔ o = some a := by
  cases o <;> simp [ended]

/-- Every call made on the way of a call that returned has returned. -/
theorem bind_eq_ok {α β : Type} {x : Kernel α} {f : α → Kernel β} {b : β} :
    (x >>= f) = .ok b ↔ ∃ a, x = .ok a ∧ f a = .ok b := by
  cases x <;> simp [bind, Except.bind]

theorem ite_kpanic_eq_ok {α : Type} {c : Prop} [Decidable c] {m : String} {x : Kernel α} {a : α} :
    (if c then kpanic m else x) = .ok a ↔ ¬c ∧ x = .ok a := by
  split <;> simp [kpanic, *]

/-- A word read as a pointer. -/
def ptr (w : ℕ) : Option ℕ := if w = 0 then none else some w

@[simp] theorem ptr_zero : ptr 0 = none := rfl

theorem ptr_of_pos {w : ℕ} (h : 0 < w) : ptr w = some w := if_neg (by omega)

theorem ptr_eq_none {w : ℕ} : ptr w = none ↔ w = 0 := by
  simp only [ptr, ite_eq_left_iff, reduceCtorEq, imp_false, Decidable.not_not]

theorem ptr_eq_some {w a : ℕ} : ptr w = some a ↔ w = a ∧ 0 < a := by
  simp only [ptr]
  split <;> simp <;> omega

end HekaOS.KernelMemory
