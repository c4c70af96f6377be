import Mathlib.Data.Option.Basic

/-!
# Painting over a picture

A layer has colours at some of the places. What is painted later covers what was painted earlier.
-/

namespace Painting

variable {ι α : Type} {p q : ι → Option α} {i : ι}

/-- The layer `q` on top of the layer `p`. -/
def onTop (q p : ι → Option α) : ι → Option α := fun i => (q i).or (p i)

/-- A picture behind a layer. -/
def paint (p : ι → Option α) (f : ι → α) : ι → α := fun i => (p i).getD (f i)

theorem paint_onTop (q p : ι → Option α) (f : ι → α) : paint (onTop q p) f = paint q (paint p f) := by
  funext i
  unfold paint onTop
  cases q i with
  | none => rfl
  | some a => rfl

theorem onTop_isSome : (onTop q p i).isSome = true ↔ (q i).isSome = true ∨ (p i).isSome = true := by
  unfold onTop
  cases q i with
  | none => simp
  | some a => simp

theorem onTop_of_none (h : q i = none) : onTop q p i = p i := by
  rw [onTop, h, Option.none_or]

theorem onTop_of_some {a : α} (h : q i = some a) : onTop q p i = some a := by
  rw [onTop, h, Option.some_or]

end Painting
