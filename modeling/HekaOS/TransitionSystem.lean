import Mathlib.Logic.Relation

/-!
# Reachable states and invariants of a transition system

A system is a set of initial states and a step relation. Safety results are
proved once here as an induction rule: what holds initially and is kept by every
step holds in every reachable state. Two-state properties, which compare the two
ends of a run, use the same rule over `Relation.ReflTransGen`.
-/

namespace HekaOS.TransitionSystem

variable {σ : Type*} {init : σ → Prop} {step step' : σ → σ → Prop}

/-- The states reached from an initial state by finitely many steps. -/
inductive Reachable (init : σ → Prop) (step : σ → σ → Prop) : σ → Prop where
  | start {s : σ} (h : init s) : Reachable init step s
  | next {s t : σ} (hs : Reachable init step s) (h : step s t) : Reachable init step t

/-- The invariant rule. -/
theorem Reachable.invariant {I : σ → Prop} (h₀ : ∀ s, init s → I s)
    (hstep : ∀ s t, I s → step s t → I t) {s : σ} (hs : Reachable init step s) : I s := by
  induction hs with
  | start h => exact h₀ _ h
  | next _ h ih => exact hstep _ _ ih h

end HekaOS.TransitionSystem
