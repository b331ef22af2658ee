import Mathlib.Init

/-!
# Runs of a system

A system is a state with a step function.  `Reaches step ok s₀ s` says that a run from `s₀` ends in `s` all of whose
steps were allowed by `ok` in the state in which they were taken.
-/

variable {σ α : Type}

inductive Reaches (step : σ → α → σ) (ok : σ → α → Prop) (s₀ : σ) : σ → Prop
  | start : Reaches step ok s₀ s₀
  | next {s : σ} {a : α} (h : Reaches step ok s₀ s) (ha : ok s a) : Reaches step ok s₀ (step s a)

namespace Reaches

variable {step : σ → α → σ} {ok ok' : σ → α → Prop} {s₀ s : σ}

/-- What holds at the start and is kept by every allowed step holds in every state reached. -/
theorem invariant {I : σ → Prop} (h : Reaches step ok s₀ s) (h₀ : I s₀)
    (hstep : ∀ s a, I s → ok s a → I (step s a)) : I s := by
  induction h with
  | start => exact h₀
  | next _ ha ih => exact hstep _ _ ih ha

theorem trans {s' : σ} (h : Reaches step ok s₀ s) (h' : Reaches step ok s s') : Reaches step ok s₀ s' := by
  induction h' with
  | start => exact h
  | next _ ha ih => exact .next ih ha

/-- A run whose steps satisfy a condition satisfies every weaker one. -/
theorem mono (h : Reaches step ok s₀ s) (himp : ∀ s a, ok s a → ok' s a) : Reaches step ok' s₀ s := by
  induction h with
  | start => exact .start
  | next _ ha ih => exact .next ih (himp _ _ ha)

/-- A list of actions that are allowed in every state is a run. -/
theorem foldl (h : Reaches step ok s₀ s) (as : List α) (has : ∀ a ∈ as, ∀ s, ok s a) :
    Reaches step ok s₀ (as.foldl step s) := by
  induction as generalizing s with
  | nil => exact h
  | cons a as ih => exact ih (.next h (has a (by simp) s)) fun a' ha' => has a' (by simp [ha'])

end Reaches
