import Mathlib.Logic.Function.Basic

/-!
# Threads that share a state

Every thread is at some place of its own code and takes one atomic step on the shared state at a time; between two steps
of a thread all others may take theirs.  A fact about each thread's place is kept by a step if the thread that takes it
establishes its own fact and disturbs no other, and a fact about two threads only concerns the pairs with that thread.
-/

structure Threads (ι σ τ : Type) where
  shared : σ
  place : ι → τ

namespace Threads

variable {ι σ τ : Type} [DecidableEq ι] {next : ι → τ → σ → τ × σ} {x : Threads ι σ τ} {t : ι}

/-- One atomic step of the thread `t`, which gives its new place and the new shared state. -/
def step (next : ι → τ → σ → τ × σ) (x : Threads ι σ τ) (t : ι) : Threads ι σ τ where
  shared := (next t (x.place t) x.shared).2
  place := Function.update x.place t (next t (x.place t) x.shared).1

@[simp] theorem step_place_self (next : ι → τ → σ → τ × σ) (x : Threads ι σ τ) (t : ι) :
    (x.step next t).place t = (next t (x.place t) x.shared).1 := Function.update_self ..

theorem step_place_of_ne {t' : ι} (h : t' ≠ t) : (x.step next t).place t' = x.place t' := Function.update_of_ne h ..

end Threads
