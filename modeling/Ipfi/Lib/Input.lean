import Ipfi.Lib.Outcome

/-!
# Operations on an input

An operation that takes elements off the front of a list, and fails with `eof` and takes all of it where there are too
few.  What it does with a longer list is known from what it does with a shorter one.
-/

namespace EStateM

variable {ε ι α β : Type} {eof : ε} {x : EStateM ε (List ι) α} {input more : List ι}

/-- More input changes nothing, unless there was too little of it. -/
def Incremental (eof : ε) (x : EStateM ε (List ι) α) : Prop :=
  ∀ input more, x.run input = .error eof [] ∨ x.run (input ++ more) = (x.run input).mapState (· ++ more)

namespace Incremental

protected theorem pure (a : α) : Incremental eof (pure a : EStateM ε (List ι) α) := fun _ _ => .inr rfl

protected theorem throw (e : ε) : Incremental eof (throw e : EStateM ε (List ι) α) := fun _ _ => .inr rfl

protected theorem ite {c : Prop} [Decidable c] {y : EStateM ε (List ι) α} (hx : Incremental eof x)
    (hy : Incremental eof y) : Incremental eof (if c then x else y) := by
  split <;> assumption

theorem ok (h : Incremental eof x) {a : α} {input' : List ι} (hr : x.run input = .ok a input') (more : List ι) :
    x.run (input ++ more) = .ok a (input' ++ more) := by
  rcases h input more with heof | hmore
  · rw [hr] at heof; cases heof
  · rw [hmore, hr]; rfl

protected theorem bind {f : α → EStateM ε (List ι) β} (hx : Incremental eof x) (hf : ∀ a, Incremental eof (f a)) :
    Incremental eof (x >>= f) := by
  intro input more
  cases hr : x.run input with
  | ok a input' =>
    rw [run_bind_ok hr, run_bind_ok (hx.ok hr more)]
    exact hf a input' more
  | error e input' =>
    rw [run_bind_error hr]
    rcases hx input more with heof | hmore
    · exact .inl (by rw [hr] at heof; cases heof; rfl)
    · exact .inr (run_bind_error (hmore.trans (by rw [hr]; rfl)))

/-- An input of which too much was cut off to be taken as a whole. -/
theorem truncated (h : Incremental eof x) (hne : more ≠ []) (hr : (x.run (input ++ more)).state = []) :
    x.run input = .error eof [] := by
  rcases h input more with heof | hmore
  · exact heof
  · rw [hmore, Result.state_mapState, List.append_eq_nil_iff] at hr
    exact absurd hr.2 hne

end Incremental

end EStateM
