import Mathlib.Order.Defs.Unbundled

/-!
# Messages in transit

A sender and a receiver both keep a view of what the messages sent from one to the other amount to.  Messages arrive in
order and none is lost, so the receiver only lags behind: `Transit recv legal r ms s` says that from the view `r` the
messages `ms` lead to the view `s`, each of them being legal in the view in which it is received.
-/

variable {ρ μ : Type}

inductive Transit (recv : ρ → μ → ρ) (legal : ρ → μ → Prop) : ρ → List μ → ρ → Prop
  | nil (r : ρ) : Transit recv legal r [] r
  | cons {r s : ρ} {m : μ} {ms : List μ} (hm : legal r m) (h : Transit recv legal (recv r m) ms s) :
      Transit recv legal r (m :: ms) s

namespace Transit

variable {recv : ρ → μ → ρ} {legal : ρ → μ → Prop} {r s t : ρ} {m : μ} {ms ms' : List μ}

theorem append (h : Transit recv legal r ms s) (h' : Transit recv legal s ms' t) :
    Transit recv legal r (ms ++ ms') t := by
  induction h with
  | nil => exact h'
  | cons hm _ ih => exact .cons hm (ih h')

/-- A message is sent when it is legal in the sender's view. -/
theorem send (h : Transit recv legal r ms s) (hm : legal s m) : Transit recv legal r (ms ++ [m]) (recv s m) :=
  h.append (.cons hm (.nil _))

/-- The first message in transit is legal in the receiver's view, and comes off when it is received. -/
theorem receive (h : Transit recv legal r (m :: ms) s) : legal r m ∧ Transit recv legal (recv r m) ms s := by
  cases h with
  | cons hm h => exact ⟨hm, h⟩

theorem eq_of_nil (h : Transit recv legal r [] s) : r = s := by
  cases h
  rfl

theorem mono {legal' : ρ → μ → Prop} (h : Transit recv legal r ms s) (himp : ∀ r m, legal r m → legal' r m) :
    Transit recv legal' r ms s := by
  induction h with
  | nil r => exact .nil r
  | cons hm _ ih => exact .cons (himp _ _ hm) ih

/-- What every legal message does to a view, all messages in transit do. -/
theorem within {R : ρ → ρ → Prop} [IsPreorder ρ R] (h : Transit recv legal r ms s)
    (hR : ∀ r m, legal r m → R r (recv r m)) : R r s := by
  induction h with
  | nil r => exact refl_of R r
  | cons hm _ ih => exact trans_of R (hR _ _ hm) ih

end Transit
