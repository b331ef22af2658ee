import Ipfi.Lib.Outcome

/-!
# What an operation establishes

`Meets P x Q E` says that from a state in `P` the operation `x` ends with a result and a state in `Q`, or without a
result, for a reason and in a state in `E`.  There is one rule for each way operations are put together.
-/

namespace EStateM

variable {ε σ τ α β : Type}

/-- A result with its state in `Q`, or an error with its state in `E`. -/
def Result.Satisfies (Q : α → σ → Prop) (E : ε → σ → Prop) : Result ε σ α → Prop
  | .ok a s => Q a s
  | .error e s => E e s

def Meets (P : σ → Prop) (x : EStateM ε σ α) (Q : α → σ → Prop) (E : ε → σ → Prop) : Prop :=
  ∀ s, P s → (x.run s).Satisfies Q E

namespace Meets

variable {P P' : σ → Prop} {Q Q' : α → σ → Prop} {E E' : ε → σ → Prop} {x : EStateM ε σ α}

theorem ok (h : Meets P x Q E) {s s' : σ} {a : α} (hs : P s) (hr : x.run s = .ok a s') : Q a s' := by
  have hx := h s hs
  rwa [hr] at hx

theorem error (h : Meets P x Q E) {s s' : σ} {e : ε} (hs : P s) (hr : x.run s = .error e s') : E e s' := by
  have hx := h s hs
  rwa [hr] at hx

protected theorem mono (h : Meets P x Q E) (hP : ∀ s, P' s → P s) (hQ : ∀ a s, Q a s → Q' a s)
    (hE : ∀ e s, E e s → E' e s) : Meets P' x Q' E' := by
  intro s hs
  cases hr : x.run s with
  | ok a s' => exact hQ a s' (h.ok (hP s hs) hr)
  | error e s' => exact hE e s' (h.error (hP s hs) hr)

/-- An operation that leaves the state in `I` however it ends. -/
theorem state {I : σ → Prop} (h : Meets P x (fun _ => I) fun _ => I) {s : σ} (hs : P s) : I (x.run s).state := by
  cases hr : x.run s with
  | ok a s' => exact h.ok hs hr
  | error e s' => exact h.error hs hr

protected theorem pure {a : α} (h : ∀ s, P s → Q a s) : Meets P (pure a : EStateM ε σ α) Q E := h

protected theorem throw {e : ε} (h : ∀ s, P s → E e s) : Meets P (throw e : EStateM ε σ α) Q E := h

protected theorem get {Q : σ → σ → Prop} (h : ∀ s, P s → Q s s) : Meets P (get : EStateM ε σ σ) Q E := h

protected theorem modifyGet {f : σ → α × σ} (h : ∀ s, P s → Q (f s).1 (f s).2) :
    Meets P (modifyGet f : EStateM ε σ α) Q E := h

protected theorem modify {f : σ → σ} {Q : PUnit → σ → Prop} (h : ∀ s, P s → Q ⟨⟩ (f s)) :
    Meets P (modify f : EStateM ε σ PUnit) Q E := h

protected theorem bind {f : α → EStateM ε σ β} {R : β → σ → Prop} (hx : Meets P x Q E)
    (hf : ∀ a, Meets (Q a) (f a) R E) : Meets P (x >>= f) R E := by
  intro s hs
  rw [run_bind]
  cases hr : x.run s with
  | ok a s' => exact hf a s' (hx.ok hs hr)
  | error e s' => exact hx.error hs hr

protected theorem ite {c : Prop} [Decidable c] {y : EStateM ε σ α} (hx : c → Meets P x Q E)
    (hy : ¬ c → Meets P y Q E) : Meets P (if c then x else y) Q E := by
  split
  · exact hx ‹_›
  · exact hy ‹_›

/-- What a precondition says besides about the state. -/
theorem of_and {A : Prop} (h : A → Meets P x Q E) : Meets (fun s => A ∧ P s) x Q E := fun s hs => h hs.1 s hs.2

/-- An operation on a component starts from what is known of the whole state. -/
protected theorem zoom {x : EStateM ε τ α} {get : σ → τ} {put : σ → τ → σ}
    (h : ∀ s, P s → Meets (· = get s) x (fun a t => Q a (put s t)) fun e t => E e (put s t)) :
    Meets P (zoom get put x) Q E := by
  intro s hs
  rw [run_zoom]
  cases hr : x.run (get s) with
  | ok a t => exact (h s hs).ok rfl hr
  | error e t => exact (h s hs).error rfl hr

end Meets

end EStateM

/-- Taking a value out of an option that has one. -/
protected theorem EStateM.Meets.unwrap {ε σ α : Type} {P : σ → Prop} {Q : α → σ → Prop} {E : Stop ε → σ → Prop}
    {o : Option α} (h : ∀ s, P s → ∃ a, o = some a ∧ Q a s) : EStateM.Meets P (unwrap o : Op ε σ α) Q E := by
  intro s hs
  obtain ⟨a, rfl, ha⟩ := h s hs
  exact ha

/-- Taking a value out of an option, where a panic does no harm. -/
theorem EStateM.Meets.unwrap_or {ε σ α : Type} {P : σ → Prop} {Q : α → σ → Prop} {E : Stop ε → σ → Prop}
    {o : Option α} (hQ : ∀ a s, o = some a → P s → Q a s) (hE : ∀ s, P s → E .panicked s) :
    EStateM.Meets P (unwrap o : Op ε σ α) Q E := by
  intro s hs
  cases o with
  | some a => exact hQ a s rfl hs
  | none => exact hE s hs

/-- An operation that from wherever it starts ends in a related state. -/
theorem EStateM.Within.of_meets {ε σ α : Type} {R : σ → σ → Prop} {x : EStateM ε σ α}
    (h : ∀ s₀, EStateM.Meets (· = s₀) x (fun _ => R s₀) fun _ => R s₀) : EStateM.Within R x :=
  fun s => (h s).state rfl
