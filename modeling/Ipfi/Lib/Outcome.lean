import Mathlib.Order.Defs.Unbundled

/-!
# Operations that fail, block or panic

Operations on a mutable state are written in core's `EStateM`, which keeps the state an operation leaves behind when
it ends without a result.  Besides with an error of the program, an operation ends without a result when its thread
has to wait (`blocked`) or unwinds (`panicked`).  `zoom` runs an operation on a component of a larger state, and
`Within R` says that an operation moves the state along the preorder `R`, however it ends.
-/

/-- The ways an operation ends without a result. -/
inductive Stop (ε : Type)
  /-- The operation returns an error. -/
  | error (e : ε)
  /-- The thread waits for another one; trying again later is the same as going on. -/
  | blocked
  /-- The thread panics, or the program is aborted. -/
  | panicked
  deriving DecidableEq

/-- An operation on a state `σ` with errors in `ε`. -/
abbrev Op (ε σ α : Type) : Type := EStateM (Stop ε) σ α

/-- Takes the value out of an option, or panics. -/
def unwrap {ε σ α : Type} : Option α → Op ε σ α
  | some a => pure a
  | none => throw .panicked

namespace EStateM

variable {ε σ τ α β : Type}

@[simp] theorem run_unwrap_some (a : α) (s : σ) : (unwrap (some a) : Op ε σ α).run s = .ok a s := rfl
@[simp] theorem run_unwrap_none (s : σ) : (unwrap none : Op ε σ α).run s = .error .panicked s := rfl

/-- The state an operation leaves, whatever its result. -/
def Result.state : Result ε σ α → σ
  | .ok _ s => s
  | .error _ s => s

@[simp] theorem Result.state_ok (a : α) (s : σ) : (Result.ok a s : Result ε σ α).state = s := rfl
@[simp] theorem Result.state_error (e : ε) (s : σ) : (Result.error e s : Result ε σ α).state = s := rfl

/-- The result of an operation with its state mapped. -/
def Result.mapState (f : σ → τ) : Result ε σ α → Result ε τ α
  | .ok a s => .ok a (f s)
  | .error e s => .error e (f s)

@[simp] theorem Result.mapState_ok (f : σ → τ) (a : α) (s : σ) :
    (Result.ok a s : Result ε σ α).mapState f = .ok a (f s) := rfl
@[simp] theorem Result.mapState_error (f : σ → τ) (e : ε) (s : σ) :
    (Result.error e s : Result ε σ α).mapState f = .error e (f s) := rfl

@[simp] theorem Result.state_mapState (f : σ → τ) (r : Result ε σ α) : (r.mapState f).state = f r.state := by
  cases r <;> rfl

/-- An operation on the component `get` of a state. -/
def zoom (get : σ → τ) (put : σ → τ → σ) (x : EStateM ε τ α) : EStateM ε σ α :=
  fun s => (x.run (get s)).mapState (put s)

@[simp] theorem run_zoom (get : σ → τ) (put : σ → τ → σ) (x : EStateM ε τ α) (s : σ) :
    (zoom get put x).run s = (x.run (get s)).mapState (put s) := rfl

@[simp] theorem run_throw_any (e : ε) (s : σ) : (throw e : EStateM ε σ α).run s = .error e s := rfl

@[simp] theorem run_map_any (f : α → β) (x : EStateM ε σ α) (s : σ) :
    (f <$> x).run s = match x.run s with
      | .ok a s' => .ok (f a) s'
      | .error e s' => .error e s' := rfl

@[simp] theorem run_discard (x : EStateM ε σ α) (s : σ) : (discard x).run s = match x.run s with
      | .ok _ s' => .ok ⟨⟩ s'
      | .error e s' => .error e s' := rfl

/-- An operation that ran to its result continues with the next one. -/
theorem run_bind_ok {x : EStateM ε σ α} {f : α → EStateM ε σ β} {s s' : σ} {a : α}
    (h : x.run s = .ok a s') : (x >>= f).run s = (f a).run s' := by
  rw [run_bind, h]

theorem run_bind_error {x : EStateM ε σ α} {f : α → EStateM ε σ β} {s s' : σ} {e : ε}
    (h : x.run s = .error e s') : (x >>= f).run s = .error e s' := by
  rw [run_bind, h]

/-- Two operations in a row end well if the first does wherever it stops, and the second from wherever it is started. -/
theorem state_bind {P : σ → Prop} {x : EStateM ε σ α} {f : α → EStateM ε σ β} {s : σ}
    (hx : ∀ e s', x.run s = .error e s' → P s') (hf : ∀ a s', x.run s = .ok a s' → P ((f a).run s').state) :
    P ((x >>= f).run s).state := by
  rw [run_bind]
  cases hr : x.run s with
  | ok a s' => exact hf a s' hr
  | error e s' => exact hx e s' hr

/-! ### What an operation keeps however it ends -/

/-- Every run ends in a state related to the one it started in. -/
def Within (R : σ → σ → Prop) (x : EStateM ε σ α) : Prop := ∀ s, R s (x.run s).state

/-- The states in which `f` has the same value. -/
def Keeps {β : Type} (f : σ → β) (s s' : σ) : Prop := f s' = f s

instance {β : Type} (f : σ → β) : IsPreorder σ (Keeps f) where
  refl _ := rfl
  trans _ _ _ h h' := Eq.trans h' h

namespace Within

section

variable {R : σ → σ → Prop} {x : EStateM ε σ α}

protected theorem modify {f : σ → σ} (h : ∀ s, R s (f s)) : Within R (modify f : EStateM ε σ PUnit) := h

protected theorem modifyGet {f : σ → α × σ} (h : ∀ s, R s (f s).2) : Within R (modifyGet f : EStateM ε σ α) := h

protected theorem ite {c : Prop} [Decidable c] {y : EStateM ε σ α} (hx : Within R x) (hy : Within R y) :
    Within R (if c then x else y) := by
  split <;> assumption

protected theorem mono {S : σ → σ → Prop} (hx : Within R x) (h : ∀ s s', R s s' → S s s') : Within S x :=
  fun s => h s _ (hx s)

protected theorem zoom {S : τ → τ → Prop} {get : σ → τ} {put : σ → τ → σ} {x : EStateM ε τ α} (hx : Within S x)
    (hput : ∀ s t, S (get s) t → R s (put s t)) : Within R (zoom get put x) := by
  intro s
  rw [run_zoom, Result.state_mapState]
  exact hput s _ (hx (get s))

end

variable {R : σ → σ → Prop} [IsPreorder σ R] {x : EStateM ε σ α}

protected theorem pure (a : α) : Within R (pure a : EStateM ε σ α) := fun s => refl_of R s

protected theorem throw (e : ε) : Within R (throw e : EStateM ε σ α) := fun s => refl_of R s

protected theorem get : Within R (get : EStateM ε σ σ) := fun s => refl_of R s

protected theorem bind {f : α → EStateM ε σ β} (hx : Within R x) (hf : ∀ a, Within R (f a)) :
    Within R (x >>= f) := by
  intro s
  have h := hx s
  rw [run_bind]
  cases hr : x.run s with
  | ok a s' => rw [hr] at h; exact trans_of R h (hf a s')
  | error e s' => rw [hr] at h; exact h

end Within

end EStateM

protected theorem EStateM.Within.unwrap {ε σ α : Type} {R : σ → σ → Prop} [IsPreorder σ R] (o : Option α) :
    EStateM.Within R (unwrap o : Op ε σ α) := by
  cases o with
  | none => exact .throw _
  | some a => exact .pure a
