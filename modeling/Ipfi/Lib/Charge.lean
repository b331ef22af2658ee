import Mathlib.Algebra.BigOperators.Group.Finset.Piecewise
import Mathlib.Algebra.GroupWithZero.Nat
import Mathlib.Algebra.Order.BigOperators.Group.Finset
import Ipfi.Lib.FinMap
import Ipfi.Lib.Outcome

/-!
# What operations are charged

A measure of the state, and by how much a run of an operation raises it at most: charges of operations in a row add up,
and so do those of the steps of a system.  The measures here are totals over the values of a map or of a function.
-/

/-! ### Totals -/

namespace AList

variable {K V : Type}

/-- The sum of a measure over the values of a map. -/
def total (f : V → Nat) (m : FinMap K V) : Nat := (m.values.map f).sum

theorem total_const_one (m : FinMap K V) : m.total (fun _ => 1) = m.size := by
  simp [total, values, size, AList.keys, List.keys, Function.comp_def]

variable [DecidableEq K] {m : FinMap K V} {k : K} {v v' : V}

theorem total_insert (f : V → Nat) (m : FinMap K V) (k : K) (v : V) :
    (m.insert k v).total f = f v + (m.erase k).total f := by
  rfl

theorem total_erase_of_lookup (f : V → Nat) (h : m.lookup k = some v) : f v + (m.erase k).total f = m.total f := by
  have hmem : k ∈ m.entries.keys := AList.mem_of_lookup h
  obtain ⟨v', before, after, -, hentries, herase⟩ := List.exists_of_kerase hmem
  have hv : v' = v := by
    have hlook : (⟨k, v'⟩ : Sigma fun _ : K => V) ∈ m.entries := by simp [hentries]
    exact Option.some.inj ((AList.mem_lookup_iff.2 hlook).symm.trans h)
  subst hv
  have herase' : (m.erase k).entries = before ++ after := herase
  simp only [total, values, hentries, herase', List.map_append, List.map_cons, List.sum_append, List.sum_cons]
  omega

theorem total_erase_le (f : V → Nat) (m : FinMap K V) (k : K) : (m.erase k).total f ≤ m.total f := by
  cases h : m.lookup k with
  | none =>
    have hk : k ∉ m.entries.keys := fun hk => by
      obtain ⟨v, hv⟩ := mem_iff_lookup.1 hk
      cases h.symm.trans hv
    have herase : (m.erase k).entries = m.entries := List.kerase_of_notMem_keys hk
    simp only [total, values, herase]
    exact Nat.le_refl _
  | some v =>
    have := total_erase_of_lookup f h
    omega

theorem total_insert_le (f : V → Nat) (m : FinMap K V) (k : K) (v : V) :
    (m.insert k v).total f ≤ f v + m.total f := by
  rw [total_insert]
  exact Nat.add_le_add_left (total_erase_le f m k) _

/-- A value that is replaced. -/
theorem total_insert_of_lookup (f : V → Nat) (h : m.lookup k = some v') (v : V) :
    f v' + (m.insert k v).total f = f v + m.total f := by
  rw [total_insert, ← total_erase_of_lookup f h]
  omega

end AList

namespace Finset

/-- A function that is changed at one point. -/
theorem sum_update_le {V : Type} (f : V → Nat) (g : Nat → V) (s : Finset Nat) {n : Nat} {v : V} {k : Nat}
    (h : f v ≤ f (g n) + k) : ∑ i ∈ s, f (Function.update g n v i) ≤ (∑ i ∈ s, f (g i)) + k := by
  have hcomp : ∀ i, f (Function.update g n v i) = Function.update (fun i => f (g i)) n (f v) i := fun i =>
    Function.apply_update (fun _ => f) g n v i
  simp only [hcomp]
  by_cases hn : n ∈ s
  · rw [Finset.sum_update_of_mem hn, ← Finset.add_sum_erase s (fun i => f (g i)) hn, Finset.sdiff_singleton_eq_erase]
    omega
  · rw [Finset.sum_update_of_notMem hn]
    exact Nat.le_add_right _ _

end Finset

/-! ### Charges -/

/-- The measure rises by at most `n`. -/
def Raises {σ : Type} (μ : σ → Nat) (n : Nat) (s s' : σ) : Prop := μ s' ≤ μ s + n

namespace Raises

variable {σ τ : Type} {μ : σ → Nat} {n n' : Nat} {s s' s'' : σ}

instance : IsPreorder σ (Raises μ 0) where
  refl s := Nat.le_refl (μ s)
  trans _ _ _ h h' := Nat.le_trans h' h

theorem trans (h : Raises μ n s s') (h' : Raises μ n' s' s'') : Raises μ (n + n') s s'' := by
  unfold Raises at *
  omega

theorem trans_zero (h : Raises μ n s s') (h' : Raises μ 0 s' s'') : Raises μ n s s'' := Nat.le_trans h' h

theorem mono (h : Raises μ n s s') (hn : n ≤ n') : Raises μ n' s s' := Nat.le_trans h (Nat.add_le_add_left hn _)

/-- The charges of the steps of a run, one after the other. -/
def charges {α : Type} (step : σ → α → σ) (charge : σ → α → Nat) : σ → List α → Nat
  | _, [] => 0
  | s, a :: as => charge s a + charges step charge (step s a) as

theorem charges_le {α : Type} {step : σ → α → σ} {charge charge' : σ → α → Nat} (h : ∀ s a, charge s a ≤ charge' s a)
    (s : σ) (as : List α) : charges step charge s as ≤ charges step charge' s as := by
  induction as generalizing s with
  | nil => exact Nat.le_refl 0
  | cons a as ih => exact Nat.add_le_add (h s a) (ih (step s a))

theorem foldl {α : Type} {step : σ → α → σ} {charge : σ → α → Nat} (h : ∀ s a, Raises μ (charge s a) s (step s a))
    (s : σ) (as : List α) : Raises μ (charges step charge s as) s (as.foldl step s) := by
  induction as generalizing s with
  | nil => exact refl_of (Raises μ 0) s
  | cons a as ih => exact (h s a).trans (ih (step s a))

end Raises

namespace EStateM.Within

variable {ε σ α β : Type} {μ : σ → Nat} {n n' : Nat} {x : EStateM ε σ α}

theorem raises_bind {f : α → EStateM ε σ β} (hx : Within (Raises μ n) x) (hf : ∀ a, Within (Raises μ n') (f a)) :
    Within (Raises μ (n + n')) (x >>= f) := by
  intro s
  have h := hx s
  rw [run_bind]
  cases hr : x.run s with
  | ok a s' =>
    rw [hr] at h
    exact Raises.trans h (hf a s')
  | error e s' =>
    rw [hr] at h
    exact Raises.mono h (Nat.le_add_right n n')

/-- An operation that is followed by others, from one state. -/
theorem bind_from {R : σ → σ → Prop} [IsPreorder σ R] {f : α → EStateM ε σ β} {s : σ} (hx : R s (x.run s).state)
    (hf : ∀ a, Within R (f a)) : R s ((x >>= f).run s).state := by
  rw [run_bind]
  cases hr : x.run s with
  | ok a s' =>
    rw [hr] at hx
    exact trans_of R hx (hf a s')
  | error e s' =>
    rw [hr] at hx
    exact hx

end EStateM.Within
