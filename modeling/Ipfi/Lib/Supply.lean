import Mathlib.Data.Finset.Card
import Mathlib.Data.Finset.Image

/-!
# Identifier supplies that reuse before they draw

A supply hands out identifiers from a fixed enumeration `draw 0, draw 1, …`, and reuses what was given back before it
draws the next one.  `Supply draw n free live` says that the identifiers drawn so far are `draw 0, …, draw (n-1)` and
that each of them is either live or waits in the list `free`, never both and never twice.  Every operation of such a
supply keeps the invariant, and as long as the enumeration has not come round, what it hands out is not live.
-/

variable {ι : Type}

/-- After `n` draws the identifiers drawn are split into the live ones and the list of free ones. -/
structure Supply (draw : ℕ → ι) (n : ℕ) (free : List ι) (live : ι → Prop) : Prop where
  nodup : free.Nodup
  disjoint : ∀ i ∈ free, ¬ live i
  drawn : ∀ i, (live i ∨ i ∈ free) ↔ ∃ k < n, draw k = i

namespace Supply

variable {draw : ℕ → ι} {n : ℕ} {free : List ι} {live : ι → Prop} {i : ι}

theorem empty (draw : ℕ → ι) : Supply draw 0 [] fun _ => False where
  nodup := List.nodup_nil
  disjoint := by simp
  drawn := by simp

/-- The first free identifier is not live, and becomes live. -/
theorem reuse (h : Supply draw n (i :: free) live) : ¬ live i ∧ Supply draw n free fun j => j = i ∨ live j := by
  obtain ⟨hi, hnd⟩ := List.nodup_cons.1 h.nodup
  refine ⟨h.disjoint i (by simp), hnd, ?_, ?_⟩
  · rintro j hj (rfl | hl)
    · exact hi hj
    · exact h.disjoint j (by simp [hj]) hl
  · intro j
    rw [← h.drawn j, List.mem_cons]
    tauto

/-- With nothing to reuse, the next draw becomes live, whether it was drawn before or not. -/
theorem next (h : Supply draw n [] live) : Supply draw (n + 1) [] fun j => j = draw n ∨ live j := by
  refine ⟨List.nodup_nil, by simp, ?_⟩
  intro j
  have hd := h.drawn j
  simp only [List.not_mem_nil, or_false] at hd ⊢
  constructor
  · rintro (rfl | hl)
    · exact ⟨n, by omega, rfl⟩
    · obtain ⟨k, hk, he⟩ := hd.1 hl
      exact ⟨k, by omega, he⟩
  · rintro ⟨k, hk, rfl⟩
    rcases Nat.lt_succ_iff_lt_or_eq.1 hk with hk | rfl
    · exact .inr (hd.2 ⟨k, hk, rfl⟩)
    · exact .inl rfl

/-- With nothing to reuse, the next draw is live if and only if it was drawn before. -/
theorem live_iff (h : Supply draw n [] live) : live (draw n) ↔ ∃ k < n, draw k = draw n := by
  rw [← h.drawn (draw n)]
  simp

/-- A draw that has not been drawn before is not live, and becomes live, whatever waits for reuse. -/
theorem fresh (h : Supply draw n free live) (hn : ∀ k < n, draw k ≠ draw n) :
    ¬ live (draw n) ∧ Supply draw (n + 1) free fun j => j = draw n ∨ live j := by
  have hnew : ¬ (live (draw n) ∨ draw n ∈ free) := by
    rw [h.drawn]
    rintro ⟨k, hk, he⟩
    exact hn k hk he
  rw [not_or] at hnew
  refine ⟨hnew.1, h.nodup, ?_, ?_⟩
  · rintro j hj (rfl | hl)
    · exact hnew.2 hj
    · exact h.disjoint j hj hl
  · intro j
    rw [or_assoc, h.drawn j, Nat.exists_lt_succ_right, eq_comm, or_comm]

/-- Giving back a live identifier. -/
theorem giveBack (h : Supply draw n free live) (hi : live i) :
    Supply draw n (free ++ [i]) fun j => live j ∧ j ≠ i := by
  refine ⟨?_, ?_, ?_⟩
  · apply h.nodup.append (List.nodup_singleton i)
    rintro j hj hji
    rw [List.mem_singleton] at hji
    exact h.disjoint j hj (hji ▸ hi)
  · rintro j hj ⟨hl, hne⟩
    rcases List.mem_append.1 hj with hj | hj
    · exact h.disjoint j hj hl
    · exact hne (List.mem_singleton.1 hj)
  · intro j
    rw [← h.drawn j, List.mem_append, List.mem_singleton]
    by_cases hji : j = i
    · subst hji; simp [hi]
    · simp [hji]

theorem congr {live' : ι → Prop} (h : Supply draw n free live) (he : ∀ i, live i ↔ live' i) :
    Supply draw n free live' := by
  rwa [show live' = live from funext fun i => propext (he i).symm]

/-- While the enumeration has not repeated, live and free identifiers are together as many as the draws. -/
theorem card [DecidableEq ι] (h : Supply draw n free live) (hinj : Set.InjOn draw {k | k < n})
    {L : Finset ι} (hL : ∀ i, i ∈ L ↔ live i) : L.card + free.length = n := by
  have hunion : L ∪ free.toFinset = (Finset.range n).image draw := by
    ext i
    simp only [Finset.mem_union, hL, List.mem_toFinset, h.drawn i, Finset.mem_image, Finset.mem_range]
  have hdisj : Disjoint L free.toFinset := by
    rw [Finset.disjoint_left]
    intro i hi hf
    exact h.disjoint i (List.mem_toFinset.1 hf) ((hL i).1 hi)
  have hcard := Finset.card_union_of_disjoint hdisj
  rw [hunion, Finset.card_image_of_injOn (by simpa [Set.InjOn] using hinj), Finset.card_range,
    List.toFinset_card_of_nodup h.nodup] at hcard
  exact hcard.symm

end Supply
