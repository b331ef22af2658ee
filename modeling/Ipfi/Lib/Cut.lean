import Mathlib.Data.List.Basic

/-!
# Cutting marked pieces into chunks

A sequence of pieces, some of them marked, is cut after each marked piece; the pieces between two cuts are joined to one
chunk.  The part after the last cut is a chunk too, so there is always one chunk more than there are marks.
-/

namespace Cut

variable {α : Type} {cur cur' : List α} {ps qs : List (List α × Bool)} {done : List (List α)}

/-- The chunks of the pieces, the first of them continuing `cur`. -/
def chunksFrom : List α → List (List α × Bool) → List (List α)
  | cur, [] => [cur]
  | cur, (bytes, true) :: ps => (cur ++ bytes) :: chunksFrom [] ps
  | cur, (bytes, false) :: ps => chunksFrom (cur ++ bytes) ps

def chunks (ps : List (List α × Bool)) : List (List α) := chunksFrom [] ps

theorem length_chunksFrom (cur : List α) (ps : List (List α × Bool)) :
    (chunksFrom cur ps).length = ps.countP (·.2) + 1 := by
  fun_induction chunksFrom cur ps with
  | case1 cur => rfl
  | case2 cur bytes ps ih => simp [ih]
  | case3 cur bytes ps ih => simp [ih]

theorem chunksFrom_ne_nil (cur : List α) (ps : List (List α × Bool)) : chunksFrom cur ps ≠ [] := by
  intro h
  have := length_chunksFrom cur ps
  rw [h] at this
  simp at this

/-- More pieces continue the last chunk. -/
theorem chunksFrom_append (h : chunksFrom cur ps = done ++ [cur']) (qs : List (List α × Bool)) :
    chunksFrom cur (ps ++ qs) = done ++ chunksFrom cur' qs := by
  induction ps generalizing cur done with
  | nil =>
    obtain ⟨rfl, rfl⟩ : done = [] ∧ cur' = cur := by
      cases done with
      | nil => simp_all [chunksFrom]
      | cons d done => simp [chunksFrom] at h
    rfl
  | cons p ps ih =>
    obtain ⟨bytes, b⟩ := p
    cases b with
    | false => exact ih (by simpa [chunksFrom] using h)
    | true =>
      cases done with
      | nil =>
        rw [chunksFrom] at h
        exact absurd (List.cons.inj h).2 (chunksFrom_ne_nil [] ps)
      | cons d done =>
        obtain ⟨hd, htail⟩ := List.cons.inj h
        simp only [List.cons_append, chunksFrom, ih htail, hd]

theorem exists_chunksFrom (cur : List α) (ps : List (List α × Bool)) :
    ∃ done cur', chunksFrom cur ps = done ++ [cur'] :=
  ⟨_, _, (List.dropLast_append_getLast (chunksFrom_ne_nil cur ps)).symm⟩

end Cut
