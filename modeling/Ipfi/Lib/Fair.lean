import Mathlib.Order.WellFounded

/-!
# Fair schedules

A schedule says for ever which move comes next.  All its moves are allowed, and each of those that it is fair to comes
again and again.  `LeadsTo step ok fair P Q` says that from a state in `P` every such schedule comes to a state in `Q`.
This follows from a rank that no allowed move raises and one of the fair moves lowers.
-/

variable {σ α β : Type} {ok ok' fair : α → Prop} {step : σ → α → σ}

structure Schedule (ok fair : α → Prop) where
  move : Nat → α
  ok : ∀ n, ok (move n)
  fair : ∀ a, fair a → ∀ n, ∃ m, n ≤ m ∧ move m = a

namespace Schedule

/-- The state after the first `n` moves. -/
def run (step : σ → α → σ) (u : Schedule ok fair) (s : σ) : Nat → σ
  | 0 => s
  | n + 1 => step (u.run step s n) (u.move n)

/-- The schedule after its first `n` moves, of which less may be known than of the others. -/
def drop (u : Schedule ok fair) (n : Nat) (h : ∀ m, ok' (u.move (n + m))) : Schedule ok' fair where
  move m := u.move (n + m)
  ok := h
  fair a ha m := by
    obtain ⟨m', hm, hmove⟩ := u.fair a ha (n + m)
    exact ⟨m' - n, by omega, by rwa [Nat.add_sub_cancel' (by omega)]⟩

theorem run_drop (u : Schedule ok fair) (n : Nat) (h : ∀ m, ok' (u.move (n + m))) (s : σ) (m : Nat) :
    (u.drop n h).run step (u.run step s n) m = u.run step s (n + m) := by
  induction m with
  | zero => rfl
  | succ m ih =>
    show step ((u.drop n h).run step (u.run step s n) m) (u.move (n + m)) = _
    rw [ih]
    rfl

end Schedule

/-- No allowed move leads out of `P`. -/
def Stable (step : σ → α → σ) (ok : α → Prop) (P : σ → Prop) : Prop := ∀ s a, P s → ok a → P (step s a)

namespace Stable

variable {P P' : σ → Prop}

theorem run (h : Stable step ok P) (u : Schedule ok fair) {s : σ} (hs : P s) (n : Nat) : P (u.run step s n) := by
  induction n with
  | zero => exact hs
  | succ n ih => exact h _ _ ih (u.ok n)

theorem run_le (h : Stable step ok P) (u : Schedule ok fair) {s : σ} {n m : Nat} (hn : n ≤ m)
    (hs : P (u.run step s n)) :
    P (u.run step s m) := by
  have hrun := h.run (u.drop n fun m => u.ok (n + m)) hs (m - n)
  rwa [Schedule.run_drop, Nat.add_sub_cancel' hn] at hrun

theorem and (h : Stable step ok P) (h' : Stable step ok P') : Stable step ok fun s => P s ∧ P' s :=
  fun s a hs ha => ⟨h s a hs.1 ha, h' s a hs.2 ha⟩

theorem mono (h : Stable step ok P) (hok : ∀ a, ok' a → ok a) : Stable step ok' P := fun s a hs ha =>
    h s a hs (hok a ha)

end Stable

def LeadsTo (step : σ → α → σ) (ok fair : α → Prop) (P Q : σ → Prop) : Prop :=
  ∀ (u : Schedule ok fair) s, P s → ∃ n, Q (u.run step s n)

namespace LeadsTo

variable {P P' Q Q' R : σ → Prop}

theorem trans (h : LeadsTo step ok fair P Q) (h' : LeadsTo step ok fair Q R) : LeadsTo step ok fair P R := by
  intro u s hs
  obtain ⟨n, hn⟩ := h u s hs
  obtain ⟨m, hm⟩ := h' (u.drop n fun m => u.ok (n + m)) _ hn
  exact ⟨n + m, u.run_drop n _ s m ▸ hm⟩

theorem mono (h : LeadsTo step ok fair P Q) (hP : ∀ s, P' s → P s) (hQ : ∀ s, Q s → Q' s) :
    LeadsTo step ok fair P' Q' := fun u s hs => (h u s (hP s hs)).imp fun _ => hQ _

/-- What no move leads out of still holds at the end. -/
theorem and_stable (h : LeadsTo step ok fair P Q) (hR : Stable step ok R) :
    LeadsTo step ok fair (fun s => P s ∧ R s) fun s => Q s ∧ R s := by
  intro u s hs
  obtain ⟨n, hn⟩ := h u s hs.1
  exact ⟨n, hn, hR.run u hs.2 n⟩

/-- A rank that every move keeps or lowers until `Q` is reached, and that the move `a₀` for it lowers. -/
theorem of_rank [PartialOrder β] [WellFoundedLT β] (a₀ : β → α) (ha₀ : ∀ n, fair (a₀ n)) {P : β → σ → Prop}
    (h : ∀ n s a, P n s → ok a → Q (step s a) ∨ ∃ n' ≤ n, P n' (step s a) ∧ (a = a₀ n → n' < n)) :
    LeadsTo step ok fair (fun s => ∃ n, P n s) Q := by
  rintro u s ⟨n, hs⟩
  induction n using WellFoundedLT.induction generalizing u s with
  | ind n ih =>
    obtain ⟨d, -, hd⟩ := u.fair (a₀ n) (ha₀ n) 0
    induction d generalizing u s with
    | zero =>
      rcases h n s (u.move 0) hs (u.ok 0) with hQ | ⟨n', -, hs', hlt⟩
      · exact ⟨1, hQ⟩
      · obtain ⟨k, hk⟩ := ih n' (hlt hd) (u.drop 1 fun m => u.ok (1 + m)) _ hs'
        exact ⟨1 + k, u.run_drop 1 _ s k ▸ hk⟩
    | succ d ihd =>
      rcases h n s (u.move 0) hs (u.ok 0) with hQ | ⟨n', hle, hs', -⟩
      · exact ⟨1, hQ⟩
      · -- the rank is lower, or the move is one closer
        have hnext : ∃ k, Q ((u.drop 1 fun m => u.ok (1 + m)).run step (u.run step s 1) k) := by
          rcases hle.lt_or_eq with hlt | rfl
          · exact ih n' hlt _ _ hs'
          · exact ihd _ _ hs' (by rw [← hd, Nat.add_comm]; rfl)
        obtain ⟨k, hk⟩ := hnext
        exact ⟨1 + k, u.run_drop 1 _ s k ▸ hk⟩

/-- Every move but `a₀` keeps `P`, and `a₀` leads from `P` to `Q`. -/
theorem of_move (a₀ : α) (ha₀ : fair a₀) (h : ∀ s a, P s → ok a → Q (step s a) ∨ P (step s a) ∧ a ≠ a₀) :
    LeadsTo step ok fair P Q := by
  have hrank : LeadsTo step ok fair (fun s => ∃ _ : Nat, P s) Q := by
    refine .of_rank (fun _ => a₀) (fun _ => ha₀) fun n s a hs ha => ?_
    rcases h s a hs ha with hQ | ⟨hP, hne⟩
    · exact .inl hQ
    · exact .inr ⟨n, le_rfl, hP, fun he => absurd he hne⟩
  exact hrank.mono (fun s hs => ⟨0, hs⟩) fun _ hs => hs

end LeadsTo
