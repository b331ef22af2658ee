import Ipfi.QueueSteps

/-!
# How far the counter of a reuse-or-increment queue goes

The counter is only incremented by a get that has found nothing to reuse, and then everything drawn before was issued or
about to be.  So however calls overlap, the identifiers handed out are numbered below the largest number that was ever
issued or being issued at one time, and no fewer are drawn than were ever issued at one time.
-/

namespace Ipfi

variable {w : IntFeature}

namespace QueueUsers

variable {ι : Type} {methods : ι → QueueMethod w} {x y : QueueUsers ι w} {t : ι} {N : Nat}

/-- At most `N` identifiers are issued or being issued. -/
def Within (N : Nat) (x : QueueUsers ι w) : Prop :=
  ∀ P : Finset ι, x.InProgress P → x.shared.issued.length + P.card ≤ N

/-- Each get in progress can still draw from the first `N`. -/
def DrawsWithin (N : Nat) (x : QueueUsers ι w) : Prop :=
  ∀ P : Finset ι, x.InProgress P → x.shared.drawn.length + P.card ≤ N

variable [DecidableEq ι]

/-- An allowed step after which at most `N` identifiers are issued or being issued. -/
def AllowedWithin (N : Nat) (methods : ι → QueueMethod w) (x : QueueUsers ι w) (t : ι) : Prop :=
  Allowed methods x t ∧ (x.step methods t).Within N

omit [DecidableEq ι] in
theorem start_drawsWithin (N : Nat) : (start : QueueUsers ι w).DrawsWithin N := by
  intro P hP
  have hempty : P = ∅ := Finset.eq_empty_of_forall_notMem fun t ht => nomatch hP t ht
  simp [hempty, start]

/-! ### Steps -/

theorem DrawsWithin.step (h : x.DrawsWithin N) (hacc : x.Accounted) (hwithin : (x.step methods t).Within N) :
    (x.step methods t).DrawsWithin N := by
  intro P hP
  have hmoves := step_moves methods x t
  have hothers : ∀ t' ∈ P, t' ≠ t → x.place t' = .fetchAdd := fun t' ht' hne =>
    (step_place_of_ne hne).symm.trans (hP t' ht')
  generalize x.step methods t = y at *
  -- a thread that has got past its get is not in progress, and the others were before
  have hout : y.place t ≠ .fetchAdd → t ∉ P ∧ x.InProgress P := by
    intro hne
    have ht : t ∉ P := fun ht => hne (hP t ht)
    exact ⟨ht, fun t' ht' => hothers t' ht' fun he => ht (he ▸ ht')⟩
  generalize hx : x.place t = a at hmoves
  generalize hy : y.place t = a' at hmoves hout
  generalize hs : y.shared = s at hmoves
  cases hmoves with
  | popped id rest hm hq => exact h P (hout nofun).2
  | missed hm hq =>
    -- with nothing queued, all that has been drawn is issued
    have hlen := hacc.perm.length_eq
    rw [hq, List.append_nil] at hlen
    have hle := hwithin P hP
    rw [hs] at hle
    omega
  | drew hm =>
    obtain ⟨ht, hbefore⟩ := hout nofun
    have hroom := h (insert t P) fun t' ht' => (Finset.mem_insert.1 ht').elim (fun he => he ▸ hx) (hbefore t')
    rw [Finset.card_insert_of_notMem ht] at hroom
    rw [List.length_cons]
    omega
  | pushed id hm => exact h P (hout nofun).2
  | stays a =>
    refine h P fun t' ht' => ?_
    by_cases he : t' = t
    · subst he; exact hx.trans (hy.symm.trans (hP _ ht'))
    · exact hothers t' ht' he

/-- What has been drawn stays drawn. -/
theorem step_drawn_suffix : x.shared.drawn <:+ (x.step methods t).shared.drawn := by
  have hmoves := step_moves methods x t
  generalize (x.step methods t).shared = s at hmoves
  generalize x.place t = a at hmoves
  generalize (x.step methods t).place t = a' at hmoves
  cases hmoves with
  | drew hm => exact List.suffix_cons ..
  | popped | missed | pushed | stays => exact List.suffix_refl _

theorem step_returned {id : IpfiInteger w} (hacc : (x.step methods t).Accounted)
    (h : ∀ t id, x.place t = .returned id → id ∈ x.shared.drawn) {t' : ι}
    (ht' : (x.step methods t).place t' = .returned id) : id ∈ (x.step methods t).shared.drawn := by
  by_cases he : t' = t
  · subst he
    have hmoves := step_moves methods x t'
    have hissued : id ∈ (x.step methods t').shared.issued → id ∈ (x.step methods t').shared.drawn := fun hi =>
      hacc.perm.subset (List.mem_append_left _ hi)
    rw [ht'] at hmoves
    generalize (x.step methods t').shared = s at hmoves hissued ⊢
    generalize hx : x.place t' = a at hmoves
    cases hmoves with
    | popped id rest hm hq => exact hissued List.mem_cons_self
    | drew hm => exact List.mem_cons_self
    | stays => exact h _ _ hx
  · rw [step_place_of_ne he] at ht'
    exact step_drawn_suffix.subset (h _ _ ht')

/-! ### Runs -/

/-- What a run keeps that never has more than `N` identifiers issued or being issued. -/
private structure Peaked (N : Nat) (x : QueueUsers ι w) : Prop where
  accounted : x.Accounted
  draws : x.DrawsWithin N
  returned : ∀ t id, x.place t = .returned id → id ∈ x.shared.drawn

private theorem Peaked.step (h : Peaked N x) (ha : AllowedWithin N methods x t) : Peaked N (x.step methods t) where
  accounted := h.accounted.step ha.1
  draws := h.draws.step h.accounted ha.2
  returned _ _ := step_returned (h.accounted.step ha.1) h.returned

private theorem peaked (hx : Reaches (step methods) (AllowedWithin N methods) start x) : Peaked N x :=
  hx.invariant ⟨start_accounted, start_drawsWithin N, nofun⟩ fun _ _ h ha => h.step ha

theorem reaches_drawn_suffix {ok : QueueUsers ι w → ι → Prop} (hx : Reaches (step methods) ok y x) :
    y.shared.drawn <:+ x.shared.drawn :=
  hx.invariant (I := fun x => y.shared.drawn <:+ x.shared.drawn) (List.suffix_refl _)
    fun _ _ h _ => h.trans step_drawn_suffix

/-- In every interleaving the identifiers drawn are those below a number that lies between the most that were issued at
one time and the most that were issued or being issued at one time; and none but these are ever handed out. -/
theorem drawn_below_peak (hx : Reaches (step methods) (AllowedWithin N methods) start x) :
    ∃ n ≤ N, (∀ id, id ∈ x.shared.drawn ↔ id.toNat < n) ∧ (∀ t id, x.place t = .returned id → id.toNat < n) ∧
      ∀ y, Reaches (step methods) (AllowedWithin N methods) start y →
        Reaches (step methods) (AllowedWithin N methods) y x → y.shared.issued.length ≤ n := by
  have h := peaked hx
  have hroom : x.shared.drawn.length ≤ 2 ^ w.bits := by
    simpa using h.accounted.room ∅ fun t ht => absurd ht (Finset.notMem_empty t)
  have hmem : ∀ id, id ∈ x.shared.drawn ↔ id.toNat < x.shared.drawn.length := by
    intro id
    rw [h.accounted.mem_drawn]
    constructor
    · rintro ⟨k, hk, rfl⟩
      rwa [BitVec.toNat_ofNat, Nat.mod_eq_of_lt (hk.trans_le hroom)]
    · exact fun hid => ⟨_, hid, BitVec.ofNat_toNat .. ▸ BitVec.setWidth_eq id⟩
  refine ⟨_, ?_, hmem, fun t id ht => (hmem id).1 (h.returned t id ht), fun y hy hyx => ?_⟩
  · simpa using h.draws ∅ fun t ht => absurd ht (Finset.notMem_empty t)
  · calc y.shared.issued.length ≤ (y.shared.issued ++ y.shared.queue.relinquished).length := by simp
      _ = y.shared.drawn.length := (peaked hy).accounted.perm.length_eq
      _ ≤ x.shared.drawn.length := (reaches_drawn_suffix hyx).length_le

omit [DecidableEq ι] in
private theorem within_of_card [Fintype ι]
    (h : x.shared.issued.length + (Finset.univ.filter fun t => x.place t = .fetchAdd).card ≤ N) : x.Within N := by
  intro P hP
  have hcard := Finset.card_le_card (s := P) fun t ht => Finset.mem_filter.2 ⟨Finset.mem_univ t, hP t ht⟩
  omega

/-- A get, the identifier given back, and another get, twice in a row. -/
private def renewing : Fin 4 → QueueMethod .u16 := ![.get, .relinquish 0, .get, .relinquish 0]

private theorem renewing_reaches : Reaches (step renewing) (AllowedWithin 1 renewing) start
    ([0, 0, 1, 2].foldl (step renewing) start) := by
  have hok : ∀ {x : QueueUsers (Fin 4) .u16} {t}, (∀ id, renewing t = .relinquish id → x.place t = .begin →
      id ∈ x.shared.issued) → (x.step renewing t).Within 1 → AllowedWithin 1 renewing x t :=
    fun hid hw => ⟨⟨hid, fun P hP => (hw P hP).trans (by decide)⟩, hw⟩
  refine .next (.next (.next (.next .start (hok nofun ?_)) (hok nofun ?_)) (hok ?_ ?_)) (hok nofun ?_)
  · exact within_of_card (by decide)
  · exact within_of_card (by decide)
  · intro id hid _
    cases hid
    decide
  · exact within_of_card (by decide)
  · exact within_of_card (by decide)

theorem drawn_below_peak_renewing :
    ∃ n ≤ 1, ∀ t id, ([0, 0, 1, 2].foldl (step renewing) start).place t = .returned id → id.toNat < n := by
  obtain ⟨n, hn, -, hret, -⟩ := drawn_below_peak renewing_reaches
  exact ⟨n, hn, hret⟩

end QueueUsers

end Ipfi
