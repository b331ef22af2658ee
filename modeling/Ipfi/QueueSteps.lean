import Ipfi.RoiQueue
import Ipfi.Lib.Reach
import Ipfi.Lib.Threads
import Mathlib.Data.Fin.VecNotation
import Mathlib.Data.Fintype.Card

/-!
# The reuse-or-increment queue step by step

`get` pops a relinquished identifier, and when it has found none it reads and increments the counter in a step of its
own.  In between other calls may draw and relinquish identifiers, and the counter comes round once all are drawn.  The
queue stays a supply because each get in progress has been left a draw.
-/

namespace Ipfi

variable {w : IntFeature}

/-- The methods of `roi_queue.rs`. -/
inductive QueueMethod (w : IntFeature)
  | get
  | relinquish (id : IpfiInteger w)

/-- Where a thread is in a method of the queue. -/
inductive QueuePlace (w : IntFeature)
  | begin
  /-- The pop has found nothing; before the counter is read and incremented. -/
  | fetchAdd
  | returned (id : IpfiInteger w)
  | finished
  deriving DecidableEq

/-- The steps of its own after which a get has returned. -/
def QueuePlace.stepsLeft : QueuePlace w → Nat
  | begin => 2
  | fetchAdd => 1
  | returned _ | finished => 0

/-- The queue with an account of what is issued and of what has been drawn from the counter. -/
structure QueueLedger (w : IntFeature) where
  queue : RoiQueue w
  issued : List (IpfiInteger w)
  drawn : List (IpfiInteger w)

namespace QueueMethod

/-- The next atomic step of a thread in the method. -/
def next (m : QueueMethod w) (a : QueuePlace w) (x : QueueLedger w) : QueuePlace w × QueueLedger w :=
  match m, a with
  | get, .begin =>
    match x.queue.relinquished with
    | id :: rest =>
      (.returned id, { x with queue := { x.queue with relinquished := rest }, issued := id :: x.issued })
    | [] => (.fetchAdd, x)
  | get, .fetchAdd =>
    let id := x.queue.counter
    (.returned id, ⟨{ x.queue with counter := id + 1 }, id :: x.issued, id :: x.drawn⟩)
  | relinquish id, .begin => (.finished, { x with queue := x.queue.relinquish id, issued := x.issued.erase id })
  | _, a => (a, x)

/-! ### Taken together -/

variable {m : QueueMethod w} {x : QueueLedger w}

/-- A get that nothing comes in between is `RoiQueue.get`. -/
theorem get_alone (x : QueueLedger w) :
    (get.next (get.next .begin x).1 (get.next .begin x).2).1 = .returned x.queue.get.1 ∧
      (get.next (get.next .begin x).1 (get.next .begin x).2).2.queue = x.queue.get.2 := by
  cases hq : x.queue.relinquished <;> simp [next, RoiQueue.get, hq]

theorem relinquish_alone (id : IpfiInteger w) (x : QueueLedger w) :
    ((relinquish id).next .begin x).2.queue = x.queue.relinquish id := rfl

/-- A get comes closer to its end, which is to return an identifier. -/
theorem get_next {a : QueuePlace w} (ha : a ≠ .finished) (x : QueueLedger w) :
    (get.next a x).1 ≠ .finished ∧ (get.next a x).1.stepsLeft ≤ a.stepsLeft - 1 := by
  cases a with
  | begin => cases hq : x.queue.relinquished <;> simp [next, hq, QueuePlace.stepsLeft]
  | fetchAdd => simp [next, QueuePlace.stepsLeft]
  | returned id => simp [next, QueuePlace.stepsLeft]
  | finished => exact absurd rfl ha

/-! ### Every single step -/

inductive Moves (m : QueueMethod w) (x : QueueLedger w) : QueuePlace w → QueuePlace w → QueueLedger w → Prop
  | popped (id : IpfiInteger w) (rest : List (IpfiInteger w)) : m = get → x.queue.relinquished = id :: rest →
      Moves m x .begin (.returned id)
        { x with queue := { x.queue with relinquished := rest }, issued := id :: x.issued }
  | missed : m = get → x.queue.relinquished = [] → Moves m x .begin .fetchAdd x
  | drew : m = get → Moves m x .fetchAdd (.returned x.queue.counter)
      ⟨{ x.queue with counter := x.queue.counter + 1 }, x.queue.counter :: x.issued, x.queue.counter :: x.drawn⟩
  | pushed (id : IpfiInteger w) : m = relinquish id →
      Moves m x .begin .finished { x with queue := x.queue.relinquish id, issued := x.issued.erase id }
  | stays (a : QueuePlace w) : Moves m x a a x

theorem next_moves (m : QueueMethod w) (a : QueuePlace w) (x : QueueLedger w) :
    m.Moves x a (m.next a x).1 (m.next a x).2 := by
  cases a with
  | begin =>
    cases m with
    | get =>
      cases hq : x.queue.relinquished with
      | nil =>
        have hn : get.next .begin x = (.fetchAdd, x) := by simp [next, hq]
        rw [hn]
        exact .missed rfl hq
      | cons id rest =>
        have hn : get.next .begin x = (.returned id,
            { x with queue := { x.queue with relinquished := rest }, issued := id :: x.issued }) := by simp [next, hq]
        rw [hn]
        exact .popped id rest rfl hq
    | relinquish id => exact .pushed id rfl
  | fetchAdd =>
    cases m with
    | get => exact .drew rfl
    | relinquish id => exact .stays _
  | returned id => cases m <;> exact .stays _
  | finished => cases m <;> exact .stays _

end QueueMethod

/-- Threads in methods of one queue. -/
abbrev QueueUsers (ι : Type) (w : IntFeature) : Type := Threads ι (QueueLedger w) (QueuePlace w)

namespace QueueUsers

variable {ι : Type} [DecidableEq ι] {methods : ι → QueueMethod w} {x : QueueUsers ι w} {t : ι}

/-- A new queue, and all threads before their first steps. -/
def start : QueueUsers ι w := ⟨⟨.new, [], []⟩, fun _ => .begin⟩

def step (methods : ι → QueueMethod w) (x : QueueUsers ι w) (t : ι) : QueueUsers ι w :=
  Threads.step (fun t a s => (methods t).next a s) x t

/-- The step of a thread is one of those of its method. -/
theorem step_moves (methods : ι → QueueMethod w) (x : QueueUsers ι w) (t : ι) :
    (methods t).Moves x.shared (x.place t) ((x.step methods t).place t) (x.step methods t).shared := by
  have hself : (x.step methods t).place t = ((methods t).next (x.place t) x.shared).1 := Threads.step_place_self ..
  rw [hself]
  exact QueueMethod.next_moves ..

theorem step_place_of_ne {t' : ι} (h : t' ≠ t) : (x.step methods t).place t' = x.place t' :=
  Threads.step_place_of_ne h

/-- The threads of `P` are in the middle of a get. -/
def InProgress (x : QueueUsers ι w) (P : Finset ι) : Prop := ∀ t ∈ P, x.place t = .fetchAdd

/-- The issued identifiers and the gets in progress are together at most `2 ^ w`. -/
def Fits (x : QueueUsers ι w) : Prop :=
  ∀ P : Finset ι, x.InProgress P → x.shared.issued.length + P.card ≤ 2 ^ w.bits

/-- Only issued identifiers are relinquished, and the issued ones and the gets in progress always fit. -/
def Allowed (methods : ι → QueueMethod w) (x : QueueUsers ι w) (t : ι) : Prop :=
  (∀ id, methods t = .relinquish id → x.place t = .begin → id ∈ x.shared.issued) ∧ (x.step methods t).Fits

/-- The queue is a supply of the issued identifiers, and there is a draw left for each get in progress. -/
structure Accounted (x : QueueUsers ι w) : Prop where
  counter : x.shared.queue.counter = BitVec.ofNat _ x.shared.drawn.length
  supply : Supply (BitVec.ofNat w.bits) x.shared.drawn.length x.shared.queue.relinquished (· ∈ x.shared.issued)
  issued : x.shared.issued.Nodup
  drawn : x.shared.drawn.Nodup
  mem_drawn : ∀ i, i ∈ x.shared.drawn ↔ ∃ k < x.shared.drawn.length, BitVec.ofNat w.bits k = i
  room : ∀ P, x.InProgress P → x.shared.drawn.length + P.card ≤ 2 ^ w.bits

omit [DecidableEq ι] in
theorem start_accounted : (start : QueueUsers ι w).Accounted where
  counter := rfl
  supply := (Supply.empty _).congr fun _ => by simp [start]
  issued := List.nodup_nil
  drawn := List.nodup_nil
  mem_drawn i := by simp [start]
  room P hP := by
    have hempty : P = ∅ := Finset.eq_empty_of_forall_notMem fun t ht => nomatch hP t ht
    simp [hempty, start]

omit [DecidableEq ι] in
/-- What is issued and what is queued is what has been drawn. -/
theorem Accounted.perm (h : x.Accounted) :
    (x.shared.issued ++ x.shared.queue.relinquished).Perm x.shared.drawn := by
  have hnodup : (x.shared.issued ++ x.shared.queue.relinquished).Nodup :=
    h.issued.append h.supply.nodup fun i hi hf => h.supply.disjoint i hf hi
  refine (List.perm_ext_iff_of_nodup hnodup h.drawn).2 fun i => ?_
  rw [List.mem_append, h.mem_drawn, h.supply.drawn]

omit [DecidableEq ι] in
/-- A get in progress will draw an identifier that is not issued. -/
theorem Accounted.fresh (h : x.Accounted) (ht : x.place t = .fetchAdd) :
    x.shared.queue.counter ∉ x.shared.drawn := by
  intro hmem
  rw [h.counter, h.mem_drawn] at hmem
  obtain ⟨k, hk, he⟩ := hmem
  have hroom : x.shared.drawn.length + 1 ≤ 2 ^ w.bits :=
    h.room {t} fun t' ht' => Finset.mem_singleton.1 ht' ▸ ht
  have := RoiQueue.ofNat_injOn hroom (Nat.lt_succ_of_lt hk) (Nat.lt_succ_self _) he
  omega

/-- The threads in progress after a step of `t`, apart from `t`, were so before. -/
private theorem InProgress.of_step {P : Finset ι} (hP : (x.step methods t).InProgress P) (ht : t ∉ P) :
    x.InProgress P := by
  intro t' ht'
  have hne : t' ≠ t := by rintro rfl; exact ht ht'
  exact (step_place_of_ne hne).symm.trans (hP t' ht')

theorem Accounted.step (h : x.Accounted) (ha : Allowed methods x t) : (x.step methods t).Accounted := by
  obtain ⟨hissued, hfits⟩ := ha
  have hkept : ∀ {P}, (x.step methods t).InProgress P → t ∉ P → x.InProgress P := InProgress.of_step
  have hother : ∀ t' ≠ t, (x.step methods t).place t' = x.place t' := fun t' ht' => step_place_of_ne ht'
  have hmoves := step_moves methods x t
  generalize x.step methods t = y at *
  -- a thread that has got past its get is not in progress
  have hout : ∀ {P}, y.InProgress P → y.place t ≠ .fetchAdd → t ∉ P := fun hP hne ht => hne (hP t ht)
  generalize hx : x.place t = a at hmoves hissued
  generalize hy : y.place t = a' at hmoves hout
  generalize hs : y.shared = s at hmoves
  cases hmoves with
  | popped id rest hm hq =>
    have hsup := hq ▸ h.supply
    refine ⟨hs ▸ h.counter, hs ▸ hsup.reuse.2.congr fun i => List.mem_cons.symm,
      hs ▸ List.nodup_cons.2 ⟨hsup.reuse.1, h.issued⟩, hs ▸ h.drawn, hs ▸ h.mem_drawn, fun P hP => ?_⟩
    rw [hs]
    exact h.room P (hkept hP (hout hP nofun))
  | missed hm hq =>
    refine ⟨hs ▸ h.counter, hs ▸ h.supply, hs ▸ h.issued, hs ▸ h.drawn, hs ▸ h.mem_drawn, fun P hP => ?_⟩
    -- with nothing queued, all that has been drawn is issued
    have hlen := h.perm.length_eq
    rw [hq, List.append_nil] at hlen
    rw [hs, ← hlen]
    exact hs ▸ hfits P hP
  | drew hm =>
    have hnew := h.fresh hx
    have hne : ∀ k < x.shared.drawn.length, BitVec.ofNat w.bits k ≠ BitVec.ofNat w.bits x.shared.drawn.length :=
      fun k hk he => hnew ((h.mem_drawn _).2 ⟨k, hk, he.trans h.counter.symm⟩)
    obtain ⟨hlive, hsup⟩ := h.supply.fresh hne
    rw [← h.counter] at hlive hsup
    refine ⟨?_, hs ▸ hsup.congr fun i => List.mem_cons.symm, hs ▸ List.nodup_cons.2 ⟨hlive, h.issued⟩,
      hs ▸ List.nodup_cons.2 ⟨hnew, h.drawn⟩, fun i => ?_, fun P hP => ?_⟩
    · rw [hs]
      exact h.counter ▸ BitVec.ofNat_add_ofNat _ 1
    · simp only [hs, List.mem_cons, List.length_cons, Nat.exists_lt_succ_right, h.mem_drawn, ← h.counter]
      rw [eq_comm, or_comm]
    · have ht := hout hP nofun
      have hP' : x.InProgress (insert t P) := fun t' ht' =>
        (Finset.mem_insert.1 ht').elim (fun he => he ▸ hx) (hkept hP ht t')
      have hroom := h.room _ hP'
      rw [Finset.card_insert_of_notMem ht] at hroom
      rw [hs, List.length_cons]
      omega
  | pushed id hm =>
    have hid := hissued id hm rfl
    refine ⟨hs ▸ h.counter, hs ▸ (h.supply.giveBack hid).congr fun i => ?_, hs ▸ h.issued.erase id, hs ▸ h.drawn,
      hs ▸ h.mem_drawn, fun P hP => ?_⟩
    · rw [h.issued.mem_erase_iff, and_comm]
    · rw [hs]
      exact h.room P (hkept hP (hout hP nofun))
  | stays a =>
    refine ⟨hs ▸ h.counter, hs ▸ h.supply, hs ▸ h.issued, hs ▸ h.drawn, hs ▸ h.mem_drawn, fun P hP => ?_⟩
    rw [hs]
    refine h.room P fun t' ht' => ?_
    by_cases he : t' = t
    · subst he; exact hx.trans (hy.symm.trans (hP _ ht'))
    · exact (hother t' he).symm.trans (hP t' ht')

private theorem step_place_get (hm : methods t = .get) (h : x.place t ≠ .finished) :
    (x.step methods t).place t ≠ .finished ∧
      ((x.step methods t).place t).stepsLeft ≤ (x.place t).stepsLeft - 1 := by
  have hself : (x.step methods t).place t = ((methods t).next (x.place t) x.shared).1 := Threads.step_place_self ..
  rw [hself, hm]
  exact QueueMethod.get_next h x.shared

/-- A get that is given its steps returns, whatever the other threads do in between. -/
private theorem get_returns (hm : methods t = .get) (h : x.place t ≠ .finished) (ts : List ι)
    (hcount : (x.place t).stepsLeft ≤ ts.count t) : ∃ id, (ts.foldl (step methods) x).place t = .returned id := by
  induction ts generalizing x with
  | nil =>
    show ∃ id, x.place t = .returned id
    cases hp : x.place t with
    | begin => rw [hp] at hcount; cases hcount
    | fetchAdd => rw [hp] at hcount; cases hcount
    | returned id => exact ⟨id, rfl⟩
    | finished => exact absurd hp h
  | cons t' ts ih =>
    by_cases ht : t' = t
    · subst ht
      obtain ⟨hplace, hcloser⟩ := step_place_get hm h
      rw [List.count_cons_self] at hcount
      exact ih hplace (by omega)
    · have hsame : (x.step methods t').place t = x.place t := step_place_of_ne (Ne.symm ht)
      rw [List.count_cons_of_ne ht] at hcount
      exact ih (hsame ▸ h) (hsame ▸ hcount)

private theorem get_ne_finished (hx : Reaches (step methods) (Allowed methods) start x) (hm : methods t = .get) :
    x.place t ≠ .finished := by
  refine hx.invariant (I := fun y => y.place t ≠ .finished) (fun h => by cases h) fun y t' h _ => ?_
  by_cases ht : t' = t
  · subst ht
    exact (step_place_get hm h).1
  · rw [step_place_of_ne (Ne.symm ht)]
    exact h

/-- In every interleaving a get returns an identifier that is not issued; the issued and the queued identifiers are
apart and without repetitions, and they are those that have been drawn.  A get that is given two steps does return. -/
theorem get_not_issued (hx : Reaches (step methods) (Allowed methods) start x) :
    x.shared.issued.Nodup ∧ x.shared.queue.relinquished.Nodup ∧
      x.shared.issued.Disjoint x.shared.queue.relinquished ∧
      (∀ id, id ∈ x.shared.drawn ↔ id ∈ x.shared.issued ∨ id ∈ x.shared.queue.relinquished) ∧
      (∀ t id, x.place t ≠ .returned id → (x.step methods t).place t = .returned id → id ∉ x.shared.issued) ∧
      ∀ t (ts : List ι), methods t = .get → 2 ≤ ts.count t →
        ∃ id, (ts.foldl (step methods) x).place t = .returned id := by
  have h : x.Accounted := hx.invariant start_accounted fun _ _ h ha => h.step ha
  refine ⟨h.issued, h.supply.nodup, fun id hi hf => h.supply.disjoint id hf hi, fun id => ?_, fun t id hne hret => ?_,
    fun t ts hm hcount => get_returns hm (get_ne_finished hx hm) ts (Nat.le_trans ?_ hcount)⟩
  · rw [h.mem_drawn, h.supply.drawn]
  · have hmoves := step_moves methods x t
    rw [hret] at hmoves
    generalize hp : x.place t = a at hmoves hne
    generalize (x.step methods t).shared = s at hmoves
    cases hmoves with
    | popped id rest hm hq => exact h.supply.disjoint id (hq ▸ List.mem_cons_self)
    | drew hm => exact fun hi => h.fresh hp ((h.mem_drawn _).2 ((h.supply.drawn _).1 (.inl hi)))
    | stays a => exact absurd rfl hne
  · cases x.place t <;> simp [QueuePlace.stepsLeft]

omit [DecidableEq ι] in
private theorem fits_of_card [Fintype ι] (h : x.shared.issued.length + Fintype.card ι ≤ 2 ^ w.bits) : x.Fits := by
  intro P _
  have := P.card_le_univ
  omega

/-- Two gets that begin with nothing queued, an identifier given back before the second one draws, and a third get. -/
private def overlapping : Fin 4 → QueueMethod .u8 := ![.get, .get, .relinquish 0, .get]

private theorem overlapping_reaches : Reaches (step overlapping) (Allowed overlapping) start
    ([0, 1, 0, 2].foldl (step overlapping) start) := by
  refine .next (.next (.next (.next .start ⟨nofun, ?_⟩) ⟨nofun, ?_⟩) ⟨nofun, ?_⟩) ⟨fun id hid _ => ?_, ?_⟩
  · exact fits_of_card (by decide)
  · exact fits_of_card (by decide)
  · exact fits_of_card (by decide)
  · cases hid
    decide
  · exact fits_of_card (by decide)

theorem get_not_issued_overlapping :
    (0 : IpfiInteger .u8) ∉ ([0, 1, 0, 2].foldl (step overlapping) start).shared.issued :=
  (get_not_issued overlapping_reaches).2.2.2.2.1 3 0 nofun (by decide)

end QueueUsers

end Ipfi
