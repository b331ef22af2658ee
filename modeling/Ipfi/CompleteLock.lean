import Ipfi.Interface
import Ipfi.Lib.Reach
import Ipfi.Lib.Threads

/-!
# Completion locks step by step

The two forms of `complete_lock.rs`.  A waiter is woken by the notifications that come after it has started to wait:
with a condition variable it does so before it releases the mutex, with a `Notify` only when it creates its future,
after it has released the mutex.
-/

namespace Ipfi

/-- `blocking/complete_lock.rs` and `async/complete_lock.rs`. -/
inductive LockForm
  | blocking | async

/-- What the clones of a lock share. -/
structure CompleteLock where
  state : CompleteLockState
  /-- How many notifications of all waiters there have been. -/
  notifications : Nat

inductive LockMethod
  | waitForCompletion | markComplete | poison

/-- Where a thread is in a method of the lock. -/
inductive LockPlace
  | begin
  /-- It has found the lock incomplete and has released the mutex, and has yet to create its `notified()` future. -/
  | createFuture
  /-- It waits for a notification after the first `n`. -/
  | parked (n : Nat)
  /-- The lock is marked, and the waiters are yet to be notified. -/
  | notify
  | returned (state : CompleteLockState)
  | finished

namespace LockMethod

/-- The critical section of a waiter. -/
def check (form : LockForm) (x : CompleteLock) : LockPlace :=
  if x.state ≠ .incomplete then .returned x.state
  else
    match form with
    | .blocking => .parked x.notifications
    | .async => .createFuture

/-- The place and the lock after the next atomic step of a thread; a thread with no notification to wake it stays
parked. -/
def next (form : LockForm) (m : LockMethod) (a : LockPlace) (x : CompleteLock) : LockPlace × CompleteLock :=
  match m, a with
  | waitForCompletion, .begin => (check form x, x)
  | waitForCompletion, .createFuture => (.parked x.notifications, x)
  | waitForCompletion, .parked n => (if n = x.notifications then .parked n else check form x, x)
  | markComplete, .begin => (.notify, { x with state := .complete })
  | markComplete, .notify => (.finished, { x with notifications := x.notifications + 1 })
  | poison, .begin =>
    (.finished, if x.state = .incomplete then ⟨.poisoned, x.notifications + 1⟩ else x)
  | _, a => (a, x)

/-! ### Taken together -/

variable {w : IntFeature} (form : LockForm) (i : Interface w) (l : LockRef) (n : Nat)

theorem markComplete_locks :
    ((next form markComplete .notify (next form markComplete .begin ⟨i.locks l, n⟩).2).2).state =
      (i.markComplete l).locks l := by
  simp [next, Interface.markComplete]

theorem poison_locks : (next form poison .begin ⟨i.locks l, n⟩).2.state = (i.poison l).locks l := by
  by_cases h : i.locks l = .incomplete <;> simp [next, Interface.poison, h]

theorem waitForCompletion_run (st : CompleteLockState) :
    (Interface.waitForCompletion l : Op (Error w) _ _).run i = .ok st i ↔
      (next form waitForCompletion .begin ⟨i.locks l, n⟩).1 = .returned st := by
  by_cases h : i.locks l = .incomplete
  · cases form <;> simp [Interface.waitForCompletion, next, check, h]
  · simp [Interface.waitForCompletion, next, check, h]

end LockMethod

/-- Threads in methods of one lock. -/
abbrev LockUsers (ι : Type) : Type := Threads ι CompleteLock LockPlace

namespace LockUsers

variable {ι : Type} [DecidableEq ι] {form : LockForm} {methods : ι → LockMethod} {x : LockUsers ι} {t : ι}

def start : LockUsers ι := ⟨⟨.incomplete, 0⟩, fun _ => .begin⟩

def step (form : LockForm) (methods : ι → LockMethod) (x : LockUsers ι) (t : ι) : LockUsers ι :=
  Threads.step (fun t a s => (methods t).next form a s) x t

/-- A call of `mark_complete` has its notification yet to come. -/
def NotificationComes (methods : ι → LockMethod) (x : LockUsers ι) : Prop :=
  ∃ t, methods t = .markComplete ∧ x.place t ≠ .finished

/-- In the async form a future is created only while there is a notification to come for it. -/
def CreatesInTime (form : LockForm) (methods : ι → LockMethod) (x : LockUsers ι) (t : ι) : Prop :=
  form = .async → x.place t = .createFuture → x.shared.state = .incomplete ∨ x.NotificationComes methods

/-- A waiter that waits for a notification after all there have been. -/
def Waits (x : LockUsers ι) (t : ι) : Prop := x.place t = .parked x.shared.notifications

/-- Whoever waits will be notified if the lock has been marked. -/
structure Attended (form : LockForm) (methods : ι → LockMethod) (x : LockUsers ι) : Prop where
  le : ∀ {t n}, x.place t = .parked n → n ≤ x.shared.notifications
  attended : ∀ {t}, x.Waits t → x.shared.state = .incomplete ∨ x.NotificationComes methods
  returned : ∀ {t st}, x.place t = .returned st → st ≠ .incomplete
  blocking : ∀ {t}, form = .blocking → x.place t ≠ .createFuture

/-- A step of a waiter, which changes nothing but its own place. -/
private theorem Attended.wait {a : LockPlace} (h : x.Attended form methods) (hm : methods t = .waitForCompletion)
    (ha : ∀ n, a = .parked n → n = x.shared.notifications ∧
      (x.shared.state = .incomplete ∨ x.NotificationComes methods) ∨ x.place t = .parked n)
    (hret : ∀ st, a = .returned st → st ≠ .incomplete ∨ x.place t = .returned st)
    (hcreate : form = .blocking → a ≠ .createFuture) :
    Attended form methods ⟨x.shared, Function.update x.place t a⟩ := by
  -- a waiter is not the one that notifies
  have hcomes : x.NotificationComes methods →
      NotificationComes methods (⟨x.shared, Function.update x.place t a⟩ : LockUsers ι) := by
    rintro ⟨t', hm', hp⟩
    have hne : t' ≠ t := by
      rintro rfl
      cases hm.symm.trans hm'
    exact ⟨t', hm', by simpa only [Function.update_of_ne hne] using hp⟩
  have hplace : ∀ t', Function.update x.place t a t' = if t' = t then a else x.place t' := fun t' =>
    Function.update_apply ..
  constructor
  · intro t' n hp
    replace hp := (hplace t').symm.trans hp
    split at hp
    · rcases ha n hp with ⟨rfl, -⟩ | hp
      · exact Nat.le_refl _
      · exact h.le hp
    · exact h.le hp
  · intro t' hp
    replace hp := (hplace t').symm.trans hp
    have hold : x.shared.state = .incomplete ∨ x.NotificationComes methods := by
      split at hp
      · rcases ha _ hp with ⟨-, hold⟩ | hp
        · exact hold
        · exact h.attended hp
      · exact h.attended hp
    exact hold.imp_right hcomes
  · intro t' st hp
    replace hp := (hplace t').symm.trans hp
    split at hp
    · exact (hret st hp).elim id h.returned
    · exact h.returned hp
  · intro t' hf hp
    replace hp := (hplace t').symm.trans hp
    split at hp
    · exact hcreate hf hp
    · exact h.blocking hf hp

/-- A step of a marker. -/
private theorem Attended.mark {a : LockPlace} {y : CompleteLock} (h : x.Attended form methods)
    (ha : a = .notify ∨ a = .finished) (hle : x.shared.notifications ≤ y.notifications)
    (hatt : ∀ t', x.place t' = .parked y.notifications → y.state = .incomplete ∨
      NotificationComes methods (⟨y, Function.update x.place t a⟩ : LockUsers ι)) :
    Attended form methods ⟨y, Function.update x.place t a⟩ := by
  have hplace {t' b} (hp : Function.update x.place t a t' = b) (hb : a ≠ b) : x.place t' = b := by
    rw [Function.update_apply] at hp
    split at hp
    · exact absurd hp hb
    · exact hp
  constructor
  · intro t' n hp
    exact (h.le (hplace hp (by rcases ha with rfl | rfl <;> simp))).trans hle
  · intro t' hp
    exact hatt t' (hplace hp (by rcases ha with rfl | rfl <;> simp))
  · intro t' st hp
    exact h.returned (hplace hp (by rcases ha with rfl | rfl <;> simp))
  · intro t' hf hp
    exact h.blocking hf (hplace hp (by rcases ha with rfl | rfl <;> simp))

/-- A marker that notifies leaves nobody waiting. -/
private theorem Attended.notified (h : x.Attended form methods) (st : CompleteLockState) :
    Attended form methods ⟨⟨st, x.shared.notifications + 1⟩, Function.update x.place t .finished⟩ :=
  h.mark (.inr rfl) (Nat.le_succ _) fun _ hp => absurd (h.le hp) (Nat.not_succ_le_self _)

private theorem check_cases (form : LockForm) (y : CompleteLock) :
    y.state ≠ .incomplete ∧ LockMethod.check form y = .returned y.state ∨
    y.state = .incomplete ∧ form = .blocking ∧ LockMethod.check form y = .parked y.notifications ∨
    y.state = .incomplete ∧ form = .async ∧ LockMethod.check form y = .createFuture := by
  by_cases h : y.state = .incomplete
  · cases form <;> simp [LockMethod.check, h]
  · simp [LockMethod.check, h]

/-- The critical section of a waiter. -/
private theorem Attended.checked (h : x.Attended form methods) (hm : methods t = .waitForCompletion) :
    Attended form methods ⟨x.shared, Function.update x.place t (LockMethod.check form x.shared)⟩ := by
  rcases check_cases form x.shared with ⟨hst, hc⟩ | ⟨hst, hf, hc⟩ | ⟨hst, hf, hc⟩ <;> rw [hc]
  · exact h.wait hm (fun n hn => by cases hn) (fun st heq => .inl (LockPlace.returned.inj heq ▸ hst))
      fun _ heq => by cases heq
  · exact h.wait hm (fun n hn => .inl ⟨(LockPlace.parked.inj hn).symm, .inl hst⟩) (fun st heq => by cases heq)
      fun _ heq => by cases heq
  · exact h.wait hm (fun n hn => by cases hn) (fun st heq => by cases heq) fun hb => by
      rw [hf] at hb
      cases hb

theorem Attended.step (h : x.Attended form methods) (hc : x.CreatesInTime form methods t) :
    (x.step form methods t).Attended form methods := by
  have hself : Attended form methods ⟨x.shared, Function.update x.place t (x.place t)⟩ := by
    rw [Function.update_eq_self]
    exact h
  have hstep : x.step form methods t = ⟨((methods t).next form (x.place t) x.shared).2,
    Function.update x.place t ((methods t).next form (x.place t) x.shared).1⟩ := rfl
  rw [hstep]
  cases hm : methods t with
  | waitForCompletion =>
    cases hp : x.place t with
    | begin => exact h.checked hm
    | createFuture =>
      -- a blocking waiter is never about to create a future
      have hasync : form = .async := by
        cases form with
        | blocking => exact absurd hp (h.blocking rfl)
        | async => rfl
      exact h.wait hm (fun n hn => .inl ⟨(LockPlace.parked.inj hn).symm, hc hasync hp⟩) (fun _ heq => by cases heq)
        fun _ heq => by cases heq
    | parked n =>
      by_cases hn : n = x.shared.notifications
      · simp only [LockMethod.next, if_pos hn]
        rwa [hp] at hself
      · simp only [LockMethod.next, if_neg hn]
        exact h.checked hm
    | notify | returned | finished => rwa [hp] at hself
  | markComplete =>
    cases hp : x.place t with
    | begin =>
      -- the thread itself is now the one that will notify
      refine h.mark (.inl rfl) (Nat.le_refl _) fun _ _ => .inr ⟨t, hm, ?_⟩
      show Function.update x.place t .notify t ≠ _
      rw [Function.update_self]
      simp
    | notify => exact h.notified _
    | createFuture | parked | returned | finished => rwa [hp] at hself
  | poison =>
    cases hp : x.place t with
    | begin =>
      by_cases hst : x.shared.state = .incomplete
      · simp only [LockMethod.next, if_pos hst]
        exact h.notified _
      · simp only [LockMethod.next, if_neg hst]
        refine h.mark (.inr rfl) (Nat.le_refl _) fun t' hp' => .inr ?_
        -- the lock has been marked already, and whoever has marked it will notify
        obtain ⟨u, hu, hpu⟩ := (h.attended hp').resolve_left hst
        have hne : u ≠ t := by
          rintro rfl
          cases hu.symm.trans hm
        exact ⟨u, hu, by simpa only [Function.update_of_ne hne] using hpu⟩
    | createFuture | parked | notify | returned | finished => rwa [hp] at hself

/-- Once all markers have finished and the lock is marked, nobody waits without a notification to wake him, and whoever
returns has seen the lock marked. -/
theorem not_waits_of_finished (hx : Reaches (step form methods) (CreatesInTime form methods) start x) :
    ((∀ t, methods t ≠ .waitForCompletion → x.place t = .finished) → x.shared.state ≠ .incomplete → ∀ t, ¬ x.Waits t) ∧
    ∀ t st, x.place t = .returned st → st = .complete ∨ st = .poisoned := by
  have hstart : Attended form methods (start : LockUsers ι) := by
    constructor
    · intro t n hp; cases hp
    · intro t hp; cases hp
    · intro t st hp; cases hp
    · intro t _ hp; cases hp
  have hatt : x.Attended form methods := hx.invariant hstart fun x t h hc => h.step hc
  refine ⟨fun hall hst t hw => ?_, fun t st hp => ?_⟩
  · obtain ⟨u, hu, hp⟩ := (hatt.attended hw).resolve_left hst
    exact hp (hall u (by rw [hu]; simp))
  · have := hatt.returned hp
    cases st <;> simp_all

/-- One waiter and one call of `mark_complete`. -/
private def waiterAndMarker (t : Bool) : LockMethod := if t then .markComplete else .waitForCompletion

/-- The waiter has created its future by the time the lock is marked. -/
private def createdFirst : LockUsers Bool :=
  [false, false, true, true].foldl (step .async waiterAndMarker) start

private theorem createdFirst_reaches :
    Reaches (step .async waiterAndMarker) (CreatesInTime .async waiterAndMarker) start createdFirst := by
  have hchecked : Reaches (step .async waiterAndMarker) (CreatesInTime .async waiterAndMarker) start _ :=
    .next (a := false) .start nofun
  have hcreated : Reaches (step .async waiterAndMarker) (CreatesInTime .async waiterAndMarker) start _ :=
    hchecked.next (a := false) fun _ _ => .inl rfl
  exact (hcreated.next (a := true) nofun).next (a := true) nofun

theorem not_waits_of_finished_created : ¬ createdFirst.Waits false :=
  (not_waits_of_finished createdFirst_reaches).1 (fun t ht => by cases t <;> [exact absurd rfl ht; rfl])
  (by decide) false

/-- In the async form, the waiter creates its future after the notification. -/
theorem not_not_waits_of_finished_late :
    ¬ ∀ x : LockUsers Bool, Reaches (step .async waiterAndMarker) (fun _ _ => True) start x →
      (∀ t, waiterAndMarker t ≠ .waitForCompletion → x.place t = .finished) → x.shared.state ≠ .incomplete →
        ∀ t, ¬ x.Waits t := by
  intro h
  have hrun : Reaches (step .async waiterAndMarker) (fun _ _ => True) start _ :=
    Reaches.start.foldl [false, true, true, false] fun _ _ _ => trivial
  exact h _ hrun (fun t ht => by cases t <;> [exact absurd rfl ht; rfl]) (by decide) false rfl

end LockUsers

end Ipfi
