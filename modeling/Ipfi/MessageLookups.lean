import Ipfi.MessageSteps
import Ipfi.Lib.Reach

/-!
# The lookups after waiting

A method that has waited for a message looks it up again, and takes for granted that it is still there.  It is as long
as nobody removes a message that another thread has been told of.
-/

namespace Ipfi

variable {w : IntFeature}

/-- The thread has been told that the message is there, and looks it up next. -/
def MessagePlace.Expects (s : MessageEntry) : MessagePlace w → Prop
  | .waitCreation l => s.creationLocks l = .complete
  | .waitCompletion l => s.locks l = .complete
  | .removeLock | .created | .completed | .popUnwrap => True
  | _ => False

/-- The thread waits on the creation lock, or is about to remove it. -/
def MessagePlace.Watches (l : LockRef) (a : MessagePlace w) : Prop := a = .waitCreation l ∨ a = .removeLock

/-- The thread has the identifier to itself: it has been given it, or has removed its message. -/
def MessagePlace.Holds : MessagePlace w → Prop
  | .insert | .relinquish _ => True
  | _ => False

namespace MessageUsers

variable {ι : Type} [DecidableEq ι] {id : IpfiInteger w} {methods : ι → MessageMethod} {x : MessageUsers ι w} {t : ι}
  {a : MessagePlace w} {s : MessageEntry}

/-- The next step of the thread removes the message. -/
def Removes (methods : ι → MessageMethod) (x : MessageUsers ι w) (t : ι) : Prop :=
  x.shared.message.isSome ∧
    (x.place t = .popUnwrap ∨ x.place t = .popStreamed ∨ x.place t = .begin ∧ methods t = .pop)

/-- Nobody removes a message that another thread expects, and a push marks a creation lock only while its message is
there. -/
def KeepsMessage (methods : ι → MessageMethod) (x : MessageUsers ι w) (t : ι) : Prop :=
  (x.Removes methods t → ∀ t' ≠ t, ¬ (x.place t').Expects x.shared) ∧
    ∀ l, x.place t = .mark l → x.shared.message.isSome

/-- Every thread that expects the message finds it. -/
structure Present (methods : ι → MessageMethod) (x : MessageUsers ι w) : Prop where
  expects : ∀ t, (x.place t).Expects x.shared → x.shared.message.isSome
  stands : ∀ l, x.shared.creationLock = some l → x.shared.creationLocks l = .complete → x.shared.message.isSome
  watched : ∀ l, x.shared.creationLock = some l → ∃ t, (x.place t).Watches l
  unpoisoned : ∀ l, x.shared.creationLocks l ≠ .poisoned
  reads : ∀ t, (methods t).reads → x.place t ≠ .failed .panicked

private theorem watched_update {l : LockRef} (h : ∃ t, (x.place t).Watches l) (ht : ¬ (x.place t).Watches l) :
    ∃ t', (Function.update x.place t a t').Watches l := by
  obtain ⟨t', hw⟩ := h
  have hne : t' ≠ t := by
    rintro rfl
    exact ht hw
  exact ⟨t', by rwa [Function.update_of_ne hne]⟩

/-- A step that leaves the message and the locks alone. -/
private theorem Present.same (h : x.Present methods) (hmsg : s.message = x.shared.message)
    (hlock : s.creationLock = x.shared.creationLock) (hcreation : s.creationLocks = x.shared.creationLocks)
    (hlocks : s.locks = x.shared.locks) (hw : ∀ l, ¬ (x.place t).Watches l)
    (ha : a.Expects x.shared → x.shared.message.isSome) (hr : (methods t).reads → a ≠ .failed .panicked) :
    Present methods ⟨s, Function.update x.place t a⟩ := by
  have hexpects (b : MessagePlace w) : b.Expects s ↔ b.Expects x.shared := by
    cases b <;> simp only [MessagePlace.Expects, hcreation, hlocks]
  constructor
  · refine (Function.forall_update_iff x.place fun _ b => b.Expects s → s.message.isSome).2 ⟨?_, fun t' _ => ?_⟩
    · rw [hexpects, hmsg]
      exact ha
    · rw [hexpects, hmsg]
      exact h.expects t'
  · intro l hl hst
    rw [hmsg]
    exact h.stands l (hlock.symm.trans hl) (by rwa [hcreation] at hst)
  · intro l hl
    exact watched_update (h.watched l (hlock.symm.trans hl)) (hw l)
  · intro l
    rw [hcreation]
    exact h.unpoisoned l
  · exact (Function.forall_update_iff x.place fun t' b => (methods t').reads → b ≠ .failed .panicked).2
      ⟨hr, fun t' _ => h.reads t'⟩

private theorem reads_update (h : x.Present methods) (hr : (methods t).reads → a ≠ .failed .panicked) (t' : ι) :
    (methods t').reads → Function.update x.place t a t' ≠ .failed .panicked :=
  (Function.forall_update_iff x.place fun t' b => (methods t').reads → b ≠ .failed .panicked).2
    ⟨hr, fun t' _ => h.reads t'⟩ t'

/-- A step after which the message is there, and which leaves the creation lock alone. -/
private theorem Present.there (h : x.Present methods) (hmsg : s.message.isSome)
    (hlock : s.creationLock = x.shared.creationLock) (hpois : ∀ l, s.creationLocks l ≠ .poisoned)
    (hw : ∀ l, ¬ (x.place t).Watches l) (hr : (methods t).reads → a ≠ .failed .panicked) :
    Present methods ⟨s, Function.update x.place t a⟩ where
  expects _ _ := hmsg
  stands _ _ _ := hmsg
  watched l hl := watched_update (h.watched l (hlock.symm.trans hl)) (hw l)
  unpoisoned := hpois
  reads := reads_update h hr

/-- A waiter leaves a creation lock. -/
private theorem Present.insertedLock (h : x.Present methods) :
    Present methods
      ⟨x.shared.insertCreationLock.2, Function.update x.place t (.waitCreation x.shared.creationCount)⟩ := by
  have hold {l} (hst : x.shared.insertCreationLock.2.creationLocks l = .complete) :
      x.shared.creationLocks l = .complete := by
    simp only [MessageEntry.insertCreationLock, Function.update_apply] at hst
    split at hst
    · cases hst
    · exact hst
  constructor
  · refine (Function.forall_update_iff x.place
      fun _ b => b.Expects x.shared.insertCreationLock.2 → x.shared.message.isSome).2 ⟨fun he => ?_, fun t' _ he => ?_⟩
    · simp [MessagePlace.Expects, MessageEntry.insertCreationLock] at he
    · apply h.expects t'
      cases hp : x.place t' <;> rw [hp] at he <;> first | exact he | exact hold he
  · intro l hl hst
    obtain rfl : x.shared.creationCount = l := Option.some.inj hl
    simp [MessageEntry.insertCreationLock] at hst
  · intro l hl
    obtain rfl : x.shared.creationCount = l := Option.some.inj hl
    exact ⟨t, .inl (Function.update_self ..)⟩
  · intro l
    simp only [MessageEntry.insertCreationLock, Function.update_apply]
    split
    · simp
    · exact h.unpoisoned l
  · exact reads_update h fun _ => by simp

/-- A waiter is told that the message has been created. -/
private theorem Present.creationDone {l : LockRef} (h : x.Present methods) (hp : x.place t = .waitCreation l)
    (hl : x.shared.creationLocks l = .complete) :
    Present methods ⟨x.shared, Function.update x.place t .removeLock⟩ := by
  have hmsg : x.shared.message.isSome := h.expects t (by rw [hp]; exact hl)
  exact ⟨fun _ _ => hmsg, fun _ _ _ => hmsg, fun _ _ => ⟨t, .inr (Function.update_self ..)⟩, h.unpoisoned,
    reads_update h fun _ => by simp⟩

private theorem Present.removedLock (h : x.Present methods) (hp : x.place t = .removeLock) :
    Present methods ⟨{ x.shared with creationLock := none }, Function.update x.place t .created⟩ := by
  have hmsg : x.shared.message.isSome := h.expects t (by rw [hp]; trivial)
  exact ⟨fun _ _ => hmsg, fun _ _ _ => hmsg, (fun l hl => by cases hl), h.unpoisoned, reads_update h fun _ => by simp⟩

/-- A step that removes the message, which no other thread expects. -/
private theorem Present.removed {msg : MessageBuffer} (h : x.Present methods)
    (ht : ∀ t' ≠ t, ¬ (x.place t').Expects x.shared) (hw : ∀ l, ¬ (x.place t).Watches l) :
    Present methods ⟨{ x.shared with message := none, chans := Interface.closeSender x.shared.chans msg.sender },
      Function.update x.place t (.relinquish msg)⟩ := by
  constructor
  · refine (Function.forall_update_iff x.place fun _ b => b.Expects _ → _).2 ⟨False.elim, fun t' hne he => ?_⟩
    exact absurd he (ht t' hne)
  · intro l hl hst
    -- whoever watches the creation lock expects the message
    obtain ⟨t', hw'⟩ := h.watched l hl
    have hne : t' ≠ t := by
      rintro rfl
      exact hw l hw'
    refine absurd ?_ (ht t' hne)
    rcases hw' with hp | hp <;> rw [hp]
    · exact hst
    · trivial
  · intro l hl
    exact watched_update (h.watched l hl) (hw l)
  · exact h.unpoisoned
  · exact reads_update h fun _ => by simp

theorem Present.step (h : x.Present methods) (hk : x.KeepsMessage methods t) :
    (x.step id methods t).Present methods := by
  obtain ⟨a, s, hm, heq⟩ := x.step_eq id methods t
  rw [heq]
  generalize hp : x.place t = a₀ at hm
  -- a creation lock is watched from these two places only
  have hidle {l : LockRef} (h₁ : a₀ ≠ .waitCreation l) (h₂ : a₀ ≠ .removeLock) : ¬ (x.place t).Watches l := by
    rw [hp]
    rintro (h' | h')
    · exact h₁ h'
    · exact h₂ h'
  cases hm with
  | stays =>
    rw [← hp, Function.update_eq_self]
    exact h
  | found hw hmsg | lookedUp hmsg =>
    exact h.same rfl rfl rfl rfl (fun _ => hidle (by simp) (by simp)) (fun _ => by rw [hmsg]; rfl) (by simp)
  | missed | missedLock | notifies | unnoticed | completionPoisoned | refused =>
    exact h.same rfl rfl rfl rfl (fun _ => hidle (by simp) (by simp)) False.elim (by simp)
  | present ha hw hmsg =>
    refine h.same rfl rfl rfl rfl (fun _ => ?_) (fun _ => hmsg) (by simp)
    rcases ha with rfl | rfl <;> exact hidle (by simp) (by simp)
  | absent ha =>
    refine h.same rfl rfl rfl rfl (fun _ => ?_) False.elim (by simp)
    rcases ha with rfl | rfl <;> exact hidle (by simp) (by simp)
  | foundLock hl =>
    exact h.same rfl rfl rfl rfl (fun _ => hidle (by simp) (by simp)) (h.stands _ hl) (by simp)
  | insertedLock => exact h.insertedLock
  | creationDone hl => exact h.creationDone hp hl
  | creationPoisoned hl => exact absurd hl (h.unpoisoned _)
  | removedLock => exact h.removedLock hp
  | attached hmsg hw =>
    exact h.there rfl rfl h.unpoisoned (fun _ => hidle (by simp) (by simp)) (by simp)
  | completionDone hl =>
    exact h.same rfl rfl rfl rfl (fun _ => hidle (by simp) (by simp))
      (fun _ => h.expects t (by rw [hp]; exact hl)) (by simp)
  | read hmsg =>
    refine h.same rfl rfl rfl rfl (fun _ => hidle (by simp) (by simp)) (fun _ => by rw [hmsg]; rfl) fun _ => ?_
    rcases MessageMethod.readMessage_cases (w := w) (methods t) _ with ⟨r, -, hr⟩ | hr <;> rw [hr] <;> simp
  -- a panic for want of the message: the thread expected it, so it is there
  | lost ha hmsg =>
    have hmsg' : x.shared.message.isSome := h.expects t (by rw [hp]; rcases ha with rfl | rfl | rfl <;> trivial)
    rw [hmsg] at hmsg'
    cases hmsg'
  -- the message goes, which nobody else may be expecting
  | removed ha hw hmsg =>
    rw [MessageMethod.remove_snd hmsg]
    refine h.removed (hk.1 ⟨by rw [hmsg]; rfl, ?_⟩) fun _ => ?_
    · rw [hp]
      exact ha.imp_right fun ha => ha.imp_right fun ha => ⟨ha, hw ha⟩
    · rcases ha with rfl | rfl | rfl <;> exact hidle (by simp) (by simp)
  | gone ha =>
    refine h.same rfl rfl rfl rfl (fun _ => ?_) False.elim (by simp)
    rcases ha with rfl | rfl <;> exact hidle (by simp) (by simp)
  | relinquished ha' =>
    rcases ha' with ⟨r, -, rfl⟩ | ⟨e, rfl⟩ <;>
      exact h.same rfl rfl rfl rfl (fun _ => hidle (by simp) (by simp)) False.elim (by simp)
  | given => exact h.same rfl rfl rfl rfl (fun _ => hidle (by simp) (by simp)) False.elim (by simp)
  | inserted => exact h.there rfl rfl h.unpoisoned (fun _ => hidle (by simp) (by simp)) (by simp)
  -- the lock is marked while the message is there, so whoever wakes up finds it
  | marked =>
    refine h.there (hk.2 _ hp) rfl (fun l => ?_) (fun _ => hidle (by simp) (by simp)) (by simp)
    simp only [MessageEntry.markCreated, Function.update_apply]
    split
    · simp
    · exact h.unpoisoned l
  | terminated hw hmsg ha' hx' =>
    obtain ⟨msg', hmsg', -⟩ := hx'.message
    refine h.there (by rw [hmsg']; rfl) hx'.creationLock (by rw [hx'.creationLocks]; exact h.unpoisoned)
      (fun _ => hidle (by simp) (by simp)) fun hr => ?_
    rw [hw] at hr
    cases hr
  | dropped => exact h.same rfl rfl rfl rfl (fun _ => hidle (by simp) (by simp)) False.elim (by simp)

/-! ### The identifier -/

/-- An identifier that has been handed out belongs to its message or to one thread. -/
structure OneHolder (x : MessageUsers ι w) : Prop where
  handedOut : x.shared.message.isSome → x.shared.handedOut = true
  lock_lt : ∀ {msg}, x.shared.message = some msg → msg.completeLock < x.shared.lockCount
  holds : ∀ {t}, (x.place t).Holds → x.shared.handedOut = true ∧ x.shared.message = none
  unique : ∀ {t t'}, (x.place t).Holds → (x.place t').Holds → t = t'

private theorem holds_of_update {t' : ι} (hp : (Function.update x.place t a t').Holds) (ha : ¬ a.Holds) :
    (x.place t').Holds := by
  rw [Function.update_apply] at hp
  split at hp
  · exact absurd hp ha
  · exact hp

/-- A step after which there is a message exactly if there was one before. -/
private theorem OneHolder.same (h : x.OneHolder) (hout : s.handedOut = x.shared.handedOut)
    (hnone : x.shared.message = none → s.message = none) (hcount : s.lockCount = x.shared.lockCount)
    (hsome : ∀ msg', s.message = some msg' → ∃ msg, x.shared.message = some msg ∧ msg'.completeLock = msg.completeLock)
    (ha : ¬ a.Holds) : OneHolder (⟨s, Function.update x.place t a⟩ : MessageUsers ι w) := by
  constructor
  · intro hmsg
    obtain ⟨msg', hmsg'⟩ := Option.isSome_iff_exists.1 hmsg
    obtain ⟨msg, hmsg, -⟩ := hsome msg' hmsg'
    exact hout.trans (h.handedOut (by rw [hmsg]; rfl))
  · intro msg' hmsg'
    obtain ⟨msg, hmsg, hl⟩ := hsome msg' hmsg'
    show msg'.completeLock < s.lockCount
    rw [hl, hcount]
    exact h.lock_lt hmsg
  · intro t' hp
    obtain ⟨hout', hmsg⟩ := h.holds (holds_of_update hp ha)
    exact ⟨hout.trans hout', hnone hmsg⟩
  · intro t' t'' hp hp'
    exact h.unique (holds_of_update hp ha) (holds_of_update hp' ha)

/-- A step after which only the thread that has taken it can hold the identifier. -/
private theorem OneHolder.alone (h : ∀ t' ≠ t, ¬ (x.place t').Holds)
    (ha : a.Holds → s.handedOut = true ∧ s.message = none) (hout : s.message.isSome → s.handedOut = true)
    (hlt : ∀ msg, s.message = some msg → msg.completeLock < s.lockCount) :
    OneHolder (⟨s, Function.update x.place t a⟩ : MessageUsers ι w) := by
  have hself {t' : ι} (hp : (Function.update x.place t a t').Holds) : t' = t := by
    by_contra hne
    rw [Function.update_of_ne hne] at hp
    exact h t' hne hp
  constructor
  · exact hout
  · exact hlt _
  · intro t' hp
    obtain rfl : t' = t := hself hp
    have hp' : (Function.update x.place t' a t').Holds := hp
    rw [Function.update_self] at hp'
    exact ha hp'
  · intro t' t'' hp hp'
    exact (hself hp).trans (hself hp').symm

theorem OneHolder.step (h : x.OneHolder) : (x.step id methods t).OneHolder := by
  obtain ⟨a, s, hm, heq⟩ := x.step_eq id methods t
  rw [heq]
  generalize hp : x.place t = a₀ at hm
  have hself (hs : s = x.shared) (ha : ¬ a.Holds) :
      OneHolder (⟨s, Function.update x.place t a⟩ : MessageUsers ι w) := by
    subst hs
    exact h.same rfl (fun hn => hn) rfl (fun msg hmsg => ⟨msg, hmsg, rfl⟩) ha
  have hother (ha : a₀.Holds) : ∀ t' ≠ t, ¬ (x.place t').Holds := fun t' hne hp' =>
    hne (h.unique hp' (by rwa [hp]))
  cases hm with
  | stays =>
    rw [← hp, Function.update_eq_self]
    exact h
  | found | missed | missedLock | notifies | unnoticed | completionPoisoned | refused | present | absent | foundLock
  | creationDone | creationPoisoned | lookedUp | completionDone | lost | gone => exact hself rfl not_false
  | insertedLock | removedLock | marked | dropped =>
    exact h.same rfl (fun hn => hn) rfl (fun msg hmsg => ⟨msg, hmsg, rfl⟩) not_false
  | read =>
    rcases MessageMethod.readMessage_cases (w := w) (methods t) _ with ⟨r, -, hr⟩ | hr <;>
      exact hself rfl (by rw [hr]; exact not_false)
  | attached hmsg =>
    refine h.same rfl (by simp [hmsg]) rfl (fun msg' hmsg' => ⟨_, hmsg, ?_⟩) not_false
    cases hmsg'
    rfl
  | terminated hw hmsg ha' hx' =>
    obtain ⟨msg', hmsg', hl, -⟩ := hx'.message
    refine h.same hx'.handedOut (by simp [hmsg]) hx'.lockCount (fun msg'' h'' => ⟨_, hmsg, ?_⟩) ?_
    · rw [← Option.some.inj (hmsg'.symm.trans h'')]
      exact hl
    · rcases ha' with rfl | rfl | ⟨e, rfl⟩ <;> exact not_false
  | removed ha hw hmsg =>
    rw [MessageMethod.remove_snd hmsg]
    refine OneHolder.alone (fun t' _ hp' => ?_) (fun _ => ⟨h.handedOut (by rw [hmsg]; rfl), rfl⟩) (fun h => by cases h)
      fun _ h => by cases h
    exact absurd (hmsg.symm.trans (h.holds hp').2) (by simp)
  | relinquished ha' =>
    have hnone : x.shared.message = none := (h.holds (t := t) (by rw [hp]; trivial)).2
    refine OneHolder.alone (hother trivial) (fun ha => ?_) (by simp [hnone]) (by simp [hnone])
    rcases ha' with ⟨r, -, rfl⟩ | ⟨e, rfl⟩ <;> exact ha.elim
  -- what is given was not handed out, so it had no message and no holder
  | given hw hout =>
    have hnone : x.shared.message = none := by
      rw [← Option.not_isSome_iff_eq_none]
      intro hmsg
      rw [h.handedOut hmsg] at hout
      cases hout
    refine OneHolder.alone (fun t' _ hp' => ?_) (fun _ => ⟨rfl, hnone⟩) (fun _ => rfl) (by simp [hnone])
    rw [(h.holds hp').1] at hout
    cases hout
  | inserted =>
    refine OneHolder.alone (hother trivial) False.elim (fun _ => (h.holds (t := t) (by rw [hp]; trivial)).1) ?_
    intro msg hmsg
    cases hmsg
    exact Nat.lt_succ_self _

/-! ### A message with a chunk stream -/

/-- The message that a chunk receiver was made for has a sender. -/
def SendersStay (x : MessageUsers ι w) : Prop :=
  ∀ t r, x.place t = .returned (.receiver r) → r.completeLock < x.shared.lockCount ∧
    ∀ msg, x.shared.message = some msg → msg.completeLock = r.completeLock → msg.sender.isSome

/-- A step that makes no chunk receiver. -/
private theorem SendersStay.same (h : x.SendersStay) (hcount : x.shared.lockCount ≤ s.lockCount)
    (hsome : ∀ msg', s.message = some msg' → msg'.sender.isSome ∨ msg'.completeLock = x.shared.lockCount ∨ ∃ msg,
    x.shared.message = some msg ∧ msg'.completeLock = msg.completeLock ∧ msg'.sender.isSome = msg.sender.isSome)
    (ha : ∀ r, a = .returned (.receiver r) → r.completeLock < s.lockCount ∧ ∀ msg,
    s.message = some msg → msg.completeLock = r.completeLock → msg.sender.isSome) :
    SendersStay (⟨s, Function.update x.place t a⟩ : MessageUsers ι w) := by
  refine (Function.forall_update_iff x.place fun _ b => ∀ r, b = .returned (.receiver r) → r.completeLock <
    s.lockCount ∧ ∀ msg, s.message = some msg → msg.completeLock = r.completeLock → msg.sender.isSome).2
    ⟨ha, fun t' _ r hr => ?_⟩
  refine ⟨(h t' r hr).1.trans_le hcount, fun msg' hmsg' hl => ?_⟩
  rcases hsome msg' hmsg' with hs | hnew | ⟨msg, hmsg, hl', hs⟩
  · exact hs
  · exact absurd (h t' r hr).1 (by rw [← hl, hnew]; exact Nat.lt_irrefl _)
  · rw [hs]
    exact (h t' r hr).2 msg hmsg (hl'.symm.trans hl)

theorem SendersStay.step (h : x.SendersStay) (hh : x.OneHolder) : (x.step id methods t).SendersStay := by
  obtain ⟨a, s, hm, heq⟩ := x.step_eq id methods t
  rw [heq]
  have hself {s : MessageEntry} (hs : s.message = x.shared.message) (hcount : s.lockCount = x.shared.lockCount)
      (ha : ∀ r, a ≠ .returned (.receiver r)) :
      SendersStay (⟨s, Function.update x.place t a⟩ : MessageUsers ι w) :=
    h.same hcount.ge (fun msg' hmsg' => .inr (.inr ⟨msg', hs.symm.trans hmsg', rfl, rfl⟩)) fun r hr => absurd hr (ha r)
  generalize hp : x.place t = a₀ at hm
  cases hm with
  | stays =>
    rw [← hp, Function.update_eq_self]
    exact h
  | attached hmsg =>
    refine h.same (Nat.le_refl _) (fun msg' hmsg' => .inl (by cases hmsg'; rfl)) fun r hr => ?_
    cases hr
    exact ⟨hh.lock_lt hmsg, fun msg' hmsg' _ => by cases hmsg'; rfl⟩
  | terminated hw hmsg ha' hx' =>
    obtain ⟨msg', hmsg', hl, hs⟩ := hx'.message
    refine h.same hx'.lockCount.ge (fun msg'' h'' => .inr (.inr ⟨_, hmsg, ?_⟩)) fun r hr => ?_
    · rw [← Option.some.inj (hmsg'.symm.trans h'')]
      exact ⟨hl, hs⟩
    · rcases ha' with rfl | rfl | ⟨e, rfl⟩ <;> cases hr
  | removed ha hw hmsg =>
    rw [MessageMethod.remove_snd hmsg]
    exact h.same (Nat.le_refl _) (fun msg' hmsg' => by cases hmsg') fun r hr => by cases hr
  | inserted =>
    refine h.same (Nat.le_succ _) (fun msg' hmsg' => .inr (.inl ?_)) fun r hr => by cases hr
    cases hmsg'
    rfl
  | read =>
    rcases MessageMethod.readMessage_cases (w := w) (methods t) _ with ⟨r, hplain, hr⟩ | hr
    · rw [hr] at hself ⊢
      exact hself rfl rfl fun r' h' => by cases h'; cases hplain
    · rw [hr] at hself ⊢
      exact hself rfl rfl (by simp)
  | gone ha hplain => exact hself rfl rfl fun r' h' => by cases h'; cases hplain
  | relinquished ha' =>
    rcases ha' with ⟨r, hplain, rfl⟩ | ⟨e, rfl⟩
    · exact hself rfl rfl fun r' h' => by cases h'; cases hplain
    · exact hself rfl rfl (by simp)
  | _ => exact hself rfl rfl (by simp)

/-- A call of `get_chunks` that has found a message with a sender under the lock `l`. -/
structure Streamed (x : MessageUsers ι w) (t : ι) (l : LockRef) : Prop where
  lt : l < x.shared.lockCount
  unpoisoned : x.shared.locks l ≠ .poisoned
  place : x.place t = .waitCompletion l ∨ x.place t = .completed ∧ x.shared.locks l = .complete
  sender : ∀ {msg}, x.shared.message = some msg → msg.completeLock = l → msg.sender.isSome
  there : x.shared.locks l = .complete → ∃ msg, x.shared.message = some msg ∧ msg.completeLock = l

omit [DecidableEq ι] in
private theorem Streamed.expects {l : LockRef} (h : x.Streamed t l) (hl : x.shared.locks l = .complete) :
    (x.place t).Expects x.shared := by
  rcases h.place with hp | ⟨hp, -⟩ <;> rw [hp]
  · exact hl
  · trivial

/-- A step of another thread. -/
private theorem Streamed.other {l : LockRef} {u : ι} (h : x.Streamed t l) (hh : x.OneHolder)
    (hk : x.KeepsMessage methods u) (hne : t ≠ u) : (x.step id methods u).Streamed t l := by
  obtain ⟨a, s, hm, heq⟩ := x.step_eq id methods u
  rw [heq]
  have hplace : (⟨s, Function.update x.place u a⟩ : MessageUsers ι w).place t = x.place t :=
    Function.update_of_ne hne ..
  have hsame (hmsg : s.message = x.shared.message) (hlocks : s.locks = x.shared.locks)
      (hcount : s.lockCount = x.shared.lockCount) :
      Streamed (⟨s, Function.update x.place u a⟩ : MessageUsers ι w) t l := by
    constructor
    · exact hcount ▸ h.lt
    · exact hlocks ▸ h.unpoisoned
    · rw [hplace]
      exact hlocks ▸ h.place
    · exact hmsg ▸ h.sender
    · exact hlocks ▸ hmsg ▸ h.there
  generalize hp : x.place u = a₀ at hm
  cases hm with
  -- a new message has a new lock
  | inserted =>
    have hnone : x.shared.message = none := (hh.holds (t := u) (by rw [hp]; trivial)).2
    have hne' : l ≠ x.shared.lockCount := Nat.ne_of_lt h.lt
    have hlocks : x.shared.insertMessage.locks l = x.shared.locks l := Function.update_of_ne hne' ..
    have hopen : x.shared.locks l ≠ .complete := by
      intro hl
      obtain ⟨msg, hmsg, -⟩ := h.there hl
      cases hnone.symm.trans hmsg
    constructor
    · exact Nat.lt_succ_of_lt h.lt
    · exact hlocks ▸ h.unpoisoned
    · rw [hplace]
      exact hlocks ▸ h.place
    · intro msg hmsg hl
      cases hmsg
      exact absurd hl.symm hne'
    · exact fun hl => absurd (hlocks.symm.trans hl) hopen
  -- with its lock complete the message is expected by the receiver, and cannot go
  | removed ha hw hmsg =>
    have hopen : x.shared.locks l ≠ .complete := by
      intro hl
      refine hk.1 ⟨by rw [hmsg]; rfl, ?_⟩ t hne (h.expects hl)
      rw [hp]
      exact ha.imp_right fun ha => ha.imp_right fun ha => ⟨ha, hw ha⟩
    rw [MessageMethod.remove_snd hmsg]
    refine ⟨h.lt, h.unpoisoned, ?_, (fun hmsg' => by cases hmsg'), fun hl => absurd hl hopen⟩
    rw [hplace]
    exact h.place
  | attached hmsg =>
    refine ⟨h.lt, h.unpoisoned, ?_, (fun hmsg' _ => by cases hmsg'; rfl), fun hl => ?_⟩
    · rw [hplace]
      exact h.place
    · obtain ⟨msg, hmsg', hl'⟩ := h.there hl
      obtain rfl := Option.some.inj (hmsg.symm.trans hmsg')
      exact ⟨_, rfl, hl'⟩
  | @terminated msg _ _ hw hmsg ha' hx' =>
    obtain ⟨msg', hmsg', hl', hs'⟩ := hx'.message
    have hlocks {l'} : s.locks l' = if l' = msg.completeLock then .complete else x.shared.locks l' := by
      rw [hx'.locks]
      exact Function.update_apply ..
    constructor
    · exact hx'.lockCount ▸ h.lt
    · show s.locks l ≠ _
      rw [hlocks]
      split
      · simp
      · exact h.unpoisoned
    · rw [hplace]
      refine h.place.imp_right fun ⟨hp', hl⟩ => ⟨hp', ?_⟩
      show s.locks l = _
      rw [hlocks, hl, ite_self]
    · intro msg'' h'' hl
      obtain rfl := Option.some.inj (hmsg'.symm.trans h'')
      rw [hs']
      exact h.sender hmsg (hl'.symm.trans hl)
    · intro hl
      by_cases heq : l = msg.completeLock
      · exact ⟨msg', hmsg', hl'.trans heq.symm⟩
      · obtain ⟨msg'', hmsg'', hl''⟩ := h.there ((hlocks.trans (if_neg heq)).symm.trans hl)
        obtain rfl := Option.some.inj (hmsg.symm.trans hmsg'')
        exact ⟨msg', hmsg', hl'.trans hl''⟩
  | _ => exact hsame rfl rfl rfl

/-- How a call of `get_chunks` on a message with a chunk stream ends. -/
private theorem Streamed.self {l : LockRef} {decodes : List UInt8 → Bool} (h : x.Streamed t l)
    (hm : methods t = .getChunks decodes) :
    (x.step id methods t).Streamed t l ∨ (x.step id methods t).place t = .returned (.decoded none) := by
  obtain ⟨a, s, hmove, heq⟩ := x.step_eq id methods t
  rw [heq]
  have hplace : (⟨s, Function.update x.place t a⟩ : MessageUsers ι w).place t = a := Function.update_self ..
  rcases h.place with hp | ⟨hp, hl⟩
  · rw [hp] at hmove
    cases hmove with
    | stays =>
      rw [← hp, Function.update_eq_self]
      exact .inl h
    | completionDone hl => exact .inl ⟨h.lt, h.unpoisoned, .inr ⟨hplace, hl⟩, h.sender, h.there⟩
    | completionPoisoned hl => exact absurd hl h.unpoisoned
    | present ha | absent ha => rcases ha with ha | ha <;> cases ha
    | lost ha | removed ha => rcases ha with ha | ha | ha <;> cases ha
    | gone ha => rcases ha with ha | ha <;> cases ha
  · obtain ⟨msg, hmsg, hlock⟩ := h.there hl
    rw [hp] at hmove
    cases hmove with
    | stays =>
      rw [← hp, Function.update_eq_self]
      exact .inl h
    | read hmsg' =>
      obtain rfl := Option.some.inj (hmsg.symm.trans hmsg')
      have hread : ((methods t).readMessage msg : MessagePlace w) = .returned (.decoded none) := by
        rw [hm, MessageMethod.readMessage, if_pos (h.sender hmsg hlock)]
      exact .inr (hplace.trans hread)
    | lost ha hnone => cases hnone.symm.trans hmsg
    | present ha | absent ha => rcases ha with ha | ha <;> cases ha
    | removed ha => rcases ha with ha | ha | ha <;> cases ha
    | gone ha => rcases ha with ha | ha <;> cases ha

/-! ### Runs -/

omit [DecidableEq ι] in
private theorem start_present (hs : s.AtRest) : (start s : MessageUsers ι w).Present methods := by
  constructor
  · intro t he
    exact he.elim
  · intro l hl
    cases hs.creationLock.symm.trans hl
  · intro l hl
    cases hs.creationLock.symm.trans hl
  · exact hs.unpoisoned
  · intro t _ hp
    cases hp

omit [DecidableEq ι] in
private theorem start_oneHolder (hs : s.AtRest) : (start s : MessageUsers ι w).OneHolder :=
  ⟨hs.handedOut, hs.lock_lt, False.elim, False.elim⟩

private theorem returned_step {r : MessageReply w} (hp : x.place t = .returned r) :
    (x.step id methods t).place t = .returned r := by
  show Function.update x.place t ((methods t).next id (x.place t) x.shared).1 t = _
  rw [Function.update_self, hp]
  rfl

/-- A call of `get_chunks` that begins on a message with a sender. -/
private theorem OneHolder.streamed {msg : MessageBuffer} {decodes : List UInt8 → Bool} (h : x.OneHolder)
    (hm : methods t = .getChunks decodes) (hp : x.place t = .begin) (hmsg : x.shared.message = some msg)
    (hsender : msg.sender.isSome) (hpois : x.shared.locks msg.completeLock ≠ .poisoned) :
    (x.step id methods t).Streamed t msg.completeLock := by
  have hnext : (methods t).next id (x.place t) x.shared = (.waitCompletion msg.completeLock, x.shared) := by
    rw [hm, hp]
    simp [MessageMethod.next, MessageMethod.advance, hmsg]
  have hstep : x.step id methods t = ⟨x.shared, Function.update x.place t (.waitCompletion msg.completeLock)⟩ := by
    show (⟨((methods t).next id (x.place t) x.shared).2,
      Function.update x.place t ((methods t).next id (x.place t) x.shared).1⟩ : MessageUsers ι w) = _
    rw [hnext]
  rw [hstep]
  refine ⟨h.lock_lt hmsg, hpois, .inl (Function.update_self ..), fun hmsg' _ => ?_, fun _ => ⟨msg, hmsg, rfl⟩⟩
  rw [← Option.some.inj (hmsg.symm.trans hmsg')]
  exact hsender

/-- Whoever has waited for a message finds it, and `get_chunks` returns no chunks of a message that has been given a
chunk receiver. -/
theorem finds_waited {s : MessageEntry} (hs : s.AtRest)
    (hx : Reaches (step id methods) (KeepsMessage methods) (start s) x) :
    (∀ t, (methods t).reads → x.place t ≠ .failed .panicked) ∧
      ∀ t u r decodes msg y, methods t = .getChunks decodes → x.place t = .begin →
        x.place u = .returned (.receiver r) → x.shared.message = some msg → msg.completeLock = r.completeLock →
        x.shared.locks msg.completeLock ≠ .poisoned →
        Reaches (step id methods) (KeepsMessage methods) (x.step id methods t) y →
          (∀ reply, y.place t = .returned reply → reply = .decoded none) ∧ ∀ e, y.place t ≠ .failed e := by
  have hpresent : x.Present methods := hx.invariant (start_present hs) fun x t h hk => h.step hk
  have hheld : x.OneHolder ∧ x.SendersStay :=
    hx.invariant (I := fun x => x.OneHolder ∧ x.SendersStay) ⟨start_oneHolder hs, fun t r hr => by cases hr⟩
      fun x t h _ => ⟨h.1.step, h.2.step h.1⟩
  refine ⟨hpresent.reads, fun t u r decodes msg y hm hp hu hmsg hl hpois hy => ?_⟩
  have hfound : (x.step id methods t).Streamed t msg.completeLock :=
    hheld.1.streamed hm hp hmsg ((hheld.2 u r hu).2 msg hmsg hl) hpois
  have hrun : y.OneHolder ∧ (y.Streamed t msg.completeLock ∨ y.place t = .returned (.decoded none)) := by
    refine hy.invariant
      (I := fun y => y.OneHolder ∧ (y.Streamed t msg.completeLock ∨ y.place t = .returned (.decoded none)))
      ⟨hheld.1.step, .inl hfound⟩ fun y v hI hk => ⟨hI.1.step, ?_⟩
    by_cases hv : v = t
    · subst hv
      rcases hI.2 with hst | hdone
      · exact hst.self hm
      · exact .inr (returned_step hdone)
    · refine hI.2.imp (fun hst => hst.other hI.1 hk (Ne.symm hv)) fun hdone => ?_
      exact (Threads.step_place_of_ne (Ne.symm hv)).trans hdone
  rcases hrun.2 with ⟨-, -, hp' | ⟨hp', -⟩, -, -⟩ | hp' <;> rw [hp']
  · exact ⟨by simp, by simp⟩
  · exact ⟨by simp, by simp⟩
  · exact ⟨fun _ hr => (MessagePlace.returned.inj hr).symm, by simp⟩

/-- A push, a chunk receiver that is made and dropped, the termination of the message and a call of `get_chunks`. -/
private def streamUsers : Fin 5 → MessageMethod
  | 0 => .push
  | 1 => .getChunkStream
  | 2 => .getChunks fun _ => true
  | 3 => .dropReceiver 0
  | 4 => .terminateMessage

private def streaming : MessageUsers (Fin 5) .u8 := [0, 0, 0, 1, 1].foldl (step 4 streamUsers) (start .new)

private def streamed : MessageUsers (Fin 5) .u8 :=
  [3, 4, 2, 2].foldl (step 4 streamUsers) (streaming.step 4 streamUsers 2)

private theorem streaming_reaches :
    Reaches (step 4 streamUsers) (KeepsMessage streamUsers) (start .new : MessageUsers (Fin 5) .u8) streaming := by
  have hpush : Reaches (step 4 streamUsers) (KeepsMessage streamUsers) (start .new : MessageUsers (Fin 5) .u8) _ :=
    ((Reaches.start.next (a := 0) ⟨nofun, nofun⟩).next (a := 0) ⟨nofun, nofun⟩).next (a := 0) ⟨nofun, nofun⟩
  refine (hpush.next (a := 1) ⟨?_, nofun⟩).next (a := 1) ⟨?_, nofun⟩ <;> rintro ⟨-, h | h | ⟨-, h⟩⟩ <;> cases h

private theorem streamed_reaches : Reaches (step 4 streamUsers) (KeepsMessage streamUsers)
    (streaming.step 4 streamUsers 2) streamed := by
  refine (((Reaches.start.next (a := 3) ⟨?_, nofun⟩).next (a := 4) ⟨?_, nofun⟩).next (a := 2) ⟨?_, nofun⟩).next
    (a := 2) ⟨?_, nofun⟩ <;> rintro ⟨-, h | h | ⟨-, h⟩⟩ <;> cases h

theorem finds_waited_streamed : streaming.place 1 ≠ .failed .panicked ∧ streamed.place 2 ≠ .failed .panicked :=
  have h := finds_waited MessageEntry.new_atRest streaming_reaches
  ⟨h.1 1 rfl, (h.2 2 1 _ _ _ streamed rfl rfl rfl rfl rfl (by decide) streamed_reaches).2 .panicked⟩

/-- A push, the termination of the message and two calls of `get_raw`. -/
private def readTwice : Fin 4 → MessageMethod
  | 0 => .push
  | 1 => .terminateMessage
  | 2 | 3 => .getRaw

/-- Both calls have been told that the message is complete, then both go on to pop it. -/
theorem not_finds_waited_twice :
    ¬ ∀ x : MessageUsers (Fin 4) .u8, Reaches (step 4 readTwice) (fun _ _ => True) (start .new) x →
      ∀ t, (readTwice t).reads → x.place t ≠ .failed .panicked := by
  intro h
  have hrun : Reaches (step 4 readTwice) (fun _ _ => True) (start .new : MessageUsers (Fin 4) .u8) _ :=
    Reaches.start.foldl [0, 0, 0, 1, 2, 2, 2, 3, 3, 3, 2, 3] fun _ _ _ => trivial
  exact h _ hrun 3 rfl rfl

end MessageUsers

end Ipfi
