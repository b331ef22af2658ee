import Ipfi.MessageSteps
import Ipfi.Lib.Reach

/-!
# Waiting for a message to be created

A waiter that finds no message leaves a creation lock, which the push that makes the message looks up once it has
inserted it.  As long as no creation lock is lost, that is as long as none is overwritten, inserted after the push has
looked or removed under its waiters, a lock that is waited on is the one that the next push marks.
-/

namespace Ipfi

variable {w : IntFeature}

namespace MessagePlace

/-- Where only a push can be. -/
def Pushing : MessagePlace w → Prop
  | .insert | .notify | .mark _ => True
  | _ => False

end MessagePlace

namespace MessageUsers

variable {ι : Type} [DecidableEq ι] {id : IpfiInteger w} {methods : ι → MessageMethod} {x : MessageUsers ι w} {t : ι}

/-- A push has inserted its message and has yet to look for a creation lock. -/
def Notifies (x : MessageUsers ι w) : Prop := ∃ t, x.place t = .notify

/-- A push has found the creation lock and has yet to mark it. -/
def Marks (x : MessageUsers ι w) (l : LockRef) : Prop := ∃ t, x.place t = .mark l

/-- A creation lock is inserted only where none stands, and in time for the push of the message; and a waiter that is
done removes none that is still incomplete. -/
def KeepsLocks (x : MessageUsers ι w) (t : ι) : Prop :=
  (x.place t = .insertLock → x.shared.creationLock = none ∧ (x.shared.message = none ∨ x.Notifies)) ∧
    (x.place t = .removeLock → ∀ l, x.shared.creationLock = some l → x.shared.creationLocks l ≠ .incomplete)

/-- Every creation lock that is waited on will be marked by the push of the message. -/
structure Announced (methods : ι → MessageMethod) (x : MessageUsers ι w) : Prop where
  stands : ∀ {t l}, x.place t = .waitCreation l → x.shared.creationLocks l = .incomplete →
    x.shared.creationLock = some l ∨ x.Marks l
  comes : ∀ {l}, x.shared.creationLock = some l → x.shared.creationLocks l = .incomplete →
    x.shared.message = none ∨ x.Notifies ∨ x.Marks l
  pushing : ∀ {t}, (x.place t).Pushing → methods t = .push

variable {a : MessagePlace w} {s : MessageEntry}

private theorem place_of_update {t' : ι} {b : MessagePlace w} (h : Function.update x.place t a t' = b) (ha : a ≠ b) :
    x.place t' = b := by
  rw [Function.update_apply] at h
  split at h
  · exact absurd h ha
  · exact h

private theorem pushing_update (h : ∀ {t}, (x.place t).Pushing → methods t = .push)
    (hpush : a.Pushing → methods t = .push) {t' : ι} (hp : (Function.update x.place t a t').Pushing) :
    methods t' = .push := by
  by_cases ht : t' = t
  · subst ht
    rw [Function.update_self] at hp
    exact hpush hp
  · rw [Function.update_of_ne ht] at hp
    exact h hp

private theorem Notifies.update (h : x.Notifies) (ht : x.place t ≠ .notify) :
    Notifies (⟨s, Function.update x.place t a⟩ : MessageUsers ι w) := by
  obtain ⟨t', hp⟩ := h
  have hne : t' ≠ t := by
    rintro rfl
    exact ht hp
  exact ⟨t', by simpa only [Function.update_of_ne hne] using hp⟩

private theorem Marks.update {l : LockRef} (h : x.Marks l) (ht : x.place t ≠ .mark l) :
    Marks (⟨s, Function.update x.place t a⟩ : MessageUsers ι w) l := by
  obtain ⟨t', hp⟩ := h
  have hne : t' ≠ t := by
    rintro rfl
    exact ht hp
  exact ⟨t', by simpa only [Function.update_of_ne hne] using hp⟩

/-- A step that touches no creation lock and creates no message. -/
private theorem Announced.quiet (h : x.Announced methods) (hlock : s.creationLock = x.shared.creationLock)
    (hlocks : s.creationLocks = x.shared.creationLocks) (hmsg : x.shared.message = none → s.message = none)
    (hp : ¬ (x.place t).Pushing) (ha : ∀ l, a ≠ .waitCreation l) (hpush : a.Pushing → methods t = .push) :
    Announced methods ⟨s, Function.update x.place t a⟩ := by
  have hnotify : x.place t ≠ .notify := fun hp' => hp (by rw [hp']; trivial)
  have hmark : ∀ l, x.place t ≠ .mark l := fun l hp' => hp (by rw [hp']; trivial)
  constructor
  · intro t' l hw hst
    rw [hlocks] at hst
    rw [hlock]
    exact (h.stands (place_of_update hw (ha l)) hst).imp_right fun hm => hm.update (hmark l)
  · intro l hl hst
    rw [hlock] at hl
    rw [hlocks] at hst
    exact (h.comes hl hst).imp hmsg fun hc => hc.imp (fun hn => hn.update hnotify) fun hm => hm.update (hmark l)
  · exact pushing_update h.pushing hpush

/-- A waiter finds a creation lock. -/
private theorem Announced.foundLock {l : LockRef} (h : x.Announced methods) (hp : x.place t = .lookUpLock)
    (hl : x.shared.creationLock = some l) :
    Announced methods ⟨x.shared, Function.update x.place t (.waitCreation l)⟩ := by
  have hnotify : x.place t ≠ .notify := by rw [hp]; simp
  have hmark : ∀ l, x.place t ≠ .mark l := by rw [hp]; simp
  have hwait {t' l'} (hw : Function.update x.place t (.waitCreation l) t' = .waitCreation l') :
      l' = l ∨ x.place t' = .waitCreation l' := by
    by_cases hne : l' = l
    · exact .inl hne
    · exact .inr (place_of_update hw (by simpa using Ne.symm hne))
  constructor
  · intro t' l' hw hst
    rcases hwait hw with rfl | hw
    · exact .inl hl
    · exact (h.stands hw hst).imp_right fun hm => hm.update (hmark l')
  · intro l' hl' hst
    exact (h.comes hl' hst).imp_right fun hc => hc.imp (fun hn => hn.update hnotify) fun hm => hm.update (hmark l')
  · exact pushing_update h.pushing False.elim

/-- A waiter leaves a creation lock. -/
private theorem Announced.insertedLock (h : x.Announced methods) (hp : x.place t = .insertLock)
    (hk : x.KeepsLocks t) :
    Announced methods
      ⟨x.shared.insertCreationLock.2, Function.update x.place t (.waitCreation x.shared.creationCount)⟩ := by
  obtain ⟨hnone, hcomes⟩ := hk.1 hp
  have hnotify : x.place t ≠ .notify := by rw [hp]; simp
  have hmark : ∀ l, x.place t ≠ .mark l := by rw [hp]; simp
  have hwait {t' l} (hw : Function.update x.place t (.waitCreation x.shared.creationCount) t' = .waitCreation l) :
      l = x.shared.creationCount ∨ x.place t' = .waitCreation l := by
    by_cases hne : l = x.shared.creationCount
    · exact .inl hne
    · exact .inr (place_of_update hw (by simpa using Ne.symm hne))
  constructor
  · intro t' l hw hst
    by_cases hl : l = x.shared.creationCount
    · exact .inl (by rw [hl]; rfl)
    · have hw := (hwait hw).resolve_left hl
      have hst : x.shared.creationLocks l = .incomplete := by
        simpa [MessageEntry.insertCreationLock, hl] using hst
      rcases h.stands hw hst with hlock' | hm
      · rw [hnone] at hlock'
        cases hlock'
      · exact .inr (hm.update (hmark l))
  · intro l hl hst
    exact hcomes.imp_right fun hn => .inl (hn.update hnotify)
  · exact pushing_update h.pushing False.elim

/-- A waiter removes the creation lock, on which nobody else waits any more. -/
private theorem Announced.removedLock (h : x.Announced methods) (hp : x.place t = .removeLock) (hk : x.KeepsLocks t) :
    Announced methods ⟨{ x.shared with creationLock := none }, Function.update x.place t .created⟩ := by
  have hmark : ∀ l, x.place t ≠ .mark l := by rw [hp]; simp
  constructor
  · intro t' l hw hst
    rcases h.stands (place_of_update hw (by simp)) hst with hl | hm
    · exact absurd hst (hk.2 hp l hl)
    · exact .inr (hm.update (hmark l))
  · intro l hl
    cases hl
  · exact pushing_update h.pushing False.elim

/-- A push inserts its message. -/
private theorem Announced.inserted (h : x.Announced methods) (hp : x.place t = .insert) :
    Announced methods ⟨x.shared.insertMessage, Function.update x.place t .notify⟩ := by
  have hmark : ∀ l, x.place t ≠ .mark l := by rw [hp]; simp
  constructor
  · intro t' l hw hst
    exact (h.stands (place_of_update hw (by simp)) hst).imp_right fun hm => hm.update (hmark l)
  · intro l hl hst
    exact .inr (.inl ⟨t, Function.update_self ..⟩)
  · exact pushing_update h.pushing fun _ => h.pushing (by rw [hp]; trivial)

/-- A push finds a creation lock. -/
private theorem Announced.notifies {l : LockRef} (h : x.Announced methods) (hp : x.place t = .notify)
    (hl : x.shared.creationLock = some l) :
    Announced methods ⟨x.shared, Function.update x.place t (.mark l)⟩ := by
  have hmark : ∀ l, x.place t ≠ .mark l := by rw [hp]; simp
  constructor
  · intro t' l' hw hst
    exact (h.stands (place_of_update hw (by simp)) hst).imp_right fun hm => hm.update (hmark l')
  · intro l' hl' hst
    obtain rfl : l = l' := Option.some.inj (hl.symm.trans hl')
    exact .inr (.inr ⟨t, Function.update_self ..⟩)
  · exact pushing_update h.pushing fun _ => h.pushing (by rw [hp]; trivial)

/-- A push finds no creation lock. -/
private theorem Announced.unnoticed {r : MessageReply w} (h : x.Announced methods) (hp : x.place t = .notify)
    (hl : x.shared.creationLock = none) :
    Announced methods ⟨x.shared, Function.update x.place t (.returned r)⟩ := by
  have hmark : ∀ l, x.place t ≠ .mark l := by rw [hp]; simp
  constructor
  · intro t' l' hw hst
    exact (h.stands (place_of_update hw (by simp)) hst).imp_right fun hm => hm.update (hmark l')
  · intro l' hl'
    exact absurd (hl.symm.trans hl') (by simp)
  · exact pushing_update h.pushing False.elim

/-- A push marks the creation lock it has found. -/
private theorem Announced.marked {l : LockRef} {r : MessageReply w} (h : x.Announced methods)
    (hp : x.place t = .mark l) :
    Announced methods ⟨x.shared.markCreated l, Function.update x.place t (.returned r)⟩ := by
  have hnotify : x.place t ≠ .notify := by rw [hp]; simp
  have hold {l'} (hst : (x.shared.markCreated l).creationLocks l' = .incomplete) :
      x.shared.creationLocks l' = .incomplete ∧ x.place t ≠ .mark l' := by
    have hne : l' ≠ l := by
      rintro rfl
      simp [MessageEntry.markCreated] at hst
    refine ⟨by simpa [MessageEntry.markCreated, hne] using hst, ?_⟩
    rw [hp]
    simpa using Ne.symm hne
  constructor
  · intro t' l' hw hst
    obtain ⟨hst, hmark⟩ := hold hst
    exact (h.stands (place_of_update hw (by simp)) hst).imp_right fun hm => hm.update hmark
  · intro l' hl' hst
    obtain ⟨hst, hmark⟩ := hold hst
    exact (h.comes hl' hst).imp_right fun hc => hc.imp (fun hn => hn.update hnotify) fun hm => hm.update hmark
  · exact pushing_update h.pushing False.elim

/-- A step that only reads, or that deletes or completes a message. -/
private theorem Announced.idle (h : x.Announced methods) (hs : s = x.shared) (hp : ¬ (x.place t).Pushing)
    (ha : ∀ l, a ≠ .waitCreation l) (hpush : ¬ a.Pushing) : Announced methods ⟨s, Function.update x.place t a⟩ := by
  subst hs
  exact h.quiet rfl rfl id hp ha fun hp => absurd hp hpush

theorem Announced.step (h : x.Announced methods) (hk : x.KeepsLocks t) : (x.step id methods t).Announced methods := by
  obtain ⟨a, s, hm, heq⟩ := x.step_eq id methods t
  rw [heq]
  generalize hp : x.place t = a₀ at hm
  cases hm with
  | stays =>
    rw [← hp, Function.update_eq_self]
    exact h
  | found | missed | missedLock | creationDone | creationPoisoned | lookedUp | completionDone | completionPoisoned =>
    exact h.idle rfl (by rw [hp]; exact not_false) (by simp) not_false
  | present ha | absent ha =>
    rcases ha with rfl | rfl <;> exact h.idle rfl (by rw [hp]; exact not_false) (by simp) not_false
  | foundLock hl => exact h.foundLock hp hl
  | insertedLock => exact h.insertedLock hp hk
  | removedLock => exact h.removedLock hp hk
  | attached => exact h.quiet rfl rfl (by simp [*]) (by rw [hp]; exact not_false) (by simp) False.elim
  | read =>
    rcases MessageMethod.readMessage_cases (w := w) (methods t) _ with ⟨r, -, hr⟩ | hr <;> rw [hr] <;>
      exact h.idle rfl (by rw [hp]; exact not_false) (by simp) not_false
  | lost ha | gone ha =>
    refine h.idle rfl ?_ (by simp) not_false
    rcases ha with rfl | rfl | rfl <;> (rw [hp]; exact not_false)
  | removed ha hm hmsg =>
    rw [MessageMethod.remove_snd hmsg]
    refine h.quiet rfl rfl (fun _ => rfl) ?_ (by simp) False.elim
    rcases ha with rfl | rfl | rfl <;> (rw [hp]; exact not_false)
  | relinquished ha' =>
    rcases ha' with ⟨r, -, rfl⟩ | ⟨e, rfl⟩ <;>
      exact h.quiet rfl rfl (fun h => h) (by rw [hp]; exact not_false) (by simp) False.elim
  | given hm => exact h.quiet rfl rfl (fun h => h) (by rw [hp]; exact not_false) (by simp) fun _ => hm
  | inserted => exact h.inserted hp
  | notifies hl => exact h.notifies hp hl
  | unnoticed hl => exact h.unnoticed hp hl
  | marked => exact h.marked hp
  | terminated hm hmsg ha' hx' =>
    have hquiet := h.quiet (a := a) (t := t) hx'.creationLock hx'.creationLocks (by simp [hmsg])
      (by rw [hp]; exact not_false)
    rcases ha' with rfl | rfl | ⟨e, rfl⟩ <;> exact hquiet (by simp) False.elim
  | refused | dropped => exact h.quiet rfl rfl (fun h => h) (by rw [hp]; exact not_false) (by simp) False.elim

/-- Once no push is under way, nobody waits for the creation of a message that is there. -/
theorem not_waits_of_created {s : MessageEntry} (hs : s.creationLock = none)
    (hx : Reaches (step id methods) KeepsLocks (start s) x)
    (hpush : ∀ t, methods t = .push → x.place t = .begin ∨ ∃ r, x.place t = .returned r)
    (hmsg : x.shared.message.isSome) (t : ι) (l : LockRef) (ht : x.place t = .waitCreation l) :
    x.shared.creationLocks l ≠ .incomplete := by
  have hstart : (start s : MessageUsers ι w).Announced methods := by
    constructor
    · intro t l hp
      cases hp
    · intro l hl
      cases hs.symm.trans hl
    · intro t hp
      exact absurd hp not_false
  have hann : x.Announced methods := hx.invariant hstart fun x t h hk => h.step hk
  have hdone (t' : ι) (hp : (x.place t').Pushing) : False := by
    rcases hpush t' (hann.pushing hp) with hb | ⟨r, hr⟩
    · rw [hb] at hp
      exact hp
    · rw [hr] at hp
      exact hp
  have hmarks : ¬ x.Marks l := by
    rintro ⟨t', hp⟩
    exact hdone t' (by rw [hp]; trivial)
  intro hst
  rcases hann.comes ((hann.stands ht hst).resolve_right hmarks) hst with hnone | ⟨t', hp⟩ | hm
  · rw [hnone] at hmsg
    cases hmsg
  · exact hdone t' (by rw [hp]; trivial)
  · exact hmarks hm

/-- A waiter and a push. -/
private def waiterAndPush (t : Bool) : MessageMethod := if t then .push else .getRaw

/-- The waiter has left its creation lock by the time the push begins. -/
private def waitedFirst : MessageUsers Bool .u8 :=
  [false, false, false, false, true, true, true, true].foldl (step 3 waiterAndPush) (start .new)

private theorem waitedFirst_reaches :
    Reaches (step 3 waiterAndPush) KeepsLocks (start .new : MessageUsers Bool .u8) waitedFirst := by
  have hlooked : Reaches (step 3 waiterAndPush) KeepsLocks (start .new : MessageUsers Bool .u8) _ :=
    ((Reaches.start.next (a := false) ⟨nofun, nofun⟩).next (a := false) ⟨nofun, nofun⟩).next (a := false) ⟨nofun, nofun⟩
  have hwaits : Reaches (step 3 waiterAndPush) KeepsLocks (start .new : MessageUsers Bool .u8) _ :=
    hlooked.next (a := false) ⟨fun _ => ⟨rfl, .inl rfl⟩, nofun⟩
  exact (((hwaits.next (a := true) ⟨nofun, nofun⟩).next (a := true) ⟨nofun, nofun⟩).next (a := true)
    ⟨nofun, nofun⟩).next (a := true) ⟨nofun, nofun⟩

theorem not_waits_of_created_waited : waitedFirst.shared.creationLocks 0 ≠ .incomplete :=
  not_waits_of_created rfl waitedFirst_reaches
    (fun t ht => by cases t <;> [cases ht; exact .inr ⟨_, rfl⟩]) rfl false 0 rfl

/-- The waiter has looked for the message and for a creation lock, then the push runs, then the waiter leaves its
lock. -/
theorem not_not_waits_of_created_late :
    ¬ ∀ x : MessageUsers Bool .u8, Reaches (step 3 waiterAndPush) (fun _ _ => True) (start .new) x →
      (∀ t, waiterAndPush t = .push → x.place t = .begin ∨ ∃ r, x.place t = .returned r) →
        x.shared.message.isSome → ∀ t l, x.place t = .waitCreation l → x.shared.creationLocks l ≠ .incomplete := by
  intro h
  have hrun : Reaches (step 3 waiterAndPush) (fun _ _ => True) (start .new : MessageUsers Bool .u8) _ :=
    Reaches.start.foldl [false, false, false, true, true, true, false] fun _ _ _ => trivial
  exact h _ hrun (fun t ht => by cases t <;> [cases ht; exact .inr ⟨_, rfl⟩]) rfl false 0 rfl rfl

end MessageUsers

end Ipfi
