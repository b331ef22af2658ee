import Ipfi.Soundness

/-!
# Completed messages

Whatever methods of an interface are called on whatever identifiers, a lock that is complete stays complete, and what a
completed buffer holds stays as it is until the buffer is removed.  Together with the soundness of the buffers this is
what the `unwrap`s of these methods rely on.
-/

namespace Ipfi

variable {w : IntFeature}

open EStateM (Meets Within)

/-- The operation panics in the state. -/
def Panics {σ α : Type} (x : Op (Error w) σ α) (s : σ) : Prop := ∃ s', x.run s = .error .panicked s'

theorem Safe.not_panics {σ α : Type} {I : σ → Prop} {x : Op (Error w) σ α} (h : Safe I x) {s : σ} (hs : I s) :
    ¬ Panics x s := by
  rintro ⟨s', hr⟩
  obtain ⟨-, e, he⟩ := h.error hs hr
  cases he

namespace Interface

variable {i i' : Interface w} {n : Nat} {id id' : IpfiInteger w} {l : LockRef} {cs : List (List UInt8)}
  {m : MessageBuffer}

/-! ### Locks -/

/-- What is complete remains so. -/
structure Marks (i i' : Interface w) : Prop where
  lockCount : i.lockCount ≤ i'.lockCount
  complete : ∀ l < i.lockCount, i.locks l = .complete → i'.locks l = .complete

instance : IsPreorder (Interface w) Marks where
  refl _ := ⟨Nat.le_refl _, fun _ _ h => h⟩
  trans _ _ _ h h' := ⟨h.lockCount.trans h'.lockCount,
    fun l hl hc => h'.complete l (hl.trans_le h.lockCount) (h.complete l hl hc)⟩

theorem Marks.of_eq (h : (i'.locks, i'.lockCount) = (i.locks, i.lockCount)) : Marks i i' := by
  obtain ⟨hl, hn⟩ := Prod.mk.inj h
  exact ⟨hn.ge, fun l _ hc => hl ▸ hc⟩

theorem push_marks (i : Interface w) : Marks i i.push.2 :=
  ⟨Nat.le_succ _, fun _ hl hc => (push_locks_of_lt hl).trans hc⟩

theorem marks_serves : Serves (Marks : Interface w → Interface w → Prop) where
  setMessage _ _ _ _ := .of_eq rfl
  markComplete i l := by
    refine ⟨Nat.le_refl _, fun l' _ hc => ?_⟩
    simp only [markComplete, Function.update_apply]
    split <;> [rfl; exact hc]
  updateChan _ _ _ := .of_eq rfl
  dropSender _ _ := .of_eq rfl
  pop i id := .of_eq (by rw [pop_locks, pop_lockCount])
  getCallBuffer i key := by
    unfold Interface.getCallBuffer
    split
    · exact refl_of Marks i
    · exact ⟨(push_marks i).lockCount, (push_marks i).complete⟩
  forget _ _ := .of_eq rfl
  poison i l := by
    refine ⟨Nat.le_refl _, fun l' _ hc => ?_⟩
    simp only [poison]
    split
    · rw [Function.update_of_ne, hc]
      rintro rfl
      exact absurd (hc.symm.trans ‹_›) (by decide)
    · exact hc

theorem Waited.marks (hw : Waited i i') : Marks i i' := by
  cases hw with
  | waiting locks => exact .of_eq (Eq.refl _)
  | taken id m _ _ => exact marks_serves.pop i id
  | streamed id m hm => exact .of_eq (Eq.refl _)
  | received ch f => exact .of_eq (Eq.refl _)

theorem marks_calls : Calls (Marks : Interface w → Interface w → Prop) where
  toOperates := marks_serves.operates
  send := marks_serves.toWrites.send
  push := push_marks
  waited _ _ hw := hw.marks
  getId _ := .of_eq rfl
  relinquishId _ _ := .of_eq rfl

/-! ### Chunks -/

/-- Since the first `n` locks were made, the lock `l` is complete, and under `id` stand the chunks `cs` with this
lock, or a buffer made later, or nothing. -/
structure Frozen (n : Nat) (id : IpfiInteger w) (l : LockRef) (cs : List (List UInt8)) (i : Interface w) : Prop where
  made : n ≤ i.lockCount
  old : l < n
  lock : i.locks l = .complete
  buffer : ∀ m, i.messages.lookup id = some m → m.completeLock = l ∧ m.chunks = cs ∨ n ≤ m.completeLock

def KeepsFrozen (n : Nat) (id : IpfiInteger w) (l : LockRef) (cs : List (List UInt8)) (i i' : Interface w) : Prop :=
  Frozen n id l cs i → Frozen n id l cs i'

instance (n : Nat) (id : IpfiInteger w) (l : LockRef) (cs : List (List UInt8)) :
    IsPreorder (Interface w) (KeepsFrozen n id l cs) where
  refl _ h := h
  trans _ _ _ h h' hf := h' (h hf)

/-- The buffer stays, goes, or is replaced by one made later. -/
theorem Frozen.of (h : Frozen n id l cs i) (hm : Marks i i') (hb : ∀ m', i'.messages.lookup id = some m' →
    (∃ m, i.messages.lookup id = some m ∧ m'.completeLock = m.completeLock ∧ m'.chunks = m.chunks) ∨
      n ≤ m'.completeLock) : Frozen n id l cs i' := by
  refine ⟨h.made.trans hm.lockCount, h.old, hm.complete l (h.old.trans_le h.made) h.lock, fun m' hm' => ?_⟩
  rcases hb m' hm' with ⟨m, hlook, hl, hc⟩ | hn
  · rw [hl, hc]
    exact h.buffer m hlook
  · exact .inr hn

theorem Frozen.same (h : Frozen n id l cs i) (hm : Marks i i') (hs : i'.messages = i.messages) : Frozen n id l cs i' :=
  h.of hm fun m' hm' => .inl ⟨m', hs ▸ hm', rfl, rfl⟩

theorem Frozen.setMessage (h : Frozen n id l cs i) (hnew : id' = id → n ≤ m.completeLock) :
    Frozen n id l cs (i.setMessage id' m) := by
  refine h.of (.of_eq rfl) fun m' hm' => ?_
  rw [lookup_setMessage] at hm'
  split at hm'
  · cases hm'
    exact .inr (hnew (Eq.symm ‹_›))
  · exact .inl ⟨m', hm', rfl, rfl⟩

theorem Frozen.pop (h : Frozen n id l cs i) (id' : IpfiInteger w) : Frozen n id l cs (i.pop id').2 := by
  refine h.of (marks_serves.pop i id') fun m' hm' => ?_
  rw [lookup_pop] at hm'
  split at hm' <;> [cases hm'; exact .inl ⟨m', hm', rfl, rfl⟩]

theorem Frozen.push (h : Frozen n id l cs i) : Frozen n id l cs i.push.2 := by
  refine h.of (push_marks i) fun m' hm' => ?_
  rw [lookup_push] at hm'
  split at hm'
  · cases hm'
    exact .inr h.made
  · exact .inl ⟨m', hm', rfl, rfl⟩

theorem Frozen.waited (h : Frozen n id l cs i) (hw : Waited i i') : Frozen n id l cs i' := by
  have hm := hw.marks
  cases hw with
  | waiting locks => exact h.same hm rfl
  | taken id' m _ _ => exact h.pop id'
  | streamed id' m hlook =>
    refine h.of hm fun m' hm' => .inl ?_
    rw [show Interface.messages _ = i.messages.insert id' _ from rfl, AList.lookup_insert_eq] at hm'
    split at hm'
    · subst_vars
      cases hm'
      exact ⟨m, hlook, rfl, rfl⟩
    · exact ⟨m', hm', rfl, rfl⟩
  | received ch f => exact h.same hm rfl

/-- A buffer that can be written to is not the completed one. -/
private theorem openMessage_frozen (id' : IpfiInteger w) :
    Meets (Frozen n id l cs) (openMessage id') (fun m i => (id' = id → n ≤ m.completeLock) ∧ Frozen n id l cs i)
      fun _ => Frozen n id l cs := by
  intro i hi
  cases hm : i.messages.lookup id' with
  | none =>
    rw [show (openMessage id').run i = .error (.error (.outOfBounds id')) i by simp [openMessage, hm]]
    exact hi
  | some m =>
    by_cases hl : i.locks m.completeLock = .complete
    · rw [show (openMessage id').run i = .error (.error (.alreadyCompleted id')) i by simp [openMessage, hm, hl]]
      exact hi
    · rw [openMessage_run hm hl]
      refine ⟨fun he => (hi.buffer m (he ▸ hm)).resolve_left fun hs => hl ?_, hi⟩
      exact hs.1 ▸ hi.lock

private theorem unwrap_frozen {α : Type} (o : Option α) : Meets (Frozen n id l cs)
    (unwrap o : Op (Error w) (Interface w) α) (fun _ => Frozen n id l cs) fun _ => Frozen n id l cs :=
  .unwrap_or (fun _ _ _ h => h) fun _ h => h

private theorem sendChunk_frozen (ch : ChanRef) (chunk : List UInt8) : Meets (Frozen n id l cs)
    (modifyGet fun i => i.sendChunk ch chunk : Op (Error w) (Interface w) _) (fun _ => Frozen n id l cs)
      fun _ => Frozen n id l cs :=
  .modifyGet fun _ h => h.same (.of_eq rfl) rfl

private theorem send_frozen (datum : Int8) (id' : IpfiInteger w) : Meets (Frozen n id l cs)
    (send datum id') (fun _ => Frozen n id l cs) fun _ => Frozen n id l cs := by
  refine (openMessage_frozen id').bind fun m => .of_and fun hnew => .ite (fun _ => ?_) fun _ => ?_
  · exact .bind (Q := fun _ => Frozen n id l cs) (.modify fun i h => h.same (marks_serves.markComplete i _) rfl)
      fun _ =>
      .pure fun _ h => h
  · exact (unwrap_frozen _).bind fun _ => .bind (Q := fun _ => Frozen n id l cs) (.modify fun _ h => h.setMessage hnew)
      fun _ => .pure fun _ h => h

private theorem terminateMessage_frozen (id' : IpfiInteger w) : Meets (Frozen n id l cs)
    (terminateMessage id') (fun _ => Frozen n id l cs) fun _ => Frozen n id l cs := by
  refine (openMessage_frozen id').bind fun m => .of_and fun hnew => ?_
  refine .bind (Q := fun _ => Frozen n id l cs)
    (.modify fun i h => h.same (marks_serves.markComplete i _) rfl) fun _ => ?_
  split
  · exact .pure fun _ h => h
  · refine (unwrap_frozen _).bind fun c => (unwrap_frozen _).bind fun ch => (sendChunk_frozen ch c).bind fun sent => ?_
    refine .ite (fun _ => ?_) fun _ => ?_
    · exact .bind (Q := fun _ => Frozen n id l cs) (.modify fun _ h => h.setMessage hnew) fun _ =>
        .modify fun _ h => h.pop id'
    · exact .bind (Q := fun _ => Frozen n id l cs) (.modify fun _ h => h.setMessage hnew) fun _ =>
        .modify fun _ h => h.same (.of_eq rfl) rfl

private theorem terminateChunk_frozen (id' : IpfiInteger w) : Meets (Frozen n id l cs)
    (terminateChunk id') (fun _ => Frozen n id l cs) fun _ => Frozen n id l cs := by
  refine (openMessage_frozen id').bind fun m => .of_and fun hnew => ?_
  split
  · exact .modify fun _ h => h.setMessage hnew
  · refine (unwrap_frozen _).bind fun c => (unwrap_frozen _).bind fun ch => (sendChunk_frozen ch c).bind fun sent => ?_
    exact .ite (fun _ => .modify fun _ h => h.setMessage hnew) fun _ => .modify fun _ h => h.setMessage hnew

theorem frozen_calls : Calls (KeepsFrozen n id l cs : Interface w → Interface w → Prop) where
  sendMany data id' _ := Meets.state <| (openMessage_frozen id').bind fun _ => .of_and fun hnew =>
    (unwrap_frozen _).bind fun _ => .modify fun _ h => h.setMessage (by exact hnew)
  terminateMessage id' _ := (terminateMessage_frozen id').state
  terminateChunk id' _ := (terminateChunk_frozen id').state
  pop _ id' h := h.pop id'
  getCallBuffer i key h := by
    unfold Interface.getCallBuffer
    split
    · exact h
    · exact h.push.same (.of_eq rfl) rfl
  forget _ _ h := h.same (.of_eq rfl) rfl
  poison i l' h := h.same (marks_serves.poison i l') rfl
  send datum id' _ := (send_frozen datum id').state
  push _ h := h.push
  waited _ _ hw h := h.waited hw
  getId _ h := h.same (.of_eq rfl) rfl
  relinquishId _ _ h := h.same (.of_eq rfl) rfl

/-! ### Whole runs -/

/-- What can happen to the message buffers of an interface. -/
inductive Operation (w : IntFeature)
  | method (f : Method w)
  | getCallBuffer (key : CallKey w)
  | poison (l : LockRef)
  | addProcedure (p : ProcedureIndex w) (procedure : Procedure w)

def operate (i : Interface w) : Operation w → Interface w
  | .method f => i.call f
  | .getCallBuffer key => (i.getCallBuffer key).2
  | .poison l => i.poison l
  | .addProcedure p procedure => i.addProcedure p procedure

def operateAll (i : Interface w) (ops : List (Operation w)) : Interface w := ops.foldl operate i

theorem Calls.operateAll {R : Interface w → Interface w → Prop} [IsPreorder _ R] (h : Calls R)
    (hadd : ∀ i p procedure, R i (i.addProcedure p procedure)) (i : Interface w) (ops : List (Operation w)) :
    R i (i.operateAll ops) := by
  induction ops generalizing i with
  | nil => exact refl_of R i
  | cons op ops ih =>
    refine trans_of R ?_ (ih (i.operate op))
    cases op with
    | method f => exact h.call i f
    | getCallBuffer key => exact h.getCallBuffer i key
    | poison l => exact h.poison i l
    | addProcedure p procedure => exact hadd i p procedure

theorem operateAll_sound (h : i.Sound) (ops : List (Operation w)) : (i.operateAll ops).Sound :=
  sound_calls.operateAll (fun _ _ _ h => h) i ops h

/-- What was complete in `i` is complete in `i'`, and a buffer that was complete has its chunks as long as it is
there. -/
structure Retains (i i' : Interface w) : Prop where
  lock : ∀ l < i.lockCount, i.locks l = .complete → i'.locks l = .complete
  chunks : ∀ id m m', i.messages.lookup id = some m → i.locks m.completeLock = .complete →
    i'.messages.lookup id = some m' →
      m'.completeLock = m.completeLock ∧ m'.chunks = m.chunks ∨ i.lockCount ≤ m'.completeLock

/-- No operation finds a chunk or a sender missing. -/
structure Unwraps (i : Interface w) : Prop where
  send : ∀ datum id, ¬ Panics (send datum id) i
  sendMany : ∀ data id, ¬ Panics (sendMany data id) i
  terminateChunk : ∀ id, ¬ Panics (terminateChunk id) i
  terminateMessage : ∀ id, ¬ Panics (terminateMessage id) i
  callProcedure : ∀ p c id yielder x, ¬ Panics (Site.callProcedure p c id yielder) ⟨i, x⟩
  getRaw : ∀ id chunks i', (getRaw id).run i = .ok chunks i' → chunks ≠ []

theorem operateAll_retains (h : i.Sound) (ops : List (Operation w)) : Retains i (i.operateAll ops) := by
  have hmarks : Marks i (i.operateAll ops) := marks_calls.operateAll (fun _ _ _ => .of_eq rfl) i ops
  refine ⟨hmarks.complete, fun id m m' hm hl hm' => ?_⟩
  have hfrozen : Frozen i.lockCount id m.completeLock m.chunks i :=
    ⟨Nat.le_refl _, (h id m hm).lock_lt, hl, fun m₁ hm₁ => .inl (by cases hm.symm.trans hm₁; exact ⟨rfl, rfl⟩)⟩
  exact (frozen_calls.operateAll (fun _ _ _ hf => hf.same (.of_eq rfl) rfl) i ops hfrozen).buffer m' hm'

theorem Sound.unwraps (h : i.Sound) : i.Unwraps where
  send datum id := (send_safe datum id).not_panics h
  sendMany data id := (sendMany_safe data id).not_panics h
  terminateChunk id := (terminateChunk_safe id).not_panics h
  terminateMessage id := (terminateMessage_safe id).not_panics h
  callProcedure p c id yielder x := (Site.callProcedure_safe p c id yielder).not_panics (s := ⟨i, x⟩) h
  getRaw id chunks i' hr := by
    rcases waitForMessage_cases i id with ⟨m, hm, hl, -⟩ | ⟨e, locks, hr'⟩
    · rw [getRaw_run hm hl] at hr
      cases hr
      exact (h id m hm).chunks_ne
    · rw [Interface.getRaw, EStateM.run_bind_error hr'] at hr
      cases hr

/-- After any operations on any identifiers every buffer has a chunk and only a completed one has lost its sender;
what is complete stays so, with the chunks it has, whatever comes then; and nothing that an operation unwraps is
missing. -/
theorem completed_stays (ops : List (Operation w)) :
    let i := (new : Interface w).operateAll ops
    (∀ id m, i.messages.lookup id = some m →
      m.chunks ≠ [] ∧ (m.sender = some none → i.locks m.completeLock = .complete)) ∧
    (∀ ops', Retains i (i.operateAll ops')) ∧ i.Unwraps := by
  have h : ((new : Interface w).operateAll ops).Sound := operateAll_sound new_sound ops
  exact ⟨fun id m hm => ⟨(h id m hm).chunks_ne, (h id m hm).sender_gone⟩, operateAll_retains h, h.unwraps⟩

end Interface

end Ipfi
