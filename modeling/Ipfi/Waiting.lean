import Ipfi.MessageStore

/-!
# Waiting for messages

What the operations on a complete message do, and what they leave alone: no buffer that can be written to is completed
or deleted by them, whichever identifier they are used with.
-/

namespace Ipfi

variable {w : IntFeature}

namespace Interface

variable {i i' i'' : Interface w} {id id' : IpfiInteger w} {m : MessageBuffer}

/-! ### Waiting operations -/

/-- An interface in which only the locks on the creation of messages have changed. -/
def withCreationLocks (i : Interface w) (locks : FinMap (IpfiInteger w) CompleteLockState) : Interface w :=
  { i with creationLocks := locks }

theorem withCreationLocks_edits (h : i.WellFormed) (locks : FinMap (IpfiInteger w) CompleteLockState)
    (id : IpfiInteger w) : Edits i (i.withCreationLocks locks) id :=
  ⟨h.congr (Eq.refl _) (Eq.refl _) (Nat.le_refl _) (Nat.le_refl _) fun _ h => h,
    fun _ _ _ hm => ⟨hm, Eq.refl _, fun _ _ => Eq.refl _⟩, .of_eq (Eq.refl _), fun hm => ⟨_, hm, Eq.refl _⟩⟩

theorem waitForMessage_run (hm : i.messages.lookup id = some m) (hl : i.locks m.completeLock = .complete) :
    (waitForMessage id).run i = .ok m i := by
  have hmem : id ∈ i.messages := AList.mem_of_lookup hm
  simp [waitForMessage, waitForMessageCreation, waitForCompletion, hmem, hm, hl]

theorem waitForMessage_run_incomplete (hm : i.messages.lookup id = some m)
    (hl : i.locks m.completeLock = .incomplete) : (waitForMessage id).run i = .error .blocked i := by
  have hmem : id ∈ i.messages := AList.mem_of_lookup hm
  simp [waitForMessage, waitForMessageCreation, waitForCompletion, hmem, hm, hl]

theorem waitForMessage_run_poisoned (hm : i.messages.lookup id = some m)
    (hl : i.locks m.completeLock = .poisoned) :
    (waitForMessage id).run i = .error (.error (.lockPoisoned id)) i := by
  have hmem : id ∈ i.messages := AList.mem_of_lookup hm
  simp [waitForMessage, waitForMessageCreation, waitForCompletion, hmem, hm, hl]

private theorem waitForMessageCreation_absent (hm : i.messages.lookup id = none) :
    ∃ locks, (waitForMessageCreation id).run i = .ok () (i.withCreationLocks locks) ∨
      ∃ e, (waitForMessageCreation id).run i = .error e (i.withCreationLocks locks) := by
  have hmem : id ∉ i.messages := AList.lookup_eq_none.1 hm
  match hl : i.creationLocks.lookup id with
  | none => exact ⟨_, .inr ⟨.blocked, by simp [waitForMessageCreation, hmem, hl]; rfl⟩⟩
  | some .incomplete => exact ⟨i.creationLocks, .inr ⟨.blocked, by simp [waitForMessageCreation, hmem, hl]; rfl⟩⟩
  | some .poisoned =>
    exact ⟨i.creationLocks, .inr ⟨.error (.lockPoisoned id), by simp [waitForMessageCreation, hmem, hl]; rfl⟩⟩
  | some .complete => exact ⟨_, .inl (by simp [waitForMessageCreation, hmem, hl]; rfl)⟩

/-- Waiting for a message returns it once it is complete, and otherwise changes at most a creation lock. -/
theorem waitForMessage_cases (i : Interface w) (id : IpfiInteger w) :
    (∃ m, i.messages.lookup id = some m ∧ i.locks m.completeLock = .complete ∧
      (waitForMessage id).run i = .ok m i) ∨
    ∃ e locks, (waitForMessage id).run i = .error e (i.withCreationLocks locks) := by
  cases hm : i.messages.lookup id with
  | some m =>
    cases hl : i.locks m.completeLock with
    | complete => exact .inl ⟨m, Eq.refl _, hl, waitForMessage_run hm hl⟩
    | incomplete => exact .inr ⟨_, i.creationLocks, waitForMessage_run_incomplete hm hl⟩
    | poisoned => exact .inr ⟨_, i.creationLocks, waitForMessage_run_poisoned hm hl⟩
  | none =>
    obtain ⟨locks, hok | ⟨e, herr⟩⟩ := waitForMessageCreation_absent hm
    · refine .inr ⟨.panicked, locks, ?_⟩
      rw [waitForMessage, EStateM.run_bind_ok hok]
      simp [withCreationLocks, hm]
    · exact .inr ⟨e, locks, by rw [waitForMessage, EStateM.run_bind_error herr]⟩

theorem getRaw_run (hm : i.messages.lookup id = some m) (hl : i.locks m.completeLock = .complete) :
    (getRaw id).run i = .ok m.chunks (i.pop id).2 := by
  rw [getRaw, EStateM.run_bind_ok (waitForMessage_run hm hl)]
  simp [pop_eq hm]

theorem getChunkStream_run (hm : i.messages.lookup id = some m) :
    (getChunkStream id).run i = .ok { rx := i.chanCount, completeLock := m.completeLock, messageId := id }
      ((i.openChan.2.setMessage id { m with sender := some (some i.chanCount) }).dropSender m.sender) := by
  have hmem : id ∈ i.messages := AList.mem_of_lookup hm
  simp [getChunkStream, waitForMessageCreation, hmem, hm, openChan]

theorem getChunkStream_absent (hm : i.messages.lookup id = none) :
    ∃ e locks, (getChunkStream id).run i = .error e (i.withCreationLocks locks) := by
  obtain ⟨locks, hok | ⟨e, herr⟩⟩ := waitForMessageCreation_absent hm
  · refine ⟨.panicked, locks, ?_⟩
    rw [getChunkStream, EStateM.run_bind_ok hok]
    simp [withCreationLocks, hm]
  · exact ⟨e, locks, by rw [getChunkStream, EStateM.run_bind_error herr]⟩

/-! ### Steps that keep open buffers open -/

/-- The buffer, as long as it can be written to, keeps its chunks and its lock. -/
def Stays (i i' : Interface w) (id : IpfiInteger w) : Prop :=
  ∀ m, i.messages.lookup id = some m → i.locks m.completeLock ≠ .complete →
    ∃ m', i'.messages.lookup id = some m' ∧ m'.chunks = m.chunks ∧ m'.completeLock = m.completeLock ∧
      i'.locks m.completeLock = i.locks m.completeLock

theorem Same.stays (h : Same i i' id) : Stays i i' id := fun m hm _ =>
  ⟨m, (h m hm).1, Eq.refl _, Eq.refl _, (h m hm).2.1⟩

theorem Stays.rfl : Stays i i id := Same.rfl.stays

theorem Stays.trans (h : Stays i i' id) (h' : Stays i' i'' id) : Stays i i'' id := by
  intro m hm hl
  obtain ⟨m', hm', hc, hlock, hl'⟩ := h m hm hl
  obtain ⟨m'', hm'', hc', hlock', hl''⟩ := h' m' hm' (by rwa [hlock, hl'])
  refine ⟨m'', hm'', hc'.trans hc, hlock'.trans hlock, ?_⟩
  rw [← hl', ← hlock, hl'']

theorem Stays.open (h : Stays i i' id) (ho : i.Open id) : i'.Open id := by
  obtain ⟨m, hm, hl⟩ := ho
  obtain ⟨m', hm', -, hlock, hl'⟩ := h m hm hl
  exact ⟨m', hm', by rwa [hlock, hl']⟩

/-- A step that completes and deletes no buffer that can be written to, and adds nothing to it. -/
def Preserves (i i' : Interface w) : Prop :=
  i.WellFormed → Evolves i i' (fun _ => True) ∧ ∀ id, Stays i i' id

theorem withCreationLocks_preserves (i : Interface w) (locks : FinMap (IpfiInteger w) CompleteLockState) :
    Preserves i (i.withCreationLocks locks) :=
  fun h => ⟨(withCreationLocks_edits h locks 0).evolves.mono fun _ _ => trivial, fun _ => Stays.rfl (i := i)⟩

theorem poison_open (l : LockRef) (ho : i.Open id) : (i.poison l).Open id := by
  obtain ⟨m, hm, hl⟩ := ho
  refine ⟨m, hm, ?_⟩
  show (if i.locks l = .incomplete then Function.update i.locks l .poisoned else i.locks) m.completeLock ≠ .complete
  split
  · rw [Function.update_apply]
    split <;> [decide; exact hl]
  · exact hl

/-- Poisoning changes nothing but locks. -/
theorem foldl_poison_eq (ls : List LockRef) (i : Interface w) :
    ∃ locks, ls.foldl poison i = { i with locks := locks } := by
  induction ls generalizing i with
  | nil => exact ⟨i.locks, Eq.refl _⟩
  | cons l ls ih =>
    obtain ⟨locks, h⟩ := ih (i.poison l)
    exact ⟨locks, h⟩

/-- Only incomplete locks are poisoned. -/
theorem foldl_poison_locks (ls : List LockRef) (i : Interface w) (l : LockRef) :
    (ls.foldl poison i).locks l = if l ∈ ls ∧ i.locks l = .incomplete then .poisoned else i.locks l := by
  induction ls generalizing i with
  | nil => simp
  | cons l' ls ih =>
    have hone : (i.poison l').locks l = if l = l' ∧ i.locks l = .incomplete then .poisoned else i.locks l := by
      simp only [poison]
      by_cases hl : l = l'
      · subst hl
        split <;> simp [*]
      · split <;> simp [hl]
    rw [List.foldl_cons, ih, hone]
    by_cases hinc : i.locks l = .incomplete
    · by_cases hl : l = l'
      · subst hl
        simp [hinc]
      · simp [hl, hinc]
    · simp [hinc]

/-- What is poisoned is no longer incomplete. -/
theorem foldl_poison_ne_incomplete (locks : List LockRef) (i : Interface w) {l : LockRef}
    (h : l ∈ locks ∨ i.locks l ≠ .incomplete) : (locks.foldl poison i).locks l ≠ .incomplete := by
  rw [foldl_poison_locks]
  split
  · decide
  · rename_i hne
    intro hinc
    exact hne ⟨h.resolve_right (by simp [hinc]), hinc⟩

theorem updateChan_preserves (i : Interface w) (ch : ChanRef) (f : Chan → Chan) : Preserves i (i.updateChan ch f) :=
  fun h => ⟨⟨updateChan_wellFormed h ch f, .of_eq (Eq.refl _), fun _ hid => absurd trivial hid,
    fun hm => .inl ⟨_, hm, Eq.refl _⟩⟩, fun _ => Stays.rfl (i := i)⟩

/-- A complete message may be deleted. -/
theorem pop_preserves (hm : i.messages.lookup id = some m) (hl : i.locks m.completeLock = .complete) :
    Preserves i (i.pop id).2 := by
  refine fun h => ⟨(pop_edits h id).evolves.mono fun _ _ => trivial, fun id' m' hm' hl' => ?_⟩
  have hne : id' ≠ id := by
    rintro rfl
    cases hm.symm.trans hm'
    exact hl' hl
  exact (pop_same h hne).stays m' hm' hl'

/-! ### What waiting does -/

/-- The steps that the operations on a message take which do not write to it. -/
inductive Waited (i : Interface w) : Interface w → Prop
  | waiting (locks : FinMap (IpfiInteger w) CompleteLockState) : Waited i (i.withCreationLocks locks)
  | taken (id : IpfiInteger w) (m : MessageBuffer) : i.messages.lookup id = some m →
      i.locks m.completeLock = .complete → Waited i (i.pop id).2
  | streamed (id : IpfiInteger w) (m : MessageBuffer) : i.messages.lookup id = some m →
      Waited i ((i.openChan.2.setMessage id { m with sender := some (some i.chanCount) }).dropSender m.sender)
  | received (ch : ChanRef) (f : Chan → Chan) : Waited i (i.updateChan ch f)

theorem Waited.rfl : Waited i i := .waiting i.creationLocks

theorem waitForMessage_waited (i : Interface w) (id : IpfiInteger w) : Waited i ((waitForMessage id).run i).state := by
  rcases waitForMessage_cases i id with ⟨m, -, -, hr⟩ | ⟨e, locks, hr⟩ <;> rw [hr]
  · exact .rfl
  · exact .waiting locks

theorem getRaw_waited (i : Interface w) (id : IpfiInteger w) : Waited i ((getRaw id).run i).state := by
  rcases waitForMessage_cases i id with ⟨m, hm, hl, hr⟩ | ⟨e, locks, hr⟩
  · rw [getRaw_run hm hl]
    exact .taken id m hm hl
  · rw [getRaw, EStateM.run_bind_error hr]
    exact .waiting locks

theorem getTyped_waited (decodes : List UInt8 → Bool) (i : Interface w) (id : IpfiInteger w) :
    Waited i ((getTyped decodes id).run i).state := by
  have hraw := getRaw_waited i id
  refine EStateM.state_bind (fun e i' hr => ?_) fun chunks i' hr => ?_
  · rwa [hr] at hraw
  · rw [hr] at hraw
    cases chunks.head? with
    | none => exact hraw
    | some chunk =>
      simp only [EStateM.run_bind, EStateM.run_unwrap_some]
      split <;> exact hraw

theorem getChunks_waited (decodes : List UInt8 → Bool) (i : Interface w) (id : IpfiInteger w) :
    Waited i ((getChunks decodes id).run i).state := by
  rcases waitForMessage_cases i id with ⟨m, hm, hl, hr⟩ | ⟨e, locks, hr⟩
  · rw [getChunks, EStateM.run_bind_ok hr]
    split
    · exact .rfl
    · have hpop : Waited i (i.pop id).2 := .taken id m hm hl
      simp only [EStateM.run_bind, EStateM.run_modifyGet, pop_eq hm, EStateM.run_unwrap_some] at hpop ⊢
      split <;> exact hpop
  · rw [getChunks, EStateM.run_bind_error hr]
    exact .waiting locks

theorem getChunkStream_waited (i : Interface w) (id : IpfiInteger w) :
    Waited i ((getChunkStream id).run i).state := by
  cases hm : i.messages.lookup id with
  | none =>
    obtain ⟨e, locks, hr⟩ := getChunkStream_absent hm
    rw [hr]
    exact .waiting locks
  | some m =>
    rw [getChunkStream_run hm]
    exact .streamed id m hm

theorem recvRaw_state (i : Interface w) (r : ChunkReceiver w) :
    (r.recvRaw.run i).state = i.updateChan r.rx fun c => { c with queue := c.queue.tail } := by
  simp only [ChunkReceiver.recvRaw, EStateM.run_bind, EStateM.run_get, EStateM.run_modifyGet]
  cases (i.takeChunk r.rx).1 <;> simp only <;> split <;> (try split) <;> rfl

theorem recvRaw_waited (i : Interface w) (r : ChunkReceiver w) : Waited i (r.recvRaw.run i).state := by
  rw [recvRaw_state]
  exact .received _ _

private theorem openStream_preserves (hm : i.messages.lookup id = some m) : Preserves i
    ((i.openChan.2.setMessage id { m with sender := some (some i.chanCount) }).dropSender m.sender) := by
  intro h
  have hopen : i.openChan.2.WellFormed := h.congr (Eq.refl _) (Eq.refl _) (Nat.le_refl _) (Nat.le_succ _) fun _ h => h
  have hset : (i.openChan.2.setMessage id { m with sender := some (some i.chanCount) }).WellFormed := by
    refine setMessage_wellFormed hopen hm (Eq.refl _) (show m.chunks ≠ [] from h.chunks_ne hm) (fun ch hch => ?_)
      (fun hn => by simp at hn)
    obtain rfl : i.chanCount = ch := by simpa using hch
    exact ⟨Nat.lt_succ_self _, fun h₁ h₂ => absurd (h.chan_lt h₁ h₂) (Nat.lt_irrefl _)⟩
  have hlater : Later i ((i.openChan.2.setMessage id { m with sender := some (some i.chanCount) }).dropSender
    m.sender) :=
    ⟨Eq.refl _, Eq.refl _, Nat.le_refl _, Nat.le_succ _⟩
  refine ⟨⟨dropSender_wellFormed hset _, hlater, fun _ hid => absurd trivial hid, fun hm' => .inl ?_⟩, ?_⟩
  · exact kept_setMessage (i := i.openChan.2) hm { m with sender := some (some i.chanCount) } (Eq.refl _) hm'
  · intro id' m' hm' hl
    by_cases hid : id' = id
    · subst hid
      cases hm.symm.trans hm'
      exact ⟨_, (lookup_setMessage _ _ _ _).trans (if_pos (Eq.refl _)), Eq.refl _, Eq.refl _, Eq.refl _⟩
    · exact ⟨m', (lookup_setMessage _ _ _ _).trans ((if_neg hid).trans hm'), Eq.refl _, Eq.refl _, Eq.refl _⟩

theorem Waited.steady (h : Waited i i') : Steady i i' := by
  cases h with
  | waiting locks => exact .of_eq (Eq.refl _)
  | taken id m _ _ => exact pop_steady i id
  | streamed id m _ => exact ⟨⟨Eq.refl _, Eq.refl _, Nat.le_refl _, Nat.le_succ _⟩, Eq.refl _⟩
  | received ch f => exact .of_eq (Eq.refl _)

theorem Waited.preserves (h : Waited i i') : Preserves i i' := by
  cases h with
  | waiting locks => exact withCreationLocks_preserves i locks
  | taken id m hm hl => exact pop_preserves hm hl
  | streamed id m hm => exact openStream_preserves hm
  | received ch f => exact updateChan_preserves i ch f

end Interface

end Ipfi
