import Ipfi.InterfaceFrames

/-!
# The message store of an interface

What the operations on message buffers do, case by case, and the invariant of the store: identifiers in use are the
allocated ones, no two buffers share a completion lock or a channel, every buffer has a chunk, and only a completed
buffer has lost its sender.  `Same i i' id` says that a step from `i` to `i'` leaves the buffer `id` alone.
-/

namespace Ipfi

variable {w : IntFeature}

namespace Interface

variable {i i' i'' : Interface w} {id id' : IpfiInteger w} {m m' : MessageBuffer}

/-! ### Chunk lists -/

theorem extendLast_concat (cs : List (List UInt8)) (c data : List UInt8) :
    extendLast (cs ++ [c]) data = some (cs ++ [c ++ data]) := by
  induction cs with
  | nil => rfl
  | cons d cs ih =>
    cases cs with
    | nil => rfl
    | cons e cs => simp only [List.cons_append, extendLast] at ih ⊢; rw [ih]; rfl

theorem extendLast_singleton (c data : List UInt8) : extendLast [c] data = some [c ++ data] := rfl

private theorem exists_concat {cs : List (List UInt8)} (h : cs ≠ []) : ∃ ds c, cs = ds ++ [c] :=
  ⟨cs.dropLast, cs.getLast h, (List.dropLast_append_getLast h).symm⟩

theorem exists_extendLast {cs : List (List UInt8)} (h : cs ≠ []) (data : List UInt8) :
    ∃ cs', extendLast cs data = some cs' ∧ cs' ≠ [] := by
  obtain ⟨ds, c, rfl⟩ := exists_concat h
  exact ⟨_, extendLast_concat ds c data, by simp⟩

/-! ### The invariant -/

structure WellFormed (i : Interface w) : Prop where
  inUse : i.messageIdQueue.InUse (· ∈ i.messages)
  lock_lt : ∀ {id m}, i.messages.lookup id = some m → m.completeLock < i.lockCount
  lock_inj : ∀ {id id' m m'}, i.messages.lookup id = some m → i.messages.lookup id' = some m' →
    m.completeLock = m'.completeLock → id = id'
  chan_lt : ∀ {id m ch}, i.messages.lookup id = some m → m.sender = some (some ch) → ch < i.chanCount
  chan_inj : ∀ {id id' m m' ch}, i.messages.lookup id = some m → i.messages.lookup id' = some m' →
    m.sender = some (some ch) → m'.sender = some (some ch) → id = id'
  chunks_ne : ∀ {id m}, i.messages.lookup id = some m → m.chunks ≠ []
  sender_gone : ∀ {id m}, i.messages.lookup id = some m → m.sender = some none →
    i.locks m.completeLock = .complete

/-- A buffer that is there and can be written to. -/
def Open (i : Interface w) (id : IpfiInteger w) : Prop :=
  ∃ m, i.messages.lookup id = some m ∧ i.locks m.completeLock ≠ .complete

/-- The buffer `id`, its completion state and its channel are the same in `i'` as in `i`. -/
def Same (i i' : Interface w) (id : IpfiInteger w) : Prop :=
  ∀ m, i.messages.lookup id = some m → i'.messages.lookup id = some m ∧
    i'.locks m.completeLock = i.locks m.completeLock ∧
    ∀ ch, m.sender = some (some ch) → i'.chans ch = i.chans ch

theorem Same.rfl : Same i i id := fun _ h => ⟨h, Eq.refl _, fun _ _ => Eq.refl _⟩

theorem Same.trans (h : Same i i' id) (h' : Same i' i'' id) : Same i i'' id := by
  intro m hm
  obtain ⟨hm', hl, hc⟩ := h m hm
  obtain ⟨hm'', hl', hc'⟩ := h' m hm'
  exact ⟨hm'', hl'.trans hl, fun ch hch => (hc' ch hch).trans (hc ch hch)⟩

theorem Same.open (h : Same i i' id) (ho : i.Open id) : i'.Open id := by
  obtain ⟨m, hm, hl⟩ := ho
  obtain ⟨hm', hl', -⟩ := h m hm
  exact ⟨m, hm', by rwa [hl']⟩

theorem Open.mem (h : i.Open id) : id ∈ i.messages := by
  obtain ⟨m, hm, -⟩ := h
  exact AList.mem_of_lookup hm

theorem new_wellFormed : (new : Interface w).WellFormed where
  inUse := RoiQueue.new_inUse.congr fun _ => by simp [new]
  lock_lt h := by simp [new] at h
  lock_inj h := by simp [new] at h
  chan_lt h := by simp [new] at h
  chan_inj h := by simp [new] at h
  chunks_ne h := by simp [new] at h
  sender_gone h := by simp [new] at h

/-- The invariant depends on the buffers, the identifiers and the locks only. -/
theorem WellFormed.congr (h : i.WellFormed) (hq : i'.messageIdQueue = i.messageIdQueue)
    (hm : i'.messages = i.messages) (hl : i.lockCount ≤ i'.lockCount) (hc : i.chanCount ≤ i'.chanCount)
    (hs : ∀ l, i.locks l = .complete → i'.locks l = .complete) : i'.WellFormed where
  inUse := by rw [hq, hm]; exact h.inUse
  lock_lt hm' := (h.lock_lt (hm ▸ hm')).trans_le hl
  lock_inj h₁ h₂ := h.lock_inj (hm ▸ h₁) (hm ▸ h₂)
  chan_lt h₁ hch := (h.chan_lt (hm ▸ h₁) hch).trans_le hc
  chan_inj h₁ h₂ := h.chan_inj (hm ▸ h₁) (hm ▸ h₂)
  chunks_ne h₁ := h.chunks_ne (hm ▸ h₁)
  sender_gone h₁ hn := hs _ (h.sender_gone (hm ▸ h₁) hn)

/-! ### Locks and channels -/

theorem markComplete_wellFormed (h : i.WellFormed) (l : LockRef) : (i.markComplete l).WellFormed := by
  refine h.congr rfl rfl (Nat.le_refl _) (Nat.le_refl _) fun l' hl' => ?_
  simp only [markComplete, Function.update_apply]
  split <;> [rfl; exact hl']

theorem markComplete_same (h : i.WellFormed) (hm : i.messages.lookup id = some m) (hne : id' ≠ id) :
    Same i (i.markComplete m.completeLock) id' := by
  intro m' hm'
  refine ⟨hm', ?_, fun _ _ => rfl⟩
  exact Function.update_of_ne (fun he => hne (h.lock_inj hm' hm he)) _ _

theorem poison_wellFormed (h : i.WellFormed) (l : LockRef) : (i.poison l).WellFormed := by
  refine h.congr rfl rfl (Nat.le_refl _) (Nat.le_refl _) fun l' hl' => ?_
  simp only [poison]
  split
  · rw [Function.update_of_ne]
    · exact hl'
    · rintro rfl; simp_all
  · exact hl'

theorem updateChan_wellFormed (h : i.WellFormed) (ch : ChanRef) (f : Chan → Chan) :
    (i.updateChan ch f).WellFormed :=
  h.congr rfl rfl (Nat.le_refl _) (Nat.le_refl _) fun _ => id

theorem dropSender_wellFormed (h : i.WellFormed) (s : Option (Option ChanRef)) : (i.dropSender s).WellFormed :=
  h.congr rfl rfl (Nat.le_refl _) (Nat.le_refl _) fun _ => id

theorem closeSender_of_ne {chans : ChanRef → Chan} {s : Option (Option ChanRef)} {ch : ChanRef}
    (h : s ≠ some (some ch)) : closeSender chans s ch = chans ch := by
  unfold closeSender
  split
  · exact Function.update_of_ne (by rintro rfl; exact h rfl) _ _
  · rfl

/-! ### Allocating and deleting -/

theorem push_notMem (h : i.WellFormed) (hroom : i.messages.size < 2 ^ w.bits) : i.push.1 ∉ i.messages := by
  have hcard : i.messages.keySet.card < 2 ^ w.bits := by rwa [AList.card_keySet]
  exact (RoiQueue.get_inUse h.inUse (fun _ => AList.mem_keySet) hcard).1

theorem lookup_push (i : Interface w) (id : IpfiInteger w) :
    i.push.2.messages.lookup id =
      if id = i.push.1 then some { chunks := [[]], completeLock := i.lockCount, sender := none }
      else i.messages.lookup id :=
  AList.lookup_insert_eq _ _ _ _

theorem push_locks_self (i : Interface w) : i.push.2.locks i.lockCount = .incomplete :=
  Function.update_self ..

theorem push_locks_of_lt {l : LockRef} (hl : l < i.lockCount) : i.push.2.locks l = i.locks l :=
  Function.update_of_ne (Nat.ne_of_lt hl) _ _

theorem push_wellFormed (h : i.WellFormed) (hroom : i.messages.size < 2 ^ w.bits) : i.push.2.WellFormed := by
  have hcard : i.messages.keySet.card < 2 ^ w.bits := by rwa [AList.card_keySet]
  have hget := (RoiQueue.get_inUse h.inUse (fun _ => AList.mem_keySet) hcard).2
  constructor
  · exact hget.congr fun id => (AList.mem_insert _).symm
  · intro id m hm
    rw [lookup_push] at hm
    split at hm
    · cases hm; exact Nat.lt_succ_self _
    · exact (h.lock_lt hm).trans (Nat.lt_succ_self _)
  · intro id id' m m' hm hm' he
    rw [lookup_push] at hm hm'
    split at hm <;> split at hm'
    · subst_vars; rfl
    · cases hm; exact absurd he.symm (Nat.ne_of_lt (h.lock_lt hm'))
    · cases hm'; exact absurd he (Nat.ne_of_lt (h.lock_lt hm))
    · exact h.lock_inj hm hm' he
  · intro id m ch hm hch
    rw [lookup_push] at hm
    split at hm
    · cases hm; cases hch
    · exact h.chan_lt hm hch
  · intro id id' m m' ch hm hm' hch hch'
    rw [lookup_push] at hm hm'
    split at hm <;> split at hm'
    · subst_vars; rfl
    · cases hm; cases hch
    · cases hm'; cases hch'
    · exact h.chan_inj hm hm' hch hch'
  · intro id m hm
    rw [lookup_push] at hm
    split at hm
    · cases hm; simp
    · exact h.chunks_ne hm
  · intro id m hm hn
    rw [lookup_push] at hm
    split at hm
    · cases hm; cases hn
    · rw [push_locks_of_lt (h.lock_lt hm)]; exact h.sender_gone hm hn

/-- Unless the new buffer overwrites one, it leaves all of them alone. -/
theorem push_same_of_notMem (hnew : i.push.1 ∉ i.messages)
    (hlt : ∀ m, i.messages.lookup id = some m → m.completeLock < i.lockCount) : Same i i.push.2 id := by
  intro m hm
  have hne : id ≠ i.push.1 := by rintro rfl; exact hnew (AList.mem_of_lookup hm)
  refine ⟨by rw [lookup_push, if_neg hne, hm], push_locks_of_lt (hlt m hm), fun ch _ => ?_⟩
  have hnone : i.messages.lookup i.push.1 = none := AList.lookup_eq_none.2 hnew
  show closeSender i.chans ((i.messages.lookup i.push.1).bind MessageBuffer.sender) ch = i.chans ch
  rw [hnone]; rfl

theorem push_same (h : i.WellFormed) (hroom : i.messages.size < 2 ^ w.bits) : Same i i.push.2 id :=
  push_same_of_notMem (push_notMem h hroom) fun _ hm => h.lock_lt hm

theorem push_open (i : Interface w) : i.push.2.Open i.push.1 :=
  ⟨_, by rw [lookup_push, if_pos rfl], by rw [push_locks_self]; decide⟩

theorem pop_eq (hm : i.messages.lookup id = some m) :
    i.pop id = (some m, ({ i with
      messages := i.messages.erase id
      messageIdQueue := i.messageIdQueue.relinquish id } : Interface w).dropSender m.sender) := by
  unfold pop; rw [hm]

theorem pop_none (hm : i.messages.lookup id = none) : i.pop id = (none, i) := by unfold pop; rw [hm]

theorem lookup_pop (i : Interface w) (id id' : IpfiInteger w) :
    (i.pop id).2.messages.lookup id' = if id' = id then none else i.messages.lookup id' := by
  cases hm : i.messages.lookup id with
  | none =>
    rw [pop_none hm]
    split
    · subst_vars; exact hm
    · rfl
  | some m => rw [pop_eq hm]; exact AList.lookup_erase_eq _ _ _

@[simp] theorem pop_locks (i : Interface w) (id : IpfiInteger w) : (i.pop id).2.locks = i.locks := by
  unfold pop; split <;> rfl

@[simp] theorem pop_lockCount (i : Interface w) (id : IpfiInteger w) : (i.pop id).2.lockCount = i.lockCount := by
  unfold pop; split <;> rfl

@[simp] theorem pop_chanCount (i : Interface w) (id : IpfiInteger w) : (i.pop id).2.chanCount = i.chanCount := by
  unfold pop; split <;> rfl

theorem pop_chans (hm : i.messages.lookup id = some m) : (i.pop id).2.chans = closeSender i.chans m.sender := by
  rw [pop_eq hm]; rfl

theorem pop_wellFormed (h : i.WellFormed) (id : IpfiInteger w) : (i.pop id).2.WellFormed := by
  have hlook : ∀ {id' m}, (i.pop id).2.messages.lookup id' = some m → i.messages.lookup id' = some m := by
    intro id' m hm
    rw [lookup_pop] at hm
    split at hm <;> [cases hm; exact hm]
  constructor
  · cases hm : i.messages.lookup id with
    | none => rw [pop_none hm]; exact h.inUse
    | some m =>
      rw [pop_eq hm]
      exact (RoiQueue.relinquish_inUse h.inUse (AList.mem_of_lookup hm)).congr fun id' => by
        show _ ↔ id' ∈ i.messages.erase id
        rw [AList.mem_erase, and_comm]
  · intro id' m hm; rw [pop_lockCount]; exact h.lock_lt (hlook hm)
  · intro _ _ _ _ h₁ h₂; exact h.lock_inj (hlook h₁) (hlook h₂)
  · intro _ _ _ h₁ hch; rw [pop_chanCount]; exact h.chan_lt (hlook h₁) hch
  · intro _ _ _ _ _ h₁ h₂; exact h.chan_inj (hlook h₁) (hlook h₂)
  · intro _ _ h₁; exact h.chunks_ne (hlook h₁)
  · intro _ _ h₁ hn; rw [pop_locks]; exact h.sender_gone (hlook h₁) hn

theorem pop_same (h : i.WellFormed) (hne : id' ≠ id) : Same i (i.pop id).2 id' := by
  intro m hm
  refine ⟨by rw [lookup_pop, if_neg hne, hm], by rw [pop_locks], fun ch hch => ?_⟩
  cases hm' : i.messages.lookup id with
  | none => rw [pop_none hm']
  | some m' =>
    rw [pop_eq hm']
    exact closeSender_of_ne fun he => hne (h.chan_inj hm hm' hch he)

/-! ### Rewriting a buffer -/

theorem lookup_setMessage (i : Interface w) (id id' : IpfiInteger w) (m : MessageBuffer) :
    (i.setMessage id m).messages.lookup id' = if id' = id then some m else i.messages.lookup id' :=
  AList.lookup_insert_eq _ _ _ _

theorem setMessage_same (i : Interface w) (m : MessageBuffer) (hne : id' ≠ id) :
    Same i (i.setMessage id m) id' := by
  intro m' hm'
  exact ⟨by rw [lookup_setMessage, if_neg hne, hm'], rfl, fun _ _ => rfl⟩

/-- A buffer may be rewritten as long as it keeps its lock and a chunk, and gets no sender that another buffer has. -/
theorem setMessage_wellFormed (h : i.WellFormed) (hm : i.messages.lookup id = some m)
    (hl : m'.completeLock = m.completeLock) (hc : m'.chunks ≠ [])
    (hs : ∀ ch, m'.sender = some (some ch) → ch < i.chanCount ∧
      ∀ {id'' m''}, i.messages.lookup id'' = some m'' → m''.sender = some (some ch) → id'' = id)
    (hn : m'.sender = some none → i.locks m.completeLock = .complete) : (i.setMessage id m').WellFormed := by
  constructor
  · refine h.inUse.congr fun id' => ?_
    show _ ↔ id' ∈ i.messages.insert id m'
    rw [AList.mem_insert]
    constructor
    · exact .inr
    · rintro (rfl | hmem)
      · exact AList.mem_of_lookup hm
      · exact hmem
  · intro id' m₁ h₁
    rw [lookup_setMessage] at h₁
    split at h₁
    · cases h₁; rw [hl]; exact h.lock_lt hm
    · exact h.lock_lt h₁
  · intro id₁ id₂ m₁ m₂ h₁ h₂ he
    rw [lookup_setMessage] at h₁ h₂
    split at h₁ <;> split at h₂
    · subst_vars; rfl
    · cases h₁; subst_vars; exact h.lock_inj hm h₂ (hl ▸ he)
    · cases h₂; subst_vars; exact h.lock_inj h₁ hm (hl ▸ he)
    · exact h.lock_inj h₁ h₂ he
  · intro id₁ m₁ ch h₁ hch
    rw [lookup_setMessage] at h₁
    split at h₁
    · cases h₁; exact (hs ch hch).1
    · exact h.chan_lt h₁ hch
  · intro id₁ id₂ m₁ m₂ ch h₁ h₂ hch₁ hch₂
    rw [lookup_setMessage] at h₁ h₂
    split at h₁ <;> split at h₂
    · subst_vars; rfl
    -- only the message itself may have had the sender before
    · cases h₁; subst_vars; exact ((hs ch hch₁).2 h₂ hch₂).symm
    · cases h₂; subst_vars; exact (hs ch hch₂).2 h₁ hch₁
    · exact h.chan_inj h₁ h₂ hch₁ hch₂
  · intro id₁ m₁ h₁
    rw [lookup_setMessage] at h₁
    split at h₁
    · cases h₁; exact hc
    · exact h.chunks_ne h₁
  · intro id₁ m₁ h₁ hn₁
    rw [lookup_setMessage] at h₁
    split at h₁
    · cases h₁; show i.locks _ = _; rw [hl]; exact hn hn₁
    · exact h.sender_gone h₁ hn₁

/-- The common case: new chunks, the same sender. -/
theorem setChunks_wellFormed (h : i.WellFormed) (hm : i.messages.lookup id = some m) {cs : List (List UInt8)}
    (hc : cs ≠ []) : (i.setMessage id { m with chunks := cs }).WellFormed :=
  setMessage_wellFormed h hm rfl hc (fun _ hch => ⟨h.chan_lt hm hch, fun h₁ h₂ => h.chan_inj h₁ hm h₂ hch⟩)
    fun hn => h.sender_gone hm hn

theorem updateChan_same (h : i.WellFormed) (hm : i.messages.lookup id = some m) {ch : ChanRef}
    (hch : m.sender = some (some ch)) (f : Chan → Chan) (hne : id' ≠ id) : Same i (i.updateChan ch f) id' := by
  intro m' hm'
  refine ⟨hm', rfl, fun ch' hch' => Function.update_of_ne ?_ _ _⟩
  rintro rfl
  exact hne (h.chan_inj hm' hm hch' hch)

/-! ### Writing operations -/

theorem openMessage_run (hm : i.messages.lookup id = some m) (ho : i.locks m.completeLock ≠ .complete) :
    (openMessage id).run i = .ok m i := by
  simp [openMessage, hm, ho]

/-- A message that is not there or complete cannot be written to. -/
theorem openMessage_fails (h : ∀ m, i.messages.lookup id = some m → i.locks m.completeLock = .complete) :
    ∃ e, (openMessage id).run i = .error (.error e) i := by
  cases hm : i.messages.lookup id with
  | none => exact ⟨.outOfBounds id, by simp [openMessage, hm]⟩
  | some m => exact ⟨.alreadyCompleted id, by simp [openMessage, hm, h m hm]⟩

theorem send_fails {e : Stop (Error w)} (h : (openMessage id).run i = .error e i) (datum : Int8) :
    (send datum id).run i = .error e i := by
  rw [send, EStateM.run_bind_error h]

theorem sendMany_fails {e : Stop (Error w)} (h : (openMessage id).run i = .error e i) (data : List UInt8) :
    (sendMany data id).run i = .error e i := by
  rw [sendMany, EStateM.run_bind_error h]

theorem terminateMessage_fails {e : Stop (Error w)} (h : (openMessage id).run i = .error e i) :
    (terminateMessage id).run i = .error e i := by
  rw [terminateMessage, EStateM.run_bind_error h]

theorem terminateChunk_fails {e : Stop (Error w)} (h : (openMessage id).run i = .error e i) :
    (terminateChunk id).run i = .error e i := by
  rw [terminateChunk, EStateM.run_bind_error h]

theorem sendMany_run (hm : i.messages.lookup id = some m) (ho : i.locks m.completeLock ≠ .complete)
    {data : List UInt8} {cs : List (List UInt8)} (hc : extendLast m.chunks data = some cs) :
    (sendMany data id).run i = .ok () (i.setMessage id { m with chunks := cs }) := by
  rw [sendMany, EStateM.run_bind_ok (openMessage_run hm ho), hc]
  rfl

theorem sendChunk_alive {ch : ChanRef} (hr : (i.chans ch).receiverAlive = true) (c : List UInt8) :
    i.sendChunk ch c = (true, i.updateChan ch fun k => { k with queue := k.queue ++ [c] }) := by
  simp [sendChunk, updateChan, hr]

theorem sendChunk_dead {ch : ChanRef} (hr : (i.chans ch).receiverAlive = false) (c : List UInt8) :
    i.sendChunk ch c = (false, i) := by
  simp [sendChunk, updateChan, hr]

@[simp] theorem markComplete_chans (i : Interface w) (l : LockRef) : (i.markComplete l).chans = i.chans := rfl

/-- Ending a message that nobody streams completes its lock. -/
theorem terminateMessage_run_none (hm : i.messages.lookup id = some m)
    (ho : i.locks m.completeLock ≠ .complete) (hs : m.sender = none) :
    (terminateMessage id).run i = .ok () (i.markComplete m.completeLock) := by
  rw [terminateMessage, EStateM.run_bind_ok (openMessage_run hm ho)]
  simp [hs]

/-- The state after a chunk was handed to the channel of a buffer that keeps the chunks `cs`. -/
def handOver (i : Interface w) (id : IpfiInteger w) (m : MessageBuffer) (ch : ChanRef)
    (cs : List (List UInt8)) (c : List UInt8) : Interface w :=
  (i.updateChan ch fun k => { k with queue := k.queue ++ [c] }).setMessage id { m with chunks := cs ++ [[]] }

theorem lookup_handOver_self (i : Interface w) (id : IpfiInteger w) (m : MessageBuffer) (ch : ChanRef)
    (cs : List (List UInt8)) (c : List UInt8) :
    (i.handOver id m ch cs c).messages.lookup id = some { m with chunks := cs ++ [[]] } := by
  unfold handOver
  rw [lookup_setMessage, if_pos rfl]

theorem handOver_chans_self (i : Interface w) (id : IpfiInteger w) (m : MessageBuffer) (ch : ChanRef)
    (cs : List (List UInt8)) (c : List UInt8) :
    (i.handOver id m ch cs c).chans ch = { i.chans ch with queue := (i.chans ch).queue ++ [c] } :=
  Function.update_self ..

/-- Ending a streamed message hands its last chunk over and deletes it. -/
theorem terminateMessage_run_alive (hm : i.messages.lookup id = some m)
    (ho : i.locks m.completeLock ≠ .complete) {ch : ChanRef} (hs : m.sender = some (some ch))
    (hr : (i.chans ch).receiverAlive = true) {cs : List (List UInt8)} {c : List UInt8} (hc : m.chunks = cs ++ [c]) :
    (terminateMessage id).run i =
      .ok () (((i.markComplete m.completeLock).handOver id m ch cs c).pop id).2 := by
  rw [terminateMessage, EStateM.run_bind_ok (openMessage_run hm ho)]
  simp [hs, hc, sendChunk_alive (i := i.markComplete m.completeLock) hr, handOver]

/-- Ending a message whose receiver is gone keeps its chunks and drops the sender. -/
theorem terminateMessage_run_dead (hm : i.messages.lookup id = some m)
    (ho : i.locks m.completeLock ≠ .complete) {ch : ChanRef} (hs : m.sender = some (some ch))
    (hr : (i.chans ch).receiverAlive = false) (hc : m.chunks ≠ []) :
    (terminateMessage id).run i =
      .ok () (((i.markComplete m.completeLock).setMessage id { m with sender := some none }).dropSender m.sender) := by
  obtain ⟨cs, c, hcs⟩ := exists_concat hc
  rw [terminateMessage, EStateM.run_bind_ok (openMessage_run hm ho)]
  simp [hs, hcs, sendChunk_dead (i := i.markComplete m.completeLock) hr]

theorem terminateChunk_run_none (hm : i.messages.lookup id = some m)
    (ho : i.locks m.completeLock ≠ .complete) (hs : m.sender = none) :
    (terminateChunk id).run i = .ok () (i.setMessage id { m with chunks := m.chunks ++ [[]] }) := by
  rw [terminateChunk, EStateM.run_bind_ok (openMessage_run hm ho)]
  simp [hs]

theorem terminateChunk_run_alive (hm : i.messages.lookup id = some m)
    (ho : i.locks m.completeLock ≠ .complete) {ch : ChanRef} (hs : m.sender = some (some ch))
    (hr : (i.chans ch).receiverAlive = true) {cs : List (List UInt8)} {c : List UInt8} (hc : m.chunks = cs ++ [c]) :
    (terminateChunk id).run i = .ok () (i.handOver id m ch cs c) := by
  rw [terminateChunk, EStateM.run_bind_ok (openMessage_run hm ho)]
  simp [hs, hc, sendChunk_alive hr, handOver]

theorem terminateChunk_run_dead (hm : i.messages.lookup id = some m)
    (ho : i.locks m.completeLock ≠ .complete) {ch : ChanRef} (hs : m.sender = some (some ch))
    (hr : (i.chans ch).receiverAlive = false) (hc : m.chunks ≠ []) :
    (terminateChunk id).run i = .ok () (i.setMessage id { m with chunks := m.chunks ++ [[]] }) := by
  obtain ⟨cs, c, hcs⟩ := exists_concat hc
  rw [terminateChunk, EStateM.run_bind_ok (openMessage_run hm ho)]
  simp [hs, hcs, sendChunk_dead hr]

/-! ### Steps on one buffer -/

/-- A step from `i` to `i'` that works on the buffer `id` and nothing else. -/
structure Edits (i i' : Interface w) (id : IpfiInteger w) : Prop where
  wellFormed : i'.WellFormed
  same : ∀ id' ≠ id, Same i i' id'
  steady : Steady i i'
  kept : ∀ {id' m'}, i'.messages.lookup id' = some m' →
    ∃ m, i.messages.lookup id' = some m ∧ m.completeLock = m'.completeLock

theorem Edits.trans (h : Edits i i' id) (h' : Edits i' i'' id) : Edits i i'' id where
  wellFormed := h'.wellFormed
  same id' hne := (h.same id' hne).trans (h'.same id' hne)
  steady := trans_of Steady h.steady h'.steady
  kept hm'' := by
    obtain ⟨m', hm', hl'⟩ := h'.kept hm''
    obtain ⟨m, hm, hl⟩ := h.kept hm'
    exact ⟨m, hm, hl.trans hl'⟩

theorem Edits.rfl (h : i.WellFormed) : Edits i i id :=
  ⟨h, fun _ _ => Same.rfl, refl_of Steady i, fun hm => ⟨_, hm, Eq.refl _⟩⟩

theorem Edits.mem (h : Edits i i' id) (hid : id' ∈ i'.messages) : id' ∈ i.messages := by
  obtain ⟨m', hm'⟩ := AList.mem_iff_lookup.1 hid
  obtain ⟨m, hm, -⟩ := h.kept hm'
  exact AList.mem_of_lookup hm

theorem markComplete_edits (h : i.WellFormed) (hm : i.messages.lookup id = some m) :
    Edits i (i.markComplete m.completeLock) id :=
  ⟨markComplete_wellFormed h _, fun _ hne => markComplete_same h hm hne, .of_eq (Eq.refl _),
    fun hm => ⟨_, hm, Eq.refl _⟩⟩

theorem pop_edits (h : i.WellFormed) (id : IpfiInteger w) : Edits i (i.pop id).2 id := by
  refine ⟨pop_wellFormed h id, fun _ hne => pop_same h hne, pop_steady i id, fun hm => ?_⟩
  rw [lookup_pop] at hm
  split at hm <;> [cases hm; exact ⟨_, hm, Eq.refl _⟩]

/-- Rewriting a buffer keeps the lock of every buffer. -/
theorem kept_setMessage (hm : i.messages.lookup id = some m) (m' : MessageBuffer) {m'' : MessageBuffer}
    (hl : m.completeLock = m'.completeLock) (hid : (i.setMessage id m').messages.lookup id' = some m'') :
    ∃ m, i.messages.lookup id' = some m ∧ m.completeLock = m''.completeLock := by
  rw [lookup_setMessage] at hid
  split at hid
  · cases hid; subst_vars; exact ⟨m, hm, hl⟩
  · exact ⟨_, hid, Eq.refl _⟩

theorem setChunks_edits (h : i.WellFormed) (hm : i.messages.lookup id = some m) {cs : List (List UInt8)}
    (hc : cs ≠ []) : Edits i (i.setMessage id { m with chunks := cs }) id :=
  ⟨setChunks_wellFormed h hm hc, fun _ hne => setMessage_same i _ hne, .of_eq (Eq.refl _),
    fun hm' => kept_setMessage hm { m with chunks := cs } (Eq.refl _) hm'⟩

theorem updateChan_edits (h : i.WellFormed) (hm : i.messages.lookup id = some m) {ch : ChanRef}
    (hch : m.sender = some (some ch)) (f : Chan → Chan) : Edits i (i.updateChan ch f) id :=
  ⟨updateChan_wellFormed h ch f, fun _ hne => updateChan_same h hm hch f hne, .of_eq (Eq.refl _),
    fun hm => ⟨_, hm, Eq.refl _⟩⟩

theorem handOver_edits (h : i.WellFormed) (hm : i.messages.lookup id = some m) {ch : ChanRef}
    (hch : m.sender = some (some ch)) (cs : List (List UInt8)) (c : List UInt8) :
    Edits i (i.handOver id m ch cs c) id :=
  have h₁ := updateChan_edits h hm hch fun k => { k with queue := k.queue ++ [c] }
  h₁.trans (setChunks_edits h₁.wellFormed hm (by simp))

theorem open_setMessage (ho : i.locks m'.completeLock ≠ .complete) : (i.setMessage id m').Open id :=
  ⟨m', by rw [lookup_setMessage, if_pos (Eq.refl _)], ho⟩

theorem sendMany_edits (h : i.WellFormed) (ho : i.Open id) (data : List UInt8) :
    ∃ i', (sendMany data id).run i = .ok () i' ∧ Edits i i' id ∧ i'.Open id := by
  obtain ⟨m, hm, hl⟩ := ho
  obtain ⟨cs, hcs, hne⟩ := exists_extendLast (h.chunks_ne hm) data
  exact ⟨_, sendMany_run hm hl hcs, setChunks_edits h hm hne, open_setMessage hl⟩

/-- The receiver of a buffer that can be written to is there or gone, but its sender is not. -/
private theorem sender_cases (h : i.WellFormed) (hm : i.messages.lookup id = some m)
    (ho : i.locks m.completeLock ≠ .complete) : m.sender = none ∨ ∃ ch, m.sender = some (some ch) := by
  match hs : m.sender with
  | none => exact .inl (Eq.refl _)
  | some (some ch) => exact .inr ⟨ch, Eq.refl _⟩
  | some none => exact absurd (h.sender_gone hm hs) ho

theorem terminateMessage_edits (h : i.WellFormed) (ho : i.Open id) :
    ∃ i', (terminateMessage id).run i = .ok () i' ∧ Edits i i' id := by
  obtain ⟨m, hm, hl⟩ := ho
  have h₁ := markComplete_edits h hm
  rcases sender_cases h hm hl with hs | ⟨ch, hs⟩
  · exact ⟨_, terminateMessage_run_none hm hl hs, h₁⟩
  · cases hr : (i.chans ch).receiverAlive with
    | true =>
      obtain ⟨cs, c, hcs⟩ := exists_concat (h.chunks_ne hm)
      refine ⟨_, terminateMessage_run_alive hm hl hs hr hcs, ?_⟩
      have h₂ := handOver_edits h₁.wellFormed hm hs cs c
      exact h₁.trans (h₂.trans (pop_edits h₂.wellFormed id))
    | false =>
      refine ⟨_, terminateMessage_run_dead hm hl hs hr (h.chunks_ne hm), h₁.trans ?_⟩
      have hw : ((i.markComplete m.completeLock).setMessage id { m with sender := some none }).WellFormed :=
        setMessage_wellFormed (i := i.markComplete m.completeLock) h₁.wellFormed hm (Eq.refl _)
          (show m.chunks ≠ [] from h.chunks_ne hm) (fun _ hch => by simp at hch) fun _ => Function.update_self ..
      refine ⟨dropSender_wellFormed hw _, fun id' hne => ?_, .of_eq (Eq.refl _), fun hm' =>
        kept_setMessage (i := i.markComplete m.completeLock) hm { m with sender := some none } (Eq.refl _) hm'⟩
      intro m' hm'
      obtain ⟨hm₁, hl₁, hc₁⟩ :=
        setMessage_same (i.markComplete m.completeLock) { m with sender := some none } hne m' hm'
      refine ⟨hm₁, hl₁, fun ch' hch' => closeSender_of_ne fun he => hne (h.chan_inj hm' hm hch' he)⟩

theorem terminateChunk_edits (h : i.WellFormed) (ho : i.Open id) :
    ∃ i', (terminateChunk id).run i = .ok () i' ∧ Edits i i' id ∧ i'.Open id := by
  obtain ⟨m, hm, hl⟩ := ho
  rcases sender_cases h hm hl with hs | ⟨ch, hs⟩
  · exact ⟨_, terminateChunk_run_none hm hl hs, setChunks_edits h hm (by simp), open_setMessage hl⟩
  · cases hr : (i.chans ch).receiverAlive with
    | true =>
      obtain ⟨cs, c, hcs⟩ := exists_concat (h.chunks_ne hm)
      exact ⟨_, terminateChunk_run_alive hm hl hs hr hcs, handOver_edits h hm hs cs c,
        open_setMessage (i := i.updateChan ch _) hl⟩
    | false =>
      exact ⟨_, terminateChunk_run_dead hm hl hs hr (h.chunks_ne hm), setChunks_edits h hm (by simp),
        open_setMessage hl⟩

/-! ### Steps on any buffers -/

/-- A step that works at most on the buffers in `touched` and on new ones, and gives no buffer another lock. -/
structure Evolves (i i' : Interface w) (touched : IpfiInteger w → Prop) : Prop where
  wellFormed : i'.WellFormed
  later : Later i i'
  same : ∀ id, ¬ touched id → Same i i' id
  kept : ∀ {id m'}, i'.messages.lookup id = some m' →
    (∃ m, i.messages.lookup id = some m ∧ m.completeLock = m'.completeLock) ∨ i.lockCount ≤ m'.completeLock

theorem Evolves.trans {touched : IpfiInteger w → Prop} (h : Evolves i i' touched) (h' : Evolves i' i'' touched) :
    Evolves i i'' touched where
  wellFormed := h'.wellFormed
  later := trans_of Later h.later h'.later
  same id hid := (h.same id hid).trans (h'.same id hid)
  kept hm'' := by
    rcases h'.kept hm'' with ⟨m', hm', hl'⟩ | hnew
    · exact hl' ▸ h.kept hm'
    · exact .inr (h.later.lockCount.trans hnew)

theorem Evolves.mono {touched touched' : IpfiInteger w → Prop} (h : Evolves i i' touched)
    (himp : ∀ id, touched id → touched' id) : Evolves i i' touched' :=
  ⟨h.wellFormed, h.later, fun id hid => h.same id (mt (himp id) hid), h.kept⟩

theorem Evolves.rfl (h : i.WellFormed) (touched : IpfiInteger w → Prop) : Evolves i i touched :=
  ⟨h, refl_of Later i, fun _ _ => Same.rfl, fun hm => .inl ⟨_, hm, Eq.refl _⟩⟩

theorem Edits.evolves (h : Edits i i' id) : Evolves i i' (· = id) :=
  ⟨h.wellFormed, h.steady.toLater, fun _ hne => h.same _ hne, fun hm => .inl (h.kept hm)⟩

theorem push_evolves (h : i.WellFormed) (hroom : i.messages.size < 2 ^ w.bits) (touched : IpfiInteger w → Prop) :
    Evolves i i.push.2 touched := by
  refine ⟨push_wellFormed h hroom, (push_steady i).toLater, fun _ _ => push_same h hroom, fun hm => ?_⟩
  rw [lookup_push] at hm
  split at hm
  · cases hm; exact .inr (Nat.le_refl _)
  · exact .inl ⟨_, hm, Eq.refl _⟩

/-- A change of the map of argument buffers is no change for the messages. -/
theorem withCalls_evolves (h : i.WellFormed) (calls : FinMap (CallKey w) (IpfiInteger w))
    (touched : IpfiInteger w → Prop) : Evolves i { i with callToBufferMap := calls } touched :=
  ⟨h.congr (Eq.refl _) (Eq.refl _) (Nat.le_refl _) (Nat.le_refl _) fun _ => id, .of_eq (Eq.refl _),
    fun _ _ _ hm => ⟨hm, Eq.refl _, fun _ _ => Eq.refl _⟩, fun hm => .inl ⟨_, hm, Eq.refl _⟩⟩

theorem getCallBuffer_evolves (h : i.WellFormed) (key : CallKey w)
    (hroom : key ∉ i.callToBufferMap → i.messages.size < 2 ^ w.bits) (touched : IpfiInteger w → Prop) :
    Evolves i (i.getCallBuffer key).2 touched := by
  unfold getCallBuffer
  split
  · exact .rfl h _
  · have hpush := push_evolves h (hroom (AList.lookup_eq_none.1 ‹_›)) touched
    exact hpush.trans (withCalls_evolves hpush.wellFormed _ _)

end Interface

end Ipfi
