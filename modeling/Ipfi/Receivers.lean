import Ipfi.ChunkStream
import Ipfi.Handles

/-!
# Receivers that only drain

Once a response has been handed over completely, its lock is complete and nobody sends on its channel any more.
Whatever then comes in over any wire, and however wires end, both stay as they are.
-/

namespace Ipfi

variable {w : IntFeature}

open EStateM (Meets Within)

namespace Interface

variable {i i' : Interface w} {l l' : LockRef} {ch ch' : ChanRef} {k : Chan} {id : IpfiInteger w} {m : MessageBuffer}

/-- The lock is complete, and nobody sends on the channel, which is `k`. -/
structure Settled (l : LockRef) (ch : ChanRef) (k : Chan) (i : Interface w) : Prop where
  lock_lt : l < i.lockCount
  lock : i.locks l = .complete
  chan_lt : ch < i.chanCount
  chan : i.chans ch = k
  detached : ∀ id m, i.messages.lookup id = some m → m.sender ≠ some (some ch)

def KeepsSettled (l : LockRef) (ch : ChanRef) (k : Chan) (i i' : Interface w) : Prop :=
  Settled l ch k i → Settled l ch k i'

instance (l : LockRef) (ch : ChanRef) (k : Chan) : IsPreorder (Interface w) (KeepsSettled l ch k) where
  refl _ h := h
  trans _ _ _ h h' hs := h' (h hs)

/-! ### Steps -/

theorem Settled.congr (h : Settled l ch k i) (hl : i'.lockCount = i.lockCount) (hs : i'.locks = i.locks)
    (hn : i'.chanCount = i.chanCount) (hc : i'.chans ch = i.chans ch) (hm : i'.messages = i.messages) :
    Settled l ch k i' :=
  ⟨hl ▸ h.lock_lt, hs ▸ h.lock, hn ▸ h.chan_lt, hc.trans h.chan, hm ▸ h.detached⟩

theorem Settled.setMessage (h : Settled l ch k i) (hs : m.sender ≠ some (some ch)) (id : IpfiInteger w) :
    Settled l ch k (i.setMessage id m) := by
  refine ⟨h.lock_lt, h.lock, h.chan_lt, h.chan, fun id' m' hm' => ?_⟩
  rw [lookup_setMessage] at hm'
  split at hm'
  · cases hm'
    exact hs
  · exact h.detached id' m' hm'

theorem Settled.markComplete (h : Settled l ch k i) (l' : LockRef) : Settled l ch k (i.markComplete l') := by
  refine ⟨h.lock_lt, ?_, h.chan_lt, h.chan, h.detached⟩
  show Function.update i.locks l' .complete l = .complete
  rw [Function.update_apply]
  split
  · rfl
  · exact h.lock

theorem Settled.updateChan (h : Settled l ch k i) (hne : ch ≠ ch') (f : Chan → Chan) :
    Settled l ch k (i.updateChan ch' f) :=
  h.congr rfl rfl rfl (Function.update_of_ne hne _ _) rfl

theorem Settled.dropSender {sender : Option (Option ChanRef)} (h : Settled l ch k i) (hs : sender ≠ some (some ch)) :
    Settled l ch k (i.dropSender sender) :=
  h.congr rfl rfl rfl (closeSender_of_ne hs) rfl

theorem Settled.pop (h : Settled l ch k i) (id : IpfiInteger w) : Settled l ch k (i.pop id).2 := by
  refine ⟨(pop_lockCount i id).symm ▸ h.lock_lt, (pop_locks i id).symm ▸ h.lock, (pop_chanCount i id).symm ▸ h.chan_lt,
    ?_, fun id' m' hm' => ?_⟩
  · cases hm : i.messages.lookup id with
    | none => rw [pop_none hm, h.chan]
    | some m => rw [pop_chans hm, closeSender_of_ne (h.detached id m hm), h.chan]
  · rw [lookup_pop] at hm'
    split at hm'
    · cases hm'
    · exact h.detached id' m' hm'

theorem Settled.push (h : Settled l ch k i) : Settled l ch k i.push.2 := by
  refine ⟨h.lock_lt.trans (Nat.lt_succ_self _), (push_locks_of_lt h.lock_lt).trans h.lock, h.chan_lt,
    ?_, fun id' m' hm' => ?_⟩
  · refine (closeSender_of_ne fun hs => ?_).trans h.chan
    obtain ⟨m, hm, hm'⟩ := Option.bind_eq_some_iff.1 hs
    exact h.detached _ m hm hm'
  · rw [lookup_push] at hm'
    split at hm'
    · cases hm'
      simp
    · exact h.detached id' m' hm'

theorem Settled.getCallBuffer (h : Settled l ch k i) (key : CallKey w) : Settled l ch k (i.getCallBuffer key).2 := by
  unfold Interface.getCallBuffer
  split
  · exact h
  · exact h.push.congr rfl rfl rfl rfl rfl

theorem Settled.poison (h : Settled l ch k i) (l' : LockRef) : Settled l ch k (i.poison l') := by
  refine ⟨h.lock_lt, ?_, h.chan_lt, h.chan, h.detached⟩
  show (if i.locks l' = .incomplete then Function.update i.locks l' .poisoned else i.locks) l = .complete
  split
  · rw [Function.update_of_ne, h.lock]
    rintro rfl
    exact absurd (h.lock.symm.trans ‹_›) (by decide)
  · exact h.lock

theorem Settled.streaming (h : Settled l ch k i) (hm : i.messages.lookup id = some m) :
    Settled l ch k (i.streaming id m) := by
  have hopen : Settled l ch k i.openChan.2 :=
    ⟨h.lock_lt, h.lock, h.chan_lt.trans (Nat.lt_succ_self _), (Function.update_of_ne h.chan_lt.ne _ _).trans h.chan,
      h.detached⟩
  refine (hopen.setMessage ?_ id).dropSender (h.detached id m hm)
  exact fun hch => h.chan_lt.ne (Option.some.inj (Option.some.inj hch)).symm

theorem lookup_streaming (i : Interface w) (id id' : IpfiInteger w) (m : MessageBuffer) :
    (i.streaming id m).messages.lookup id' =
      if id' = id then some { m with sender := some (some i.chanCount) } else i.messages.lookup id' :=
  lookup_setMessage i.openChan.2 id id' _

theorem streaming_same (hw : i.WellFormed) (hm : i.messages.lookup id = some m) {id' : IpfiInteger w} (hne : id' ≠ id) :
    Same i (i.streaming id m) id' := by
  intro m' hm'
  refine ⟨(lookup_streaming _ _ _ _).trans ((if_neg hne).trans hm'), rfl, fun ch hs => ?_⟩
  refine (closeSender_of_ne fun hs' => hne (hw.chan_inj hm' hm hs hs')).trans ?_
  exact Function.update_of_ne (hw.chan_lt hm' hs).ne _ _

/-! ### Operations -/

private theorem openMessage_settled (id : IpfiInteger w) :
    Meets (Settled l ch k) (openMessage id) (fun m i => m.sender ≠ some (some ch) ∧ Settled l ch k i) fun _ =>
      Settled l ch k := by
  intro i hi
  cases hm : i.messages.lookup id with
  | none =>
    rw [show (openMessage id).run i = .error (.error (.outOfBounds id)) i by simp [openMessage, hm]]
    exact hi
  | some m =>
    by_cases hl : i.locks m.completeLock = .complete
    · rw [show (openMessage id).run i = .error (.error (.alreadyCompleted id)) i by simp [openMessage, hm, hl]]
      exact hi
    · rw [openMessage_run hm hl]
      exact ⟨hi.detached id m hm, hi⟩

private theorem within_of_settled {α : Type} {op : Op (Error w) (Interface w) α}
    (h : Meets (Settled l ch k) op (fun _ => Settled l ch k) fun _ => Settled l ch k) :
    op.Within (KeepsSettled l ch k) :=
  fun _ hi => h.state hi

private theorem unwrap_settled {α : Type} (o : Option α) :
    Meets (Settled l ch k) (unwrap o : Op (Error w) (Interface w) α) (fun a i => o = some a ∧ Settled l ch k i)
      fun _ => Settled l ch k :=
  .unwrap_or (fun _ _ ho h => ⟨ho, h⟩) fun _ h => h

/-- What is done with the last chunk of a message goes to another channel. -/
private theorem handOver_settled {m : MessageBuffer} (hs : m.sender ≠ some (some ch)) {sender : Option ChanRef}
    (hsender : m.sender = some sender) {cont : List UInt8 → ChanRef → Bool → Op (Error w) (Interface w) Unit}
    (hcont : ∀ c ch' sent, Meets (Settled l ch k) (cont c ch' sent) (fun _ => Settled l ch k) fun _ => Settled l ch k) :
    Meets (Settled l ch k) (do
      let completedChunk ← unwrap m.chunks.getLast?
      let ch' ← unwrap sender
      let sent ← modifyGet fun i => i.sendChunk ch' completedChunk
      cont completedChunk ch' sent) (fun _ => Settled l ch k) fun _ => Settled l ch k := by
  refine (unwrap_settled _).bind fun c => .of_and fun _ => (unwrap_settled sender).bind fun ch' =>
    .of_and fun hch' => ?_
  have hne : ch ≠ ch' := by
    rintro rfl
    exact hs (hsender.trans (congrArg some hch'))
  exact .bind (Q := fun _ => Settled l ch k) (.modifyGet fun i hi => hi.updateChan hne _) fun sent => hcont c ch' sent

theorem settled_operates : Operates (KeepsSettled l ch k : Interface w → Interface w → Prop) where
  sendMany data id := within_of_settled <| (openMessage_settled id).bind fun m => .of_and fun hs =>
    (unwrap_settled _).bind fun cs => .of_and fun _ => .modify fun i hi => hi.setMessage (by exact hs) id
  terminateMessage id := by
    refine within_of_settled <| (openMessage_settled id).bind fun m => .of_and fun hs => ?_
    refine .bind (Q := fun _ => Settled l ch k) (.modify fun i hi => hi.markComplete _) fun _ => ?_
    split
    · exact .pure fun _ hi => hi
    · refine handOver_settled hs ‹_› fun c ch' sent => .ite (fun _ => ?_) fun _ => ?_
      · exact .bind (Q := fun _ => Settled l ch k) (.modify fun i hi => hi.setMessage (by exact hs) id) fun _ =>
          .modify fun i hi => hi.pop id
      · exact .bind (Q := fun _ => Settled l ch k) (.modify fun i hi => hi.setMessage (by simp) id) fun _ =>
          .modify fun i hi => hi.dropSender hs
  terminateChunk id := by
    refine within_of_settled <| (openMessage_settled id).bind fun m => .of_and fun hs => ?_
    split
    · exact .modify fun i hi => hi.setMessage (by exact hs) id
    · refine handOver_settled hs ‹_› fun c ch' sent => .ite (fun _ => ?_) fun _ => ?_
      · exact .modify fun i hi => hi.setMessage (by exact hs) id
      · exact .modify fun i hi => hi.setMessage (by exact hs) id
  pop i id h := h.pop id
  getCallBuffer i key h := h.getCallBuffer key
  forget i key h := h.congr rfl rfl rfl rfl rfl
  poison i l' h := h.poison l'

end Interface

/-! ### The parts of a response -/

namespace Site

variable {parts : List Part} {done : List (List UInt8)} {cur : List UInt8}

/-- One more part continues the last chunk, and may end it. -/
theorem chunksOf_concat (h : chunksOf parts = done ++ [cur]) (bytes : List UInt8) (t : Terminator) :
    chunksOf (parts ++ [(bytes, t)]) = done ++ if t = .chunk then [cur ++ bytes, []] else [cur ++ bytes] := by
  rw [chunksOf, marked_append]
  apply (Cut.chunksFrom_append h _).trans
  cases t <;> rfl

/-- As long as no part ends a chunk there is one chunk. -/
theorem chunksOf_unbroken (h : ∀ q ∈ parts, q.2 = .none) : ∃ cur, chunksOf parts = [cur] := by
  induction parts using List.reverseRecOn with
  | nil => exact ⟨[], rfl⟩
  | append_singleton parts q ih =>
    obtain ⟨cur, hcur⟩ := ih fun q' hq' => h q' (List.mem_append_left _ hq')
    refine ⟨cur ++ q.1, ?_⟩
    rw [chunksOf_concat (show chunksOf parts = [] ++ [cur] from hcur) q.1 q.2, h q (by simp)]
    rfl

end Site

namespace Interface

open Site (Part chunksOf chunksOf_concat)

variable {b : IpfiInteger w} {parts : List Part} {t : Terminator} {pre : List (List UInt8)}

/-- The chunks of the message go through the channel, and with those in `pre` they are those of the parts. -/
structure Flows (i : Interface w) (b : IpfiInteger w) (l : LockRef) (ch : ChanRef) (pre : List (List UInt8))
    (parts : List Part) : Prop where
  receiverAlive : (i.chans ch).receiverAlive = true
  senderAlive : (i.chans ch).senderAlive = true
  buffer : ∃ cur, i.messages.lookup b = some { chunks := [cur], completeLock := l, sender := some (some ch) } ∧
    pre ++ (i.chans ch).queue ++ [cur] = chunksOf parts

/-- The message has all chunks of the parts, unless some have gone to a receiver. -/
def Holds (m : MessageBuffer) (parts : List Part) : Prop :=
  m.sender = none ∨ (∀ q ∈ parts, q.2 = .none) → m.chunks = chunksOf parts

/-- All chunks have gone into the channel, on which nobody sends any more. -/
structure Drains (i : Interface w) (ch : ChanRef) (pre : List (List UInt8)) (parts : List Part) : Prop where
  detached : ∀ id m, i.messages.lookup id = some m → m.sender ≠ some (some ch)
  senderAlive : (i.chans ch).senderAlive = false
  chunks : pre ++ (i.chans ch).queue = chunksOf parts

/-- A message that goes on keeps its lock and its sender, and without a receiver all its chunks. -/
theorem receivePart_continues (hw : i.WellFormed) (hm : i.messages.lookup b = some m)
    (ho : i.locks m.completeLock ≠ .complete) (hc : Holds m parts) (ht : t ≠ .complete) (bytes : List UInt8) :
    ∃ i' m', (receivePart b t bytes).run i = .ok () i' ∧ i'.messages.lookup b = some m' ∧ i'.locks = i.locks ∧
      m'.completeLock = m.completeLock ∧ m'.sender = m.sender ∧ Holds m' (parts ++ [(bytes, t)]) := by
  obtain ⟨done, cur, hcs⟩ : ∃ done cur, m.chunks = done ++ [cur] :=
    ⟨m.chunks.dropLast, m.chunks.getLast (hw.chunks_ne hm), (List.dropLast_append_getLast _).symm⟩
  cases t with
  | complete => exact absurd rfl ht
  | none =>
    refine ⟨_, _, receivePart_none hm ho hcs bytes, lookup_setMessage_self _ _ _, rfl, rfl, rfl, fun hs => ?_⟩
    have hall := hc (hs.imp_right fun hu q hq => hu q (List.mem_append_left _ hq))
    rw [chunksOf_concat (hall.symm.trans hcs)]
    rfl
  | chunk =>
    -- some chunk has ended
    have hbroken : ¬ ∀ q ∈ parts ++ [(bytes, Terminator.chunk)], q.2 = .none := by
      intro hu
      cases hu (bytes, .chunk) (by simp)
    rcases hs : m.sender with _ | _ | ch
    · refine ⟨_, _, receivePart_chunk hm ho hcs hs bytes, lookup_setMessage_self _ _ _, rfl, rfl, hs, fun _ => ?_⟩
      rw [chunksOf_concat ((hc (.inl hs)).symm.trans hcs)]
      simp
    · exact absurd (hw.sender_gone hm hs) ho
    · cases hr : (i.chans ch).receiverAlive with
      | true =>
        exact ⟨_, _, receivePart_chunk_alive hm ho hcs hs hr bytes, lookup_handOver_self .., rfl, rfl, hs,
          fun hs' => absurd (hs'.resolve_right hbroken) (by simp [hs])⟩
      | false =>
        have hrun : (receivePart b .chunk bytes).run i =
            .ok () (i.setMessage b { m with chunks := done ++ [cur ++ bytes] ++ [[]] }) := by
          rw [receivePart, EStateM.run_bind_ok (sendMany_run_concat hm ho hcs bytes)]
          show (terminateChunk b).run _ = _
          rw [terminateChunk_run_dead (m := { m with chunks := done ++ [cur ++ bytes] }) (lookup_setMessage_self _ _ _)
            ho hs hr (by simp), setMessage_setMessage]
        exact ⟨_, _, hrun, lookup_setMessage_self _ _ _, rfl, rfl, hs,
          fun hs' => absurd (hs'.resolve_right hbroken) (by simp [hs])⟩

theorem Flows.continues (h : i.Flows b l ch pre parts) (ho : i.locks l ≠ .complete) (ht : t ≠ .complete)
    (bytes : List UInt8) :
    ∃ i', (receivePart b t bytes).run i = .ok () i' ∧ i'.Flows b l ch pre (parts ++ [(bytes, t)]) := by
  obtain ⟨cur, hm, hq⟩ := h.buffer
  have hcs : [cur] = [] ++ [cur] := rfl
  cases t with
  | complete => exact absurd rfl ht
  | none =>
    refine ⟨_, receivePart_none hm ho hcs bytes, h.receiverAlive, h.senderAlive, cur ++ bytes,
      lookup_setMessage_self _ _ _, ?_⟩
    rw [chunksOf_concat hq.symm]
    rfl
  | chunk =>
    refine ⟨_, receivePart_chunk_alive hm ho hcs rfl h.receiverAlive bytes, ?_, ?_, [],
      lookup_handOver_self .., ?_⟩
    · rw [handOver_chans_self]
      exact h.receiverAlive
    · rw [handOver_chans_self]
      exact h.senderAlive
    · rw [chunksOf_concat hq.symm, handOver_chans_self]
      simp

theorem Flows.completes (h : i.Flows b l ch pre parts) (hw : i.WellFormed) (ho : i.locks l ≠ .complete)
    (bytes : List UInt8) :
    ∃ i', (receivePart b .complete bytes).run i = .ok () i' ∧ i'.locks l = .complete ∧
      i'.Drains ch pre (parts ++ [(bytes, .complete)]) := by
  obtain ⟨cur, hm, hq⟩ := h.buffer
  have hchan : ∀ cs c, ((((i.markComplete l).handOver b ⟨[cur], l, some (some ch)⟩ ch cs c).pop b).2.chans ch) =
      { i.chans ch with queue := (i.chans ch).queue ++ [c], senderAlive := false } := by
    intro cs c
    rw [pop_chans (lookup_handOver_self ..)]
    show Function.update _ ch _ ch = _
    rw [Function.update_self, handOver_chans_self]
    rfl
  refine ⟨_, receivePart_complete_alive hm ho (show [cur] = [] ++ [cur] from rfl) rfl h.receiverAlive
    bytes, ?_, ?_, ?_, ?_⟩
  · rw [pop_locks]
    exact Function.update_self ..
  · intro id m' hm' hs
    rw [lookup_pop] at hm'
    split at hm'
    · cases hm'
    · rename_i hne
      have hm'' := (lookup_setMessage _ b id _).symm.trans hm'
      rw [if_neg hne] at hm''
      exact hne (hw.chan_inj hm'' hm hs rfl)
  · rw [hchan]
  · rw [hchan, chunksOf_concat hq.symm]
    simp

end Interface

end Ipfi
