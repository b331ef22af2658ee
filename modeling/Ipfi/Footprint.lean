import Ipfi.Actions
import Ipfi.Grammar
import Ipfi.Lib.Charge

/-!
# What an interface holds for its peers

The buffers of an interface, the chunks in them and in the channels of their receivers, and the bytes of those chunks,
each counted at a price.  A message that comes in raises the sum by no more than what it brings, so the memory that
peers can make an interface hold is bounded by what they have sent, and no number of handles or clones adds to it.
-/

namespace Ipfi

variable {w : IntFeature}

open EStateM (Within Keeps)

/-- What a buffer, a chunk and a byte are counted at. -/
structure Price where
  buffer : Nat
  chunk : Nat
  byte : Nat

namespace Price

def ofChunk (r : Price) (c : List UInt8) : Nat := r.chunk + r.byte * c.length

def ofChunks (r : Price) (chunks : List (List UInt8)) : Nat := (chunks.map r.ofChunk).sum

def ofMessage (r : Price) (m : MessageBuffer) : Nat := r.buffer + r.ofChunks m.chunks

def ofChan (r : Price) (ch : Chan) : Nat := r.ofChunks ch.queue

variable {r : Price}

@[simp] theorem ofChunks_nil : r.ofChunks [] = 0 := rfl

@[simp] theorem ofChunks_cons (c : List UInt8) (cs : List (List UInt8)) :
    r.ofChunks (c :: cs) = r.chunk + r.byte * c.length + r.ofChunks cs := rfl

@[simp] theorem ofChunks_append (cs cs' : List (List UInt8)) :
    r.ofChunks (cs ++ cs') = r.ofChunks cs + r.ofChunks cs' := by
  simp [ofChunks]

theorem ofChunks_extendLast {cs cs' : List (List UInt8)} {data : List UInt8}
    (h : Interface.extendLast cs data = some cs') : r.ofChunks cs' = r.ofChunks cs + r.byte * data.length := by
  have hne : cs ≠ [] := by
    rintro rfl
    cases h
  obtain ⟨ds, c, rfl⟩ : ∃ ds c, cs = ds ++ [c] := ⟨cs.dropLast, cs.getLast hne, (List.dropLast_append_getLast hne).symm⟩
  rw [Interface.extendLast_concat] at h
  cases h
  simp [Nat.mul_add]
  omega

theorem ofChunks_tail_le (cs : List (List UInt8)) : r.ofChunks cs.tail ≤ r.ofChunks cs := by
  cases cs with
  | nil => exact Nat.le_refl _
  | cons c cs => simp

end Price

namespace Interface

/-- The chunks in the channels that have been made. -/
def priceOfChans (r : Price) (chanCount : Nat) (chans : ChanRef → Chan) : Nat :=
  ∑ ch ∈ Finset.range chanCount, r.ofChan (chans ch)

/-- The buffers and channels of an interface, at the given price. -/
def price (r : Price) (i : Interface w) : Nat := i.messages.total r.ofMessage + priceOfChans r i.chanCount i.chans

variable {r : Price} {n : Nat}

theorem price_buffers (i : Interface w) : i.price ⟨1, 0, 0⟩ = i.messages.size := by
  have hchunks : ∀ cs, (⟨1, 0, 0⟩ : Price).ofChunks cs = 0 := by
    intro cs
    induction cs with
    | nil => rfl
    | cons c cs ih => simp [ih]
  have hmessage : (⟨1, 0, 0⟩ : Price).ofMessage = fun _ => 1 := funext fun m => by simp [Price.ofMessage, hchunks]
  rw [price, priceOfChans, hmessage, AList.total_const_one]
  simp [Price.ofChan, hchunks]

/-! ### Changes of one buffer or channel -/

theorem setMessage_raises {i : Interface w} {id : IpfiInteger w} {m m' : MessageBuffer}
    (hm : i.messages.lookup id = some m) (h : r.ofMessage m' ≤ r.ofMessage m + n) :
    Raises (price r) n i (i.setMessage id m') := by
  have htotal := AList.total_insert_of_lookup r.ofMessage hm m'
  show (i.messages.insert id m').total r.ofMessage + priceOfChans r i.chanCount i.chans ≤
    i.messages.total r.ofMessage + priceOfChans r i.chanCount i.chans + n
  omega

theorem withChans_raises {i : Interface w} {ch : ChanRef} {k : Chan} (h : r.ofChan k ≤ r.ofChan (i.chans ch) + n) :
    Raises (price r) n i { i with chans := Function.update i.chans ch k } := by
  have hsum : priceOfChans r i.chanCount (Function.update i.chans ch k) ≤ priceOfChans r i.chanCount i.chans + n :=
    Finset.sum_update_le r.ofChan i.chans (Finset.range i.chanCount) h
  show i.messages.total r.ofMessage + priceOfChans r i.chanCount (Function.update i.chans ch k) ≤
    i.messages.total r.ofMessage + priceOfChans r i.chanCount i.chans + n
  omega

theorem updateChan_raises (i : Interface w) (ch : ChanRef) {f : Chan → Chan}
    (h : r.ofChan (f (i.chans ch)) ≤ r.ofChan (i.chans ch) + n) : Raises (price r) n i (i.updateChan ch f) :=
  withChans_raises h

theorem dropSender_raises (i : Interface w) (s : Option (Option ChanRef)) : Raises (price r) 0 i (i.dropSender s) := by
  rcases s with _ | _ | ch
  · exact refl_of (Raises (price r) 0) i
  · exact refl_of (Raises (price r) 0) i
  · exact withChans_raises (Nat.le_refl _)

/-- A buffer that is deleted no longer counts. -/
theorem pop_price_add_le (r : Price) {i : Interface w} {id : IpfiInteger w} {m : MessageBuffer}
    (hm : i.messages.lookup id = some m) : price r (i.pop id).2 + r.ofMessage m ≤ price r i := by
  rw [pop_eq hm]
  have htotal := AList.total_erase_of_lookup r.ofMessage hm
  have hdrop : price r (dropSender _ m.sender) ≤ _ := dropSender_raises (r := r) ({ i with
    messages := i.messages.erase id, messageIdQueue := i.messageIdQueue.relinquish id } : Interface w) m.sender
  refine Nat.le_trans (Nat.add_le_add_right hdrop _) ?_
  show (i.messages.erase id).total r.ofMessage + priceOfChans r i.chanCount i.chans + 0 + r.ofMessage m ≤
    i.messages.total r.ofMessage + priceOfChans r i.chanCount i.chans
  omega

theorem pop_raises (i : Interface w) (id : IpfiInteger w) : Raises (price r) 0 i (i.pop id).2 := by
  cases hm : i.messages.lookup id with
  | none =>
    rw [pop_none hm]
    exact refl_of (Raises (price r) 0) i
  | some m => exact Nat.le_trans (Nat.le_add_right _ _) (pop_price_add_le r hm)

theorem push_raises (i : Interface w) : Raises (price r) (r.buffer + r.chunk) i i.push.2 := by
  have htotal := AList.total_insert_le r.ofMessage i.messages i.push.1 ⟨[[]], i.lockCount, none⟩
  have hdrop := dropSender_raises (r := r) i ((i.messages.lookup i.push.1).bind MessageBuffer.sender)
  have hnew : r.ofMessage ⟨[[]], i.lockCount, none⟩ = r.buffer + r.chunk := by simp [Price.ofMessage]
  -- the buffer that is overwritten, if any, does not count
  calc price r i.push.2
      ≤ r.ofMessage ⟨[[]], i.lockCount, none⟩ +
          price r (i.dropSender ((i.messages.lookup i.push.1).bind MessageBuffer.sender)) := by
        rw [price, price, ← Nat.add_assoc]
        exact Nat.add_le_add_right htotal _
    _ ≤ price r i + (r.buffer + r.chunk) := by
        rw [hnew, Nat.add_comm]
        exact Nat.add_le_add_right hdrop _

theorem getCallBuffer_raises (i : Interface w) (key : CallKey w) :
    Raises (price r) (r.buffer + r.chunk) i (i.getCallBuffer key).2 := by
  unfold getCallBuffer
  split
  · exact Nat.le_add_right _ _
  · exact push_raises i

theorem dropAssociatedCallMessage_raises (i : Interface w) (key : CallKey w) :
    Raises (price r) 0 i (i.dropAssociatedCallMessage key) := by
  unfold dropAssociatedCallMessage
  split
  · exact pop_raises _ _
  · exact refl_of (Raises (price r) 0) i

/-! ### Writing -/

private theorem openMessage_cases (i : Interface w) (id : IpfiInteger w) :
    (∃ e, (openMessage id).run i = .error e i) ∨
      ∃ m, i.messages.lookup id = some m ∧ i.locks m.completeLock ≠ .complete := by
  by_cases h : ∀ m, i.messages.lookup id = some m → i.locks m.completeLock = .complete
  · obtain ⟨e, he⟩ := openMessage_fails h
    exact .inl ⟨_, he⟩
  · obtain ⟨m, hm⟩ := not_forall.1 h
    exact .inr ⟨m, Classical.not_imp.1 hm⟩

theorem sendMany_raises (data : List UInt8) (id : IpfiInteger w) :
    (sendMany data id).Within (Raises (price r) (r.byte * data.length)) := by
  intro i
  rcases openMessage_cases i id with ⟨e, he⟩ | ⟨m, hm, hl⟩
  · rw [sendMany_fails he]
    exact Nat.le_add_right _ _
  · cases hc : extendLast m.chunks data with
    | none =>
      rw [sendMany, EStateM.run_bind_ok (openMessage_run hm hl), hc]
      exact Nat.le_add_right _ _
    | some cs =>
      rw [sendMany_run hm hl hc]
      refine setMessage_raises hm ?_
      have := Price.ofChunks_extendLast (r := r) hc
      simp only [Price.ofMessage]
      omega

/-- What a streamed message gives to its channel it no longer has. -/
private theorem handOver_raises {i : Interface w} {id : IpfiInteger w} {m : MessageBuffer} {cs : List (List UInt8)}
    {c : List UInt8} (hm : i.messages.lookup id = some m) (hc : m.chunks = cs ++ [c]) (ch : ChanRef) :
    Raises (price r) r.chunk i (i.handOver id m ch cs c) := by
  have hsent := updateChan_raises (r := r) (n := r.ofChunk c) i ch (f := fun k => { k with queue := k.queue ++ [c] })
    (by simp [Price.ofChan, Price.ofChunk])
  have htotal := AList.total_insert_of_lookup r.ofMessage hm { m with chunks := cs ++ [[]] }
  have hold : r.ofMessage m = r.buffer + (r.ofChunks cs + r.ofChunk c) := by
    simp [Price.ofMessage, hc, Price.ofChunk]
  have hnew : r.ofMessage { m with chunks := cs ++ [[]] } = r.buffer + (r.ofChunks cs + r.chunk) := by
    simp [Price.ofMessage]
  rw [hold, hnew] at htotal
  unfold Raises price at *
  show (i.messages.insert id { m with chunks := cs ++ [[]] }).total r.ofMessage + _ ≤ _
  have hsent' : i.messages.total r.ofMessage + priceOfChans r i.chanCount
      (i.updateChan ch fun k => { k with queue := k.queue ++ [c] }).chans ≤ _ := hsent
  show _ + priceOfChans r i.chanCount (i.updateChan ch fun k => { k with queue := k.queue ++ [c] }).chans ≤ _
  omega

theorem terminateChunk_raises (id : IpfiInteger w) : (terminateChunk id).Within (Raises (price r) r.chunk) := by
  intro i
  rcases openMessage_cases i id with ⟨e, he⟩ | ⟨m, hm, hl⟩
  · rw [terminateChunk_fails he]
    exact Nat.le_add_right _ _
  · have hplain : Raises (price r) r.chunk i (i.setMessage id { m with chunks := m.chunks ++ [[]] }) :=
      setMessage_raises hm (by simp [Price.ofMessage, Nat.add_assoc])
    match hs : m.sender with
    | none =>
      rw [terminateChunk_run_none hm hl hs]
      exact hplain
    | some none =>
      rw [terminateChunk, EStateM.run_bind_ok (openMessage_run hm hl), hs]
      cases hc : m.chunks.getLast? <;> exact Nat.le_add_right _ _
    | some (some ch) =>
      rcases List.eq_nil_or_concat' m.chunks with hc | ⟨cs, c, hc⟩
      · rw [terminateChunk, EStateM.run_bind_ok (openMessage_run hm hl), hs, hc]
        exact Nat.le_add_right _ _
      · cases ha : (i.chans ch).receiverAlive with
        | true =>
          rw [terminateChunk_run_alive hm hl hs ha hc]
          exact handOver_raises hm hc ch
        | false =>
          rw [terminateChunk_run_dead hm hl hs ha (by simp [hc])]
          exact hplain

theorem terminateMessage_raises (id : IpfiInteger w) : (terminateMessage id).Within (Raises (price r) 0) := by
  intro i
  rcases openMessage_cases i id with ⟨e, he⟩ | ⟨m, hm, hl⟩
  · rw [terminateMessage_fails he]
    exact Nat.le_refl _
  · match hs : m.sender with
    | none =>
      rw [terminateMessage_run_none hm hl hs]
      exact Nat.le_refl _
    | some none =>
      rw [terminateMessage, EStateM.run_bind_ok (openMessage_run hm hl), hs]
      cases hc : m.chunks.getLast? <;> exact Nat.le_refl _
    | some (some ch) =>
      rcases List.eq_nil_or_concat' m.chunks with hc | ⟨cs, c, hc⟩
      · rw [terminateMessage, EStateM.run_bind_ok (openMessage_run hm hl), hs, hc]
        exact Nat.le_refl _
      · have hm' : (i.markComplete m.completeLock).messages.lookup id = some m := hm
        cases ha : (i.chans ch).receiverAlive with
        | true =>
          rw [terminateMessage_run_alive hm hl hs ha hc]
          -- the last chunk goes to the channel, and the buffer goes
          have hover := handOver_raises (r := r) hm' hc ch
          have hpop := pop_price_add_le r (lookup_handOver_self (i.markComplete m.completeLock) id m ch cs c)
          have hmark : price r (i.markComplete m.completeLock) = price r i := rfl
          have hge : r.chunk ≤ r.ofMessage { m with chunks := cs ++ [[]] } := by
            simp [Price.ofMessage]
            omega
          unfold Raises at *
          show price r ((i.markComplete m.completeLock).handOver id m ch cs c |>.pop id).2 ≤ _
          omega
        | false =>
          rw [terminateMessage_run_dead hm hl hs ha (by simp [hc])]
          exact trans_of (Raises (price r) 0) (setMessage_raises hm' (Nat.le_refl _)) (dropSender_raises _ _)

/-! ### Waiting -/

theorem waitForMessage_raises (id : IpfiInteger w) : (waitForMessage id).Within (Raises (price r) 0) := by
  intro i
  rcases waitForMessage_cases i id with ⟨m, -, -, hr⟩ | ⟨e, locks, hr⟩ <;> rw [hr] <;> exact Nat.le_refl _

theorem getRaw_raises (id : IpfiInteger w) : (getRaw id).Within (Raises (price r) 0) := by
  refine (waitForMessage_raises id).bind fun _ => .bind (.modifyGet fun i => pop_raises i id) fun popped => ?_
  exact (Within.unwrap popped).bind fun _ => .pure _

theorem getTyped_raises (decodes : List UInt8 → Bool) (id : IpfiInteger w) :
    (getTyped decodes id).Within (Raises (price r) 0) :=
  (getRaw_raises id).bind fun _ => (Within.unwrap _).bind fun _ => .ite (.pure _) (.throw _)

theorem getChunks_raises (decodes : List UInt8 → Bool) (id : IpfiInteger w) :
    (getChunks decodes id).Within (Raises (price r) 0) := by
  refine (waitForMessage_raises id).bind fun _ => .ite (.pure _) ?_
  refine .bind (.modifyGet fun i => pop_raises i id) fun popped => ?_
  exact (Within.unwrap popped).bind fun _ => .ite (.pure _) (.throw _)

/-- A new channel is empty. -/
theorem openChan_raises (i : Interface w) : Raises (price r) 0 i i.openChan.2 := by
  have hold : ∑ ch ∈ Finset.range i.chanCount, r.ofChan (i.openChan.2.chans ch) =
      ∑ ch ∈ Finset.range i.chanCount, r.ofChan (i.chans ch) := by
    refine Finset.sum_congr rfl fun ch hch => congrArg r.ofChan (Function.update_of_ne ?_ _ _)
    exact Nat.ne_of_lt (Finset.mem_range.1 hch)
  have hnew : r.ofChan (i.openChan.2.chans i.chanCount) = 0 := by
    simp [openChan, Price.ofChan]
  show _ + ∑ ch ∈ Finset.range (i.chanCount + 1), r.ofChan (i.openChan.2.chans ch) ≤ _ + _
  rw [Finset.sum_range_succ, hold, hnew]
  exact Nat.le_refl _

theorem getChunkStream_raises (id : IpfiInteger w) : (getChunkStream id).Within (Raises (price r) 0) := by
  intro i
  cases hm : i.messages.lookup id with
  | none =>
    obtain ⟨e, locks, hr⟩ := getChunkStream_absent hm
    rw [hr]
    exact Nat.le_refl _
  | some m =>
    rw [getChunkStream_run hm]
    have hm' : i.openChan.2.messages.lookup id = some m := hm
    have hset : Raises (price r) 0 i.openChan.2
        (i.openChan.2.setMessage id { m with sender := some (some i.chanCount) }) :=
      setMessage_raises hm' (Nat.le_refl _)
    exact trans_of (Raises (price r) 0) (trans_of (Raises (price r) 0) (openChan_raises i) hset) (dropSender_raises _ _)

theorem recvRaw_raises (rx : ChunkReceiver w) : rx.recvRaw.Within (Raises (price r) 0) := by
  intro i
  rw [recvRaw_state]
  exact updateChan_raises i rx.rx (Price.ofChunks_tail_le _)

end Interface

/-! ### What a message brings -/

/-- What receiving the message may add. -/
def Price.ofIncoming (r : Price) : Incoming w → Nat
  | .call _ _ _ bytes => r.buffer + r.chunk + r.byte * bytes.length
  | .response _ _ t bytes => (if t = .chunk then r.chunk else 0) + r.byte * bytes.length
  | _ => 0

/-- A module-style wire that does not ignore what it finds reads what others read. -/
theorem readMessage_moduleStyle {moduleStyle : Bool} {reader rest : List UInt8} {found : Incoming w}
    (h : (readMessage moduleStyle).run reader = .ok found rest) :
    found = .ignored ∧ rest.length ≤ reader.length ∨ (readMessage false).run reader = .ok found rest := by
  cases moduleStyle with
  | false => exact .inr h
  | true =>
    have hlt := readMessage_lt h
    cases reader with
    | nil => cases hlt
    | cons ty reader =>
      rw [readMessage, EStateM.run_bind_ok (readExact_cons ty reader)] at h ⊢
      by_cases hty : ty = 2
      · subst hty
        cases h
        exact .inl ⟨rfl, Nat.le_succ _⟩
      · refine .inr ?_
        simp only [List.headD_cons] at h ⊢
        split at h <;> simp_all

theorem Integer.toLeBytes_length_pos (i : Integer) : 0 < i.toLeBytes.length := by
  cases i <;> simp [Integer.toLeBytes, Integer.size]

/-- No message brings more than the bytes that it takes off the input. -/
theorem ofIncoming_add_length_le {moduleStyle : Bool} {reader rest : List UInt8} {found : Incoming w}
    (h : (readMessage moduleStyle).run reader = .ok found rest) :
    (⟨1, 1, 1⟩ : Price).ofIncoming found + rest.length ≤ reader.length := by
  rcases readMessage_moduleStyle h with ⟨rfl, hle⟩ | h
  · simpa [Price.ofIncoming] using hle
  · obtain ⟨bytes, haccepts, rfl⟩ := accepts_of_readMessage h
    -- a header takes five bytes at least
    have hfields : ∀ (pi ci ni : Integer) (t : Terminator) (m : List UInt8),
        m.length + 4 ≤ (fields pi ci ni t m).length := by
      intro pi ci ni t m
      have hp := pi.toLeBytes_length_pos
      have hc := ci.toLeBytes_length_pos
      have hn := ni.toLeBytes_length_pos
      simp only [fields, List.length_cons, List.length_append]
      omega
    rw [List.length_append]
    refine Nat.add_le_add_right ?_ _
    cases haccepts with
    | @sent m _ hm =>
      cases hm with
      | call p c t m pi ci ni =>
        have := hfields pi ci ni t m.val
        simp only [Message.incoming, Price.ofIncoming, List.length_cons]
        omega
      | response p c t m pi ci ni =>
        have := hfields pi ci ni t m.val
        simp only [Message.incoming, Price.ofIncoming, List.length_cons]
        split <;> omega
      | termination => exact Nat.zero_le _
      | endOfInput => exact Nat.zero_le _
    | unknown => exact Nat.zero_le _

theorem Receiver.receiveOne_reader {t : Site w} {reader rest : List UInt8} {found : Incoming w}
    (ht : t.wire.terminated = false) (h : (readMessage t.wire.moduleStyle).run reader = .ok found rest) :
    (Receiver.receiveOne.run ⟨t, reader⟩).state.reader = rest := by
  rw [receiveOne_run t reader ht, h]
  exact congrArg Receiver.reader (EStateM.Result.state_mapState _ _)

theorem Receiver.fillStep_reader (s : Receiver w) :
    (Receiver.fillStep.run s).state.reader = (Receiver.receiveOne.run s).state.reader := by
  rw [fillStep_run]
  rcases Receiver.receiveOne.run s with ⟨b, t⟩ | ⟨e, t⟩
  · rfl
  · rw [atEof_error]
    rfl

namespace Site

variable {r : Price} {n : Nat} {p : ProcedureIndex w} {c : CallIndex w}

def price (r : Price) (s : Site w) : Nat := s.interface.price r

theorem onInterface_raises {α : Type} {op : Op (Error w) (Interface w) α}
    (h : op.Within (Raises (Interface.price r) n)) :
    (onInterface op).Within (Raises (price r) n) := h.zoom fun _ _ h => h

theorem onWire_raises {α : Type} (op : Op (Error w) (Wire w) α) : (onWire op).Within (Raises (price r) 0) :=
  Within.zoom (S := fun _ _ => True) (fun _ => trivial) fun _ _ _ => Nat.le_refl _

/-- The argument buffer is there already, and no other is made for the call. -/
private theorem callProcedure_raises {s : Site w} {b : IpfiInteger w}
    (hb : s.interface.callToBufferMap.lookup (p, c, s.wire.id) = some b) :
    Raises (price r) 0 s ((callProcedure p c s.wire.id (Wire.yielder p c)).run s).state := by
  have hbuf : (onInterface (modifyGet fun i => i.getCallBuffer (p, c, s.wire.id)) :
      Op (Error w) (Site w) _).run s = .ok b s := by
    simp [onInterface, Interface.getCallBuffer, hb]
  rw [callProcedure, EStateM.run_bind_ok hbuf]
  have hpop (b : IpfiInteger w) :
      (onInterface (modify fun i => (i.pop b).2) : Op (Error w) (Site w) _).Within (Raises (price r) 0) :=
    onInterface_raises (.modify fun i => Interface.pop_raises i b)
  refine Within.bind (onInterface_raises (.modify fun _ => Nat.le_refl _)) (fun _ => .bind .get fun s => ?_) s
  split
  · exact .throw _
  · refine .bind .get fun s => ?_
    split
    · exact .throw _
    · refine .bind .get fun s => ?_
      split
      · exact .throw _
      · exact .throw _
      · refine (Within.unwrap _).bind fun args => ?_
        split
        · refine (onWire_raises _).bind fun _ => (hpop b).bind fun _ => ?_
          split
          · exact .pure _
          · exact .throw _
        · refine .bind .get fun s => (onWire_raises _).bind fun _ => (onWire_raises _).bind fun _ => ?_
          split
          · exact (hpop b).bind fun _ => .pure _
          · exact (onWire_raises _).bind fun _ => .throw _

private theorem acceptCall_raises {s : Site w} {b : IpfiInteger w}
    (hb : s.interface.callToBufferMap.lookup (p, c, s.wire.id) = some b) (t : Terminator) (bytes : List UInt8) :
    Raises (price r) (r.byte * bytes.length) s ((acceptCall p c t bytes b).run s).state := by
  have hsend := onInterface_raises (Interface.sendMany_raises (r := r) bytes b) s
  have hsteady := onInterface_follows (g := Wire.fixed) (Interface.steady_writes.sendMany bytes b) s
  rw [acceptCall]
  cases hr : (onInterface (Interface.sendMany bytes b)).run s with
  | error e s' =>
    rw [hr] at hsend
    rw [EStateM.run_bind_error hr]
    exact hsend
  | ok _ s' =>
    rw [hr] at hsend hsteady
    rw [EStateM.run_bind_ok hr]
    refine hsend.trans_zero ?_
    by_cases ht : t = .complete
    · have hend := onInterface_raises (Interface.terminateMessage_raises (r := r) b) s'
      have hsteady' := onInterface_follows (g := Wire.fixed) (Interface.steady_writes.terminateMessage b) s'
      simp only [if_pos ht]
      cases hr' : (onInterface (Interface.terminateMessage b)).run s' with
      | error e s'' =>
        rw [hr'] at hend
        rw [EStateM.run_bind_error hr']
        exact hend
      | ok _ s'' =>
        rw [hr'] at hend hsteady'
        rw [EStateM.run_bind_ok hr', EStateM.run_bind, EStateM.run_get]
        replace hend : Raises (price r) 0 s' s'' := hend
        refine hend.trans_zero ?_
        -- the call is still mapped to its buffer
        have hlater : Follows Interface.Steady Wire.fixed s s'' :=
          trans_of (Follows Interface.Steady Wire.fixed) hsteady hsteady'
        have hb' : s''.interface.callToBufferMap.lookup (p, c, s''.wire.id) = some b := by
          rw [hlater.id]
          exact (congrArg (AList.lookup (p, c, s.wire.id)) hlater.1.calls).trans hb
        refine Within.bind_from (callProcedure_raises hb') fun ret => ?_
        split
        · exact (onWire_raises _).bind fun _ => (onWire_raises _).bind fun _ => .pure _
        · exact .bind (.pure _) fun _ => .pure _
    · simp only [if_neg ht]
      exact refl_of (Raises (price r) 0) s'

theorem receiveCall_raises (s : Site w) (p : ProcedureIndex w) (c : CallIndex w) (t : Terminator)
    (bytes : List UInt8) :
    Raises (price r) (r.ofIncoming (.call p c t bytes)) s ((receiveCall p c t bytes).run s).state := by
  rw [receiveCall_run]
  split
  · exact Nat.le_add_right _ _
  · have hadmit : Raises (price r) (r.buffer + r.chunk) s (s.admitCall p c) := Interface.getCallBuffer_raises _ _
    exact hadmit.trans (acceptCall_raises ((lookup_admitCall s p c _).trans (if_pos rfl)) t bytes)

theorem receiveResponse_raises (s : Site w) (p : ProcedureIndex w) (c : CallIndex w) (t : Terminator)
    (bytes : List UInt8) :
    Raises (price r) (r.ofIncoming (.response p c t bytes)) s ((receiveResponse p c t bytes).run s).state := by
  have hall : (receiveResponse p c t bytes).Within
      (Raises (price r) (0 + (r.byte * bytes.length + if t = .chunk then r.chunk else 0))) := by
    refine (onWire_raises (Wire.getResponseIdx p c)).raises_bind fun responseIdx =>
      (onInterface_raises (Interface.sendMany_raises bytes responseIdx)).raises_bind fun _ => ?_
    cases t with
    | complete =>
      have hend : (onInterface (Interface.terminateMessage responseIdx)).Within (Raises (price r) 0) :=
        onInterface_raises (Interface.terminateMessage_raises responseIdx)
      exact hend.bind fun _ => (onWire_raises _).bind fun _ => .pure _
    | chunk =>
      have hend : (onInterface (Interface.terminateChunk responseIdx)).Within (Raises (price r) r.chunk) :=
        onInterface_raises (Interface.terminateChunk_raises responseIdx)
      exact hend.raises_bind fun _ => Within.pure (R := Raises (price r) 0) _
    | none => exact Within.pure (R := Raises (price r) 0) _
  refine Raises.mono (hall s) (Nat.le_of_eq ?_)
  show _ = (if t = .chunk then r.chunk else 0) + r.byte * bytes.length
  omega

theorem markTerminated_raises (s : Site w) : Raises (price r) 0 s s.markTerminated := by
  have hdrop : ∀ (keys : List (ProcedureIndex w × CallIndex w)) (i : Interface w), Raises (Interface.price r) 0 i
      (keys.foldl (fun i pc => i.dropAssociatedCallMessage (pc.1, pc.2, s.wire.id)) i) := by
    intro keys
    induction keys with
    | nil => exact fun i => refl_of (Raises (Interface.price r) 0) i
    | cons k keys ih =>
      exact fun i => trans_of (Raises (Interface.price r) 0) (Interface.dropAssociatedCallMessage_raises i _) (ih _)
  have hpoison : ∀ i : Interface w, Raises (Interface.price r) 0 i
      (s.wire.idleCallHandles.values.foldl Interface.poison i) := by
    intro i
    obtain ⟨locks, heq⟩ := Interface.foldl_poison_eq s.wire.idleCallHandles.values i
    rw [heq]
    exact Nat.le_refl _
  exact trans_of (Raises (Interface.price r) 0) (hdrop _ _) (hpoison _)

theorem serveStep_raises (s : Site w) (a : ServeAction w) :
    Raises (price r) (((a.message? s).map r.ofIncoming).getD 0) s (s.serveStep a) := by
  refine serveStep_invariant (I := Raises (price r) (((a.message? s).map r.ofIncoming).getD 0) s)
    (fun _ => Nat.le_add_right _ _) (fun p c t bytes hm => ?_) (fun p c t bytes hm => ?_)
    (fun s' hs' => Nat.le_trans (markTerminated_raises s') hs') fun e p c args f bytes t _ _ => Nat.le_add_right _ _
  · rw [hm]
    exact receiveCall_raises s p c t bytes
  · rw [hm]
    exact receiveResponse_raises s p c t bytes

/-! ### Making calls and waiting -/

private theorem checkCanCall_raises : (checkCanCall : Op (Error w) _ _).Within (Raises (price r) 0) :=
    checkCanCall_within

/-- A call gets a buffer for its response. -/
theorem allocateCall_raises (checks : Bool) (p : ProcedureIndex w) :
    (allocateCall checks p).Within (Raises (price r) (r.buffer + r.chunk)) := by
  have hpush : (onInterface (modifyGet Interface.push)).Within (Raises (price (w := w) r) (r.buffer + r.chunk)) :=
    onInterface_raises (.modifyGet Interface.push_raises)
  have hrest : ∀ f : Wire w → Wire w, ∀ c : CallIndex w, (do onWire (modify f); pure c :
      Op (Error w) (Site w) (CallIndex w)).Within (Raises (price r) 0) := fun f c =>
    (onWire_raises (modify f)).bind fun _ => .pure c
  have hall := (onWire_raises (r := r) (Wire.nextCallIdx checks p)).raises_bind fun c =>
    hpush.raises_bind fun b => hrest (fun x => { x with responseIdxMap := x.responseIdxMap.insert (p, c) b }) c
  exact hall.mono fun _ _ h => h.mono (Nat.le_of_eq (by omega))

theorem newCallHandle_raises (p : ProcedureIndex w) (c : CallIndex w) :
    (newCallHandle p c).Within (Raises (price r) 0) :=
  (onWire_raises _).bind fun _ => .bind .get fun _ => (Within.unwrap _).bind fun _ => (onWire_raises _).bind fun _ =>
    .pure _

theorem continueGivenCallWithBytes_raises (p : ProcedureIndex w) (c : CallIndex w) (args : Payload) :
    (continueGivenCallWithBytes p c args).Within (Raises (price r) 0) :=
  checkCanCall_raises.bind fun _ => .ite (.bind (.throw _) fun _ => onWire_raises _) (onWire_raises _)

theorem startCallWithPartialBytes_raises (checks : Bool) (p : ProcedureIndex w) (args : Payload) :
    (startCallWithPartialBytes checks p args).Within (Raises (price r) (r.buffer + r.chunk)) := by
  have hcontinue : ∀ c, (do continueGivenCallWithBytes p c args; pure c :
      Op (Error w) (Site w) (CallIndex w)).Within (Raises (price r) 0) := fun c =>
    (continueGivenCallWithBytes_raises p c args).bind fun _ => .pure c
  have hrest := (allocateCall_raises (r := r) checks p).raises_bind hcontinue
  have hthrow : (do throw (.error .zeroLengthInNonTerminating); let c ← allocateCall checks p
                    continueGivenCallWithBytes p c args; pure c :
      Op (Error w) (Site w) (CallIndex w)).Within (Raises (price r) (r.buffer + r.chunk)) := fun s =>
        Nat.le_add_right _ _
  have hall := (checkCanCall_raises (w := w) (r := r)).raises_bind fun _ => Within.ite (c := args.val = []) hthrow hrest
  exact hall.mono fun _ _ h => h.mono (Nat.le_of_eq (by omega))

theorem callWithBytes_raises (checks : Bool) (p : ProcedureIndex w) (args : Payload) :
    (callWithBytes checks p args).Within (Raises (price r) (r.buffer + r.chunk)) := by
  have hrest : ∀ c, (do onWire (modify fun x => x.pushMessage (.call p c .complete args)); newCallHandle p c :
      Op (Error w) (Site w) (CallHandle w)).Within (Raises (price r) 0) := fun c =>
    (onWire_raises _).bind fun _ => newCallHandle_raises p c
  have hall := (checkCanCall_raises (w := w) (r := r)).raises_bind fun _ =>
    (allocateCall_raises checks p).raises_bind hrest
  exact hall.mono fun _ _ h => h.mono (Nat.le_of_eq (by omega))

theorem endGivenCall_raises (p : ProcedureIndex w) (c : CallIndex w) :
    (endGivenCall p c).Within (Raises (price r) 0) :=
  checkCanCall_raises.bind fun _ => (onWire_raises _).bind fun _ => newCallHandle_raises p c

private theorem strike_raises (b : IpfiInteger w) : (CallHandle.strike b).Within (Raises (price r) 0) := onWire_raises _

theorem waitBytes_raises (h : CallHandle w) : h.waitBytes.Within (Raises (price r) 0) :=
  (onInterface_raises (Interface.getRaw_raises _)).bind fun _ => (strike_raises _).bind fun _ => .pure _

theorem wait_raises (decodes : List UInt8 → Bool) (h : CallHandle w) :
    (CallHandle.wait decodes h).Within (Raises (price r) 0) :=
  (onInterface_raises (Interface.getTyped_raises decodes _)).bind fun _ => (strike_raises _).bind fun _ => .pure _

theorem waitChunks_raises (decodes : List UInt8 → Bool) (h : CallHandle w) :
    (CallHandle.waitChunks decodes h).Within (Raises (price r) 0) :=
  (onInterface_raises (Interface.getChunks_raises decodes _)).bind fun _ => (strike_raises _).bind fun _ => .pure _

theorem waitChunkStream_raises (h : CallHandle w) : h.waitChunkStream.Within (Raises (price r) 0) :=
  (onInterface_raises (Interface.getChunkStream_raises _)).bind fun _ => .pure _

theorem chunkRecvRaw_raises (rx : ChunkReceiverHandle w) : rx.recvRaw.Within (Raises (price r) 0) := by
  refine (onInterface_raises (Interface.recvRaw_raises _)).bind fun chunk => ?_
  split
  · exact (strike_raises _).bind fun _ => .pure _
  · exact .pure _

end Site

/-! ### Runs -/

/-- The number of calls that the action makes. -/
def Action.newCalls : Action w → Nat
  | .startCall _ _ _ | .callWithBytes _ _ _ => 1
  | _ => 0

namespace World

variable {r : Price} {n : Nat}

def price (r : Price) (s : World w) : Nat := s.interface.price r

/-- What an action may add: what the message brings that it makes a wire receive, and a buffer for the response to a new
call. -/
def charge (r : Price) (s : World w) (a : Action w) : Nat :=
  ((s.incoming? a).map fun km => r.ofIncoming km.2).getD 0 + a.newCalls * (r.buffer + r.chunk)

private theorem onSite_raises {α : Type} {op : Op (Error w) (Site w) α} (hop : op.Within (Raises (Site.price r) n))
    {result : α → World w → World w} (hresult : ∀ a s, (result a s).interface = s.interface) (s : World w) (k : Nat) :
    Raises (price r) n s (s.onSite k op result) := by
  unfold onSite
  split
  · exact Nat.le_add_right _ _
  · rename_i t ht
    have hi : t.interface = s.interface := by
      obtain ⟨x, -, rfl⟩ := Option.map_eq_some_iff.1 ht
      rfl
    have h := hop t
    unfold Raises Site.price at h
    rw [hi] at h
    rcases hr : op.run t with ⟨a, t'⟩ | ⟨e, t'⟩ <;> rw [hr] at h
    · show (result a (s.setSite k t')).interface.price r ≤ _
      rw [hresult]
      exact h
    · exact h

private theorem consume_raises {α : Type} {op : CallHandle w → Op (Error w) (Site w) α}
    (hop : ∀ h, (op h).Within (Raises (Site.price r) 0)) (result : Nat → α → Option (Handle w)) (s : World w)
    (n : Nat) :
    Raises (price r) 0 s (s.consume n op result) := by
  unfold consume
  split
  · split
    · exact Nat.le_refl _
    · rename_i k h _ _ t ht
      have hi : t.interface = s.interface := by
        obtain ⟨x, -, rfl⟩ := Option.map_eq_some_iff.1 ht
        rfl
      have h := hop h t
      unfold Raises Site.price at h
      rw [hi] at h
      split <;> (rename_i hr; rw [hr] at h; exact h)
  · exact Nat.le_refl _

/-- What a wire receives. -/
private theorem serve_raises {a : Action w} {k : Nat} {b : Site.ServeAction w}
    {op : Op (Error w) (Site w) (Option Bool)}
    (ha : a.serve? = some (k, b)) (hop : ∀ t, (op.run t).state = t.serveStep b) {s : World w}
    (hlive : s.isLive k = true) :
    Raises (price r) (s.charge r a) s (s.onSite k op fun _ s => s) := by
  rw [onSite_state]
  split
  · exact Nat.le_add_right _ _
  · rename_i t ht
    have h := Site.serveStep_raises (r := r) t b
    have hi : t.interface = s.interface := by
      obtain ⟨x, -, rfl⟩ := Option.map_eq_some_iff.1 ht
      rfl
    unfold Raises Site.price at h
    rw [hi] at h
    rw [hop]
    have hin : s.incoming? a = (b.message? t).map fun m => (k, m) := by simp [incoming?, ha, hlive, ht]
    refine Raises.mono h (Nat.le_trans (Nat.le_of_eq ?_) (Nat.le_add_right _ _))
    rw [hin, Option.map_map]
    rfl

private theorem dropWire_raises (s : World w) (k : Nat) : Raises (price r) 0 s (s.dropWire k) := by
  unfold dropWire
  split
  · exact Nat.le_refl _
  · rename_i t ht
    obtain ⟨x, -, rfl⟩ := Option.map_eq_some_iff.1 ht
    exact Site.markTerminated_raises ⟨s.interface, x.wire⟩

private theorem stepWire_raises (checks : Bool) (s : World w) {a : Action w} (hlive : a.wire?.any s.isLive = true) :
    Raises (price r) (s.charge r a) s (s.stepWire checks a) := by
  have hcall : r.buffer + r.chunk = 0 + 1 * (r.buffer + r.chunk) := by omega
  cases a with
  | cloneWire k => exact Nat.le_add_right _ _
  | dropWire k => exact (dropWire_raises s k).mono (Nat.zero_le _)
  | startCall k p args =>
    exact (onSite_raises (Site.startCallWithPartialBytes_raises checks p args) (fun _ _ => rfl) s k).mono
      (Nat.le_of_eq hcall)
  | continueCall k p c args =>
    exact (onSite_raises (Site.continueGivenCallWithBytes_raises p c args) (fun _ _ => rfl) s k).mono (Nat.zero_le _)
  | endCall k p c =>
    show Raises _ _ s (s.onSite k (Site.endGivenCall p c) fun h s => s.addHandle (.call k h))
    refine (onSite_raises (n := 0) ?_ ?_ s k).mono (Nat.zero_le _)
    · exact Site.endGivenCall_raises p c
    · exact fun _ _ => rfl
  | callWithBytes k p args =>
    show Raises _ _ s (s.onSite k (Site.callWithBytes checks p args) fun h s => s.addHandle (.call k h))
    refine (onSite_raises (n := r.buffer + r.chunk) ?_ ?_ s k).mono (Nat.le_of_eq hcall)
    · exact Site.callWithBytes_raises checks p args
    · exact fun _ _ => rfl
  | signalEndOfInput k => exact (onSite_raises (Site.onWire_raises _) (fun _ _ => rfl) s k).mono (Nat.zero_le _)
  | signalTermination k => exact (onSite_raises (Site.onWire_raises _) (fun _ _ => rfl) s k).mono (Nat.zero_le _)
  | flush k => exact (onSite_raises (Site.onWire_raises _) (fun _ _ => rfl) s k).mono (Nat.zero_le _)
  | receiveOne k reader => exact serve_raises rfl (fun t => receiveOneFrom_state t reader) hlive
  | fillStep k reader => exact serve_raises rfl (fun t => fillStepFrom_state t reader) hlive
  | _ => exact Nat.le_add_right _ _

/-- No action adds more than it is charged. -/
theorem step_raises (checks : Bool) (s : World w) (a : Action w) :
    Raises (price r) (s.charge r a) s (s.step checks a) := by
  cases a with
  | addProcedure p procedure => exact Nat.le_add_right _ _
  | newWire moduleStyle max => exact Nat.le_add_right _ _
  | «yield» k e bytes t =>
    simp only [step]
    split
    · exact (onSite_raises (Site.onWire_raises _) (fun _ _ => rfl) s k).mono (Nat.zero_le _)
    · exact Nat.le_add_right _ _
  | waitBytes n => exact (consume_raises Site.waitBytes_raises _ s n).mono (Nat.zero_le _)
  | wait n decodes => exact (consume_raises (Site.wait_raises decodes) _ s n).mono (Nat.zero_le _)
  | waitChunks n decodes => exact (consume_raises (Site.waitChunks_raises decodes) _ s n).mono (Nat.zero_le _)
  | waitChunkStream n => exact (consume_raises Site.waitChunkStream_raises _ s n).mono (Nat.zero_le _)
  | intoResponseIdx n =>
    exact (consume_raises (fun h => (Site.onWire_raises _).bind fun _ => .pure _) _ s n).mono (Nat.zero_le _)
  | recvRaw n =>
    simp only [step]
    split
    · exact (onSite_raises (Site.chunkRecvRaw_raises _) (fun _ _ => rfl) s _).mono (Nat.zero_le _)
    · exact Nat.le_add_right _ _
  | dropHandle n =>
    simp only [step]
    split
    · exact (Interface.updateChan_raises s.interface _ (Nat.le_refl _)).mono (Nat.zero_le _)
    · exact Nat.le_add_right _ _
    · exact Nat.le_add_right _ _
  | _ =>
    show Raises _ _ s (if _ then s.stepWire checks _ else s)
    split
    · exact stepWire_raises checks s ‹_›
    · exact Nat.le_add_right _ _

/-- The bytes that an action takes off the input of a wire. -/
def taken (s : World w) : Action w → Nat
  | .receiveOne k reader =>
    ((s.site? k).map fun t => reader.length - (Receiver.receiveOne.run ⟨t, reader⟩).state.reader.length).getD 0
  | .fillStep k reader =>
    ((s.site? k).map fun t => reader.length - (Receiver.fillStep.run ⟨t, reader⟩).state.reader.length).getD 0
  | _ => 0

private theorem incoming_le {t : Site w} {reader : List UInt8} {m : Incoming w}
    (hm : (Site.ServeAction.receiveOne reader).message? t = some m) :
    (⟨1, 1, 1⟩ : Price).ofIncoming m ≤ reader.length - (Receiver.receiveOne.run ⟨t, reader⟩).state.reader.length := by
  have ht := Site.ServeAction.running_of_message? hm
  simp only [Site.ServeAction.message?, ht, Bool.false_eq_true, if_false] at hm
  split at hm
  · rename_i found rest hread
    cases hm
    rw [Receiver.receiveOne_reader ht hread]
    have := ofIncoming_add_length_le hread
    omega
  · cases hm

/-- With all prices one, what an action is charged has been taken off an input, or is the buffer of a new call. -/
theorem charge_le (s : World w) (a : Action w) : s.charge ⟨1, 1, 1⟩ a ≤ s.taken a + 2 * a.newCalls := by
  have hreceive : ((s.incoming? a).map fun km => (⟨1, 1, 1⟩ : Price).ofIncoming km.2).getD 0 ≤ s.taken a := by
    cases hin : s.incoming? a with
    | none => exact Nat.zero_le _
    | some km =>
      obtain ⟨⟨k, b⟩, ha, hin⟩ := Option.bind_eq_some_iff.1 hin
      replace hin : (if s.isLive k then (s.site? k).bind fun t => (b.message? t).map fun m => (k, m) else none) =
        some km := hin
      split at hin
      · obtain ⟨t, ht, hin⟩ := Option.bind_eq_some_iff.1 hin
        obtain ⟨m, hm, rfl⟩ := Option.map_eq_some_iff.1 hin
        cases a with
        | receiveOne k reader =>
          cases ha
          simp only [taken, ht, Option.map_some, Option.getD_some]
          exact incoming_le hm
        | fillStep k reader =>
          cases ha
          simp only [taken, ht, Option.map_some, Option.getD_some, Receiver.fillStep_reader]
          exact incoming_le hm
        | «yield» k e bytes t =>
          cases ha
          cases hm
        | _ => cases ha
      · cases hin
  show _ + a.newCalls * (1 + 1) ≤ _
  omega

/-- Whatever peers send and local code does, an interface holds no more than it held before and was charged for, at
any prices.  A peer is charged for the messages it sends: with the buffers, the chunks and the bytes counted together,
for no more than the bytes of these messages.  Nothing else is charged for but the buffers that local code makes calls
with. -/
theorem footprint_le (checks : Bool) (s : World w) (as : List (Action w)) :
    (∀ r, (as.foldl (step checks) s).price r ≤ s.price r + Raises.charges (step checks) (charge r) s as) ∧
    Raises.charges (step checks) (charge ⟨1, 1, 1⟩) s as ≤
      Raises.charges (step checks) (fun s a => s.taken a + 2 * a.newCalls) s as := by
  refine ⟨fun r => Raises.foldl (step_raises checks) s as, ?_⟩
  exact Raises.charges_le charge_le s as

end World

end Ipfi
