import Ipfi.Frames
import Ipfi.MessageStore
import Ipfi.Lib.Cut

/-!
# The response branch

What receiving a response does to its message: the bytes go to the last chunk, and the terminator ends the chunk or the
message, in the buffer or, once a receiver is registered, by handing the last chunk over.
-/

namespace Ipfi

variable {w : IntFeature}

namespace Interface

variable {i : Interface w} {b : IpfiInteger w} {m : MessageBuffer} {done : List (List UInt8)} {cur bytes : List UInt8}
  {ch : ChanRef}

/-- What a response does to the message it belongs to. -/
def receivePart (b : IpfiInteger w) (t : Terminator) (bytes : List UInt8) : Op (Error w) (Interface w) Unit := do
  sendMany bytes b
  match t with
  | .complete => terminateMessage b
  | .chunk => terminateChunk b
  | .none => pure ()

@[simp] theorem setMessage_setMessage (i : Interface w) (b : IpfiInteger w) (m m' : MessageBuffer) :
    (i.setMessage b m).setMessage b m' = i.setMessage b m' := by
  simp only [setMessage, AList.insert_insert]

theorem lookup_setMessage_self (i : Interface w) (b : IpfiInteger w) (m : MessageBuffer) :
    (i.setMessage b m).messages.lookup b = some m := by
  rw [lookup_setMessage, if_pos rfl]

theorem sendMany_run_concat (hm : i.messages.lookup b = some m) (ho : i.locks m.completeLock ≠ .complete)
    (hc : m.chunks = done ++ [cur]) (bytes : List UInt8) :
    (sendMany bytes b).run i = .ok () (i.setMessage b { m with chunks := done ++ [cur ++ bytes] }) :=
  sendMany_run hm ho (by rw [hc, extendLast_concat])

theorem receivePart_none (hm : i.messages.lookup b = some m) (ho : i.locks m.completeLock ≠ .complete)
    (hc : m.chunks = done ++ [cur]) (bytes : List UInt8) :
    (receivePart b .none bytes).run i = .ok () (i.setMessage b { m with chunks := done ++ [cur ++ bytes] }) := by
  rw [receivePart, EStateM.run_bind_ok (sendMany_run_concat hm ho hc bytes)]
  rfl

/-- Without a receiver the chunk ends in the buffer. -/
theorem receivePart_chunk (hm : i.messages.lookup b = some m) (ho : i.locks m.completeLock ≠ .complete)
    (hc : m.chunks = done ++ [cur]) (hs : m.sender = none) (bytes : List UInt8) :
    (receivePart b .chunk bytes).run i =
      .ok () (i.setMessage b { m with chunks := done ++ [cur ++ bytes] ++ [[]] }) := by
  rw [receivePart, EStateM.run_bind_ok (sendMany_run_concat hm ho hc bytes)]
  show (terminateChunk b).run _ = _
  rw [terminateChunk_run_none (m := { m with chunks := done ++ [cur ++ bytes] }) (lookup_setMessage_self _ _ _) ho hs,
    setMessage_setMessage]

/-- Without a receiver the message stays, complete. -/
theorem receivePart_complete (hm : i.messages.lookup b = some m) (ho : i.locks m.completeLock ≠ .complete)
    (hc : m.chunks = done ++ [cur]) (hs : m.sender = none) (bytes : List UInt8) :
    (receivePart b .complete bytes).run i =
      .ok () ((i.setMessage b { m with chunks := done ++ [cur ++ bytes] }).markComplete m.completeLock) := by
  rw [receivePart, EStateM.run_bind_ok (sendMany_run_concat hm ho hc bytes)]
  show (terminateMessage b).run _ = _
  rw [terminateMessage_run_none (m := { m with chunks := done ++ [cur ++ bytes] }) (lookup_setMessage_self _ _ _) ho hs]

private theorem handOver_setMessage (i : Interface w) (b : IpfiInteger w) (m m' : MessageBuffer) (ch : ChanRef)
    (cs : List (List UInt8)) (c : List UInt8) : (i.setMessage b m').handOver b m ch cs c = i.handOver b m ch cs c := by
  have h := setMessage_setMessage (i.updateChan ch fun k => { k with queue := k.queue ++ [c] }) b m'
  exact h _

/-- To a receiver the chunk is handed over. -/
theorem receivePart_chunk_alive (hm : i.messages.lookup b = some m) (ho : i.locks m.completeLock ≠ .complete)
    (hc : m.chunks = done ++ [cur]) (hs : m.sender = some (some ch)) (hr : (i.chans ch).receiverAlive = true)
    (bytes : List UInt8) :
    (receivePart b .chunk bytes).run i = .ok () (i.handOver b m ch done (cur ++ bytes)) := by
  rw [receivePart, EStateM.run_bind_ok (sendMany_run_concat hm ho hc bytes)]
  show (terminateChunk b).run _ = _
  rw [terminateChunk_run_alive (m := { m with chunks := done ++ [cur ++ bytes] })
    (lookup_setMessage_self _ _ _) ho hs hr rfl]
  exact congrArg _ (handOver_setMessage i b m _ ch done (cur ++ bytes))

/-- To a receiver the last chunk is handed over, and the message goes. -/
theorem receivePart_complete_alive (hm : i.messages.lookup b = some m) (ho : i.locks m.completeLock ≠ .complete)
    (hc : m.chunks = done ++ [cur]) (hs : m.sender = some (some ch)) (hr : (i.chans ch).receiverAlive = true)
    (bytes : List UInt8) :
    (receivePart b .complete bytes).run i =
      .ok () (((i.markComplete m.completeLock).handOver b m ch done (cur ++ bytes)).pop b).2 := by
  rw [receivePart, EStateM.run_bind_ok (sendMany_run_concat hm ho hc bytes)]
  show (terminateMessage b).run _ = _
  rw [terminateMessage_run_alive (m := { m with chunks := done ++ [cur ++ bytes] }) (lookup_setMessage_self _ _ _) ho hs
    hr rfl]
  exact congrArg (fun i => EStateM.Result.ok () (pop i b).2)
    (handOver_setMessage (i.markComplete m.completeLock) b m _ ch done (cur ++ bytes))

/-- With its receiver gone the message stays, complete and without its sender. -/
theorem receivePart_complete_dead (hm : i.messages.lookup b = some m) (ho : i.locks m.completeLock ≠ .complete)
    (hc : m.chunks = done ++ [cur]) (hs : m.sender = some (some ch)) (hr : (i.chans ch).receiverAlive = false)
    (bytes : List UInt8) :
    (receivePart b .complete bytes).run i =
      .ok () (((i.markComplete m.completeLock).setMessage b
        { m with chunks := done ++ [cur ++ bytes], sender := some none }).dropSender m.sender) := by
  rw [receivePart, EStateM.run_bind_ok (sendMany_run_concat hm ho hc bytes)]
  show (terminateMessage b).run _ = _
  rw [terminateMessage_run_dead (m := { m with chunks := done ++ [cur ++ bytes] }) (lookup_setMessage_self _ _ _)
    ho hs hr (by simp)]
  exact congrArg (fun i : Interface w => EStateM.Result.ok () (i.dropSender m.sender))
    (setMessage_setMessage (i.markComplete m.completeLock) b _ _)

/-- A message that ends without anyone to take it over is complete; with a live receiver it goes. -/
theorem receivePart_complete_settles (hw : i.WellFormed) (hm : i.messages.lookup b = some m)
    (ho : i.locks m.completeLock ≠ .complete) (bytes : List UInt8) :
    ∃ i', (receivePart b .complete bytes).run i = .ok () i' ∧
      (∀ {m'}, i'.messages.lookup b = some m' → i'.locks m'.completeLock = .complete) ∧
      ∀ {ch}, m.sender = some (some ch) → (i.chans ch).receiverAlive = true → b ∉ i'.messages := by
  obtain ⟨done, cur, hc⟩ : ∃ done cur, m.chunks = done ++ [cur] :=
    ⟨m.chunks.dropLast, m.chunks.getLast (hw.chunks_ne hm), (List.dropLast_append_getLast _).symm⟩
  rcases hs : m.sender with _ | _ | ch
  · refine ⟨_, receivePart_complete hm ho hc hs bytes, fun {m'} hm' => ?_, fun hch => by cases hch⟩
    obtain rfl := Option.some.inj ((lookup_setMessage_self _ _ _).symm.trans hm')
    exact Function.update_self ..
  · exact absurd (hw.sender_gone hm hs) ho
  · cases hr : (i.chans ch).receiverAlive with
    | true =>
      have hgone : b ∉ (((i.markComplete m.completeLock).handOver b m ch done (cur ++ bytes)).pop b).2.messages :=
        AList.lookup_eq_none.1 ((lookup_pop _ _ _).trans (if_pos rfl))
      exact ⟨_, receivePart_complete_alive hm ho hc hs hr bytes,
        fun hm' => absurd (AList.mem_of_lookup hm') hgone, fun _ _ => hgone⟩
    | false =>
      refine ⟨_, receivePart_complete_dead hm ho hc hs hr bytes, fun {m'} hm' => ?_, fun hch hr' => ?_⟩
      · obtain rfl := Option.some.inj ((lookup_setMessage_self _ _ _).symm.trans hm')
        exact Function.update_self ..
      · obtain rfl := Option.some.inj (Option.some.inj hch)
        rw [hr] at hr'
        cases hr'

end Interface

namespace Site

variable {s : Site w} {p : ProcedureIndex w} {c : CallIndex w} {b : IpfiInteger w}

/-- The wire expects a response to the call, in the message `b`. -/
structure Awaits (s : Site w) (p : ProcedureIndex w) (c : CallIndex w) (b : IpfiInteger w) : Prop where
  running : s.wire.terminated = false
  mapped : s.wire.responseIdxMap.lookup (p, c) = some b

/-- The site after a part of the response, given the interface after it. -/
def afterPart (s : Site w) (p : ProcedureIndex w) (c : CallIndex w) (t : Terminator) (i : Interface w) : Site w where
  interface := i
  wire := if t = .complete then { s.wire with responseIdxMap := s.wire.responseIdxMap.erase (p, c) } else s.wire

theorem receiveResponse_run (h : s.Awaits p c b) {t : Terminator} {bytes : List UInt8} {i : Interface w}
    (hi : (Interface.receivePart b t bytes).run s.interface = .ok () i) :
    (receiveResponse p c t bytes).run s = .ok (some (decide (t = .complete))) (s.afterPart p c t i) := by
  simp only [Interface.receivePart, EStateM.run_bind] at hi
  have hidx : (onWire (Wire.getResponseIdx p c)).run s = .ok b s := by
    simp [onWire, Wire.getResponseIdx, h.running, h.mapped]
  rw [receiveResponse, EStateM.run_bind_ok hidx, EStateM.run_bind, onInterface, EStateM.run_zoom]
  rcases hs : (Interface.sendMany bytes b).run s.interface with ⟨_, i₁⟩ | ⟨e, i₁⟩
  · rw [hs] at hi
    cases t with
    | complete =>
      simp only [EStateM.Result.mapState_ok, onInterface, onWire] at hi ⊢
      rw [EStateM.run_bind, EStateM.run_zoom, hi]
      rfl
    | chunk =>
      simp only [EStateM.Result.mapState_ok, onInterface] at hi ⊢
      rw [EStateM.run_bind, EStateM.run_zoom, hi]
      rfl
    | none =>
      cases hi
      rfl
  · rw [hs] at hi
    cases hi

theorem receivePart_edits {i : Interface w} (hw : i.WellFormed) (ho : i.Open b) (t : Terminator) (bytes : List UInt8) :
    ∃ i', (Interface.receivePart b t bytes).run i = .ok () i' ∧ Interface.Edits i i' b ∧
      (t ≠ .complete → i'.Open b) := by
  obtain ⟨i₁, hr₁, he₁, ho₁⟩ := Interface.sendMany_edits hw ho bytes
  unfold Interface.receivePart
  rw [EStateM.run_bind_ok hr₁]
  cases t with
  | complete =>
    obtain ⟨i₂, hr₂, he₂⟩ := Interface.terminateMessage_edits he₁.wellFormed ho₁
    exact ⟨i₂, hr₂, he₁.trans he₂, fun h => absurd rfl h⟩
  | chunk =>
    obtain ⟨i₂, hr₂, he₂, ho₂⟩ := Interface.terminateChunk_edits he₁.wellFormed ho₁
    exact ⟨i₂, hr₂, he₁.trans he₂, fun _ => ho₂⟩
  | none => exact ⟨i₁, rfl, he₁, fun _ => ho₁⟩

/-- A response that is not awaited changes nothing; one that is awaited edits the message that is mapped to it. -/
theorem receiveResponse_cases (hw : s.interface.WellFormed)
    (hopen : ∀ b, s.wire.responseIdxMap.lookup (p, c) = some b → s.interface.Open b) (t : Terminator)
    (bytes : List UInt8) :
    (∃ e, (receiveResponse p c t bytes).run s = .error e s) ∨ ∃ b i, s.Awaits p c b ∧
      (receiveResponse p c t bytes).run s = .ok (some (decide (t = .complete))) (s.afterPart p c t i) ∧
      Interface.Edits s.interface i b ∧ (t ≠ .complete → i.Open b) := by
  by_cases ht : s.wire.terminated = true
  · exact .inl ⟨.error .wireTerminated, by simp [receiveResponse, onWire, Wire.getResponseIdx, ht]⟩
  · cases hm : s.wire.responseIdxMap.lookup (p, c) with
    | none =>
      exact .inl
        ⟨.error (.noResponseBuffer p.idx c.idx), by simp [receiveResponse, onWire, Wire.getResponseIdx, ht, hm]⟩
    | some b =>
      have ha : s.Awaits p c b := ⟨by simpa using ht, hm⟩
      obtain ⟨i, hr, he, ho⟩ := receivePart_edits hw (hopen b hm) t bytes
      exact .inr ⟨b, i, ha, receiveResponse_run ha hr, he, ho⟩

/-! ### A response that accumulates -/

/-- A part of a response, as it is received. -/
abbrev Part : Type := List UInt8 × Terminator

/-- The parts with the ends of chunks marked. -/
def marked (parts : List Part) : List (List UInt8 × Bool) := parts.map fun q => (q.1, decide (q.2 = .chunk))

/-- The chunks of a response that arrives in the given parts. -/
def chunksOf (parts : List Part) : List (List UInt8) := Cut.chunks (marked parts)

@[simp] theorem marked_append (parts parts' : List Part) : marked (parts ++ parts') = marked parts ++ marked parts' :=
  List.map_append

/-- The response is incomplete, and its chunks so far are in a buffer without a receiver. -/
structure Accumulates (s : Site w) (p : ProcedureIndex w) (c : CallIndex w) (b : IpfiInteger w) (l : LockRef)
    (cs : List (List UInt8)) : Prop where
  awaits : s.Awaits p c b
  buffer : s.interface.messages.lookup b = some { chunks := cs, completeLock := l, sender := none }
  lock : s.interface.locks l = .incomplete

/-- The response is complete, and its chunks are in a buffer. -/
structure Completed (s : Site w) (b : IpfiInteger w) (l : LockRef) (cs : List (List UInt8)) : Prop where
  buffer : s.interface.messages.lookup b = some { chunks := cs, completeLock := l, sender := none }
  lock : s.interface.locks l = .complete

/-- The site after the response has arrived up to some point. -/
def afterParts (p : ProcedureIndex w) (c : CallIndex w) (s : Site w) (parts : List Part) : Site w :=
  parts.foldl (fun s q => ((receive (.response p c q.2 q.1)).run s).state) s

variable {l : LockRef} {done : List (List UInt8)} {cur bytes : List UInt8}

private theorem Accumulates.ne (h : s.Accumulates p c b l (done ++ [cur])) : s.interface.locks l ≠ .complete := by
  rw [h.lock]; decide

theorem Accumulates.none (h : s.Accumulates p c b l (done ++ [cur])) (bytes : List UInt8) :
    ((receive (.response p c .none bytes)).run s).state.Accumulates p c b l (done ++ [cur ++ bytes]) := by
  show ((receiveResponse p c .none bytes).run s).state.Accumulates p c b l _
  rw [receiveResponse_run h.awaits (Interface.receivePart_none h.buffer h.ne rfl bytes)]
  exact ⟨⟨h.awaits.running, h.awaits.mapped⟩, Interface.lookup_setMessage_self _ _ _, h.lock⟩

theorem Accumulates.chunk (h : s.Accumulates p c b l (done ++ [cur])) (bytes : List UInt8) :
    ((receive (.response p c .chunk bytes)).run s).state.Accumulates p c b l (done ++ [cur ++ bytes] ++ [[]]) := by
  show ((receiveResponse p c .chunk bytes).run s).state.Accumulates p c b l _
  rw [receiveResponse_run h.awaits (Interface.receivePart_chunk h.buffer h.ne rfl rfl bytes)]
  exact ⟨⟨h.awaits.running, h.awaits.mapped⟩, Interface.lookup_setMessage_self _ _ _, h.lock⟩

theorem Accumulates.complete (h : s.Accumulates p c b l (done ++ [cur])) (bytes : List UInt8) :
    ((receive (.response p c .complete bytes)).run s).state.Completed b l (done ++ [cur ++ bytes]) := by
  show ((receiveResponse p c .complete bytes).run s).state.Completed b l _
  rw [receiveResponse_run h.awaits (Interface.receivePart_complete h.buffer h.ne rfl rfl bytes)]
  exact ⟨Interface.lookup_setMessage_self _ _ _, Function.update_self ..⟩

/-- Parts that do not complete the response are cut into chunks. -/
theorem Accumulates.parts (h : s.Accumulates p c b l (done ++ [cur])) {parts : List Part}
    (hparts : ∀ q ∈ parts, q.2 ≠ .complete) :
    (afterParts p c s parts).Accumulates p c b l (done ++ Cut.chunksFrom cur (marked parts)) := by
  induction parts generalizing s done cur with
  | nil => exact h
  | cons q parts ih =>
    have hrest : ∀ q ∈ parts, q.2 ≠ .complete := fun q hq => hparts q (by simp [hq])
    obtain ⟨bytes, t⟩ := q
    cases t with
    | complete => exact absurd rfl (hparts (bytes, .complete) (by simp))
    | none => exact ih (h.none bytes) hrest
    | chunk =>
      have := ih (h.chunk bytes) hrest
      rw [List.append_assoc] at this
      exact this

end Site

end Ipfi
