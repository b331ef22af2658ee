import Ipfi.Waiting

/-!
# A message whose chunks are received

Chunks that end are handed to the channel while the receiver is held, and stay in the buffer afterwards.  Whatever is
done to the message in whatever order, the chunks in the channel and those in the buffer are the chunks that were
sent.
-/

namespace Ipfi

variable {w : IntFeature}

open Interface

/-- What can be done to a message whose chunks are received. -/
inductive StreamOp
  | sendMany (data : List UInt8)
  | terminateChunk
  | terminateMessage
  | poison
  | dropReceiver
  | recvRaw

/-- The interface, with what was sent since the receiver was made, what it has returned, and whether it is gone. -/
structure StreamRun (w : IntFeature) where
  interface : Interface w
  /-- The chunks that have ended. -/
  ended : List (List UInt8)
  /-- The chunk after them. -/
  current : List UInt8
  received : List (List UInt8)
  dropped : Bool

namespace StreamRun

variable {r : ChunkReceiver w} {y : StreamRun w} {q ds : List (List UInt8)}

/-- One of the operations that write to the message, with the record of what it sends if it succeeds. -/
def write (y : StreamRun w) (x : Op (Error w) (Interface w) Unit) (ended : List (List UInt8)) (current : List UInt8) :
    StreamRun w :=
  match x.run y.interface with
  | .ok _ i => { y with interface := i, ended := ended, current := current }
  | .error _ i => { y with interface := i }

def step (r : ChunkReceiver w) (y : StreamRun w) : StreamOp → StreamRun w
  | .sendMany data => y.write (Interface.sendMany data r.messageId) y.ended (y.current ++ data)
  | .terminateChunk => y.write (Interface.terminateChunk r.messageId) (y.ended ++ [y.current]) []
  | .terminateMessage => y.write (Interface.terminateMessage r.messageId) y.ended y.current
  | .poison => { y with interface := y.interface.poison r.completeLock }
  | .dropReceiver => { y with interface := y.interface.dropReceiver r, dropped := true }
  | .recvRaw =>
    if y.dropped then y
    else match r.recvRaw.run y.interface with
      | .ok chunk i => { y with interface := i, received := y.received ++ chunk.toList }
      | .error _ i => { y with interface := i }

/-- The chunks that were handed to the channel. -/
def handedOver (r : ChunkReceiver w) (y : StreamRun w) : List (List UInt8) :=
  y.received ++ (y.interface.chans r.rx).queue

/-- The chunks in the buffer of the message. -/
def kept (r : ChunkReceiver w) (y : StreamRun w) : List (List UInt8) :=
  match y.interface.messages.lookup r.messageId with
  | some m => m.chunks
  | none => []

/-- No chunk is lost, doubled or out of order, and who holds the receiver learns the end of the message when it has
come. -/
structure Faithful (r : ChunkReceiver w) (y : StreamRun w) : Prop where
  chunks : y.handedOver r ++ y.kept r = y.ended ++ [y.current]
  recv_chunk : y.dropped = false → ∀ c q, (y.interface.chans r.rx).queue = c :: q →
    ∃ i, r.recvRaw.run y.interface = .ok (some c) i
  recv_end : y.dropped = false → (y.interface.chans r.rx).queue = [] →
    ((∃ i, r.recvRaw.run y.interface = .ok none i) ↔ y.interface.locks r.completeLock = .complete)
  recv_poisoned : y.dropped = false → (y.interface.chans r.rx).queue = [] →
    ((∃ i, r.recvRaw.run y.interface = .error (.error (.lockPoisoned r.messageId)) i) ↔
      y.interface.locks r.completeLock = .poisoned)
  getRaw : y.dropped = true → y.interface.locks r.completeLock = .complete → r.messageId ∈ y.interface.messages →
    ∃ chunks i, (Interface.getRaw r.messageId).run y.interface = .ok chunks i ∧
      y.handedOver r ++ chunks = y.ended ++ [y.current]

/-! ### What the states have in common -/

/-- The ways a message can stand once its chunks are received. -/
inductive Phase (r : ChunkReceiver w) (y : StreamRun w) : Prop
  /-- The message is not complete.  What ends after the receiver is gone stays in the buffer. -/
  | writing (q ds : List (List UInt8))
      (hm : y.interface.messages.lookup r.messageId = some ⟨ds ++ [y.current], r.completeLock, some (some r.rx)⟩)
      (hl : y.interface.locks r.completeLock ≠ .complete) (hc : y.interface.chans r.rx = ⟨q, true, !y.dropped⟩)
      (he : y.received ++ q ++ ds = y.ended) (hd : y.dropped = false → ds = [])
  /-- The message is complete, and all of it was handed over. -/
  | finished (q : List (List UInt8)) (hm : y.interface.messages.lookup r.messageId = none)
      (hl : y.interface.locks r.completeLock = .complete) (hc : y.interface.chans r.rx = ⟨q, false, !y.dropped⟩)
      (he : y.received ++ q = y.ended ++ [y.current])
  /-- The message is complete, and its end was not handed over. -/
  | stored (q ds : List (List UInt8))
      (hm : y.interface.messages.lookup r.messageId = some ⟨ds ++ [y.current], r.completeLock, some none⟩)
      (hl : y.interface.locks r.completeLock = .complete) (hc : (y.interface.chans r.rx).queue = q)
      (he : y.received ++ q ++ ds = y.ended) (hd : y.dropped = true)

theorem recvRaw_run (r : ChunkReceiver w) (i : Interface w) :
    r.recvRaw.run i = match (i.chans r.rx).queue with
      | c :: _ => .ok (some c) (i.takeChunk r.rx).2
      | [] =>
        if i.locks r.completeLock = .poisoned then .error (.error (.lockPoisoned r.messageId)) (i.takeChunk r.rx).2
        else if (i.chans r.rx).senderAlive then .error .blocked (i.takeChunk r.rx).2
        else .ok none (i.takeChunk r.rx).2 := by
  by_cases hl : i.locks r.completeLock = .poisoned
  · cases hq : (i.chans r.rx).queue <;> simp [ChunkReceiver.recvRaw, Interface.takeChunk, hl, hq]
  · cases hq : (i.chans r.rx).queue with
    | nil => cases ha : (i.chans r.rx).senderAlive <;> simp [ChunkReceiver.recvRaw, Interface.takeChunk, hl, hq, ha]
    | cons c q => simp [ChunkReceiver.recvRaw, Interface.takeChunk, hl, hq]

theorem Phase.faithful (h : Phase r y) : Faithful r y := by
  cases h with
  | writing q ds hm hl hc he hd =>
    have hqueue : (y.interface.chans r.rx).queue = q := by rw [hc]
    refine ⟨?_, fun _ c q' hq => ⟨_, by rw [recvRaw_run, hq]⟩, fun _ hq => ?_, fun _ hq => ?_,
      fun _ hcomplete => absurd hcomplete hl⟩
    · rw [handedOver, kept, hm, hqueue, ← he]
      simp
    · refine iff_of_false ?_ hl
      rintro ⟨i, hr⟩
      rw [recvRaw_run, hq] at hr
      simp only [hc] at hr
      split at hr <;> cases hr
    · rw [recvRaw_run, hq]
      by_cases hp : y.interface.locks r.completeLock = .poisoned <;> simp [hp, hc]
  | finished q hm hl hc he =>
    have hqueue : (y.interface.chans r.rx).queue = q := by rw [hc]
    refine ⟨?_, fun _ c q' hq => ⟨_, by rw [recvRaw_run, hq]⟩, fun _ hq => ?_, fun _ hq => ?_,
      fun _ _ hmem => absurd hm (AList.lookup_isSome.2 hmem |> Option.isSome_iff_ne_none.1)⟩
    · rw [handedOver, kept, hm, hqueue, List.append_nil, he]
    · rw [recvRaw_run, hq]
      simp [hl, hc]
    · rw [recvRaw_run, hq]
      simp [hl, hc]
  | stored q ds hm hl hc he hd =>
    refine ⟨?_, fun hd' => ?_, fun hd' => ?_, fun hd' => ?_, fun _ _ _ => ⟨_, _, getRaw_run hm hl, ?_⟩⟩
    · rw [handedOver, kept, hm, hc, ← he]
      simp
    · rw [hd] at hd'; cases hd'
    · rw [hd] at hd'; cases hd'
    · rw [hd] at hd'; cases hd'
    · rw [handedOver, hc, ← he]
      simp

/-! ### Steps -/

private theorem write_fails (h : ∀ m, y.interface.messages.lookup r.messageId = some m →
      y.interface.locks m.completeLock = .complete) (op : StreamOp) :
    (∃ data, op = .sendMany data) ∨ op = .terminateChunk ∨ op = .terminateMessage → y.step r op = y := by
  obtain ⟨e, he⟩ := openMessage_fails h
  rintro (⟨data, rfl⟩ | rfl | rfl)
  · simp [step, write, sendMany_fails he]
  · simp [step, write, terminateChunk_fails he]
  · simp [step, write, terminateMessage_fails he]

/-- Poisoning changes nothing but a lock that is incomplete. -/
private theorem poison_complete_iff (i : Interface w) (l : LockRef) :
    (i.poison l).locks l = .complete ↔ i.locks l = .complete := by
  simp only [Interface.poison]
  split
  · simp [*]
  · rfl

private theorem dropReceiver_chans (i : Interface w) (r : ChunkReceiver w) :
    (i.dropReceiver r).chans r.rx = { i.chans r.rx with receiverAlive := false } := Function.update_self ..

private theorem takeChunk_chans (i : Interface w) (ch : ChanRef) :
    (i.takeChunk ch).2.chans ch = { i.chans ch with queue := (i.chans ch).queue.tail } := Function.update_self ..

/-- Receiving takes what it returns off the channel. -/
private theorem step_recvRaw (hd : y.dropped = false) :
    y.step r .recvRaw = { y with
      interface := (y.interface.takeChunk r.rx).2
      received := y.received ++ (y.interface.chans r.rx).queue.head?.toList } := by
  simp only [step, hd, Bool.false_eq_true, if_false]
  rw [recvRaw_run]
  cases hq : (y.interface.chans r.rx).queue with
  | cons c q => rfl
  | nil =>
    by_cases hp : y.interface.locks r.completeLock = .poisoned
    · simp [hp]
    · cases ha : (y.interface.chans r.rx).senderAlive <;> simp [hp]

theorem Phase.writing_step {q ds : List (List UInt8)}
    (hm : y.interface.messages.lookup r.messageId = some ⟨ds ++ [y.current], r.completeLock, some (some r.rx)⟩)
    (hl : y.interface.locks r.completeLock ≠ .complete) (hc : y.interface.chans r.rx = ⟨q, true, !y.dropped⟩)
    (he : y.received ++ q ++ ds = y.ended) (hd : y.dropped = false → ds = []) (op : StreamOp) :
    Phase r (y.step r op) := by
  have halive : (y.interface.chans r.rx).receiverAlive = !y.dropped := by rw [hc]
  cases op with
  | sendMany data =>
    simp only [step, write, sendMany_run hm hl (extendLast_concat ds y.current data)]
    exact .writing q ds ((lookup_setMessage ..).trans (if_pos rfl)) hl hc he hd
  -- the chunk that ends goes to the receiver as long as there is one, and stays otherwise
  | terminateChunk =>
    cases hdrop : y.dropped with
    | false =>
      obtain rfl := hd hdrop
      have hr := terminateChunk_run_alive hm hl rfl (by rw [halive, hdrop]; rfl) rfl
      simp only [step, write, hr]
      refine .writing (q ++ [y.current]) [] (lookup_handOver_self ..) hl ?_ ?_ fun _ => rfl
      · exact (handOver_chans_self ..).trans (by rw [hc])
      · rw [← he]; simp
    | true =>
      have hr := terminateChunk_run_dead hm hl rfl (by rw [halive, hdrop]; rfl) (by simp)
      simp only [step, write, hr]
      refine .writing q (ds ++ [y.current]) ((lookup_setMessage ..).trans (if_pos rfl)) hl hc ?_ fun hd' => ?_
      · rw [← he]; simp
      · rw [hdrop] at hd'; cases hd'
  -- with a receiver the message goes with its last chunk, without one it is stored
  | terminateMessage =>
    cases hdrop : y.dropped with
    | false =>
      obtain rfl := hd hdrop
      have hr := terminateMessage_run_alive hm hl rfl (by rw [halive, hdrop]; rfl) rfl
      simp only [step, write, hr]
      refine .finished (q ++ [y.current]) ((lookup_pop ..).trans (if_pos rfl)) ?_ ?_ ?_
      · rw [pop_locks]
        exact Function.update_self ..
      · rw [pop_chans (lookup_handOver_self ..)]
        apply (Function.update_self ..).trans
        rw [handOver_chans_self, markComplete_chans, hc]
      · rw [← he]; simp
    | true =>
      have hr := terminateMessage_run_dead hm hl rfl (by rw [halive, hdrop]; rfl) (by simp)
      simp only [step, write, hr]
      refine .stored q ds ((lookup_setMessage ..).trans (if_pos rfl)) (Function.update_self ..) ?_ he hdrop
      apply (congrArg Chan.queue (Function.update_self ..)).trans
      exact congrArg Chan.queue hc
  | poison => exact .writing q ds hm (fun hl' => hl ((poison_complete_iff ..).1 hl')) hc he hd
  | dropReceiver =>
    refine .writing q ds hm hl ((dropReceiver_chans ..).trans ?_) he nofun
    rw [hc]
    rfl
  | recvRaw =>
    cases hdrop : y.dropped with
    | true =>
      have hstep : y.step r .recvRaw = y := by simp [step, hdrop]
      rw [hstep]
      exact .writing q ds hm hl hc he hd
    | false =>
      rw [step_recvRaw hdrop]
      refine .writing q.tail ds hm hl ((takeChunk_chans ..).trans ?_) ?_ hd
      · rw [hc]
      · rw [hc, ← he]
        cases q <;> simp

theorem Phase.finished_step {q : List (List UInt8)} (hm : y.interface.messages.lookup r.messageId = none)
    (hl : y.interface.locks r.completeLock = .complete) (hc : y.interface.chans r.rx = ⟨q, false, !y.dropped⟩)
    (he : y.received ++ q = y.ended ++ [y.current]) (op : StreamOp) : Phase r (y.step r op) := by
  have hfails : ∀ m, y.interface.messages.lookup r.messageId = some m →
      y.interface.locks m.completeLock = .complete := by simp [hm]
  cases op with
  | sendMany data => rw [write_fails hfails _ (.inl ⟨data, rfl⟩)]; exact .finished q hm hl hc he
  | terminateChunk => rw [write_fails hfails _ (.inr (.inl rfl))]; exact .finished q hm hl hc he
  | terminateMessage => rw [write_fails hfails _ (.inr (.inr rfl))]; exact .finished q hm hl hc he
  | poison => exact .finished q hm ((poison_complete_iff ..).2 hl) hc he
  | dropReceiver =>
    refine .finished q hm hl ((dropReceiver_chans ..).trans ?_) he
    rw [hc]
    rfl
  | recvRaw =>
    cases hdrop : y.dropped with
    | true =>
      have hstep : y.step r .recvRaw = y := by simp [step, hdrop]
      rw [hstep]
      exact .finished q hm hl hc he
    | false =>
      rw [step_recvRaw hdrop]
      refine .finished q.tail hm hl ((takeChunk_chans ..).trans ?_) ?_
      · rw [hc]
      · rw [hc, ← he]
        cases q <;> simp

theorem Phase.stored_step {q ds : List (List UInt8)}
    (hm : y.interface.messages.lookup r.messageId = some ⟨ds ++ [y.current], r.completeLock, some none⟩)
    (hl : y.interface.locks r.completeLock = .complete) (hc : (y.interface.chans r.rx).queue = q)
    (he : y.received ++ q ++ ds = y.ended) (hd : y.dropped = true) (op : StreamOp) : Phase r (y.step r op) := by
  have hfails : ∀ m, y.interface.messages.lookup r.messageId = some m →
      y.interface.locks m.completeLock = .complete := by
    intro m hm'
    cases hm.symm.trans hm'
    exact hl
  cases op with
  | sendMany data => rw [write_fails hfails _ (.inl ⟨data, rfl⟩)]; exact .stored q ds hm hl hc he hd
  | terminateChunk => rw [write_fails hfails _ (.inr (.inl rfl))]; exact .stored q ds hm hl hc he hd
  | terminateMessage => rw [write_fails hfails _ (.inr (.inr rfl))]; exact .stored q ds hm hl hc he hd
  | poison => exact .stored q ds hm ((poison_complete_iff ..).2 hl) hc he hd
  | dropReceiver => exact .stored q ds hm hl ((congrArg Chan.queue (dropReceiver_chans ..)).trans hc) he rfl
  | recvRaw =>
    have hstep : y.step r .recvRaw = y := by simp [step, hd]
    rw [hstep]
    exact .stored q ds hm hl hc he hd

theorem Phase.step (h : Phase r y) (op : StreamOp) : Phase r (y.step r op) := by
  cases h with
  | writing q ds hm hl hc he hd => exact writing_step hm hl hc he hd op
  | finished q hm hl hc he => exact finished_step hm hl hc he op
  | stored q ds hm hl hc he hd => exact stored_step hm hl hc he hd op

theorem Phase.foldl (h : Phase r y) (ops : List StreamOp) : Phase r (ops.foldl (StreamRun.step r) y) := by
  induction ops generalizing y with
  | nil => exact h
  | cons op ops ih => exact ih (h.step op)

/-! ### From the registration on -/

variable {i : Interface w} {id : IpfiInteger w} {m : MessageBuffer}

/-- Just after a receiver has been made for an empty message. -/
def registered (i : Interface w) : StreamRun w where
  interface := i
  ended := []
  current := []
  received := []
  dropped := false

/-- The interface on which a receiver has been made for the message. -/
private def streamed (i : Interface w) (id : IpfiInteger w) (m : MessageBuffer) : Interface w :=
  i.openChan.2.setMessage id { m with sender := some (some i.chanCount) }

private theorem getChunkStream_streamed (hm : i.messages.lookup id = some m) (hs : m.sender = none) :
    (getChunkStream id).run i = .ok { rx := i.chanCount, completeLock := m.completeLock, messageId := id }
      (streamed i id m) := by
  rw [getChunkStream_run hm, hs]
  rfl

private theorem streamed_chans (i : Interface w) (id : IpfiInteger w) (m : MessageBuffer) :
    (streamed i id m).chans i.chanCount = ⟨[], true, true⟩ := Function.update_self ..

/-- Whatever is done to an empty message once a receiver of its chunks has been made, no chunk is lost, doubled or out
of order and the receiver learns of the end, if and only if the message was not complete already. -/
theorem registered_faithful_iff (hm : i.messages.lookup id = some m) (hempty : m.chunks = [[]]) (hs : m.sender = none) :
    ∃ r i', (getChunkStream id).run i = .ok r i' ∧
      ((∀ ops : List StreamOp, Faithful r (ops.foldl (step r) (registered i'))) ↔
        i.locks m.completeLock ≠ .complete) := by
  refine ⟨_, _, getChunkStream_streamed hm hs, fun h hl => ?_, fun hl ops => ?_⟩
  · -- nothing will ever come through the channel, and it stays open
    have hqueue := congrArg Chan.queue (streamed_chans i id m)
    obtain ⟨i', hr⟩ := ((h []).recv_end rfl hqueue).2 hl
    have hlock : (streamed i id m).locks m.completeLock = .complete := hl
    rw [recvRaw_run] at hr
    simp [registered, streamed_chans, hlock] at hr
  · refine Phase.faithful (Phase.foldl (.writing [] [] ?_ hl (streamed_chans i id m) rfl fun _ => rfl) ops)
    rw [List.nil_append]
    refine (lookup_setMessage ..).trans ((if_pos rfl).trans ?_)
    rw [hempty]
    rfl

/-- A message that has just been pushed. -/
theorem registered_faithful_pushed :
    ∃ r i', (getChunkStream (Interface.push .new).1).run (Interface.push (w := .u32) .new).2 = .ok r i' ∧
      Faithful r ([StreamOp.sendMany [101], .terminateChunk, .poison, .recvRaw, .terminateMessage].foldl (step r)
        (registered i')) := by
  have hm := (lookup_push (Interface.new : Interface .u32) (Interface.push .new).1).trans (if_pos rfl)
  obtain ⟨r, i', hr, hiff⟩ := registered_faithful_iff hm rfl rfl
  exact ⟨r, i', hr, hiff.2 (by decide) _⟩

/-- An empty message that is complete before its chunks are received. -/
theorem not_registered_faithful :
    ¬ ∀ (i : Interface .u32) (id : IpfiInteger .u32) (m : MessageBuffer), i.messages.lookup id = some m →
      m.chunks = [[]] → m.sender = none → ∀ r i', (getChunkStream id).run i = .ok r i' →
      ∀ ops : List StreamOp, Faithful r (ops.foldl (step r) (registered i')) := by
  intro h
  have hfaithful := h ((Interface.push .new).2.markComplete 0) 0 ⟨[[]], 0, none⟩ rfl rfl rfl _ _ rfl []
  obtain ⟨i', hr⟩ := (hfaithful.recv_end rfl rfl).2 rfl
  cases hr

end StreamRun

end Ipfi
