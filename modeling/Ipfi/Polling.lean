import Ipfi.StreamedMessage
import Ipfi.Lib.Reach

/-!
# Receiving chunks while they are sent

`recv_raw` looks at the lock of the message, then takes what is in the channel or waits for it until a timeout, and
starts again.  Meanwhile other threads write to the message, end it in three steps of their own, and poison its lock.
However their steps alternate, the holder of the receiver gets every chunk once and in order, and the end only after
all of them.
-/

namespace Ipfi

variable {w : IntFeature}

open Interface

/-- What threads do to a message whose chunks are received. -/
inductive SendMethod
  | sendMany (data : List UInt8)
  | terminateChunk
  | terminateMessage
  | poison
  deriving DecidableEq

/-- Where a thread is in one of them. -/
inductive SendPlace (w : IntFeature)
  | begin
  /-- `terminate_message` has marked the lock complete, and still holds its reference to the message. -/
  | marked
  /-- The last chunk has been handed over, and the message is yet to be deleted. -/
  | handedOver
  | returned
  | failed (e : Stop (Error w))

/-- Where the holder of the receiver is in `recv_raw`. -/
inductive RecvPlace
  | idle
  | begin
  /-- The lock was poisoned. -/
  | tryRecv
  /-- The lock was not poisoned. -/
  | recvTimeout
  deriving DecidableEq

namespace SendMethod

/-- The next atomic step of a thread in the method. -/
def advance (r : ChunkReceiver w) (m : SendMethod) : SendPlace w → Op (Error w) (Interface w) (SendPlace w)
  | .begin => do
    match m with
    | sendMany data =>
      Interface.sendMany data r.messageId
      pure .returned
    | terminateChunk =>
      Interface.terminateChunk r.messageId
      pure .returned
    | terminateMessage =>
      let message ← openMessage r.messageId
      modify fun i => i.markComplete message.completeLock
      if message.sender.isSome then pure .marked else pure .returned
    | poison =>
      modify fun i => i.poison r.completeLock
      pure .returned
  | .marked => do
    -- nothing else has written to the message since, as its reference was held
    let message ← unwrap ((← get).messages.lookup r.messageId)
    let completedChunk ← unwrap message.chunks.getLast?
    let ch ← unwrap (message.sender.bind id)
    let sent ← modifyGet fun i => i.sendChunk ch completedChunk
    if sent then
      modify fun i => i.setMessage r.messageId { message with chunks := message.chunks.dropLast ++ [[]] }
      pure .handedOver
    else
      modify fun i => i.setMessage r.messageId
        { message with chunks := message.chunks.dropLast ++ [completedChunk], sender := some none }
      modify fun i => i.dropSender message.sender
      pure .returned
  | .handedOver => do
    modify fun i => (i.pop r.messageId).2
    pure .returned
  | .returned => pure .returned
  | .failed e => pure (.failed e)

/-- The chunks that have ended and the one after them, once the method has written what it writes. -/
def writes (m : SendMethod) (a : SendPlace w) (ended : List (List UInt8)) (current : List UInt8) :
    List (List UInt8) × List UInt8 :=
  match m, a with
  | sendMany data, .begin => (ended, current ++ data)
  | terminateChunk, .begin => (ended ++ [current], [])
  | _, _ => (ended, current)

variable {r : ChunkReceiver w} {i : Interface w} {message : MessageBuffer}

theorem advance_terminateMessage (r : ChunkReceiver w) (hm : i.messages.lookup r.messageId = some message)
    (hl : i.locks message.completeLock ≠ .complete) (hs : message.sender.isSome) :
    (terminateMessage.advance r .begin).run i = .ok .marked (i.markComplete message.completeLock) := by
  simp only [advance, EStateM.run_bind_ok (openMessage_run hm hl), hs, if_true]
  rfl

theorem advance_marked_alive (m : SendMethod) (hm : i.messages.lookup r.messageId = some message)
    (hs : message.sender = some (some r.rx)) (hr : (i.chans r.rx).receiverAlive = true) {cs : List (List UInt8)}
    {c : List UInt8} (hc : message.chunks = cs ++ [c]) :
    (m.advance r .marked).run i = .ok .handedOver (i.handOver r.messageId message r.rx cs c) := by
  simp [advance, hm, hs, hc, sendChunk_alive hr, handOver]

theorem advance_marked_dead (m : SendMethod) (hm : i.messages.lookup r.messageId = some message)
    (hs : message.sender = some (some r.rx)) (hr : (i.chans r.rx).receiverAlive = false) (hc : message.chunks ≠ []) :
    (m.advance r .marked).run i =
      .ok .returned ((i.setMessage r.messageId { message with sender := some none }).dropSender message.sender) := by
  obtain ⟨cs, c, hcs⟩ : ∃ cs c, message.chunks = cs ++ [c] := ⟨_, _, (List.dropLast_concat_getLast hc).symm⟩
  simp [advance, hm, hs, hcs, sendChunk_dead hr]

theorem advance_handedOver (m : SendMethod) (r : ChunkReceiver w) (i : Interface w) :
    (m.advance r .handedOver).run i = .ok .returned (i.pop r.messageId).2 := rfl

end SendMethod

/-- What a call of `recv_raw` returns. -/
abbrev Received (w : IntFeature) : Type := Except (Error w) (Option (List UInt8))

def Received.chunk? : Received w → Option (List UInt8)
  | .ok chunk => chunk
  | .error _ => none

/-- Threads that write to one message, and the holder of its receiver. -/
structure Polling (ι : Type) (w : IntFeature) where
  interface : Interface w
  place : ι → SendPlace w
  recv : RecvPlace
  /-- What the calls of `recv_raw` have returned, oldest first. -/
  returns : List (Received w)
  /-- The chunks that have ended. -/
  ended : List (List UInt8)
  /-- The chunk after them. -/
  current : List UInt8
  dropped : Bool

/-- The steps of the threads, and those of the holder of the receiver. -/
inductive PollingAction (ι : Type)
  | send (t : ι)
  /-- `recv_raw` is called. -/
  | call
  /-- The next step of the call. -/
  | receive
  | dropReceiver

namespace Polling

variable {ι : Type} [DecidableEq ι] {methods : ι → SendMethod} {r : ChunkReceiver w} {x : Polling ι w} {t : ι}

/-- Just after a receiver has been made for an empty message. -/
def start (i : Interface w) : Polling ι w := ⟨i, fun _ => .begin, .idle, [], [], [], false⟩

/-- The chunks received so far. -/
def received (x : Polling ι w) : List (List UInt8) := x.returns.filterMap Received.chunk?

/-- The end of a call. -/
def answer (x : Polling ι w) (i : Interface w) (a : Received w) : Polling ι w :=
  { x with interface := i, recv := .idle, returns := x.returns ++ [a] }

/-- The next step of a call of `recv_raw`; a step that finds the channel empty and open is a timeout. -/
def receive (r : ChunkReceiver w) (x : Polling ι w) : Polling ι w :=
  match x.recv with
  | .idle => x
  | .begin =>
    if x.interface.locks r.completeLock = .poisoned then { x with recv := .tryRecv } else
      { x with recv := .recvTimeout }
  | .tryRecv =>
    match x.interface.takeChunk r.rx with
    | (some bytes, i) => x.answer i (.ok (some bytes))
    | (none, i) => x.answer i (.error (.lockPoisoned r.messageId))
  | .recvTimeout =>
    match x.interface.takeChunk r.rx with
    | (some bytes, i) => x.answer i (.ok (some bytes))
    | (none, i) =>
      if (x.interface.chans r.rx).senderAlive then { x with recv := .begin } else x.answer i (.ok none)

/-- The next step of a thread. -/
def send (methods : ι → SendMethod) (r : ChunkReceiver w) (x : Polling ι w) (t : ι) : Polling ι w :=
  match ((methods t).advance r (x.place t)).run x.interface with
  | .ok a i => { x with
    interface := i
    place := Function.update x.place t a
    ended := ((methods t).writes (x.place t) x.ended x.current).1
    current := ((methods t).writes (x.place t) x.ended x.current).2 }
  | .error e i => { x with interface := i, place := Function.update x.place t (.failed e) }

def step (methods : ι → SendMethod) (r : ChunkReceiver w) (x : Polling ι w) : PollingAction ι → Polling ι w
  | .send t => x.send methods r t
  | .call => match x.recv, x.dropped with
    | .idle, false => { x with recv := .begin }
    | _, _ => x
  | .receive => x.receive r
  | .dropReceiver => match x.recv with
    | .idle => { x with interface := x.interface.dropReceiver r, dropped := true }
    | _ => x

/-! ### Taken together -/

/-- A call that nothing comes in between of returns what `recvRaw` returns, or times out where that has to wait. -/
theorem receive_alone (hidle : x.recv = .idle) (hd : x.dropped = false) :
    match r.recvRaw.run x.interface with
    | .ok c i => ([.call, .receive, .receive].foldl (step methods r) x) = x.answer i (.ok c)
    | .error (.error e) i => ([.call, .receive, .receive].foldl (step methods r) x) = x.answer i (.error e)
    | .error _ _ => ([.call, .receive, .receive].foldl (step methods r) x) = { x with recv := .begin } := by
  rw [StreamRun.recvRaw_run]
  by_cases hp : x.interface.locks r.completeLock = .poisoned
  · cases hq : (x.interface.chans r.rx).queue <;>
      simp [step, receive, hidle, hd, hp, takeChunk, hq, answer]
  · cases hq : (x.interface.chans r.rx).queue with
    | cons c q => simp [step, receive, hidle, hd, hp, takeChunk, hq, answer]
    | nil =>
      cases ha : (x.interface.chans r.rx).senderAlive <;>
        simp [step, receive, hidle, hd, hp, takeChunk, hq, ha, answer]

theorem send_ok {a : SendPlace w} {i : Interface w}
    (h : ((methods t).advance r (x.place t)).run x.interface = .ok a i) : x.send methods r t = { x with
      interface := i
      place := Function.update x.place t a
      ended := ((methods t).writes (x.place t) x.ended x.current).1
      current := ((methods t).writes (x.place t) x.ended x.current).2 } := by
  simp only [send, h]

theorem send_error {e : Stop (Error w)} {i : Interface w}
    (h : ((methods t).advance r (x.place t)).run x.interface = .error e i) :
    x.send methods r t = { x with interface := i, place := Function.update x.place t (.failed e) } := by
  simp only [send, h]

/-- Steps of one thread, as long as they succeed. -/
private theorem send_interface {a : SendPlace w} {i : Interface w}
    (h : ((methods t).advance r (x.place t)).run x.interface = .ok a i) :
    (x.step methods r (.send t)).interface = i ∧ (x.step methods r (.send t)).place t = a := by
  show (x.send methods r t).interface = i ∧ (x.send methods r t).place t = a
  rw [send_ok h]
  exact ⟨rfl, Function.update_self ..⟩

/-- Ending the message with nothing coming in between is `terminateMessage`. -/
theorem terminate_alone (hm : methods t = .terminateMessage) (ht : x.place t = .begin) {m : MessageBuffer}
    (hlook : x.interface.messages.lookup r.messageId = some m) (hl : x.interface.locks m.completeLock ≠ .complete)
    (hs : m.sender = some (some r.rx)) (hc : m.chunks ≠ []) :
    ([.send t, .send t, .send t].foldl (step methods r) x).interface =
      ((terminateMessage r.messageId).run x.interface).state := by
  have hcs := (List.dropLast_concat_getLast hc).symm
  have hfirst := SendMethod.advance_terminateMessage r hlook hl (by simp [hs])
  rw [← hm, ← ht] at hfirst
  obtain ⟨hi₁, hp₁⟩ := send_interface hfirst
  simp only [List.foldl_cons, List.foldl_nil]
  generalize x.step methods r (.send t) = x₁ at *
  have hlook₁ : x₁.interface.messages.lookup r.messageId = some m := hi₁ ▸ hlook
  cases ha : (x.interface.chans r.rx).receiverAlive with
  | true =>
    rw [terminateMessage_run_alive hlook hl hs ha hcs]
    have hsecond := (methods t).advance_marked_alive hlook₁ hs (hi₁ ▸ ha) hcs
    rw [← hp₁] at hsecond
    obtain ⟨hi₂, hp₂⟩ := send_interface hsecond
    generalize x₁.step methods r (.send t) = x₂ at *
    have hthird := (methods t).advance_handedOver r x₂.interface
    rw [← hp₂] at hthird
    rw [(send_interface hthird).1, hi₂, hi₁]
    rfl
  | false =>
    rw [terminateMessage_run_dead hlook hl hs ha hc]
    have hsecond := (methods t).advance_marked_dead hlook₁ hs (hi₁ ▸ ha) hc
    rw [← hp₁] at hsecond
    obtain ⟨hi₂, hp₂⟩ := send_interface hsecond
    generalize x₁.step methods r (.send t) = x₂ at *
    have hthird : ((methods t).advance r .returned).run x₂.interface = .ok .returned x₂.interface := rfl
    rw [← hp₂] at hthird
    rw [(send_interface hthird).1, hi₂, hi₁]
    rfl

end Polling

/-! ### How the message stands -/

/-- How far the end of the message has come. -/
inductive SendStage (ι : Type)
  | writing
  | marked (t : ι)
  | handedOver (t : ι)
  | deleted
  /-- Complete, with its last chunk kept as the receiver was gone. -/
  | stored

namespace SendStage

variable {ι : Type}

/-- What the interface holds for the message, `ds` being the chunks that ended when the receiver was gone. -/
def message (r : ChunkReceiver w) (ds : List (List UInt8)) (current : List UInt8) : SendStage ι → Option MessageBuffer
  | writing | marked _ => some ⟨ds ++ [current], r.completeLock, some (some r.rx)⟩
  | handedOver _ => some ⟨[[]], r.completeLock, some (some r.rx)⟩
  | deleted => none
  | stored => some ⟨ds ++ [current], r.completeLock, some none⟩

def senderAlive : SendStage ι → Bool
  | writing | marked _ | handedOver _ => true
  | deleted | stored => false

/-- The chunks that have not been handed over. -/
def kept (ds : List (List UInt8)) (current : List UInt8) : SendStage ι → List (List UInt8)
  | writing | marked _ | stored => ds ++ [current]
  | handedOver _ | deleted => []

/-- Where a thread is that has brought the end of the message as far as this, and where the others are. -/
def Places (g : SendStage ι) (t : ι) (a : SendPlace w) : Prop :=
  (a = .marked ↔ g = .marked t) ∧ (a = .handedOver ↔ g = .handedOver t)

/-- What a step of the thread `t` does to the stage and to the channel. -/
inductive Sends (t : ι) : SendStage ι → List (List UInt8) → SendStage ι → List (List UInt8) → Prop
  | stays (g : SendStage ι) (q : List (List UInt8)) : g ≠ .marked t → g ≠ .handedOver t → Sends t g q g q
  | chunk (q : List (List UInt8)) (c : List UInt8) : Sends t .writing q .writing (q ++ [c])
  | marks (q : List (List UInt8)) : Sends t .writing q (.marked t) q
  | handsOver (q : List (List UInt8)) (c : List UInt8) : Sends t (.marked t) q (.handedOver t) (q ++ [c])
  | stores (q : List (List UInt8)) : Sends t (.marked t) q .stored q
  | deletes (q : List (List UInt8)) : Sends t (.handedOver t) q .deleted q

/-- A message that is complete stays so. -/
theorem Sends.not_writing {t : ι} {g g' : SendStage ι} {q q' : List (List UInt8)} (h : Sends t g q g' q')
    (hg : g ≠ .writing) : g' ≠ .writing := by
  cases h with
  | stays => exact hg
  | chunk | marks => exact absurd rfl hg
  | handsOver | stores | deletes => nofun

end SendStage

namespace Polling

variable {ι : Type} {methods : ι → SendMethod} {r : ChunkReceiver w} {x y : Polling ι w} {t : ι} {g : SendStage ι}
  {q ds : List (List UInt8)}

/-- The message stands as its stage says: the chunks received, those in the channel and those kept are all chunks. -/
structure Stands (r : ChunkReceiver w) (g : SendStage ι) (q ds : List (List UInt8)) (x : Polling ι w) : Prop where
  message : x.interface.messages.lookup r.messageId = g.message r ds x.current
  lock : x.interface.locks r.completeLock = .complete ↔ g ≠ .writing
  chan : x.interface.chans r.rx = ⟨q, g.senderAlive, !x.dropped⟩
  chunks : x.received ++ q ++ g.kept ds x.current = x.ended ++ [x.current]
  kept : x.dropped = false → ds = [] ∧ g ≠ .stored
  places : ∀ t, g.Places t (x.place t)

/-- Nothing but where the holder of the receiver is. -/
theorem Stands.moves (h : x.Stands r g q ds) (a : RecvPlace) : { x with recv := a }.Stands r g q ds :=
  ⟨h.message, h.lock, h.chan, h.chunks, h.kept, h.places⟩

theorem received_answer (x : Polling ι w) (i : Interface w) (a : Received w) :
    (x.answer i a).received = x.received ++ a.chunk?.toList := by
  show (x.returns ++ [a]).filterMap Received.chunk? = _
  rw [List.filterMap_append]
  cases ha : a.chunk? <;> simp [received, ha]

/-- A chunk, if there is one, leaves the channel with the answer to a call. -/
theorem Stands.answers (h : x.Stands r g q ds) {a : Received w} (ha : a.chunk? = q.head?) :
    (x.answer (x.interface.takeChunk r.rx).2 a).Stands r g q.tail ds where
  message := h.message
  lock := h.lock
  chan := by
    show Function.update _ _ _ _ = _
    rw [Function.update_self, h.chan]
    rfl
  chunks := by
    refine Eq.trans ?_ h.chunks
    rw [received_answer, ha]
    cases q <;> simp [answer]
  kept := h.kept
  places := h.places

theorem Stands.drops (h : x.Stands r g q ds) :
    { x with interface := x.interface.dropReceiver r, dropped := true }.Stands r g q ds where
  message := h.message
  lock := h.lock
  chan := by
    show Function.update _ _ _ _ = _
    rw [Function.update_self, h.chan]
    rfl
  chunks := h.chunks
  kept := nofun
  places := h.places

/-! ### Steps of the holder of the receiver -/

inductive Receives (r : ChunkReceiver w) (x : Polling ι w) : Polling ι w → Prop
  | idles : x.recv = .idle → Receives r x x
  | poisoned : x.recv = .begin → x.interface.locks r.completeLock = .poisoned → Receives r x { x with recv := .tryRecv }
  | waits : x.recv = .begin → x.interface.locks r.completeLock ≠ .poisoned →
      Receives r x { x with recv := .recvTimeout }
  | takes (c : List UInt8) (q : List (List UInt8)) : x.recv = .tryRecv ∨ x.recv = .recvTimeout →
      (x.interface.chans r.rx).queue = c :: q →
      Receives r x (x.answer (x.interface.takeChunk r.rx).2 (.ok (some c)))
  | fails : x.recv = .tryRecv → (x.interface.chans r.rx).queue = [] →
      Receives r x (x.answer (x.interface.takeChunk r.rx).2 (.error (.lockPoisoned r.messageId)))
  | timesOut : x.recv = .recvTimeout → (x.interface.chans r.rx).queue = [] →
      (x.interface.chans r.rx).senderAlive = true → Receives r x { x with recv := .begin }
  | ends : x.recv = .recvTimeout → (x.interface.chans r.rx).queue = [] →
      (x.interface.chans r.rx).senderAlive = false →
      Receives r x (x.answer (x.interface.takeChunk r.rx).2 (.ok none))

theorem receive_receives (r : ChunkReceiver w) (x : Polling ι w) : x.Receives r (x.receive r) := by
  unfold receive
  cases hrecv : x.recv with
  | idle => exact .idles hrecv
  | begin =>
    show x.Receives r (if _ then _ else _)
    split
    · exact .poisoned hrecv ‹_›
    · exact .waits hrecv ‹_›
  | tryRecv =>
    cases hq : (x.interface.chans r.rx).queue with
    | cons c q =>
      simp only [takeChunk, hq]
      exact .takes c q (.inl hrecv) hq
    | nil =>
      simp only [takeChunk, hq]
      exact .fails hrecv hq
  | recvTimeout =>
    cases hq : (x.interface.chans r.rx).queue with
    | cons c q =>
      simp only [takeChunk, hq]
      exact .takes c q (.inr hrecv) hq
    | nil =>
      simp only [takeChunk, hq]
      show x.Receives r (if _ then _ else _)
      split
      · exact .timesOut hrecv hq ‹_›
      · exact .ends hrecv hq (Bool.eq_false_of_not_eq_true ‹_›)

/-! ### Steps of the other threads -/

variable [DecidableEq ι]

/-- A thread that does not end the message goes where it does not either. -/
private theorem places_update (h : ∀ t, g.Places t (x.place t)) {a : SendPlace w} (hm : g ≠ .marked t)
    (hh : g ≠ .handedOver t) (ha : a ≠ .marked) (ha' : a ≠ .handedOver) (t' : ι) :
    g.Places t' (Function.update x.place t a t') := by
  by_cases he : t' = t
  · subst he
    rw [Function.update_self]
    exact ⟨iff_of_false ha hm, iff_of_false ha' hh⟩
  · rw [Function.update_of_ne he]
    exact h t'

/-- The thread that ends the message goes on, and the others stay where they are. -/
private theorem places_advance {g' : SendStage ι} (h : ∀ t, g.Places t (x.place t)) {a : SendPlace w}
    (hm : ∀ t' ≠ t, g ≠ .marked t' ∧ g ≠ .handedOver t') (hm' : ∀ t' ≠ t, g' ≠ .marked t' ∧ g' ≠ .handedOver t')
    (ha : g'.Places t a) (t' : ι) : g'.Places t' (Function.update x.place t a t') := by
  by_cases he : t' = t
  · subst he
    rwa [Function.update_self]
  · rw [Function.update_of_ne he]
    exact ⟨iff_of_false (fun hp => (hm t' he).1 ((h t').1.1 hp)) (hm' t' he).1,
      iff_of_false (fun hp => (hm t' he).2 ((h t').2.1 hp)) (hm' t' he).2⟩

/-- Why a message that is complete is not written to. -/
def Refuses (r : ChunkReceiver w) (e : Stop (Error w)) : Prop :=
  e = .error (.alreadyCompleted r.messageId) ∨ e = .error (.outOfBounds r.messageId)

/-- What one step of the thread `t` does. -/
structure Sent (methods : ι → SendMethod) (r : ChunkReceiver w) (t : ι) (g : SendStage ι) (q : List (List UInt8))
    (x : Polling ι w) (g' : SendStage ι) (q' ds' : List (List UInt8)) : Prop where
  stands : (x.send methods r t).Stands r g' q' ds'
  sends : SendStage.Sends t g q g' q'
  poisoned : (x.send methods r t).interface.locks r.completeLock = .poisoned →
    x.interface.locks r.completeLock = .poisoned ∨
      methods t = .poison ∧ (x.send methods r t).place t = .returned
  failed : ∀ e, (x.send methods r t).place t = .failed e → x.place t = .failed e ∨ Refuses r e ∧ g ≠ .writing

/-- A step that succeeds and poisons nothing. -/
private theorem Sent.of_ok {g' : SendStage ι} {q' ds' : List (List UInt8)} {a : SendPlace w} {i : Interface w}
    (hr : ((methods t).advance r (x.place t)).run x.interface = .ok a i) (ha : ∀ e, a ≠ .failed e)
    (hl : i.locks r.completeLock = .poisoned → x.interface.locks r.completeLock = .poisoned)
    (hsends : SendStage.Sends t g q g' q') (hstands : (x.send methods r t).Stands r g' q' ds') :
    Sent methods r t g q x g' q' ds' := by
  refine ⟨hstands, hsends, fun hp => .inl ?_, fun e he => absurd ?_ (ha e)⟩
  · rw [send_ok hr] at hp
    exact hl hp
  · rw [send_ok hr] at he
    exact (Function.update_self t a x.place).symm.trans he

omit [DecidableEq ι] in
theorem Stands.refuses (h : x.Stands r g q ds) (hg : g ≠ .writing) :
    ∃ e, Refuses r e ∧ (openMessage r.messageId).run x.interface = .error e x.interface := by
  have hlock := h.lock.2 hg
  have hm := h.message
  cases g with
  | writing => exact absurd rfl hg
  | deleted => exact ⟨_, .inr rfl, by simp [openMessage, hm, SendStage.message]⟩
  | marked | handedOver | stored => exact ⟨_, .inl rfl, by simp [openMessage, hm, SendStage.message, hlock]⟩

private theorem Stands.fails (h : x.Stands r g q ds) (hm : g ≠ .marked t) (hh : g ≠ .handedOver t) (hg : g ≠ .writing)
    {e : Stop (Error w)} (he : Refuses r e)
    (hr : ((methods t).advance r (x.place t)).run x.interface = .error e x.interface) :
    Sent methods r t g q x g q ds := by
  refine ⟨?_, .stays g q hm hh, fun hp => .inl ?_, fun e' he' => .inr ⟨?_, hg⟩⟩
  · rw [send_error hr]
    exact ⟨h.message, h.lock, h.chan, h.chunks, h.kept, places_update h.places hm hh nofun nofun⟩
  · rw [send_error hr] at hp
    exact hp
  · rw [send_error hr] at he'
    cases (Function.update_self ..).symm.trans he'
    exact he

private theorem poison_complete (i : Interface w) (l : LockRef) :
    (i.poison l).locks l = .complete ↔ i.locks l = .complete := by
  simp only [Interface.poison]
  split
  · simp [*]
  · rfl

private theorem Stands.poisons (h : x.Stands r g q ds) (hm : g ≠ .marked t) (hh : g ≠ .handedOver t)
    (ht : x.place t = .begin) (hmethod : methods t = .poison) : Sent methods r t g q x g q ds := by
  have hr : ((methods t).advance r (x.place t)).run x.interface =
    .ok .returned (x.interface.poison r.completeLock) := by
    rw [hmethod, ht]
    rfl
  have hplace : (x.send methods r t).place t = .returned := by
    rw [send_ok hr]
    exact Function.update_self ..
  refine ⟨?_, .stays g q hm hh, fun _ => .inr ⟨hmethod, hplace⟩, fun e he => ?_⟩
  · rw [send_ok hr, hmethod, ht]
    exact ⟨h.message, (poison_complete ..).trans h.lock, h.chan, h.chunks, h.kept,
      places_update h.places hm hh nofun nofun⟩
  · rw [hplace] at he
    cases he

/-- A thread that is done does nothing more. -/
private theorem Stands.rests (h : x.Stands r g q ds) (hm : g ≠ .marked t) (hh : g ≠ .handedOver t)
    (hr : ((methods t).advance r (x.place t)).run x.interface = .ok (x.place t) x.interface)
    (hwrites : (methods t).writes (x.place t) x.ended x.current = (x.ended, x.current)) :
    Sent methods r t g q x g q ds := by
  have hsame : x.send methods r t = x := by rw [send_ok hr, hwrites, Function.update_eq_self]
  exact ⟨by rwa [hsame], .stays g q hm hh, fun hp => .inl (by rwa [hsame] at hp),
    fun e he => .inl (by rwa [hsame] at he)⟩

omit [DecidableEq ι] in
/-- Until the end is handed over, the chunks kept are those after the ones that have been. -/
private theorem Stands.before (h : x.Stands r g q ds) (hg : g.kept ds x.current = ds ++ [x.current]) :
    x.received ++ q ++ ds = x.ended := by
  have hchunks := h.chunks
  rw [hg, ← List.append_assoc] at hchunks
  exact (List.append_inj' hchunks rfl).1

/-- The first step of a method on a message that is not complete. -/
private theorem Stands.begins (h : x.Stands r .writing q ds) (ht : x.place t = .begin) :
    ∃ g' q' ds', Sent methods r t .writing q x g' q' ds' := by
  have hl : x.interface.locks r.completeLock ≠ .complete := fun hl => h.lock.1 hl rfl
  have hbefore := h.before rfl
  have hreceiver : (x.interface.chans r.rx).receiverAlive = !x.dropped := by rw [h.chan]
  have hplaces : ∀ t', SendStage.writing.Places t' (Function.update x.place t .returned t') :=
    places_update h.places nofun nofun nofun nofun
  have hstays := SendStage.Sends.stays (t := t) .writing q nofun nofun
  cases hmethod : methods t with
  | sendMany data =>
    have hr : ((methods t).advance r (x.place t)).run x.interface = .ok .returned
        (x.interface.setMessage r.messageId ⟨ds ++ [x.current ++ data], r.completeLock, some (some r.rx)⟩) := by
      rw [hmethod, ht]
      simp only [SendMethod.advance,
        EStateM.run_bind_ok (sendMany_run h.message hl (extendLast_concat ds x.current data))]
      rfl
    refine ⟨.writing, q, ds, .of_ok hr nofun (fun hp => hp) hstays ?_⟩
    rw [send_ok hr, hmethod, ht]
    refine ⟨(lookup_setMessage ..).trans (if_pos rfl), h.lock, h.chan, ?_, h.kept, hplaces⟩
    show x.received ++ q ++ (ds ++ [x.current ++ data]) = x.ended ++ [x.current ++ data]
    rw [← hbefore, List.append_assoc _ ds]
  -- the chunk that ends goes to the receiver as long as there is one, and stays otherwise
  | terminateChunk =>
    cases hdrop : x.dropped with
    | false =>
      obtain ⟨rfl, -⟩ := h.kept hdrop
      have hr : ((methods t).advance r (x.place t)).run x.interface = .ok .returned
          (x.interface.handOver r.messageId ⟨[] ++ [x.current], r.completeLock, some (some r.rx)⟩ r.rx []
            x.current) := by
        rw [hmethod, ht]
        simp only [SendMethod.advance, EStateM.run_bind_ok (terminateChunk_run_alive h.message hl rfl
          (by rw [hreceiver, hdrop]; rfl) rfl)]
        rfl
      refine ⟨.writing, q ++ [x.current], [], .of_ok hr nofun (fun hp => hp) (.chunk ..) ?_⟩
      rw [send_ok hr, hmethod, ht]
      refine ⟨lookup_handOver_self .., h.lock, ?_, ?_, h.kept, hplaces⟩
      · exact (handOver_chans_self ..).trans (by rw [h.chan])
      · show x.received ++ (q ++ [x.current]) ++ [[]] = x.ended ++ [x.current] ++ [[]]
        rw [← hbefore]
        simp
    | true =>
      have hr : ((methods t).advance r (x.place t)).run x.interface = .ok .returned
          (x.interface.setMessage r.messageId ⟨ds ++ [x.current] ++ [[]], r.completeLock, some (some r.rx)⟩) := by
        rw [hmethod, ht]
        simp only [SendMethod.advance, EStateM.run_bind_ok (terminateChunk_run_dead h.message hl rfl
          (by rw [hreceiver, hdrop]; rfl) (by simp))]
        rfl
      refine ⟨.writing, q, ds ++ [x.current], .of_ok hr nofun (fun hp => hp) hstays ?_⟩
      rw [send_ok hr, hmethod, ht]
      refine ⟨(lookup_setMessage ..).trans (if_pos rfl), h.lock, h.chan, ?_, ?_, hplaces⟩
      · show x.received ++ q ++ (ds ++ [x.current] ++ [[]]) = x.ended ++ [x.current] ++ [[]]
        rw [← hbefore]
        simp
      · exact fun hd => absurd (hdrop.symm.trans hd) (by decide)
  | terminateMessage =>
    have hr : ((methods t).advance r (x.place t)).run x.interface =
        .ok .marked (x.interface.markComplete r.completeLock) := by
      rw [hmethod, ht]
      exact SendMethod.advance_terminateMessage r h.message hl rfl
    have hcomplete : (x.interface.markComplete r.completeLock).locks r.completeLock = .complete :=
      Function.update_self ..
    refine ⟨.marked t, q, ds, .of_ok hr nofun (fun hp => absurd (hcomplete.symm.trans hp) nofun) (.marks q) ?_⟩
    rw [send_ok hr, hmethod, ht]
    refine ⟨h.message, iff_of_true hcomplete nofun, h.chan, h.chunks, fun hd => ⟨(h.kept hd).1, nofun⟩, ?_⟩
    refine places_advance h.places (fun _ _ => ⟨nofun, nofun⟩) (fun t' ht' => ⟨?_, nofun⟩) ⟨iff_of_true rfl rfl, ?_⟩
    · rintro ⟨⟩; exact ht' rfl
    · exact iff_of_false nofun nofun
  | poison => exact ⟨_, _, _, h.poisons nofun nofun ht hmethod⟩

/-- The last chunk is handed over, or kept if the receiver is gone. -/
private theorem Stands.ends (h : x.Stands r (.marked t) q ds) :
    ∃ g' q' ds', Sent methods r t (.marked t) q x g' q' ds' := by
  have ht : x.place t = .marked := (h.places t).1.2 rfl
  have hl : x.interface.locks r.completeLock = .complete := h.lock.2 nofun
  have hbefore := h.before rfl
  have hreceiver : (x.interface.chans r.rx).receiverAlive = !x.dropped := by rw [h.chan]
  have hothers : ∀ t' ≠ t, (.marked t : SendStage ι) ≠ .marked t' ∧ (.marked t : SendStage ι) ≠ .handedOver t' :=
    fun t' ht' => ⟨by rintro ⟨⟩; exact ht' rfl, nofun⟩
  have hwrites : (methods t).writes (x.place t) x.ended x.current = (x.ended, x.current) := by
    rw [ht]
    cases methods t <;> rfl
  cases hdrop : x.dropped with
  | false =>
    obtain ⟨rfl, -⟩ := h.kept hdrop
    have hr := (methods t).advance_marked_alive h.message rfl (by rw [hreceiver, hdrop]; rfl) (List.nil_append _).symm
    rw [← ht] at hr
    refine ⟨.handedOver t, q ++ [x.current], [], .of_ok hr nofun (fun hp => hp) (.handsOver ..) ?_⟩
    rw [send_ok hr, hwrites]
    refine ⟨lookup_handOver_self .., iff_of_true hl nofun, ?_, ?_, fun _ => ⟨rfl, nofun⟩, ?_⟩
    · exact (handOver_chans_self ..).trans (by rw [h.chan]; rfl)
    · show x.received ++ (q ++ [x.current]) ++ [] = x.ended ++ [x.current]
      rw [← hbefore]
      simp
    · refine places_advance h.places hothers (fun t' ht' => ⟨nofun, ?_⟩) ⟨iff_of_false nofun nofun, iff_of_true rfl rfl⟩
      rintro ⟨⟩; exact ht' rfl
  | true =>
    have hr := (methods t).advance_marked_dead h.message rfl (by rw [hreceiver, hdrop]; rfl) (by simp)
    rw [← ht] at hr
    refine ⟨.stored, q, ds, .of_ok hr nofun (fun hp => hp) (.stores q) ?_⟩
    rw [send_ok hr, hwrites]
    refine ⟨(lookup_setMessage ..).trans (if_pos rfl), iff_of_true hl nofun, ?_, h.chunks, ?_, ?_⟩
    · apply (Function.update_self ..).trans
      exact congrArg (fun c : Chan => { c with senderAlive := false }) h.chan
    · exact fun hd => absurd (hdrop.symm.trans hd) (by decide)
    · exact places_advance h.places hothers (fun _ _ => ⟨nofun, nofun⟩)
        ⟨iff_of_false nofun nofun, iff_of_false nofun nofun⟩

/-- The message is deleted, and its sender with it. -/
private theorem Stands.deletes (h : x.Stands r (.handedOver t) q ds) :
    Sent methods r t (.handedOver t) q x .deleted q ds := by
  have ht : x.place t = .handedOver := (h.places t).2.2 rfl
  have hwrites : (methods t).writes (x.place t) x.ended x.current = (x.ended, x.current) := by
    rw [ht]
    cases methods t <;> rfl
  have hr := (methods t).advance_handedOver r x.interface
  rw [← ht] at hr
  refine .of_ok hr nofun (fun hp => ?_) (.deletes q) ?_
  · rwa [pop_locks] at hp
  rw [send_ok hr, hwrites]
  refine ⟨(lookup_pop ..).trans (if_pos rfl), ?_, ?_, h.chunks, fun hd => ⟨(h.kept hd).1, nofun⟩, ?_⟩
  · rw [pop_locks]
    exact iff_of_true (h.lock.2 nofun) nofun
  · rw [pop_chans h.message]
    apply (Function.update_self ..).trans
    exact congrArg (fun c : Chan => { c with senderAlive := false }) h.chan
  · refine places_advance h.places (fun t' ht' => ⟨nofun, ?_⟩) (fun _ _ => ⟨nofun, nofun⟩)
      ⟨iff_of_false nofun nofun, iff_of_false nofun nofun⟩
    rintro ⟨⟩; exact ht' rfl

theorem Stands.send (h : x.Stands r g q ds) (methods : ι → SendMethod) (t : ι) :
    ∃ g' q' ds', Sent methods r t g q x g' q' ds' := by
  by_cases hm : g = .marked t
  · subst hm
    exact h.ends
  by_cases hh : g = .handedOver t
  · subst hh
    exact ⟨_, _, _, h.deletes⟩
  cases ht : x.place t with
  | begin =>
    by_cases hg : g = .writing
    · subst hg
      exact h.begins ht
    · obtain ⟨e, he, hopen⟩ := h.refuses hg
      cases hmethod : methods t with
      | sendMany data =>
        exact ⟨_, _, _, h.fails hm hh hg he (by simp [hmethod, ht, SendMethod.advance, sendMany_fails hopen])⟩
      | terminateChunk =>
        exact ⟨_, _, _, h.fails hm hh hg he (by simp [hmethod, ht, SendMethod.advance, terminateChunk_fails hopen])⟩
      | terminateMessage => exact ⟨_, _, _, h.fails hm hh hg he (by simp [hmethod, ht, SendMethod.advance, hopen])⟩
      | poison => exact ⟨_, _, _, h.poisons hm hh ht hmethod⟩
  | marked => exact absurd ((h.places t).1.1 ht) hm
  | handedOver => exact absurd ((h.places t).2.1 ht) hh
  | returned => exact ⟨_, _, _, h.rests hm hh (by rw [ht]; rfl) (by rw [ht]; cases methods t <;> rfl)⟩
  | failed e => exact ⟨_, _, _, h.rests hm hh (by rw [ht]; rfl) (by rw [ht]; cases methods t <;> rfl)⟩

/-! ### What is left alone -/

@[simp] theorem send_recv (methods : ι → SendMethod) (r : ChunkReceiver w) (x : Polling ι w) (t : ι) :
    (x.send methods r t).recv = x.recv := by
  unfold send; split <;> rfl

@[simp] theorem send_returns (methods : ι → SendMethod) (r : ChunkReceiver w) (x : Polling ι w) (t : ι) :
    (x.send methods r t).returns = x.returns := by
  unfold send; split <;> rfl

@[simp] theorem send_received (methods : ι → SendMethod) (r : ChunkReceiver w) (x : Polling ι w) (t : ι) :
    (x.send methods r t).received = x.received := by
  unfold received; rw [send_returns]

@[simp] theorem send_dropped (methods : ι → SendMethod) (r : ChunkReceiver w) (x : Polling ι w) (t : ι) :
    (x.send methods r t).dropped = x.dropped := by
  unfold send; split <;> rfl

theorem send_place_of_ne {t' : ι} (h : t' ≠ t) : (x.send methods r t).place t' = x.place t' := by
  unfold send; split <;> exact Function.update_of_ne h ..

/-- A thread that has returned stays so. -/
theorem send_returned {t' : ι} (h : x.place t' = .returned) : (x.send methods r t).place t' = .returned := by
  by_cases he : t' = t
  · subst he
    have hr : ((methods t').advance r (x.place t')).run x.interface = .ok .returned x.interface := by rw [h]; rfl
    rw [send_ok hr]
    exact Function.update_self ..
  · rw [send_place_of_ne he, h]

/-! ### The end of the stream -/

/-- Everything has been received, and the message is gone. -/
def Over (r : ChunkReceiver w) (x : Polling ι w) : Prop := ∃ ds, x.Stands r .deleted [] ds

theorem Over.send (h : x.Over r) (methods : ι → SendMethod) (t : ι) : (x.send methods r t).Over r := by
  obtain ⟨ds, h⟩ := h
  obtain ⟨g', q', ds', hsent⟩ := h.send methods t
  have hsends := hsent.sends
  generalize hg : SendStage.deleted = g at hsends
  generalize hq : [] = q at hsends
  cases hsends with
  | stays => exact ⟨ds', by rw [hg, hq]; exact hsent.stands⟩
  | chunk | marks | handsOver | stores | deletes => cases hg

omit [DecidableEq ι] in
theorem Over.chunks (h : x.Over r) : x.received = x.ended ++ [x.current] := by
  obtain ⟨ds, h⟩ := h
  simpa [SendStage.kept] using h.chunks

omit [DecidableEq ι] in
theorem Over.queue (h : x.Over r) : (x.interface.chans r.rx).queue = [] := by
  obtain ⟨ds, h⟩ := h
  rw [h.chan]

/-! ### Runs -/

/-- A thread that poisons the lock has done so. -/
def Poisoned (methods : ι → SendMethod) (x : Polling ι w) : Prop := ∃ t, methods t = .poison ∧ x.place t = .returned

theorem Poisoned.send (h : x.Poisoned methods) (r : ChunkReceiver w) (t : ι) :
    (x.send methods r t).Poisoned methods := by
  obtain ⟨t', hm, hp⟩ := h
  exact ⟨t', hm, send_returned hp⟩

/-- What the calls have returned is what was sent, and their errors and those of the other threads have their
reasons. -/
structure Heard (methods : ι → SendMethod) (r : ChunkReceiver w) (x : Polling ι w) : Prop where
  stands : ∃ g q ds, x.Stands r g q ds
  held : x.recv ≠ .idle → x.dropped = false
  outcomes : ∃ m, x.returns.filterMap Except.toOption = x.received.map some ++ List.replicate m none ∧
    (0 < m → x.Over r)
  poisoned : x.interface.locks r.completeLock = .poisoned ∨ x.recv = .tryRecv → x.Poisoned methods
  errors : ∀ e, .error e ∈ x.returns → e = .lockPoisoned r.messageId ∧ x.Poisoned methods
  failures : ∀ t e, x.place t = .failed e → Refuses r e ∧ x.interface.locks r.completeLock = .complete

theorem Heard.send (h : Heard methods r x) (t : ι) : Heard methods r (x.send methods r t) := by
  obtain ⟨g, q, ds, hstands⟩ := h.stands
  obtain ⟨g', q', ds', hsent⟩ := hstands.send methods t
  obtain ⟨m, hm, hover⟩ := h.outcomes
  refine ⟨⟨g', q', ds', hsent.stands⟩, ?_, ⟨m, by rwa [send_returns, send_received], fun hpos =>
    (hover hpos).send methods t⟩, ?_, ?_, ?_⟩
  · rw [send_recv, send_dropped]
    exact h.held
  · rw [send_recv]
    rintro (hp | hrecv)
    · rcases hsent.poisoned hp with hp | ⟨hmethod, hplace⟩
      · exact (h.poisoned (.inl hp)).send r t
      · exact ⟨t, hmethod, hplace⟩
    · exact (h.poisoned (.inr hrecv)).send r t
  · rw [send_returns]
    exact fun e he => ⟨(h.errors e he).1, (h.errors e he).2.send r t⟩
  · have hcomplete : g ≠ .writing → (x.send methods r t).interface.locks r.completeLock = .complete := fun hg =>
      hsent.stands.lock.2 (hsent.sends.not_writing hg)
    intro t' e he
    have hold : x.place t' = .failed e → Refuses r e ∧
        (x.send methods r t).interface.locks r.completeLock = .complete := fun he =>
      ⟨(h.failures t' e he).1, hcomplete (hstands.lock.1 (h.failures t' e he).2)⟩
    by_cases heq : t' = t
    · subst heq
      rcases hsent.failed e he with he | ⟨he, hg⟩
      · exact hold he
      · exact ⟨he, hcomplete hg⟩
    · rw [send_place_of_ne heq] at he
      exact hold he

omit [DecidableEq ι] in
/-- Only the place of the holder of the receiver changes. -/
private theorem Heard.moves (h : Heard methods r x) {a : RecvPlace} (hheld : x.dropped = false)
    (ha : a = .tryRecv → x.Poisoned methods) : Heard methods r { x with recv := a } := by
  obtain ⟨g, q, ds, hstands⟩ := h.stands
  obtain ⟨m, hm, hover⟩ := h.outcomes
  refine ⟨⟨g, q, ds, hstands.moves a⟩, fun _ => hheld, ⟨m, hm, fun hpos => ?_⟩, ?_, h.errors, h.failures⟩
  · obtain ⟨ds, hstands⟩ := hover hpos
    exact ⟨ds, hstands.moves a⟩
  · rintro (hp | hrecv)
    · exact h.poisoned (.inl hp)
    · exact ha hrecv

omit [DecidableEq ι] in
theorem Heard.receive (h : Heard methods r x) : Heard methods r (x.receive r) := by
  have hreceives := receive_receives r x
  generalize x.receive r = y at hreceives
  obtain ⟨g, q, ds, hstands⟩ := h.stands
  have hqueue : (x.interface.chans r.rx).queue = q := by rw [hstands.chan]
  obtain ⟨m, hm, hover⟩ := h.outcomes
  have hheld : x.recv ≠ .idle → x.dropped = false := h.held
  cases hreceives with
  | idles hrecv => exact h
  | poisoned hrecv hp => exact h.moves (hheld (by rw [hrecv]; nofun)) fun _ => h.poisoned (.inl hp)
  | waits hrecv hp => exact h.moves (hheld (by rw [hrecv]; nofun)) nofun
  | timesOut hrecv hq hs => exact h.moves (hheld (by rw [hrecv]; nofun)) nofun
  | takes c q' hrecv hq =>
    -- there is a chunk, so the end has not been received
    have hm0 : m = 0 := by
      rcases Nat.eq_zero_or_pos m with h0 | hpos
      · exact h0
      · exact absurd (hq.symm.trans (hover hpos).queue) nofun
    subst hm0
    refine ⟨⟨g, _, ds, hstands.answers (by rw [← hqueue, hq]; rfl)⟩, fun h => absurd rfl h, ⟨0, ?_, nofun⟩, ?_, ?_,
      h.failures⟩
    · rw [received_answer]
      show (x.returns ++ [_]).filterMap Except.toOption = _
      rw [List.filterMap_append, hm]
      simp [Except.toOption, Received.chunk?]
    · exact fun hp => h.poisoned (hp.elim .inl nofun)
    · intro e he
      rcases List.mem_append.1 he with he | he
      · exact h.errors e he
      · simp at he
  | fails hrecv hq =>
    have hnone : q = [] := hqueue.symm.trans hq
    subst hnone
    refine ⟨⟨g, _, ds, hstands.answers rfl⟩, fun h => absurd rfl h, ⟨m, ?_, fun hpos => ?_⟩, ?_, ?_, h.failures⟩
    · rw [received_answer]
      show (x.returns ++ [_]).filterMap Except.toOption = _
      rw [List.filterMap_append, hm]
      simp [Except.toOption, Received.chunk?]
    · obtain ⟨ds, hstands⟩ := hover hpos
      exact ⟨ds, hstands.answers rfl⟩
    · exact fun hp => h.poisoned (hp.elim .inl nofun)
    · intro e he
      rcases List.mem_append.1 he with he | he
      · exact h.errors e he
      · obtain rfl : e = _ := by simpa using he
        exact ⟨rfl, h.poisoned (.inr hrecv)⟩
  | ends hrecv hq hs =>
    have hnone : q = [] := hqueue.symm.trans hq
    subst hnone
    -- the sender went with the message, as the receiver is held
    have hg : g = .deleted := by
      rw [hstands.chan] at hs
      cases g with
      | writing | marked | handedOver => cases hs
      | deleted => rfl
      | stored => exact absurd rfl (hstands.kept (hheld (by rw [hrecv]; nofun))).2
    subst hg
    refine ⟨⟨_, _, ds, hstands.answers rfl⟩, fun h => absurd rfl h, ⟨m + 1, ?_, fun _ => ⟨ds, hstands.answers rfl⟩⟩,
      ?_, ?_, h.failures⟩
    · rw [received_answer]
      show (x.returns ++ [_]).filterMap Except.toOption = _
      rw [List.filterMap_append, hm, List.replicate_succ']
      simp [Except.toOption, Received.chunk?]
    · exact fun hp => h.poisoned (hp.elim .inl nofun)
    · intro e he
      rcases List.mem_append.1 he with he | he
      · exact h.errors e he
      · simp at he

theorem Heard.step (h : Heard methods r x) (a : PollingAction ι) : Heard methods r (x.step methods r a) := by
  cases a with
  | send t => exact h.send t
  | call =>
    show Heard methods r (match x.recv, x.dropped with
      | .idle, false => { x with recv := .begin }
      | _, _ => x)
    split
    · exact h.moves ‹_› nofun
    · exact h
  | receive => exact h.receive
  | dropReceiver =>
    show Heard methods r (match x.recv with
      | .idle => { x with interface := x.interface.dropReceiver r, dropped := true }
      | _ => x)
    split
    · obtain ⟨g, q, ds, hstands⟩ := h.stands
      obtain ⟨m, hm, hover⟩ := h.outcomes
      refine ⟨⟨g, q, ds, hstands.drops⟩, fun hne => absurd ‹_› hne, ⟨m, hm, fun hpos => ?_⟩, h.poisoned, h.errors,
        h.failures⟩
      obtain ⟨ds, hstands⟩ := hover hpos
      exact ⟨ds, hstands.drops⟩
    · exact h

theorem Heard.foldl (h : Heard methods r x) (as : List (PollingAction ι)) :
    Heard methods r (as.foldl (Polling.step methods r) x) := by
  induction as generalizing x with
  | nil => exact h
  | cons a as ih => exact ih (h.step a)

/-! ### From the registration on -/

/-- What the holder of the receiver and the other threads have got is what they should have. -/
structure Delivers (methods : ι → SendMethod) (r : ChunkReceiver w) (x : Polling ι w) : Prop where
  /-- What has been handed over is the chunks sent, in order, from the first one on. -/
  chunks : x.received ++ (x.interface.chans r.rx).queue <+: x.ended ++ [x.current]
  /-- While the receiver is held, all chunks that have ended are handed over. -/
  ended : x.dropped = false → x.ended <+: x.received ++ (x.interface.chans r.rx).queue
  /-- The calls that succeed return the chunks, and the end only after the last one of a complete message. -/
  returns : ∃ m, x.returns.filterMap Except.toOption = x.received.map some ++ List.replicate m none ∧
    (0 < m → x.interface.locks r.completeLock = .complete ∧ x.received = x.ended ++ [x.current])
  /-- The calls that fail do so after the lock has been poisoned. -/
  errors : ∀ e, .error e ∈ x.returns → e = .lockPoisoned r.messageId ∧ x.Poisoned methods
  /-- Nothing fails to write but to a message that is complete, and nothing panics. -/
  failures : ∀ t e, x.place t = .failed e → Refuses r e ∧ x.interface.locks r.completeLock = .complete

omit [DecidableEq ι] in
theorem Heard.delivers (h : Heard methods r x) : Delivers methods r x := by
  obtain ⟨g, q, ds, hstands⟩ := h.stands
  have hqueue : (x.interface.chans r.rx).queue = q := by rw [hstands.chan]
  refine ⟨?_, fun hd => ?_, ?_, h.errors, h.failures⟩
  · rw [hqueue, ← hstands.chunks]
    exact List.prefix_append ..
  · obtain ⟨rfl, hg⟩ := hstands.kept hd
    rw [hqueue]
    cases g with
    | writing | marked => exact ⟨[], by rw [List.append_nil, ← hstands.before rfl, List.append_nil]⟩
    | handedOver | deleted =>
      have hchunks := hstands.chunks
      rw [SendStage.kept, List.append_nil] at hchunks
      rw [hchunks]
      exact List.prefix_append ..
    | stored => exact absurd rfl hg
  · obtain ⟨m, hm, hover⟩ := h.outcomes
    refine ⟨m, hm, fun hpos => ⟨?_, (hover hpos).chunks⟩⟩
    obtain ⟨ds, hstands⟩ := hover hpos
    exact hstands.lock.2 nofun

variable {i : Interface w} {id : IpfiInteger w} {m : MessageBuffer}

omit [DecidableEq ι] in
/-- Where a receiver of an empty message starts. -/
theorem start_heard (methods : ι → SendMethod) (hm : i.messages.lookup id = some m) (hempty : m.chunks = [[]])
    (hs : m.sender = none) (hl : i.locks m.completeLock = .incomplete) :
    ∃ r i', (getChunkStream id).run i = .ok r i' ∧ Heard methods r (start i') := by
  refine ⟨_, _, getChunkStream_run hm, ⟨.writing, [], [], ?_⟩, fun h => absurd rfl h, ⟨0, rfl, nofun⟩, ?_, nofun, nofun⟩
  · rw [hs]
    refine ⟨?_, iff_of_false ?_ fun h => h rfl, Function.update_self .., rfl, fun _ => ⟨rfl, nofun⟩, fun t =>
      ⟨iff_of_false nofun nofun, iff_of_false nofun nofun⟩⟩
    · refine (lookup_setMessage ..).trans ((if_pos rfl).trans ?_)
      rw [hempty]
      rfl
    · exact fun hcomplete => nomatch hl.symm.trans hcomplete
  · rintro (hp | hp)
    · rw [hs] at hp
      exact nomatch hl.symm.trans hp
    · cases hp

/-- However the steps of the threads that write to a message, end it and poison it alternate with those of the holder of
its receiver, what has been received is what has been sent, and every error has its reason. -/
theorem received_in_order (methods : ι → SendMethod) (hm : i.messages.lookup id = some m) (hempty : m.chunks = [[]])
    (hs : m.sender = none) (hl : i.locks m.completeLock = .incomplete) :
    ∃ r i', (getChunkStream id).run i = .ok r i' ∧
      ∀ as : List (PollingAction ι), Delivers methods r (as.foldl (Polling.step methods r) (start i')) := by
  obtain ⟨r, i', hr, hstart⟩ := start_heard methods hm hempty hs hl
  exact ⟨r, i', hr, fun as => (hstart.foldl as).delivers⟩

/-- One thread for each method, and a call of `recv_raw` that times out before there is a chunk. -/
theorem received_in_order_pushed :
    ∃ r i', (getChunkStream (Interface.push .new).1).run (Interface.push (w := .u16) .new).2 = .ok r i' ∧
      Delivers (fun method : SendMethod => method) r
        ([.call, .receive, .send (.sendMany [92]), .receive, .send .poison, .send .terminateChunk, .receive, .receive,
          .send .terminateMessage, .call, .send .terminateMessage, .receive, .receive].foldl
          (Polling.step (fun method : SendMethod => method) r) (start i')) := by
  have hm := (lookup_push (Interface.new : Interface .u16) (Interface.push .new).1).trans (if_pos rfl)
  obtain ⟨r, i', hr, hall⟩ := received_in_order (fun method : SendMethod => method) hm rfl rfl rfl
  exact ⟨r, i', hr, hall _⟩

end Polling

end Ipfi
