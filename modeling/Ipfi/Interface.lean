import Mathlib.Logic.Function.Basic
import Ipfi.RoiQueue
import Ipfi.Lib.FinMap
import Ipfi.Lib.Outcome

/-!
# The interface

`interface_common.rs` in its blocking form.  Completion locks and chunk channels are shared objects in the source
(`Arc`s and channel ends that outlive the message buffer they were made for), so the interface carries the store of
all of them and everything else holds references.  Each operation is one step on the interface.
-/

namespace Ipfi

variable {w : IntFeature}

/-- A reference to a completion lock. -/
abbrev LockRef : Type := Nat

/-- A reference to a chunk channel. -/
abbrev ChanRef : Type := Nat

/-- An unbounded channel of chunks: what was sent and not yet received, and which of its ends are still held. -/
structure Chan where
  queue : List (List UInt8)
  senderAlive : Bool
  receiverAlive : Bool

/-- A single message held by an interface. -/
structure MessageBuffer where
  /-- The chunks of the message; new bytes go to the last one. -/
  chunks : List (List UInt8)
  completeLock : LockRef
  /-- `some none` once the sender of a finished message has been dropped. -/
  sender : Option (Option ChanRef)

/-- A procedure registered on an interface, as the function its closure computes.  A streaming procedure yields some
responses before its closure returns; it can go on yielding later through the yielder it was given. -/
inductive Procedure (w : IntFeature)
  | standard (closure : List UInt8 → Except (Error w) Payload)
  | streaming (closure : List UInt8 → Except (Error w) Unit × List (Payload × Terminator))

/-- The key of a call in `call_to_buffer_map`. -/
abbrev CallKey (w : IntFeature) : Type := ProcedureIndex w × CallIndex w × WireId w

structure Interface (w : IntFeature) where
  messages : FinMap (IpfiInteger w) MessageBuffer
  messageIdQueue : RoiQueue w
  /-- The states of the locks on which the creation of a message is waited for.  Between two operations nothing but
  this map holds on to such a lock. -/
  creationLocks : FinMap (IpfiInteger w) CompleteLockState
  procedures : FinMap (ProcedureIndex w) (Procedure w)
  callToBufferMap : FinMap (CallKey w) (IpfiInteger w)
  wireIdQueue : RoiQueue w
  /-- The completion locks of messages made so far are those below `lockCount`. -/
  locks : LockRef → CompleteLockState
  lockCount : Nat
  /-- The channels made so far are those below `chanCount`. -/
  chans : ChanRef → Chan
  chanCount : Nat

/-- A wrapper that allows receiving message chunks in real time. -/
structure ChunkReceiver (w : IntFeature) where
  rx : ChanRef
  completeLock : LockRef
  messageId : IpfiInteger w

namespace Interface

def new : Interface w where
  messages := ∅
  messageIdQueue := .new
  creationLocks := ∅
  procedures := ∅
  callToBufferMap := ∅
  wireIdQueue := .new
  locks := fun _ => .incomplete
  lockCount := 0
  chans := fun _ => { queue := [], senderAlive := false, receiverAlive := false }
  chanCount := 0

/-! ### Locks and channels -/

def markComplete (i : Interface w) (lock : LockRef) : Interface w :=
  { i with locks := Function.update i.locks lock .complete }

/-- Only an incomplete lock can be poisoned. -/
def poison (i : Interface w) (lock : LockRef) : Interface w :=
  { i with locks := if i.locks lock = .incomplete then Function.update i.locks lock .poisoned else i.locks }

/-- `wait_for_completion`, which returns the state of a lock once it is no longer incomplete. -/
def waitForCompletion (lock : LockRef) : Op (Error w) (Interface w) CompleteLockState := do
  let i ← get
  if i.locks lock = .incomplete then throw .blocked
  pure (i.locks lock)

def updateChan (i : Interface w) (ch : ChanRef) (f : Chan → Chan) : Interface w :=
  { i with chans := Function.update i.chans ch (f (i.chans ch)) }

def openChan (i : Interface w) : ChanRef × Interface w :=
  (i.chanCount, { i with
    chans := Function.update i.chans i.chanCount { queue := [], senderAlive := true, receiverAlive := true }
    chanCount := i.chanCount + 1 })

/-- The channels after the sender of a message buffer is dropped. -/
def closeSender (chans : ChanRef → Chan) : Option (Option ChanRef) → ChanRef → Chan
  | some (some ch) => Function.update chans ch { chans ch with senderAlive := false }
  | _ => chans

def dropSender (i : Interface w) (sender : Option (Option ChanRef)) : Interface w :=
  { i with chans := closeSender i.chans sender }

/-! ### Identifiers and procedures -/

def getId (i : Interface w) : WireId w × Interface w :=
  (⟨i.wireIdQueue.get.1⟩, { i with wireIdQueue := i.wireIdQueue.get.2 })

def relinquishId (i : Interface w) (id : WireId w) : Interface w :=
  { i with wireIdQueue := i.wireIdQueue.relinquish id.idx }

/-- What the `add_*_procedure` methods do once they have built the closure. -/
def addProcedure (i : Interface w) (idx : ProcedureIndex w) (procedure : Procedure w) : Interface w :=
  { i with procedures := i.procedures.insert idx procedure }

/-- Deletes a message buffer and relinquishes its identifier.  The caller drops the buffer, and its sender with it,
as soon as it has taken what it needs. -/
def pop (i : Interface w) (id : IpfiInteger w) : Option MessageBuffer × Interface w :=
  match i.messages.lookup id with
  | some m =>
    (some m, ({ i with
      messages := i.messages.erase id
      messageIdQueue := i.messageIdQueue.relinquish id } : Interface w).dropSender m.sender)
  | none => (none, i)

def dropAssociatedCallMessage (i : Interface w) (key : CallKey w) : Interface w :=
  match i.callToBufferMap.lookup key with
  | some messageId => ({ i with callToBufferMap := i.callToBufferMap.erase key } : Interface w).pop messageId |>.2
  | none => i

/-- Allocates a message buffer with a new completion lock, and marks the lock on its creation complete if there is
one.  A buffer that still stands under the identifier is overwritten and dropped. -/
def push (i : Interface w) : IpfiInteger w × Interface w :=
  let newId := i.messageIdQueue.get.1
  (newId, { i with
    messageIdQueue := i.messageIdQueue.get.2
    messages := i.messages.insert newId { chunks := [[]], completeLock := i.lockCount, sender := none }
    locks := Function.update i.locks i.lockCount .incomplete
    lockCount := i.lockCount + 1
    chans := closeSender i.chans ((i.messages.lookup newId).bind MessageBuffer.sender)
    creationLocks := match i.creationLocks.lookup newId with
      | some _ => i.creationLocks.insert newId .complete
      | none => i.creationLocks })

/-- Gets the buffer that accumulates the arguments of a call, and makes one if there is none. -/
def getCallBuffer (i : Interface w) (key : CallKey w) : IpfiInteger w × Interface w :=
  match i.callToBufferMap.lookup key with
  | some bufIdx => (bufIdx, i)
  | none => (i.push.1, { i.push.2 with callToBufferMap := i.push.2.callToBufferMap.insert key i.push.1 })

/-! ### Writing to a message -/

/-- `chunks.last_mut().unwrap().extend(data)`, where the `unwrap` can fail. -/
def extendLast : List (List UInt8) → List UInt8 → Option (List (List UInt8))
  | [], _ => none
  | [c], data => some [c ++ data]
  | c :: cs, data => (extendLast cs data).map (c :: ·)

def setMessage (i : Interface w) (id : IpfiInteger w) (m : MessageBuffer) : Interface w :=
  { i with messages := i.messages.insert id m }

/-- Looks up a message to write to, which must not be completed; poisoned messages can be written to. -/
def openMessage (id : IpfiInteger w) : Op (Error w) (Interface w) MessageBuffer := do
  let i ← get
  match i.messages.lookup id with
  | none => throw (.error (.outOfBounds id))
  | some m =>
    if i.locks m.completeLock = .complete then throw (.error (.alreadyCompleted id))
    else pure m

def send (datum : Int8) (id : IpfiInteger w) : Op (Error w) (Interface w) Bool := do
  let m ← openMessage id
  if datum < 0 then
    modify fun i => i.markComplete m.completeLock
    pure false
  else
    let chunks ← unwrap (extendLast m.chunks [datum.toUInt8])
    modify fun i => i.setMessage id { m with chunks }
    pure true

def sendMany (data : List UInt8) (id : IpfiInteger w) : Op (Error w) (Interface w) Unit := do
  let m ← openMessage id
  let chunks ← unwrap (extendLast m.chunks data)
  modify fun i => i.setMessage id { m with chunks }

/-- `sender.send(chunk)`: whether the chunk went through, that is whether the receiver is still held. -/
def sendChunk (i : Interface w) (ch : ChanRef) (chunk : List UInt8) : Bool × Interface w :=
  ((i.chans ch).receiverAlive,
    i.updateChan ch fun c => if c.receiverAlive then { c with queue := c.queue ++ [chunk] } else c)

def terminateMessage (id : IpfiInteger w) : Op (Error w) (Interface w) Unit := do
  let m ← openMessage id
  modify fun i => i.markComplete m.completeLock
  match m.sender with
  | none => pure ()
  | some sender =>
    let completedChunk ← unwrap m.chunks.getLast?
    let ch ← unwrap sender
    let sent ← modifyGet fun i => i.sendChunk ch completedChunk
    if sent then
      -- the chunk list gets its empty chunk back, and then the whole message goes
      modify fun i => i.setMessage id { m with chunks := m.chunks.dropLast ++ [[]] }
      modify fun i => (i.pop id).2
    else
      modify fun i => i.setMessage id { m with chunks := m.chunks.dropLast ++ [completedChunk], sender := some none }
      modify fun i => i.dropSender m.sender

def terminateChunk (id : IpfiInteger w) : Op (Error w) (Interface w) Unit := do
  let m ← openMessage id
  match m.sender with
  | none => modify fun i => i.setMessage id { m with chunks := m.chunks ++ [[]] }
  | some sender =>
    let completedChunk ← unwrap m.chunks.getLast?
    let ch ← unwrap sender
    let sent ← modifyGet fun i => i.sendChunk ch completedChunk
    if sent then
      modify fun i => i.setMessage id { m with chunks := m.chunks.dropLast ++ [[]] }
    else
      modify fun i => i.setMessage id { m with chunks := m.chunks.dropLast ++ [completedChunk] ++ [[]] }

/-! ### Reading a message -/

def waitForMessageCreation (id : IpfiInteger w) : Op (Error w) (Interface w) Unit := do
  let i ← get
  if id ∈ i.messages then pure ()
  else
    match i.creationLocks.lookup id with
    | none =>
      modify fun i => { i with creationLocks := i.creationLocks.insert id .incomplete }
      throw .blocked
    | some .incomplete => throw .blocked
    | some .poisoned => throw (.error (.lockPoisoned id))
    | some .complete => modify fun i => { i with creationLocks := i.creationLocks.erase id }

/-- Waits until a message has been created and completed. -/
def waitForMessage (id : IpfiInteger w) : Op (Error w) (Interface w) MessageBuffer := do
  waitForMessageCreation id
  let message ← unwrap ((← get).messages.lookup id)
  let state ← waitForCompletion message.completeLock
  if state = .poisoned then throw (.error (.lockPoisoned id))
  unwrap ((← get).messages.lookup id)

def getRaw (id : IpfiInteger w) : Op (Error w) (Interface w) (List (List UInt8)) := do
  let _ ← waitForMessage id
  let popped ← modifyGet fun i => i.pop id
  let message ← unwrap popped
  pure message.chunks

/-- `get` and `get_chunks` decode what they read; `decodes` says which chunks decode. -/
def getTyped (decodes : List UInt8 → Bool) (id : IpfiInteger w) : Op (Error w) (Interface w) (List UInt8) := do
  let chunks ← getRaw id
  let chunk ← unwrap chunks.head?
  if decodes chunk then pure chunk else throw (.error .decode)

def getChunks (decodes : List UInt8 → Bool) (id : IpfiInteger w) :
    Op (Error w) (Interface w) (Option (List (List UInt8))) := do
  let message ← waitForMessage id
  if message.sender.isSome then pure none
  else
    let popped ← modifyGet fun i => i.pop id
    let message ← unwrap popped
    if message.chunks.all decodes then pure (some message.chunks) else throw (.error .decode)

def isChunked (id : IpfiInteger w) : Op (Error w) (Interface w) Bool := do
  let message ← waitForMessage id
  pure (1 < message.chunks.length)

def hasStream (id : IpfiInteger w) : Op (Error w) (Interface w) Bool := do
  let message ← waitForMessage id
  pure message.sender.isSome

def getChunkStream (id : IpfiInteger w) : Op (Error w) (Interface w) (ChunkReceiver w) := do
  waitForMessageCreation id
  let message ← unwrap ((← get).messages.lookup id)
  let ch ← modifyGet openChan
  modify fun i => (i.setMessage id { message with sender := some (some ch) }).dropSender message.sender
  pure { rx := ch, completeLock := message.completeLock, messageId := id }

/-- Takes the first chunk off a channel, if there is one. -/
def takeChunk (i : Interface w) (ch : ChanRef) : Option (List UInt8) × Interface w :=
  ((i.chans ch).queue.head?, i.updateChan ch fun c => { c with queue := c.queue.tail })

end Interface

/-- Waits for the next chunk, polling the completion lock: with a poisoned lock only what is in the channel is
returned; otherwise the end of the channel is the end of the message. -/
def ChunkReceiver.recvRaw (r : ChunkReceiver w) : Op (Error w) (Interface w) (Option (List UInt8)) := do
  let i ← get
  let chunk ← modifyGet fun i => i.takeChunk r.rx
  if i.locks r.completeLock = .poisoned then
    match chunk with
    | some bytes => pure (some bytes)
    | none => throw (.error (.lockPoisoned r.messageId))
  else
    match chunk with
    | some bytes => pure (some bytes)
    | none => if (i.chans r.rx).senderAlive then throw .blocked else pure none

namespace Interface

def getCompleteLock (i : Interface w) (id : IpfiInteger w) : Option LockRef :=
  (i.messages.lookup id).map MessageBuffer.completeLock

/-- Dropping a chunk receiver closes its end of the channel. -/
def dropReceiver (i : Interface w) (r : ChunkReceiver w) : Interface w :=
  i.updateChan r.rx fun c => { c with receiverAlive := false }

end Interface

end Ipfi
