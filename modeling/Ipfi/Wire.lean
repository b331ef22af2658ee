import Ipfi.Interface
import Ipfi.WireUtils

/-!
# The wire

`wire_common.rs` and the drop of `blocking/wire.rs`.  A `Wire` value is a set of shared references next to an
identifier, so the model of a wire is what all clones of it share; a `Site` is a wire together with the interface it is
attached to, the state every method of the wire works on.
-/

namespace Ipfi

variable {w : IntFeature}

/-- One invocation of a procedure's closure.  A streaming execution is finished when it has yielded its `complete`
response or its closure has returned an error, any other when its closure has returned. -/
structure Execution (w : IntFeature) where
  procedureIdx : ProcedureIndex w
  callIdx : CallIndex w
  args : List UInt8
  streaming : Bool
  finished : Bool

structure Wire (w : IntFeature) where
  id : WireId w
  moduleStyle : Bool
  queue : List (List UInt8)
  remoteCallCounter : FinMap (ProcedureIndex w) (IpfiInteger w)
  responseIdxMap : FinMap (ProcedureIndex w × CallIndex w) (IpfiInteger w)
  ongoingProcedures : FinKeys (ProcedureIndex w × CallIndex w)
  maxOngoingProcedures : IpfiInteger w
  idleCallHandles : FinMap (IpfiInteger w) LockRef
  terminated : Bool
  /-- A history variable: the closures invoked for calls on this wire, oldest first.  The position of a streaming
  execution stands for the yielder its closure was given. -/
  executions : List (Execution w)

/-- A wire and the interface it is attached to. -/
structure Site (w : IntFeature) where
  interface : Interface w
  wire : Wire w

/-- A handle on the response of a call.  The lock is a history variable: it is the completion lock that the message
under `responseIdx` has when the handle is made. -/
structure CallHandle (w : IntFeature) where
  responseIdx : IpfiInteger w
  completeLock : LockRef

/-- A chunk receiver made from a call handle. -/
structure ChunkReceiverHandle (w : IntFeature) where
  rx : ChunkReceiver w
  responseIdx : IpfiInteger w

namespace Wire

/-- `Wire::new` and `Wire::new_module`, with the limit set by `max_ongoing_procedures`. -/
def new (id : WireId w) (moduleStyle : Bool) (max : IpfiInteger w) : Wire w where
  id := id
  moduleStyle := moduleStyle
  queue := []
  remoteCallCounter := ∅
  responseIdxMap := ∅
  ongoingProcedures := ∅
  maxOngoingProcedures := max
  idleCallHandles := ∅
  terminated := false
  executions := []

def pushMessage (x : Wire w) (m : Message w) : Wire w := { x with queue := x.queue ++ [m.toBytes] }

/-- Allots the next call index of a procedure.  Past the largest index the addition panics in a build with overflow
checks and wraps in one without. -/
def nextCallIdx (checks : Bool) (p : ProcedureIndex w) : Op (Error w) (Wire w) (CallIndex w) := do
  match (← get).remoteCallCounter.lookup p with
  | some lastCallIdx =>
    if checks ∧ lastCallIdx + 1 = 0 then throw .panicked
    else
      modify fun x => { x with remoteCallCounter := x.remoteCallCounter.insert p (lastCallIdx + 1) }
      pure ⟨lastCallIdx + 1⟩
  | none =>
    modify fun x => { x with remoteCallCounter := x.remoteCallCounter.insert p 0 }
    pure ⟨0⟩

def getResponseIdx (p : ProcedureIndex w) (c : CallIndex w) : Op (Error w) (Wire w) (IpfiInteger w) := do
  if (← get).terminated then throw (.error .wireTerminated)
  match (← get).responseIdxMap.lookup (p, c) with
  | some idx => pure idx
  | none => throw (.error (.noResponseBuffer p.idx c.idx))

def recordExecution (x : Wire w) (e : Execution w) : Wire w := { x with executions := x.executions ++ [e] }

def finishExecution (x : Wire w) (e : Nat) : Wire w :=
  { x with executions := x.executions.modify e fun e => { e with finished := true } }

/-- The closure given to the streaming execution `e`, which captures the queue, the ongoing procedures and the
termination flag of the wire. -/
def yielder (p : ProcedureIndex w) (c : CallIndex w) (e : Nat) (bytes : Payload) (t : Terminator) :
    Op (Error w) (Wire w) Unit := do
  if (← get).terminated then throw (.error .wireTerminated)
  modify fun x => x.pushMessage (.response p c t bytes)
  if t = .complete then
    modify fun x => { x with ongoingProcedures := x.ongoingProcedures.erase (p, c) }
    modify fun x => x.finishExecution e

def signalEndOfInput : Op (Error w) (Wire w) Unit := do
  if (← get).terminated then throw (.error .wireTerminated)
  modify fun x => x.pushMessage .endOfInput

def signalTermination (x : Wire w) : Wire w := x.pushMessage .termination

end Wire

namespace Site

def onInterface {α : Type} (x : Op (Error w) (Interface w) α) : Op (Error w) (Site w) α :=
  EStateM.zoom interface (fun s i => { s with interface := i }) x

def onWire {α : Type} (x : Op (Error w) (Wire w) α) : Op (Error w) (Site w) α :=
  EStateM.zoom wire (fun s x => { s with wire := x }) x

/-! ### Calling procedures of the other side -/

/-- The check every calling method starts with. -/
def checkCanCall : Op (Error w) (Site w) Unit := do
  if (← get).wire.terminated then throw (.error .wireTerminated)
  if (← get).wire.moduleStyle then throw (.error .callFromModule)

/-- Allots a call index and a response buffer, and maps the one to the other. -/
def allocateCall (checks : Bool) (p : ProcedureIndex w) : Op (Error w) (Site w) (CallIndex w) := do
  let callIdx ← onWire (Wire.nextCallIdx checks p)
  let responseIdx ← onInterface (modifyGet Interface.push)
  onWire (modify fun x => { x with responseIdxMap := x.responseIdxMap.insert (p, callIdx) responseIdx })
  pure callIdx

/-- `CallHandle::new` on the response buffer of a call. -/
def newCallHandle (p : ProcedureIndex w) (c : CallIndex w) : Op (Error w) (Site w) (CallHandle w) := do
  let responseIdx ← onWire (Wire.getResponseIdx p c)
  let completeLock ← unwrap ((← get).interface.getCompleteLock responseIdx)
  onWire (modify fun x => { x with idleCallHandles := x.idleCallHandles.insert responseIdx completeLock })
  pure { responseIdx, completeLock }

def continueGivenCallWithBytes (p : ProcedureIndex w) (c : CallIndex w) (args : Payload) :
    Op (Error w) (Site w) Unit := do
  checkCanCall
  if args.val = [] then throw (.error .zeroLengthInNonTerminating)
  onWire (modify fun x => x.pushMessage (.call p c .none args))

def startCallWithPartialBytes (checks : Bool) (p : ProcedureIndex w) (args : Payload) :
    Op (Error w) (Site w) (CallIndex w) := do
  checkCanCall
  if args.val = [] then throw (.error .zeroLengthInNonTerminating)
  let callIdx ← allocateCall checks p
  continueGivenCallWithBytes p callIdx args
  pure callIdx

def callWithBytes (checks : Bool) (p : ProcedureIndex w) (args : Payload) :
    Op (Error w) (Site w) (CallHandle w) := do
  checkCanCall
  let callIdx ← allocateCall checks p
  onWire (modify fun x => x.pushMessage (.call p callIdx .complete args))
  newCallHandle p callIdx

def endGivenCall (p : ProcedureIndex w) (c : CallIndex w) : Op (Error w) (Site w) (CallHandle w) := do
  checkCanCall
  onWire (modify fun x => x.pushMessage (.call p c .complete .empty))
  newCallHandle p c

/-! ### Termination -/

def markTerminatedSync (s : Site w) : Site w :=
  { interface := s.wire.ongoingProcedures.keys.foldl
      (fun i pc => i.dropAssociatedCallMessage (pc.1, pc.2, s.wire.id)) s.interface
    wire := { s.wire with terminated := true } }

def poisonIdleCallHandles (s : Site w) : Site w :=
  { s with interface := s.wire.idleCallHandles.values.foldl Interface.poison s.interface }

def markTerminated (s : Site w) : Site w := s.markTerminatedSync.poisonIdleCallHandles

/-! ### Serving calls -/

/-- Runs the yields a streaming closure makes before it returns; what the yielder returns is up to the closure. -/
def runYields (yielder : Payload → Terminator → Op (Error w) (Wire w) Unit) (yields : List (Payload × Terminator))
    (x : Wire w) : Wire w :=
  yields.foldl (fun x y => ((yielder y.1 y.2).run x).state) x

/-- Calls the procedure on the arguments accumulated for the call.  The yielder is the one for the execution that is
recorded next. -/
def callProcedure (p : ProcedureIndex w) (c : CallIndex w) (id : WireId w)
    (yielder : Nat → Payload → Terminator → Op (Error w) (Wire w) Unit) :
    Op (Error w) (Site w) (Option Payload) := do
  let argsBufIdx ← onInterface (modifyGet fun i => i.getCallBuffer (p, c, id))
  onInterface (modify fun i => { i with callToBufferMap := i.callToBufferMap.erase (p, c, id) })
  match (← get).interface.procedures.lookup p with
  | none => throw (.error (.noSuchProcedure p.idx))
  | some procedure =>
    match (← get).interface.messages.lookup argsBufIdx with
    | none => throw (.error (.noCallBuffer argsBufIdx))
    | some message =>
      match (← get).interface.locks message.completeLock with
      | .incomplete => throw (.error (.callBufferIncomplete argsBufIdx))
      | .poisoned => throw (.error (.callBufferPoisoned argsBufIdx))
      | .complete =>
        let args ← unwrap message.chunks.head?
        match procedure with
        | .standard closure =>
          onWire (modify fun x => x.recordExecution ⟨p, c, args, false, true⟩)
          onInterface (modify fun i => (i.pop argsBufIdx).2)
          match closure args with
          | .ok val => pure (some val)
          | .error e => throw (.error e)
        | .streaming closure =>
          let e := (← get).wire.executions.length
          onWire (modify fun x => x.recordExecution ⟨p, c, args, true, false⟩)
          onWire (modify (runYields (yielder e) (closure args).2))
          match (closure args).1 with
          | .ok () =>
            onInterface (modify fun i => (i.pop argsBufIdx).2)
            pure none
          | .error err =>
            -- the closure is over, and the argument buffer stays where it is
            onWire (modify fun x => x.finishExecution e)
            throw (.error err)

/-- What the call branch of `receive_one` does with the bytes of a call that is within the limit. -/
def acceptCall (p : ProcedureIndex w) (c : CallIndex w) (t : Terminator) (bytes : List UInt8)
    (callBufIdx : IpfiInteger w) : Op (Error w) (Site w) (Option Bool) := do
  onInterface (Interface.sendMany bytes callBufIdx)
  if t = .complete then
    onInterface (Interface.terminateMessage callBufIdx)
    let ret ← callProcedure p c (← get).wire.id (Wire.yielder p c)
    match ret with
    | some retBytes =>
      onWire (modify fun x => x.pushMessage (.response p c .complete retBytes))
      onWire (modify fun x => { x with ongoingProcedures := x.ongoingProcedures.erase (p, c) })
    | none => pure ()
    pure (some true)
  else
    pure (some false)

/-- The call branch of `receive_one`. -/
def receiveCall (p : ProcedureIndex w) (c : CallIndex w) (t : Terminator) (bytes : List UInt8) :
    Op (Error w) (Site w) (Option Bool) := do
  let wire := (← get).wire
  if (p, c) ∉ wire.ongoingProcedures ∧ wire.maxOngoingProcedures.toNat ≤ wire.ongoingProcedures.size then
    pure (some false)
  else
    let callBufIdx ← onInterface (modifyGet fun i => i.getCallBuffer (p, c, wire.id))
    onWire (modify fun x => { x with ongoingProcedures := x.ongoingProcedures.insert (p, c) () })
    acceptCall p c t bytes callBufIdx

/-- The response branch of `receive_one`. -/
def receiveResponse (p : ProcedureIndex w) (c : CallIndex w) (t : Terminator) (bytes : List UInt8) :
    Op (Error w) (Site w) (Option Bool) := do
  let responseIdx ← onWire (Wire.getResponseIdx p c)
  onInterface (Interface.sendMany bytes responseIdx)
  match t with
  | .complete =>
    onInterface (Interface.terminateMessage responseIdx)
    onWire (modify fun x => { x with responseIdxMap := x.responseIdxMap.erase (p, c) })
    pure (some true)
  | .chunk =>
    onInterface (Interface.terminateChunk responseIdx)
    pure (some false)
  | .none => pure (some false)

end Site

/-! ### Reading messages -/

/-- A message as `receive_one` finds it at the head of the input. -/
inductive Incoming (w : IntFeature)
  | call (procedureIdx : ProcedureIndex w) (callIdx : CallIndex w) (terminator : Terminator) (bytes : List UInt8)
  | response (procedureIdx : ProcedureIndex w) (callIdx : CallIndex w) (terminator : Terminator)
      (bytes : List UInt8)
  | endOfInput
  | termination
  /-- An unknown type byte, or the type byte of a response on a module-style wire. -/
  | ignored

/-- Fails with the given error where there is no value. -/
def orError {α σ : Type} (e : Error w) : Option α → Op (Error w) σ α
  | some a => pure a
  | none => throw (.error e)

def orThrow {α σ : Type} : Except (Error w) α → Op (Error w) σ α
  | .ok a => pure a
  | .error e => throw (.error e)

/-! ### Calls with typed arguments -/

namespace Site

/-- The arguments are what `into_bytes` makes of them. -/
def call (checks : Bool) (p : ProcedureIndex w) (args : Except (Error w) Payload) :
    Op (Error w) (Site w) (CallHandle w) := do
  checkCanCall
  let args ← orThrow args
  callWithBytes checks p args

def startCallWithPartialArgs (checks : Bool) (p : ProcedureIndex w) (args : Except (Error w) Payload) :
    Op (Error w) (Site w) (CallIndex w) := do
  checkCanCall
  let args ← orThrow args
  startCallWithPartialBytes checks p args

def continueGivenCallWithArgs (p : ProcedureIndex w) (c : CallIndex w) (args : Except (Error w) Payload) :
    Op (Error w) (Site w) Unit := do
  checkCanCall
  let args ← orThrow args
  continueGivenCallWithBytes p c args

end Site

/-! ### Reading a message -/

/-- Whether there is memory for a vector of so many bytes when it is asked for.  What is left of the input tells the
time. -/
abbrev Allocator : Type := List UInt8 → Nat → Bool

/-- Memory does not run out. -/
abbrev Allocator.unlimited : Allocator := fun _ _ => true

/-- Reads the header and the bytes of a call or a response, after its type byte. -/
def readBody (granted : Allocator := .unlimited) :
    Op (Error w) (List UInt8) (ProcedureIndex w × CallIndex w × Terminator × List UInt8) := do
  let multiflagBuf ← readExact 1
  let bits := u8ToBoolArray (multiflagBuf.headD 0)
  let terminator ← orThrow (Terminator.fromFlag (bits[6], bits[7]))
  let procedureIdx ← (Integer.fromFlag (bits[0], bits[1])).populateFromReader
  let procedureIdx ← orError .idxTooBig (procedureIdx.intoInt w)
  let callIdx ← (Integer.fromFlag (bits[2], bits[3])).populateFromReader
  let callIdx ← orError .idxTooBig (callIdx.intoInt w)
  let numBytes ← (Integer.fromFlag (bits[4], bits[5])).populateFromReader
  let numBytes ← orError .idxTooBig numBytes.intoUsize
  -- `vec![0u8; num_bytes]` panics beyond the capacity of a vector, and aborts the program where memory runs out
  if isizeMax < numBytes then throw .panicked
  if granted (← get) numBytes = false then throw .panicked
  let bytes ← readExact numBytes
  pure (⟨procedureIdx⟩, ⟨callIdx⟩, terminator, bytes)

/-- Reads one message off the input. -/
def readMessage (moduleStyle : Bool) (granted : Allocator := .unlimited) :
    Op (Error w) (List UInt8) (Incoming w) := do
  let tyBuf ← readExact 1
  match tyBuf.headD 0 with
  | 0 => pure .termination
  | 1 =>
    let (p, c, t, bytes) ← readBody granted
    pure (.call p c t bytes)
  | 2 =>
    if moduleStyle then pure .ignored
    else
      let (p, c, t, bytes) ← readBody granted
      pure (.response p c t bytes)
  | 3 => pure .endOfInput
  | _ => pure .ignored

/-- What `receive_one` does with a message once it has read it. -/
def Site.receive : Incoming w → Op (Error w) (Site w) (Option Bool)
  | .call p c t bytes => receiveCall p c t bytes
  | .response p c t bytes => receiveResponse p c t bytes
  | .endOfInput => pure none
  | .termination => do
    modify markTerminated
    pure none
  | .ignored => pure (some false)

/-- A wire that reads from an input. -/
structure Receiver (w : IntFeature) where
  site : Site w
  reader : List UInt8

namespace Receiver

def onSite {α : Type} (x : Op (Error w) (Site w) α) : Op (Error w) (Receiver w) α :=
  EStateM.zoom site (fun s x => { s with site := x }) x

def onReader {α : Type} (x : Op (Error w) (List UInt8) α) : Op (Error w) (Receiver w) α :=
  EStateM.zoom reader (fun s x => { s with reader := x }) x

def receiveOne (granted : Allocator := .unlimited) : Op (Error w) (Receiver w) (Option Bool) := do
  if (← get).site.wire.terminated then throw (.error .wireTerminated)
  let message ← onReader (readMessage (← get).site.wire.moduleStyle granted)
  onSite (Site.receive message)

/-- An unexpected end of the input terminates the wire, and is still returned. -/
def atEof {α : Type} : EStateM.Result (Stop (Error w)) (Receiver w) α → EStateM.Result (Stop (Error w)) (Receiver w) α
  | .error (.error (.ioError .unexpectedEof)) s =>
    .error (.error (.ioError .unexpectedEof)) { s with site := s.site.markTerminated }
  | r => r

/-- One round of the loop in `fill`. -/
def fillStep (granted : Allocator := .unlimited) : Op (Error w) (Receiver w) (Option Bool) := fun s =>
  atEof ((receiveOne granted).run s)

/-- The loop in `fill`, for a given number of rounds. -/
def fillLoop (n : Nat) (granted : Allocator := .unlimited) : Op (Error w) (Receiver w) Unit :=
  match n with
  | 0 => throw .blocked
  | n + 1 => do
    match ← fillStep granted with
    | none => pure ()
    | some _ => fillLoop n granted

/-- Receives messages until an end of input, a termination or an error.  Every round takes at least one byte off the
input, so the rounds are bounded by its length. -/
def fill (granted : Allocator := .unlimited) : Op (Error w) (Receiver w) Unit := do
  if (← get).site.wire.terminated then throw (.error .wireTerminated)
  fillLoop ((← get).reader.length + 1) granted

end Receiver

/-! ### Writing messages -/

section Flush

variable {ω : Type} (writeAll : List UInt8 → Op (Error w) ω Unit) (flush : Op (Error w) ω Unit)

/-- Takes the queued messages off the queue one by one and writes each of them. -/
def Wire.flushLoop : List (List UInt8) → Op (Error w) (Wire w × ω) Unit
  | [] => pure ()
  | msgBytes :: rest => do
    modify fun s => ({ s.1 with queue := rest }, s.2)
    EStateM.zoom Prod.snd (fun s x => (s.1, x)) (writeAll msgBytes)
    Wire.flushLoop rest

def Wire.flushPartial : Op (Error w) (Wire w × ω) Unit := do
  if (← get).1.terminated then throw (.error .wireTerminated)
  Wire.flushLoop writeAll (← get).1.queue
  EStateM.zoom Prod.snd (fun s x => (s.1, x)) flush

def Wire.flushEnd : Op (Error w) (Wire w × ω) Unit := do
  if (← get).1.terminated then throw (.error .wireTerminated)
  EStateM.zoom Prod.fst (fun s x => (x, s.2)) Wire.signalEndOfInput
  Wire.flushPartial writeAll flush

def Wire.flushTerminate : Op (Error w) (Wire w × ω) Unit := do
  if (← get).1.terminated then throw (.error .wireTerminated)
  modify fun s => (s.1.signalTermination, s.2)
  Wire.flushPartial writeAll flush

end Flush

/-! ### Handles -/

namespace CallHandle

/-- Strikes the handle from the list of handles to poison. -/
def strike (id : IpfiInteger w) : Op (Error w) (Site w) Unit :=
  Site.onWire (modify fun x => { x with idleCallHandles := x.idleCallHandles.erase id })

def waitBytes (h : CallHandle w) : Op (Error w) (Site w) (List (List UInt8)) := do
  let res ← Site.onInterface (Interface.getRaw h.responseIdx)
  strike h.responseIdx
  pure res

def wait (decodes : List UInt8 → Bool) (h : CallHandle w) : Op (Error w) (Site w) (List UInt8) := do
  let res ← Site.onInterface (Interface.getTyped decodes h.responseIdx)
  strike h.responseIdx
  pure res

def waitChunks (decodes : List UInt8 → Bool) (h : CallHandle w) :
    Op (Error w) (Site w) (Option (List (List UInt8))) := do
  let res ← Site.onInterface (Interface.getChunks decodes h.responseIdx)
  strike h.responseIdx
  pure res

def waitChunkStream (h : CallHandle w) : Op (Error w) (Site w) (ChunkReceiverHandle w) := do
  let rx ← Site.onInterface (Interface.getChunkStream h.responseIdx)
  pure { rx, responseIdx := h.responseIdx }

def intoResponseIdx (h : CallHandle w) : Op (Error w) (Site w) (IpfiInteger w) := do
  strike h.responseIdx
  pure h.responseIdx

end CallHandle

/-- A receiver that has come to its end is struck from the list of handles to poison. -/
def ChunkReceiverHandle.recvRaw (r : ChunkReceiverHandle w) :
    Op (Error w) (Site w) (Option (List UInt8)) := do
  match ← Site.onInterface r.rx.recvRaw with
  | none =>
    CallHandle.strike r.responseIdx
    pure none
  | some bytes => pure (some bytes)

end Ipfi
