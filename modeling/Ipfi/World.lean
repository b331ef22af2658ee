import Ipfi.Wire
import Ipfi.Lib.Reach

/-!
# One interface and everything attached to it

The system around one interface: its wires, each with the number of live clones of its `Wire` value, and the handles
that local code holds.  An action is one call of a public method by local code, one message received, one round of
`fill`, or one yield of a streaming execution; every action is one step.
-/

namespace Ipfi

variable {w : IntFeature}

/-- What the clones of one `Wire` share, and how many of them are live. -/
structure SharedWire (w : IntFeature) where
  wire : Wire w
  clones : Nat

/-- A handle or a receiver that local code holds, with the position of the wire it was obtained from. -/
inductive Handle (w : IntFeature)
  | call (wire : Nat) (h : CallHandle w)
  | chunks (wire : Nat) (r : ChunkReceiverHandle w)

structure World (w : IntFeature) where
  interface : Interface w
  wires : List (SharedWire w)
  /-- The handles obtained so far, `none` once consumed. -/
  handles : List (Option (Handle w))

inductive Action (w : IntFeature)
  | addProcedure (p : ProcedureIndex w) (procedure : Procedure w)
  /-- `Wire::new` or `Wire::new_module`, with the limit set by `max_ongoing_procedures`. -/
  | newWire (moduleStyle : Bool) (max : IpfiInteger w)
  | cloneWire (k : Nat)
  | dropWire (k : Nat)
  | startCall (k : Nat) (p : ProcedureIndex w) (args : Payload)
  | continueCall (k : Nat) (p : ProcedureIndex w) (c : CallIndex w) (args : Payload)
  | endCall (k : Nat) (p : ProcedureIndex w) (c : CallIndex w)
  | callWithBytes (k : Nat) (p : ProcedureIndex w) (args : Payload)
  | signalEndOfInput (k : Nat)
  | signalTermination (k : Nat)
  /-- `flush_partial` into a writer that takes everything. -/
  | flush (k : Nat)
  /-- `receive_one` on a reader with the given bytes. -/
  | receiveOne (k : Nat) (reader : List UInt8)
  /-- One round of the loop in `fill`. -/
  | fillStep (k : Nat) (reader : List UInt8)
  /-- The streaming execution `e` of the wire yields. -/
  | yield (k : Nat) (e : Nat) (bytes : Payload) (t : Terminator)
  | waitBytes (h : Nat)
  | wait (h : Nat) (decodes : List UInt8 → Bool)
  | waitChunks (h : Nat) (decodes : List UInt8 → Bool)
  | waitChunkStream (h : Nat)
  | intoResponseIdx (h : Nat)
  | recvRaw (h : Nat)
  | dropHandle (h : Nat)

/-- The wire whose methods an action calls. -/
def Action.wire? : Action w → Option Nat
  | .cloneWire k | .dropWire k | .startCall k _ _ | .continueCall k _ _ _ | .endCall k _ _ | .callWithBytes k _ _
  | .signalEndOfInput k | .signalTermination k | .flush k | .receiveOne k _ | .fillStep k _ => some k
  | _ => none

namespace World

def new : World w where
  interface := .new
  wires := []
  handles := []

def site? (s : World w) (k : Nat) : Option (Site w) := s.wires[k]?.map fun x => ⟨s.interface, x.wire⟩

/-- The world with a wire and the interface replaced. -/
def setSite (s : World w) (k : Nat) (t : Site w) : World w :=
  { s with interface := t.interface, wires := s.wires.modify k fun x => { x with wire := t.wire } }

/-- Whether a clone of the wire is live. -/
def isLive (s : World w) (k : Nat) : Bool := s.wires[k]?.any fun x => 0 < x.clones

def setClones (s : World w) (k : Nat) (f : Nat → Nat) : World w :=
  { s with wires := s.wires.modify k fun x => { x with clones := f x.clones } }

def addHandle (s : World w) (h : Handle w) : World w := { s with handles := s.handles ++ [some h] }

def setHandle (s : World w) (n : Nat) (h : Option (Handle w)) : World w := { s with handles := s.handles.set n h }

/-- The state after an operation on a wire, with what its result adds to the world. -/
def onSite {α : Type} (s : World w) (k : Nat) (x : Op (Error w) (Site w) α) (result : α → World w → World w) :
    World w :=
  match s.site? k with
  | none => s
  | some t =>
    match x.run t with
    | .ok a t' => result a (s.setSite k t')
    | .error _ t' => s.setSite k t'

/-- The state after an operation that consumes a call handle.  A thread that has to wait still holds the handle. -/
def consume {α : Type} (s : World w) (n : Nat) (x : CallHandle w → Op (Error w) (Site w) α)
    (result : Nat → α → Option (Handle w)) : World w :=
  match s.handles[n]? with
  | some (some (.call k h)) =>
    match s.site? k with
    | none => s
    | some t =>
      match (x h).run t with
      | .ok a t' => (s.setSite k t').setHandle n (result k a)
      | .error .blocked t' => s.setSite k t'
      | .error _ t' => (s.setSite k t').setHandle n none
  | _ => s

/-- Dropping a `Wire` terminates what all its clones share and relinquishes their identifier. -/
def dropWire (s : World w) (k : Nat) : World w :=
  match s.site? k with
  | none => s
  | some t =>
    let t' := t.markTerminated
    (s.setSite k { t' with interface := t'.interface.relinquishId t'.wire.id }).setClones k (· - 1)

/-- A writer that takes everything. -/
def sink : List UInt8 → Op (Error w) Unit Unit := fun _ => pure ()

def flushToSink : Op (Error w) (Wire w) Unit :=
  fun x => ((Wire.flushPartial sink (pure ())).run (x, ())).mapState Prod.fst

/-- `receive_one` on a reader with the given bytes. -/
def receiveOneFrom (reader : List UInt8) : Op (Error w) (Site w) (Option Bool) :=
  fun t => (Receiver.receiveOne.run ⟨t, reader⟩).mapState Receiver.site

/-- One round of the loop in `fill` on a reader with the given bytes. -/
def fillStepFrom (reader : List UInt8) : Op (Error w) (Site w) (Option Bool) :=
  fun t => (Receiver.fillStep.run ⟨t, reader⟩).mapState Receiver.site

/-- The operations that a live `Wire` value is needed for. -/
def stepWire (checks : Bool) (s : World w) : Action w → World w
  | .cloneWire k => s.setClones k (· + 1)
  | .dropWire k => s.dropWire k
  | .startCall k p args => s.onSite k (Site.startCallWithPartialBytes checks p args) fun _ s => s
  | .continueCall k p c args => s.onSite k (Site.continueGivenCallWithBytes p c args) fun _ s => s
  | .endCall k p c => s.onSite k (Site.endGivenCall p c) fun h s => s.addHandle (.call k h)
  | .callWithBytes k p args => s.onSite k (Site.callWithBytes checks p args) fun h s => s.addHandle (.call k h)
  | .signalEndOfInput k => s.onSite k (Site.onWire Wire.signalEndOfInput) fun _ s => s
  | .signalTermination k => s.onSite k (Site.onWire (modify Wire.signalTermination)) fun _ s => s
  | .flush k => s.onSite k (Site.onWire flushToSink) fun _ s => s
  | .receiveOne k reader => s.onSite k (receiveOneFrom reader) fun _ s => s
  | .fillStep k reader => s.onSite k (fillStepFrom reader) fun _ s => s
  | _ => s

def step (checks : Bool) (s : World w) (a : Action w) : World w :=
  match a with
  | .addProcedure p procedure => { s with interface := s.interface.addProcedure p procedure }
  | .newWire moduleStyle max =>
    { s with
      interface := s.interface.getId.2
      wires := s.wires ++ [⟨.new s.interface.getId.1 moduleStyle max, 1⟩] }
  | .yield k e bytes t =>
    match s.wires[k]?.bind fun x => x.wire.executions[e]? with
    | some ⟨p, c, _, true, _⟩ => s.onSite k (Site.onWire (Wire.yielder p c e bytes t)) fun _ s => s
    | _ => s
  | .waitBytes n => s.consume n CallHandle.waitBytes fun _ _ => none
  | .wait n decodes => s.consume n (CallHandle.wait decodes) fun _ _ => none
  | .waitChunks n decodes => s.consume n (CallHandle.waitChunks decodes) fun _ _ => none
  | .waitChunkStream n => s.consume n CallHandle.waitChunkStream fun k r => some (.chunks k r)
  | .intoResponseIdx n => s.consume n CallHandle.intoResponseIdx fun _ _ => none
  | .recvRaw n =>
    match s.handles[n]? with
    | some (some (.chunks k r)) => s.onSite k r.recvRaw fun _ s => s
    | _ => s
  | .dropHandle n =>
    match s.handles[n]? with
    | some (some (.chunks _ r)) => { s with interface := s.interface.dropReceiver r.rx }.setHandle n none
    | some (some (.call _ _)) => s.setHandle n none
    | _ => s
  | a => if a.wire?.any s.isLive then s.stepWire checks a else s

end World

end Ipfi
