import Ipfi.Calls
import Ipfi.Executions
import Ipfi.Lib.Reach

/-!
# Two interfaces connected by a pair of wires

One side makes calls, the other serves them.  What either side flushes goes, byte by byte and in order, to the reader of
the other, and each round of `fill` takes one message off it.  Local code on the calling side makes calls whole or in
pieces, and waits for their results; the streaming executions on the serving side yield.
-/

namespace Ipfi

variable {w : IntFeature}

/-- A call that local code has made: its pieces so far, the handle that ending the call has returned, and the result
that waiting for it has returned. -/
structure CallRecord (w : IntFeature) where
  procedureIdx : ProcedureIndex w
  callIdx : CallIndex w
  pieces : List Payload
  handle : Option (CallHandle w)
  result : Option (List (List UInt8))

namespace CallRecord

def pair (r : CallRecord w) : ProcedureIndex w × CallIndex w := (r.procedureIdx, r.callIdx)

/-- The concatenation of the pieces of the call, in order. -/
def args (r : CallRecord w) : List UInt8 := (r.pieces.map Subtype.val).flatten

theorem args_singleton {r : CallRecord w} {args : Payload} (h : r.pieces = [args]) : r.args = args.val := by
  simp [CallRecord.args, h]

theorem args_concat {r r' : CallRecord w} {args : Payload} (h : r'.pieces = r.pieces ++ [args]) :
    r'.args = r.args ++ args.val := by
  simp [CallRecord.args, h]

/-- The handle of the call, as long as local code holds it. -/
def held (r : CallRecord w) : Option (CallHandle w) :=
  match r.result with
  | none => r.handle
  | some _ => none

/-! ### Records of calls -/

variable {calls : List (CallRecord w)} {r r' : CallRecord w} {n : Nat} {f : CallRecord w → CallRecord w}

/-- The records but for the one that has changed. -/
theorem mem_modify (h : (calls.map pair).Nodup) (hn : calls[n]? = some r) (hr' : r' ∈ calls.modify n f) :
    r' = f r ∨ r' ∈ calls ∧ r'.pair ≠ r.pair := by
  obtain ⟨n', hn'⟩ := List.mem_iff_getElem?.1 hr'
  by_cases heq : n = n'
  · subst heq
    rw [List.getElem?_modify_eq, hn] at hn'
    exact .inl (Option.some.inj hn').symm
  · rw [List.getElem?_modify_ne f calls heq] at hn'
    refine .inr ⟨List.mem_of_getElem? hn', fun hpair => heq ?_⟩
    have hlt : n < (calls.map pair).length := by simpa using (List.getElem?_eq_some_iff.1 hn).1
    refine (List.getElem?_inj hlt h).1 ?_
    rw [List.getElem?_map, List.getElem?_map, hn, hn', Option.map_some, Option.map_some, hpair]

theorem map_modify {β : Type} (g : CallRecord w → β) (f' : β → β) (hf : ∀ r, g (f r) = f' (g r))
    (calls : List (CallRecord w)) (n : Nat) :
    (calls.modify n f).map g = (calls.map g).modify n f' := by
  refine List.ext_getElem? fun n' => ?_
  simp only [List.getElem?_map, List.getElem?_modify]
  cases calls[n']? with
  | none => rfl
  | some r =>
    by_cases heq : n = n'
    · simp [heq, hf]
    · simp [heq]

theorem map_pair_modify (hf : ∀ r, (f r).pair = r.pair) (calls : List (CallRecord w)) (n : Nat) :
    (calls.modify n f).map pair = calls.map pair := by
  rw [map_modify pair id hf, List.modify_id]

end CallRecord

structure Link (w : IntFeature) where
  caller : Site w
  peer : Site w
  /-- What the caller has flushed and the peer has not read yet, and the other way round. -/
  toPeer : List UInt8
  toCaller : List UInt8
  /-- A history variable: the calls in the order in which they were made. -/
  calls : List (CallRecord w)
  /-- A history variable: what streaming executions have yielded after their closures were over, with the positions of
  the executions. -/
  yields : List (Nat × Yield)

inductive LinkAction (w : IntFeature)
  | startCall (p : ProcedureIndex w) (args : Payload)
  /-- Another piece of the `n`-th call. -/
  | continueCall (n : Nat) (args : Payload)
  | endCall (n : Nat)
  | callWithBytes (p : ProcedureIndex w) (args : Payload)
  /-- `wait_bytes` on the handle of the `n`-th call. -/
  | waitBytes (n : Nat)
  | signalCaller
  | flushCaller
  /-- One round of `fill`, which waits for as long as nothing has come in. -/
  | fillCaller
  /-- The streaming execution `e` of the peer yields. -/
  | yield (e : Nat) (bytes : Payload) (t : Terminator)
  | signalPeer
  | flushPeer
  | fillPeer

/-- `flush_partial` into a writer that takes everything. -/
def Wire.flushTo : Op (Error w) (Wire w × List UInt8) Unit :=
  Wire.flushPartial (fun bytes => modify (· ++ bytes)) (pure ())

namespace Link

/-- Two new wires on the two interfaces. -/
def connect (caller peer : Interface w) (id id' : WireId w) (moduleStyle : Bool) (max max' : IpfiInteger w) :
    Link w where
  caller := ⟨caller, .new id false max⟩
  peer := ⟨peer, .new id' moduleStyle max'⟩
  toPeer := []
  toCaller := []
  calls := []
  yields := []

/-- Everything that the execution `e` has sent back so far. -/
def repliesOf (s : Link w) (e : Nat) : List Yield :=
  match s.peer.wire.executions[e]? with
  | none => []
  | some ex =>
    (match s.peer.interface.procedures.lookup ex.procedureIdx with
      | some procedure => procedure.replies ex.args
      | none => []) ++ (s.yields.filter fun y => decide (y.1 = e)).map Prod.snd

/-- An operation of the caller on the `n`-th call. -/
def onCall {α : Type} (s : Link w) (n : Nat) (op : CallRecord w → Op (Error w) (Site w) α)
    (record : α → CallRecord w → CallRecord w) : Link w :=
  match s.calls[n]? with
  | none => s
  | some r =>
    match (op r).run s.caller with
    | .ok a t => { s with caller := t, calls := s.calls.modify n (record a) }
    | .error _ t => { s with caller := t }

/-- An operation of the caller that makes a new call. -/
def newCall {α : Type} (s : Link w) (op : Op (Error w) (Site w) α) (record : α → CallRecord w) : Link w :=
  match op.run s.caller with
  | .ok a t => { s with caller := t, calls := s.calls ++ [record a] }
  | .error _ t => { s with caller := t }

def step (checks : Bool) (s : Link w) : LinkAction w → Link w
  | .startCall p args => s.newCall (Site.startCallWithPartialBytes checks p args) fun c => ⟨p, c, [args], none, none⟩
  | .continueCall n args =>
    s.onCall n (fun r => Site.continueGivenCallWithBytes r.procedureIdx r.callIdx args) fun _ r =>
      { r with pieces := r.pieces ++ [args] }
  | .endCall n =>
    s.onCall n (fun r => Site.endGivenCall r.procedureIdx r.callIdx) fun h r => { r with handle := some h }
  | .callWithBytes p args =>
    s.newCall (Site.callWithBytes checks p args) fun h => ⟨p, s.caller.nextIdx p, [args], some h, none⟩
  | .waitBytes n =>
    match s.calls[n]?.bind CallRecord.held with
    | some h => s.onCall n (fun _ => h.waitBytes) fun chunks r => { r with result := some chunks }
    | none => s
  | .signalCaller => { s with caller := ((Site.onWire Wire.signalEndOfInput).run s.caller).state }
  | .flushCaller =>
    let x := (Wire.flushTo.run (s.caller.wire, s.toPeer)).state
    { s with caller := { s.caller with wire := x.1 }, toPeer := x.2 }
  | .fillCaller =>
    if s.toCaller = [] then s
    else
      let x := (Receiver.fillStep.run ⟨s.caller, s.toCaller⟩).state
      { s with caller := x.site, toCaller := x.reader }
  | .yield e bytes t =>
    match s.peer.wire.executions[e]? with
    | some ⟨p, c, _, true, _⟩ =>
      match (Wire.yielder p c e bytes t).run s.peer.wire with
      | .ok _ x => { s with peer := { s.peer with wire := x }, yields := s.yields ++ [(e, bytes, t)] }
      | .error _ x => { s with peer := { s.peer with wire := x } }
    | _ => s
  | .signalPeer => { s with peer := ((Site.onWire Wire.signalEndOfInput).run s.peer).state }
  | .flushPeer =>
    let x := (Wire.flushTo.run (s.peer.wire, s.toCaller)).state
    { s with peer := { s.peer with wire := x.1 }, toCaller := x.2 }
  | .fillPeer =>
    if s.toPeer = [] then s
    else
      let x := (Receiver.fillStep.run ⟨s.peer, s.toPeer⟩).state
      { s with peer := x.site, toPeer := x.reader }

end Link

end Ipfi
