import Ipfi.Framing
import Ipfi.InterfaceFrames

/-!
# What the operations leave alone

Nothing that happens on a wire changes its identifier, its style or its limit, the procedures of the interface or the
identifiers of wires; receiving and yielding change neither the calls the wire has made nor its handles.
-/

namespace Ipfi

variable {w : IntFeature}

open EStateM (Within Keeps)

/-! ### The wire -/

namespace Wire

/-- What a wire is created with. -/
def fixed (x : Wire w) : WireId w × Bool × IpfiInteger w := (x.id, x.moduleStyle, x.maxOngoingProcedures)

/-- What making calls does not change. -/
def serving (x : Wire w) := (x.fixed, x.terminated, x.ongoingProcedures, x.executions)

/-- What receiving messages does not change while the wire is not terminated. -/
def passive (x : Wire w) := (x.fixed, x.terminated, x.remoteCallCounter, x.idleCallHandles)

/-- What serving calls does not change. -/
def calling (x : Wire w) := (x.passive, x.responseIdxMap)

/-- What receiving responses does not change. -/
def answering (x : Wire w) : Wire w := { x with responseIdxMap := ∅ }

theorem nextCallIdx_serving (checks : Bool) (p : ProcedureIndex w) :
    (nextCallIdx checks p).Within (Keeps serving) := by
  refine .bind .get fun x => ?_
  split
  · exact .ite (.throw _) (.bind (.modify fun _ => rfl) fun _ => .pure _)
  · exact .bind (.modify fun _ => rfl) fun _ => .pure _

theorem getResponseIdx_within {R : Wire w → Wire w → Prop} [IsPreorder _ R] (p : ProcedureIndex w) (c : CallIndex w) :
    (getResponseIdx p c).Within R := by
  refine .bind .get fun x => ?_
  refine .ite (.bind (.throw _) fun _ => .bind .get fun x => ?_) (.bind .get fun x => ?_)
  all_goals
    split
    · exact .pure _
    · exact .throw _

theorem yielder_within {R : Wire w → Wire w → Prop} [IsPreorder _ R] (p : ProcedureIndex w) (c : CallIndex w) (e : Nat)
    (bytes : Payload) (t : Terminator) (hpush : ∀ (x : Wire w) m, R x (x.pushMessage m))
    (herase : ∀ (x : Wire w), R x { x with ongoingProcedures := x.ongoingProcedures.erase (p, c) })
    (hfinish : ∀ x : Wire w, R x (x.finishExecution e)) : (yielder p c e bytes t).Within R := by
  have hrest : ((do
      modify fun x => x.pushMessage (.response p c t bytes)
      if t = .complete then
        modify fun x => { x with ongoingProcedures := x.ongoingProcedures.erase (p, c) }
        modify fun x => x.finishExecution e) : Op (Error w) (Wire w) Unit).Within R :=
    .bind (.modify fun x => hpush x _) fun _ =>
      .ite (.bind (.modify herase) fun _ => .modify hfinish) (.pure _)
  exact .bind .get fun x => .ite (.bind (.throw _) fun _ => hrest) hrest

end Wire

/-! ### The site -/

namespace Site

/-- The interface moves along `R`, and of the wire `g` stays the same. -/
def Follows {β : Type} (R : Interface w → Interface w → Prop) (g : Wire w → β) (s s' : Site w) : Prop :=
  R s.interface s'.interface ∧ g s'.wire = g s.wire

instance {β : Type} (R : Interface w → Interface w → Prop) [IsPreorder _ R] (g : Wire w → β) :
    IsPreorder (Site w) (Follows R g) where
  refl s := ⟨refl_of R s.interface, rfl⟩
  trans _ _ _ h h' := ⟨trans_of R h.1 h'.1, h'.2.trans h.2⟩

section

variable {β γ : Type} {R : Interface w → Interface w → Prop} {g : Wire w → β} {s s' : Site w}

theorem Follows.map (f : β → γ) (h : Follows R g s s') : Follows R (f ∘ g) s s' := ⟨h.1, congrArg f h.2⟩

theorem Follows.later (h : Follows Interface.Steady g s s') : Follows Interface.Later g s s' := ⟨h.1.toLater, h.2⟩

theorem Follows.fixed_of_passive (h : Follows R Wire.passive s s') : Follows R Wire.fixed s s' := h.map Prod.fst

theorem Follows.fixed_of_serving (h : Follows R Wire.serving s s') : Follows R Wire.fixed s s' := h.map Prod.fst

theorem Follows.passive_of_calling (h : Follows R Wire.calling s s') : Follows R Wire.passive s s' := h.map Prod.fst

theorem Follows.passive_of_answering (h : Follows R Wire.answering s s') : Follows R Wire.passive s s' :=
  h.map Wire.passive

theorem Follows.serving_of_answering (h : Follows R Wire.answering s s') : Follows R Wire.serving s s' :=
  h.map Wire.serving

theorem Follows.id (h : Follows R Wire.fixed s s') : s'.wire.id = s.wire.id := congrArg Prod.fst h.2

theorem Follows.moduleStyle (h : Follows R Wire.fixed s s') : s'.wire.moduleStyle = s.wire.moduleStyle :=
  congrArg (fun x => x.2.1) h.2

theorem Follows.maxOngoingProcedures (h : Follows R Wire.fixed s s') :
    s'.wire.maxOngoingProcedures = s.wire.maxOngoingProcedures :=
  congrArg (fun x => x.2.2) h.2

theorem Follows.terminated (h : Follows R Wire.passive s s') : s'.wire.terminated = s.wire.terminated :=
  congrArg (fun x => x.2.1) h.2

theorem Follows.ongoingProcedures (h : Follows R Wire.serving s s') :
    s'.wire.ongoingProcedures = s.wire.ongoingProcedures :=
  congrArg (fun x => x.2.2.1) h.2

theorem Follows.executions (h : Follows R Wire.serving s s') : s'.wire.executions = s.wire.executions :=
  congrArg (fun x => x.2.2.2) h.2

theorem onInterface_follows {x : Op (Error w) (Interface w) γ} (hx : x.Within R) :
    (onInterface x).Within (Follows R g) :=
  hx.zoom fun _ _ h => ⟨h, rfl⟩

theorem onWire_follows [IsPreorder _ R] {x : Op (Error w) (Wire w) γ} (hx : x.Within (Keeps g)) :
    (onWire x).Within (Follows R g) :=
  hx.zoom fun s _ h => ⟨refl_of R s.interface, h⟩

end

/-! ### Serving calls -/

theorem runYields_cons (f : Payload → Terminator → Op (Error w) (Wire w) Unit) (y : Payload × Terminator)
    (ys : List (Payload × Terminator)) (x : Wire w) :
    runYields f (y :: ys) x = runYields f ys ((f y.1 y.2).run x).state := rfl

theorem runYields_within {R : Wire w → Wire w → Prop} [IsPreorder _ R]
    {f : Payload → Terminator → Op (Error w) (Wire w) Unit} (hf : ∀ bytes t, (f bytes t).Within R)
    (ys : List (Payload × Terminator)) (x : Wire w) : R x (runYields f ys x) := by
  induction ys generalizing x with
  | nil => exact refl_of R x
  | cons y ys ih => exact trans_of R (hf y.1 y.2 x) (ih _)

theorem yielder_calling (p : ProcedureIndex w) (c : CallIndex w) (e : Nat) (bytes : Payload) (t : Terminator) :
    (Wire.yielder p c e bytes t).Within (Keeps Wire.calling) :=
  Wire.yielder_within p c e bytes t (fun _ _ => rfl) (fun _ => rfl) fun _ => rfl

section

variable {R : Interface w → Interface w → Prop} [IsPreorder _ R]

theorem callProcedure_within (hR : Interface.Operates R) (p : ProcedureIndex w) (c : CallIndex w) (id : WireId w)
    {yielder : Nat → Payload → Terminator → Op (Error w) (Wire w) Unit}
    (hy : ∀ e bytes t, (yielder e bytes t).Within (Keeps Wire.calling)) :
    (callProcedure p c id yielder).Within (Follows R Wire.calling) := by
  have hpop (b : IpfiInteger w) :
      (onInterface (modify fun i => (i.pop b).2) : Op (Error w) (Site w) _).Within (Follows R Wire.calling) :=
    onInterface_follows (.modify fun i => hR.pop i b)
  refine (onInterface_follows (.modifyGet fun i => hR.getCallBuffer i _)).bind fun b => ?_
  refine (onInterface_follows (.modify fun i => hR.forget i _)).bind fun _ => .bind .get fun s => ?_
  split
  · exact .throw _
  · refine .bind .get fun s => ?_
    split
    · exact .throw _
    · refine .bind .get fun s => ?_
      split
      · exact .throw _
      · exact .throw _
      · refine (Within.unwrap _).bind fun args => ?_
        split
        · refine (onWire_follows (.modify fun _ => by rfl)).bind fun _ => (hpop b).bind fun _ => ?_
          split
          · exact .pure _
          · exact .throw _
        · refine .bind .get fun s => (onWire_follows (.modify fun _ => by rfl)).bind fun _ => ?_
          refine (onWire_follows (.modify fun x => runYields_within (hy _) _ x)).bind fun _ => ?_
          split
          · exact (hpop b).bind fun _ => .pure _
          · exact (onWire_follows (.modify fun _ => by rfl)).bind fun _ => .throw _

theorem callProcedure_follows (hR : Interface.Operates R) (p : ProcedureIndex w) (c : CallIndex w) (id : WireId w) :
    (callProcedure p c id (Wire.yielder p c)).Within (Follows R Wire.calling) :=
  callProcedure_within hR p c id (yielder_calling p c)

theorem acceptCall_follows (hR : Interface.Operates R) (p : ProcedureIndex w) (c : CallIndex w) (t : Terminator)
    (bytes : List UInt8) (b : IpfiInteger w) : (acceptCall p c t bytes b).Within (Follows R Wire.calling) := by
  refine (onInterface_follows (hR.sendMany bytes b)).bind fun _ => .ite ?_ (.pure _)
  refine (onInterface_follows (hR.terminateMessage b)).bind fun _ => .bind .get fun s => ?_
  refine (callProcedure_follows hR p c s.wire.id).bind fun ret => ?_
  split
  · exact (onWire_follows (.modify fun _ => by rfl)).bind fun _ =>
      (onWire_follows (.modify fun _ => by rfl)).bind fun _ => .pure _
  · exact .bind (.pure _) fun _ => .pure _

theorem receiveCall_follows (hR : Interface.Operates R) (p : ProcedureIndex w) (c : CallIndex w) (t : Terminator)
    (bytes : List UInt8) : (receiveCall p c t bytes).Within (Follows R Wire.calling) := by
  refine .bind .get fun s => .ite (.pure _) ?_
  refine (onInterface_follows (.modifyGet fun i => hR.getCallBuffer i _)).bind fun b => ?_
  exact (onWire_follows (.modify fun _ => by rfl)).bind fun _ => acceptCall_follows hR p c t bytes b

theorem receiveResponse_follows (hR : Interface.Sends R) (p : ProcedureIndex w) (c : CallIndex w) (t : Terminator)
    (bytes : List UInt8) : (receiveResponse p c t bytes).Within (Follows R Wire.answering) := by
  refine (onWire_follows (Wire.getResponseIdx_within p c)).bind fun r => ?_
  refine (onInterface_follows (hR.sendMany bytes r)).bind fun _ => ?_
  split
  · exact (onInterface_follows (hR.terminateMessage r)).bind fun _ =>
      (onWire_follows (.modify fun _ => by rfl)).bind fun _ => .pure _
  · exact (onInterface_follows (hR.terminateChunk r)).bind fun _ => .pure _
  · exact .pure _

end

theorem receiveCall_calling (p : ProcedureIndex w) (c : CallIndex w) (t : Terminator) (bytes : List UInt8) :
    (receiveCall p c t bytes).Within (Follows Interface.Later Wire.calling) :=
  receiveCall_follows Interface.later_serves.operates p c t bytes

theorem receiveResponse_answering (p : ProcedureIndex w) (c : CallIndex w) (t : Terminator) (bytes : List UInt8) :
    (receiveResponse p c t bytes).Within (Follows Interface.Steady Wire.answering) :=
  receiveResponse_follows Interface.steady_writes.sends p c t bytes

/-! ### Making calls -/

theorem checkCanCall_within {R : Site w → Site w → Prop} [IsPreorder _ R] :
    (checkCanCall : Op (Error w) _ _).Within R := by
  have hlast : ((do if (← get).wire.moduleStyle then throw (.error .callFromModule)) :
      Op (Error w) (Site w) Unit).Within R := .bind .get fun _ => .ite (.throw _) (.pure _)
  exact .bind .get fun s => .ite (.bind (.throw _) fun _ => hlast) hlast

theorem allocateCall_serving (checks : Bool) (p : ProcedureIndex w) :
    (allocateCall checks p).Within (Follows Interface.Steady Wire.serving) :=
  (onWire_follows (Wire.nextCallIdx_serving checks p)).bind fun _ =>
    (onInterface_follows (.modifyGet Interface.push_steady)).bind fun _ =>
      (onWire_follows (.modify fun _ => by rfl)).bind fun _ => .pure _

theorem newCallHandle_serving (p : ProcedureIndex w) (c : CallIndex w) :
    (newCallHandle p c).Within (Follows Interface.Steady Wire.serving) :=
  (onWire_follows (Wire.getResponseIdx_within p c)).bind fun _ => .bind .get fun _ => (Within.unwrap _).bind fun _ =>
    (onWire_follows (.modify fun _ => by rfl)).bind fun _ => .pure _

theorem continueGivenCallWithBytes_serving (p : ProcedureIndex w) (c : CallIndex w) (args : Payload) :
    (continueGivenCallWithBytes p c args).Within (Follows Interface.Steady Wire.serving) := by
  have hpush : (onWire (modify fun x => x.pushMessage (.call p c .none args)) : Op (Error w) (Site w) _).Within
      (Follows Interface.Steady Wire.serving) := onWire_follows (.modify fun _ => by rfl)
  exact checkCanCall_within.bind fun _ => .ite (.bind (.throw _) fun _ => hpush) hpush

theorem startCallWithPartialBytes_serving (checks : Bool) (p : ProcedureIndex w) (args : Payload) :
    (startCallWithPartialBytes checks p args).Within (Follows Interface.Steady Wire.serving) := by
  have hrest : ((do
      let callIdx ← allocateCall checks p
      continueGivenCallWithBytes p callIdx args
      pure callIdx) : Op (Error w) (Site w) (CallIndex w)).Within (Follows Interface.Steady Wire.serving) :=
    (allocateCall_serving checks p).bind fun _ => (continueGivenCallWithBytes_serving p _ args).bind fun _ => .pure _
  exact checkCanCall_within.bind fun _ => .ite (.bind (.throw _) fun _ => hrest) hrest

theorem callWithBytes_serving (checks : Bool) (p : ProcedureIndex w) (args : Payload) :
    (callWithBytes checks p args).Within (Follows Interface.Steady Wire.serving) :=
  checkCanCall_within.bind fun _ => (allocateCall_serving checks p).bind fun _ =>
    (onWire_follows (.modify fun _ => by rfl)).bind fun _ => newCallHandle_serving p _

theorem endGivenCall_serving (p : ProcedureIndex w) (c : CallIndex w) :
    (endGivenCall p c).Within (Follows Interface.Steady Wire.serving) :=
  checkCanCall_within.bind fun _ => (onWire_follows (.modify fun _ => by rfl)).bind fun _ => newCallHandle_serving p c

/-! ### Termination -/

theorem lookup_foldl_dropAssociatedCallMessage (id : WireId w) (keys : List (ProcedureIndex w × CallIndex w))
    (i : Interface w) (key : CallKey w) :
    (keys.foldl (fun i pc => i.dropAssociatedCallMessage (pc.1, pc.2, id)) i).callToBufferMap.lookup key =
      if (key.1, key.2.1) ∈ keys ∧ key.2.2 = id then none else i.callToBufferMap.lookup key := by
  induction keys generalizing i with
  | nil => simp
  | cons k keys ih =>
    rw [List.foldl_cons, ih, Interface.lookup_dropAssociatedCallMessage]
    obtain ⟨p, c, id'⟩ := key
    obtain ⟨p', c'⟩ := k
    by_cases hid : id' = id <;> by_cases hk : (p, c) ∈ keys <;> by_cases hp : p = p' <;> by_cases hc : c = c' <;>
      simp [hid, hk, hp, hc]

theorem foldl_poison_calls (locks : List LockRef) (i : Interface w) :
    (locks.foldl Interface.poison i).callToBufferMap = i.callToBufferMap := by
  induction locks generalizing i with
  | nil => rfl
  | cons l locks ih => exact ih _

theorem lookup_markTerminatedSync (s : Site w) (key : CallKey w) :
    s.markTerminatedSync.interface.callToBufferMap.lookup key =
      if (key.1, key.2.1) ∈ s.wire.ongoingProcedures ∧ key.2.2 = s.wire.id then none
      else s.interface.callToBufferMap.lookup key := by
  apply (lookup_foldl_dropAssociatedCallMessage s.wire.id s.wire.ongoingProcedures.keys s.interface key).trans
  simp only [AList.mem_keys]

/-- Termination drops the argument buffers of the ongoing procedures of the wire. -/
theorem lookup_markTerminated (s : Site w) (key : CallKey w) :
    s.markTerminated.interface.callToBufferMap.lookup key =
      if (key.1, key.2.1) ∈ s.wire.ongoingProcedures ∧ key.2.2 = s.wire.id then none
      else s.interface.callToBufferMap.lookup key := by
  show (AList.lookup key (List.foldl Interface.poison _ _).callToBufferMap) = _
  rw [foldl_poison_calls]
  exact lookup_markTerminatedSync s key

section

variable {R : Interface w → Interface w → Prop} [IsPreorder _ R]

theorem markTerminated_follows (hR : Interface.Operates R) (s : Site w) : Follows R Wire.fixed s s.markTerminated := by
  have hdrop (keys : List (ProcedureIndex w × CallIndex w)) (i : Interface w) :
      R i (keys.foldl (fun i pc => i.dropAssociatedCallMessage (pc.1, pc.2, s.wire.id)) i) := by
    induction keys generalizing i with
    | nil => exact refl_of R i
    | cons k keys ih => exact trans_of R (hR.dropAssociatedCallMessage i _) (ih _)
  have hpoison (locks : List LockRef) (i : Interface w) : R i (locks.foldl Interface.poison i) := by
    induction locks generalizing i with
    | nil => exact refl_of R i
    | cons l locks ih => exact trans_of R (hR.poison i l) (ih _)
  exact ⟨trans_of R (hdrop _ _) (hpoison _ _), rfl⟩

theorem receive_follows (hR : Interface.Operates R) (m : Incoming w) : (receive m).Within (Follows R Wire.fixed) := by
  cases m with
  | call p c t bytes =>
    exact (receiveCall_follows hR p c t bytes).mono fun _ _ h => h.passive_of_calling.fixed_of_passive
  | response p c t bytes =>
    exact (receiveResponse_follows hR.toSends p c t bytes).mono fun _ _ h => h.passive_of_answering.fixed_of_passive
  | endOfInput => exact .pure _
  | termination => exact .bind (.modify (markTerminated_follows hR)) fun _ => .pure _
  | ignored => exact .pure _

end

theorem markTerminated_fixed (s : Site w) : Follows Interface.Later Wire.fixed s s.markTerminated :=
  markTerminated_follows Interface.later_serves.operates s

theorem receive_fixed (m : Incoming w) : (receive m).Within (Follows Interface.Later Wire.fixed) :=
  receive_follows Interface.later_serves.operates m

/-- Unless it ends the input, a message leaves the calls of the wire and its handles alone. -/
theorem receive_passive_of_ne {m : Incoming w} {s : Site w} (h : ∀ s', (receive m).run s ≠ .ok none s') :
    Follows Interface.Later Wire.passive s ((receive m).run s).state := by
  cases m with
  | call p c t bytes => exact ((receiveCall_calling p c t bytes).mono fun _ _ h => h.passive_of_calling) s
  | response p c t bytes =>
    exact ((receiveResponse_answering p c t bytes).mono fun _ _ h => h.passive_of_answering.later) s
  | endOfInput => exact absurd rfl (h s)
  | termination => exact absurd rfl (h s.markTerminated)
  | ignored => exact refl_of (Follows Interface.Later Wire.passive) s

/-- A message after which `fill` goes on leaves the calls of the wire and its handles alone. -/
theorem receive_passive {m : Incoming w} {s s' : Site w} {b : Bool} (h : (receive m).run s = .ok (some b) s') :
    Follows Interface.Later Wire.passive s s' := by
  have hp := receive_passive_of_ne (m := m) (s := s) fun s'' hn => by rw [h] at hn; cases hn
  rwa [h] at hp

/-- So does a message that fails. -/
theorem receive_error_passive {m : Incoming w} {s s' : Site w} {e : Stop (Error w)}
    (h : (receive m).run s = .error e s') : Follows Interface.Later Wire.passive s s' := by
  have hp := receive_passive_of_ne (m := m) (s := s) fun s'' hn => by rw [h] at hn; cases hn
  rwa [h] at hp

end Site

/-! ### Rounds of receiving -/

namespace Receiver

/-- What receiving does at most, whatever was received. -/
def Advances (s s' : Receiver w) : Prop := Site.Follows Interface.Later Wire.fixed s.site s'.site

instance : IsPreorder (Receiver w) Advances where
  refl s := refl_of (Site.Follows Interface.Later Wire.fixed) s.site
  trans _ _ _ h h' := trans_of (Site.Follows Interface.Later Wire.fixed) h h'

variable {granted : Allocator}

theorem receiveOne_advances : (receiveOne granted : Op (Error w) _ _).Within Advances := by
  have hrest : ((do
      let message ← onReader (readMessage (← get).site.wire.moduleStyle granted)
      onSite (Site.receive message)) : Op (Error w) (Receiver w) (Option Bool)).Within
        Advances := by
    refine .bind .get fun s => .bind ?_ fun m => (Site.receive_fixed m).zoom fun _ _ h => h
    intro s
    simp only [onReader, EStateM.run_zoom, EStateM.Result.state_mapState]
    exact refl_of (Site.Follows Interface.Later Wire.fixed) s.site
  exact .bind .get fun s => .ite (.bind (.throw _) fun _ => hrest) hrest

theorem fillStep_advances : (fillStep granted : Op (Error w) _ _).Within Advances := by
  intro s
  have h : s.Advances ((receiveOne granted).run s).state := receiveOne_advances s
  rw [fillStep_run]
  unfold atEof
  split
  · rename_i s' hs; rw [hs] at h; exact trans_of (Site.Follows Interface.Later Wire.fixed) h
      (Site.markTerminated_fixed _)
  · exact h

theorem fillLoop_advances (n : Nat) : (fillLoop n granted : Op (Error w) _ _).Within Advances := by
  induction n with
  | zero => exact .throw _
  | succ n ih =>
    refine fillStep_advances.bind fun b => ?_
    split
    · exact .pure _
    · exact ih

end Receiver

end Ipfi
