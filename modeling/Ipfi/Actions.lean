import Ipfi.Serving
import Ipfi.World

/-!
# What an action does to a world

Every action of local code or of a peer adds a wire or a procedure, drops or clones a wire, closes a channel, or is
one of the operations on one site.
-/

namespace Ipfi

variable {w : IntFeature}

/-- The operations of local code on a wire and its interface; only some actions make a call. -/
inductive Site.Move (checks : Bool) (calls : Prop) (s : Site w) : Site w → Prop
  | startCall (p : ProcedureIndex w) (args : Payload) : calls →
      Move checks calls s ((startCallWithPartialBytes checks p args).run s).state
  | continueCall (p : ProcedureIndex w) (c : CallIndex w) (args : Payload) :
      Move checks calls s ((continueGivenCallWithBytes p c args).run s).state
  | endCall (p : ProcedureIndex w) (c : CallIndex w) : Move checks calls s ((endGivenCall p c).run s).state
  | callWithBytes (p : ProcedureIndex w) (args : Payload) : calls →
      Move checks calls s ((Site.callWithBytes checks p args).run s).state
  | queue (queue : List (List UInt8)) : Move checks calls s { s with wire := { s.wire with queue } }
  | idle : Move checks calls s s
  | waitBytes (h : CallHandle w) : Move checks calls s (h.waitBytes.run s).state
  | wait (decodes : List UInt8 → Bool) (h : CallHandle w) :
      Move checks calls s ((CallHandle.wait decodes h).run s).state
  | waitChunks (decodes : List UInt8 → Bool) (h : CallHandle w) :
      Move checks calls s ((CallHandle.waitChunks decodes h).run s).state
  | waitChunkStream (h : CallHandle w) : Move checks calls s (h.waitChunkStream.run s).state
  | intoResponseIdx (h : CallHandle w) : Move checks calls s (h.intoResponseIdx.run s).state
  | recvRaw (r : ChunkReceiverHandle w) : Move checks calls s (r.recvRaw.run s).state

/-- The wire over which an action makes a call. -/
def Action.calls? : Action w → Option Nat
  | .startCall k _ _ => some k
  | .callWithBytes k _ _ => some k
  | _ => none

/-- The step of a wire that an action of the peer, or of a streaming execution, is. -/
def Action.serve? : Action w → Option (Nat × Site.ServeAction w)
  | .receiveOne k reader => some (k, .receiveOne reader)
  | .fillStep k reader => some (k, .fillStep reader)
  | .yield k e bytes t => some (k, .yield e bytes t)
  | _ => none

namespace World

variable {s : World w} {k j : Nat} {t t' : Site w} {checks : Bool}

/-- The message that an action makes a wire receive. -/
def incoming? (s : World w) (a : Action w) : Option (Nat × Incoming w) :=
  a.serve?.bind fun (k, b) =>
    if s.isLive k then (s.site? k).bind fun t => (b.message? t).map fun m => (k, m) else none

/-- What an action does to the interface and the wires. -/
inductive StepShape (checks : Bool) (s : World w) : Action w → World w → Prop
  | addProcedure (p : ProcedureIndex w) (procedure : Procedure w) :
      StepShape checks s (.addProcedure p procedure) { s with interface := s.interface.addProcedure p procedure }
  | newWire (moduleStyle : Bool) (max : IpfiInteger w) : StepShape checks s (.newWire moduleStyle max)
      { s with interface := s.interface.getId.2, wires := s.wires ++ [⟨.new s.interface.getId.1 moduleStyle max, 1⟩] }
  | cloneWire (k : Nat) : s.isLive k → StepShape checks s (.cloneWire k) (s.setClones k (· + 1))
  | dropWire (k : Nat) (t : Site w) : s.isLive k → s.site? k = some t → StepShape checks s (.dropWire k) (s.dropWire k)
  | dropReceiver (n : Nat) (rx : ChunkReceiver w) (handles : List (Option (Handle w))) :
      StepShape checks s (.dropHandle n) { s with interface := s.interface.dropReceiver rx, handles := handles }
  | handles (a : Action w) (handles : List (Option (Handle w))) : s.incoming? a = none →
      StepShape checks s a { s with handles := handles }
  | move (a : Action w) (k : Nat) (t t' : Site w) (handles : List (Option (Handle w))) : a.serve? = none →
      s.site? k = some t → Site.Move checks (a.calls? = some k) t t' → StepShape checks s a
        { s.setSite k t' with handles := handles }
  | serve (a : Action w) (k : Nat) (b : Site.ServeAction w) (t : Site w) : a.serve? = some (k, b) →
      s.site? k = some t → s.incoming? a = (b.message? t).map (fun m => (k, m)) →
      StepShape checks s a (s.setSite k (t.serveStep b))

theorem incoming?_of_serve? {a : Action w} (ha : a.serve? = none) : s.incoming? a = none := by
  simp [incoming?, ha]

/-- An operation whose result adds nothing to the world. -/
theorem onSite_state {α : Type} (s : World w) (k : Nat) (op : Op (Error w) (Site w) α) :
    s.onSite k op (fun _ s => s) = match s.site? k with
      | none => s
      | some t => s.setSite k (op.run t).state := by
  unfold onSite
  cases s.site? k with
  | none => rfl
  | some t => rcases hr : op.run t with ⟨_, t'⟩ | ⟨_, t'⟩ <;> simp [hr]

/-- An operation on a site is a move of it, whatever it adds to the handles. -/
private theorem onSite_shape {α : Type} (s : World w) (k : Nat) (op : Op (Error w) (Site w) α) (a : Action w)
    (result : α → World w → World w) (ha : a.serve? = none)
    (hresult : ∀ r s', ∃ handles, result r s' = { s' with handles := handles })
    (hmove : ∀ t, s.site? k = some t → Site.Move checks (a.calls? = some k) t (op.run t).state) :
    StepShape checks s a (s.onSite k op result) := by
  unfold onSite
  split
  · exact .handles a s.handles (incoming?_of_serve? ha)
  · rename_i t ht
    have hm := hmove t ht
    rcases hr : op.run t with ⟨r, t'⟩ | ⟨e, t'⟩
    · rw [hr] at hm
      obtain ⟨handles, hres⟩ := hresult r (s.setSite k t')
      show StepShape checks s a (result r (s.setSite k t'))
      rw [hres]
      exact .move a k t t' handles ha ht hm
    · rw [hr] at hm
      exact .move a k t t' s.handles ha ht hm

private theorem consume_shape {α : Type} (s : World w) (n : Nat) (op : CallHandle w → Op (Error w) (Site w) α)
    (a : Action w) (result : Nat → α → Option (Handle w)) (ha : a.serve? = none)
    (hmove : ∀ h k t, Site.Move checks (a.calls? = some k) t ((op h).run t).state) :
    StepShape checks s a (s.consume n op result) := by
  unfold consume
  split
  · split
    · exact .handles a s.handles (incoming?_of_serve? ha)
    · rename_i k h _ _ t ht
      have hm := hmove h k t
      rcases hr : (op h).run t with ⟨r, t'⟩ | ⟨_ | _ | _, t'⟩ <;> rw [hr] at hm
      all_goals exact .move a k t t' _ ha ht hm
  · exact .handles a s.handles (incoming?_of_serve? ha)

theorem receiveOneFrom_state (t : Site w) (reader : List UInt8) :
    ((receiveOneFrom reader).run t).state = (Receiver.receiveOne.run ⟨t, reader⟩).state.site :=
  EStateM.Result.state_mapState _ _

theorem fillStepFrom_state (t : Site w) (reader : List UInt8) :
    ((fillStepFrom reader).run t).state = (Receiver.fillStep.run ⟨t, reader⟩).state.site :=
  EStateM.Result.state_mapState _ _

/-- Serving through a live wire is a step of its site. -/
private theorem serve_shape (s : World w) (k : Nat) (b : Site.ServeAction w) (op : Op (Error w) (Site w) (Option Bool))
    (a : Action w) (ha : a.serve? = some (k, b)) (hlive : s.isLive k = true)
    (hstate : ∀ t, (op.run t).state = t.serveStep b) : StepShape checks s a (s.onSite k op fun _ s => s) := by
  rw [onSite_state]
  split
  · rename_i ht
    exact .handles a s.handles (by simp [incoming?, ha, ht])
  · rename_i t ht
    rw [hstate]
    exact .serve a k b t ha ht (by simp [incoming?, ha, hlive, ht])

theorem flushToSink_state (x : Wire w) :
    ((flushToSink).run x).state = if x.terminated then x else { x with queue := [] } := by
  show (EStateM.Result.mapState Prod.fst _).state = _
  rw [EStateM.Result.state_mapState]
  by_cases ht : x.terminated = true
  · simp [Wire.flushPartial, ht]
  · have hw : ∀ bytes o, (sink bytes : Op (Error w) Unit Unit).run o = .ok () o := fun _ _ => rfl
    rw [Wire.flushPartial_run hw (by simpa using ht), if_neg ht]
    rfl

private theorem stepWire_shape (s : World w) {a : Action w} (hlive : a.wire?.any s.isLive = true) :
    StepShape checks s a (s.stepWire checks a) := by
  cases a with
  | cloneWire k => exact .cloneWire k hlive
  | dropWire k =>
    cases ht : s.site? k with
    | none =>
      have hdrop : s.dropWire k = s := by unfold dropWire; rw [ht]
      show StepShape checks s _ (s.dropWire k)
      rw [hdrop]
      exact .handles _ s.handles rfl
    | some t => exact .dropWire k t hlive ht
  | startCall k p args =>
    exact onSite_shape s k _ _ _ rfl (fun _ s' => ⟨s'.handles, rfl⟩) fun t _ => .startCall p args rfl
  | continueCall k p c args =>
    exact onSite_shape s k _ _ _ rfl (fun _ s' => ⟨s'.handles, rfl⟩) fun t _ => .continueCall p c args
  | endCall k p c =>
    exact onSite_shape s k _ _ (fun h s => s.addHandle (.call k h)) rfl (fun _ _ => ⟨_, rfl⟩) fun t _ => .endCall p c
  | callWithBytes k p args =>
    exact onSite_shape s k _ _ (fun h s => s.addHandle (.call k h)) rfl (fun _ _ => ⟨_, rfl⟩) fun t _ =>
      .callWithBytes p args rfl
  | signalEndOfInput k =>
    refine onSite_shape s k _ _ _ rfl (fun _ s' => ⟨s'.handles, rfl⟩) fun t _ => ?_
    by_cases ht : t.wire.terminated = true
    · have : ((Site.onWire Wire.signalEndOfInput).run t).state = t := by simp [Site.onWire, Wire.signalEndOfInput, ht]
      rw [this]
      exact .idle
    · have : ((Site.onWire Wire.signalEndOfInput).run t).state =
          { t with wire := { t.wire with queue := t.wire.queue ++ [Message.toBytes (.endOfInput : Message w)] } } := by
        simp [Site.onWire, Wire.signalEndOfInput, ht, Wire.pushMessage]
      rw [this]
      exact .queue _
  | signalTermination k =>
    exact onSite_shape s k (Site.onWire (modify Wire.signalTermination)) _ (fun _ s => s) rfl
      (fun _ s' => ⟨s'.handles, rfl⟩) fun t _ => .queue (t.wire.queue ++ [Message.toBytes (.termination : Message w)])
  | flush k =>
    refine onSite_shape s k _ _ _ rfl (fun _ s' => ⟨s'.handles, rfl⟩) fun t _ => ?_
    show Site.Move checks _ t (EStateM.Result.mapState _ _).state
    rw [EStateM.Result.state_mapState, flushToSink_state]
    split
    · exact .idle
    · exact .queue []
  | receiveOne k reader =>
    exact serve_shape s k (.receiveOne reader) _ _ rfl hlive fun t => receiveOneFrom_state t reader
  | fillStep k reader => exact serve_shape s k (.fillStep reader) _ _ rfl hlive fun t => fillStepFrom_state t reader
  | addProcedure p procedure => exact .handles _ s.handles rfl
  | newWire moduleStyle max => exact .handles _ s.handles rfl
  | «yield» k e bytes tm => cases hlive
  | _ => exact .handles _ s.handles rfl

theorem step_shape (checks : Bool) (s : World w) (a : Action w) : StepShape checks s a (s.step checks a) := by
  cases a with
  | addProcedure p procedure => exact .addProcedure p procedure
  | newWire moduleStyle max => exact .newWire moduleStyle max
  | «yield» k e bytes tm =>
    have hin : s.incoming? (.yield k e bytes tm) = none := by simp [incoming?, Action.serve?, Site.ServeAction.message?]
    simp only [step]
    split
    · rename_i p c args fin hex
      rw [onSite_state]
      split
      · exact .handles _ s.handles hin
      · rename_i t ht
        obtain ⟨y, hy, rfl⟩ := Option.map_eq_some_iff.1 ht
        rw [hy] at hex
        have hserve : ((Site.onWire (Wire.yielder p c e bytes tm)).run ⟨s.interface, y.wire⟩).state =
            Site.serveStep ⟨s.interface, y.wire⟩ (.yield e bytes tm) := by
          refine (EStateM.Result.state_mapState _ _).trans ?_
          simp only [Site.serveStep]
          rw [show y.wire.executions[e]? = _ from hex]
        rw [hserve]
        exact .serve _ k (.yield e bytes tm) _ rfl ht hin
    · exact .handles _ s.handles hin
  | waitBytes n => exact consume_shape s n _ _ _ rfl fun h _ t => .waitBytes h
  | wait n decodes => exact consume_shape s n _ _ _ rfl fun h _ t => .wait decodes h
  | waitChunks n decodes => exact consume_shape s n _ _ _ rfl fun h _ t => .waitChunks decodes h
  | waitChunkStream n => exact consume_shape s n _ _ _ rfl fun h _ t => .waitChunkStream h
  | intoResponseIdx n => exact consume_shape s n _ _ (fun _ _ => none) rfl fun h _ t => .intoResponseIdx h
  | recvRaw n =>
    simp only [step]
    split
    · exact onSite_shape s _ _ _ _ rfl (fun _ s' => ⟨s'.handles, rfl⟩) fun t _ => .recvRaw _
    · exact .handles _ s.handles rfl
  | dropHandle n =>
    simp only [step]
    split
    · exact .dropReceiver n _ _
    · exact .handles _ _ rfl
    · exact .handles _ s.handles rfl
  | _ =>
    show StepShape checks s _ (if _ then s.stepWire checks _ else s)
    split
    · exact stepWire_shape s ‹_›
    · rename_i hlive
      refine .handles _ s.handles ?_
      simp only [Action.wire?, Option.any_some, Bool.not_eq_true] at hlive
      simp [incoming?, Action.serve?, hlive]

/-- An action that makes a wire receive a message serves that wire. -/
theorem step_of_incoming? (checks : Bool) {a : Action w} {m : Incoming w} (ha : s.incoming? a = some (k, m)) :
    ∃ b t, s.site? k = some t ∧ b.message? t = some m ∧ s.step checks a = s.setSite k (t.serveStep b) := by
  have hserve : ∀ {j b} {op : Op (Error w) (Site w) (Option Bool)}, a.serve? = some (j, b) →
      (∀ t, (op.run t).state = t.serveStep b) →
      j = k ∧ s.isLive k = true ∧ ∃ t, s.site? k = some t ∧ b.message? t = some m ∧
        s.onSite k op (fun _ s => s) = s.setSite k (t.serveStep b) := by
    intro j b op hserve hstate
    simp only [incoming?, hserve, Option.bind_some] at ha
    split at ha
    · obtain ⟨t, ht, hm⟩ := Option.bind_eq_some_iff.1 ha
      obtain ⟨m', hm', heq⟩ := Option.map_eq_some_iff.1 hm
      cases heq
      exact ⟨rfl, ‹_›, t, ht, hm', by simp only [onSite_state, ht, hstate]⟩
    · cases ha
  cases a with
  | receiveOne j reader =>
    obtain ⟨rfl, hlive, t, ht, hm, hstep⟩ := hserve rfl fun t => receiveOneFrom_state t reader
    exact ⟨_, t, ht, hm, (if_pos hlive).trans hstep⟩
  | fillStep j reader =>
    obtain ⟨rfl, hlive, t, ht, hm, hstep⟩ := hserve rfl fun t => fillStepFrom_state t reader
    exact ⟨_, t, ht, hm, (if_pos hlive).trans hstep⟩
  | «yield» j e bytes tm => simp [incoming?, Action.serve?, Site.ServeAction.message?] at ha
  | _ => cases ha

end World

end Ipfi
