import Ipfi.Asking
import Ipfi.Relays

/-!
# Calls of pure procedures over a whole link

A caller that makes calls, whole or in pieces and in any order, to the pure procedures of its peer: every call makes its
procedure be called on all its pieces, and its handle returns what the procedure has made of them.
-/

namespace Ipfi

variable {w : IntFeature}

/-- A call as local code has issued it: its pieces so far, and whether it has been ended. -/
structure IssuedCall (w : IntFeature) where
  procedureIdx : ProcedureIndex w
  pieces : List Payload
  ended : Bool

def CallRecord.issued (r : CallRecord w) : IssuedCall w := ⟨r.procedureIdx, r.pieces, r.handle.isSome⟩

/-- What the action issues, after the given calls. -/
def LinkAction.issue (a : LinkAction w) (calls : List (IssuedCall w)) : List (IssuedCall w) :=
  match a with
  | .startCall p args => calls ++ [⟨p, [args], false⟩]
  | .continueCall n args => calls.modify n fun c => { c with pieces := c.pieces ++ [args] }
  | .endCall n => calls.modify n fun c => { c with ended := true }
  | .callWithBytes p args => calls ++ [⟨p, [args], true⟩]
  | _ => calls

namespace Link

variable {s s' : Link w} {x y : Surroundings w} {results : ProcedureIndex w → List UInt8 → Payload}
  {registered : ProcedureIndex w → Prop} {max : Nat} {v u : Asked w} {q said : Replied w} {p : ProcedureIndex w}
  {args : Payload} {n : Nat} {r : CallRecord w} {checks : Bool}

/-! ### The calls of a run -/

/-- One more call of the procedure stays within the limits. -/
structure Allows (s : Link w) (registered : ProcedureIndex w → Prop) (max : Nat) (p : ProcedureIndex w) : Prop where
  registered : registered p
  indices : callsTo s.calls p < 2 ^ w.bits
  unfinished : unfinished s.calls < max
  room : s.caller.interface.messages.size < 2 ^ w.bits

/-- If the message that the peer reads next makes a new argument buffer, there is an identifier left for it. -/
def PeerHasRoom (s : Link w) : Prop :=
  ∀ m, (Site.ServeAction.fillStep s.toPeer).message? s.peer = some m → s.peer.RoomFor m

theorem PeerHasRoom.of_lt (h : s.peer.interface.messages.size < 2 ^ w.bits) : s.PeerHasRoom := fun m _ => .of_lt h m

theorem PeerHasRoom.roomFor (h : s.PeerHasRoom) (hrun : s.peer.wire.terminated = false) {m : Message w}
    (hm : ∀ p c t b, m ≠ .response p c t b) {rest : List UInt8} (hbytes : s.toPeer = m.toBytes ++ rest) :
    s.peer.RoomFor m.incoming :=
  h _ (hbytes ▸ Site.ServeAction.message?_toBytes hrun hm rest (.inr rfl))

/-- The pieces of calls are not empty and none is sent after the end of its call; the calls stay within the limits,
and so do the buffers of both interfaces. -/
def Proper (registered : ProcedureIndex w → Prop) (max : Nat) (s : Link w) (a : LinkAction w) : Prop :=
  match a with
  | .startCall p args => args.val ≠ [] ∧ s.Allows registered max p
  | .callWithBytes p _ => s.Allows registered max p
  | .continueCall n args => args.val ≠ [] ∧ ∀ r, s.calls[n]? = some r → r.handle = none
  | .endCall n => ∀ r, s.calls[n]? = some r → r.handle = none
  | .fillPeer => s.PeerHasRoom
  | _ => True

/-- What the peer has heard of the calls, and what the caller has told it. -/
structure Exchanges (s : Link w) (y : Surroundings w) (results : ProcedureIndex w → List UInt8 → Payload)
    (registered : ProcedureIndex w → Prop) (max : Nat) (v u : Asked w) : Prop where
  hears : s.peer.Hears y results registered max v
  pipe : Pipe Asked.recv (Asked.Legal registered max) s.caller.wire.queue s.toPeer v u
  asks : s.caller.Asks s.calls registered max u
  yields : s.yields = []

namespace Exchanges

/-! ### Steps of the caller -/

theorem startCall_eq (h : s.Exchanges y results registered max v u) (ha : s.Proper registered max (.startCall p args)) :
    s.step checks (.startCall p args) = { s with
      caller := s.caller.started p args
      calls := s.calls ++ [⟨p, s.caller.nextIdx p, [args], none, none⟩] } := by
  obtain ⟨hargs, hallows⟩ := ha
  have hr := Site.startCallWithPartialBytes_run h.asks.counted.canCall hargs
    (h.asks.counted.allocateCall_run hallows.indices checks)
  show s.newCall _ _ = _
  rw [newCall, hr]

theorem startCall (h : s.Exchanges y results registered max v u) (ha : s.Proper registered max (.startCall p args)) :
    (s.step checks (.startCall p args)).Exchanges y results registered max v
      (u.more (p, s.caller.nextIdx p) args.val) := by
  rw [h.startCall_eq ha]
  obtain ⟨hargs, hallows⟩ := ha
  have hlegal := h.asks.legal_of_new hallows.indices hallows.registered hallows.unfinished .none args
  refine ⟨h.hears, h.pipe.send hlegal, ?_, h.yields⟩
  have hnew := h.asks.unheard _ (h.asks.unused hallows.indices)
  refine h.asks.adds hallows.indices hallows.registered rfl ?_ hallows.unfinished
    ⟨fun _ => ?_, fun hne => absurd rfl hne⟩ (fun r' hr' hne => (h.asks.told r' hr').more_ne hne _)
    (fun k hk hun => hun.more_ne hk _) h.asks.pairs
  · exact h.asks.counted.allotted hallows.indices
      ⟨h.asks.counted.canCall.running, h.asks.counted.canCall.hostStyle⟩ rfl rfl
  · rw [CallRecord.args_singleton rfl]
    exact Asked.Open.more_self hnew.gathered hnew.notMem_pairs args.val

theorem callWithBytes_eq (h : s.Exchanges y results registered max v u)
    (ha : s.Proper registered max (.callWithBytes p args)) :
    s.step checks (.callWithBytes p args) = { s with
      caller := s.caller.called p args
      calls := s.calls ++
        [⟨p, s.caller.nextIdx p, [args], some ⟨s.caller.interface.push.1, s.caller.interface.lockCount⟩, none⟩] } := by
  have hr := Site.callWithBytes_run h.asks.counted.canCall (h.asks.counted.allocateCall_run ha.indices checks) args
  show s.newCall _ _ = _
  rw [newCall, hr]

theorem callWithBytes (h : s.Exchanges y results registered max v u)
    (ha : s.Proper registered max (.callWithBytes p args)) :
    (s.step checks (.callWithBytes p args)).Exchanges y results registered max v
      (u.last (p, s.caller.nextIdx p) args.val) := by
  rw [h.callWithBytes_eq ha]
  have hlegal := h.asks.legal_of_new ha.indices ha.registered ha.unfinished .complete args
  refine ⟨h.hears, h.pipe.send hlegal, ?_, h.yields⟩
  have hnew := h.asks.unheard _ (h.asks.unused ha.indices)
  refine h.asks.adds ha.indices ha.registered rfl ?_ ha.unfinished ⟨fun hnone => ?_, fun _ => ?_⟩
    (fun r' hr' hne => (h.asks.told r' hr').last_ne hne _) (fun k hk hun => hun.last_ne hk _)
    (h.asks.pairs_last hnew.notMem_pairs _)
  · exact h.asks.counted.allotted ha.indices ⟨h.asks.counted.canCall.running, h.asks.counted.canCall.hostStyle⟩ rfl rfl
  · cases hnone
  · rw [CallRecord.args_singleton rfl]
    exact Asked.Ended.last_self hnew.gathered args.val

theorem step_of_none (hn : s.calls[n]? = none) :
    (∀ args, s.step checks (.continueCall n args) = s) ∧ s.step checks (.endCall n) = s := by
  simp [Link.step, onCall, hn]

/-- What is done to a call that has been made. -/
theorem onCall_eq {α : Type} {op : CallRecord w → Op (Error w) (Site w) α} {record : α → CallRecord w → CallRecord w}
    {a : α} {caller : Site w} (hn : s.calls[n]? = some r) (hr : (op r).run s.caller = .ok a caller) :
    s.onCall n op record = { s with caller, calls := s.calls.modify n (record a) } := by
  rw [onCall, hn]
  simp only [hr]

theorem continueCall_eq (h : s.Exchanges y results registered max v u) (hn : s.calls[n]? = some r)
    (hargs : args.val ≠ []) :
    s.step checks (.continueCall n args) = { s with
      caller := s.caller.queued (.call r.procedureIdx r.callIdx .none args)
      calls := s.calls.modify n fun r => { r with pieces := r.pieces ++ [args] } } := by
  show s.onCall n _ _ = _
  exact onCall_eq hn (Site.continueGivenCallWithBytes_run h.asks.counted.canCall hargs)

theorem continueCall (h : s.Exchanges y results registered max v u) (hn : s.calls[n]? = some r)
    (ha : s.Proper registered max (.continueCall n args)) :
    (s.step checks (.continueCall n args)).Exchanges y results registered max v (u.more r.pair args.val) := by
  have hr := List.mem_of_getElem? hn
  have hnone := ha.2 r hn
  have hopen := (h.asks.told r hr).opened hnone
  rw [h.continueCall_eq hn ha.1]
  refine ⟨h.hears, h.pipe.send (h.asks.legal_of_open hr hnone .none args), ?_, h.yields⟩
  refine h.asks.changes hn (fun _ => rfl) (fun _ hnone => hnone) ?_ ⟨fun _ => ?_, fun hne => absurd hnone hne⟩
    (fun r' hr' hne => (h.asks.told r' hr').more_ne hne _) (fun k hk hun => hun.more_ne hk _) h.asks.pairs
  · exact h.asks.counted.congr ⟨h.asks.counted.canCall.running, h.asks.counted.canCall.hostStyle⟩ rfl rfl
  · rw [CallRecord.args_concat rfl]
    exact Asked.Open.more_self hopen.gathered hopen.notMem_pairs args.val

theorem endCall_eq (checks : Bool) (hq : s.Relays x q said) (hn : s.calls[n]? = some r) (hnone : r.handle = none) :
    ∃ g, s.step checks (.endCall n) = { s with
      caller := (s.caller.queued (.call r.procedureIdx r.callIdx .complete .empty)).handled g.responseIdx g.completeLock
      calls := s.calls.modify n fun r => { r with handle := some g } } := by
  obtain ⟨g, hr, -⟩ := hq.expects.ends hn hnone
  refine ⟨g, ?_⟩
  show s.onCall n _ _ = _
  exact onCall_eq hn hr

theorem endCall (h : s.Exchanges y results registered max v u) (hq : s.Relays x q said) (hn : s.calls[n]? = some r)
    (hnone : r.handle = none) :
    (s.step checks (.endCall n)).Exchanges y results registered max v (u.last r.pair []) := by
  have hr := List.mem_of_getElem? hn
  have hopen := (h.asks.told r hr).opened hnone
  obtain ⟨g, heq⟩ := endCall_eq checks hq hn hnone
  rw [heq]
  refine ⟨h.hears, h.pipe.send (h.asks.legal_of_open hr hnone .complete .empty), ?_, h.yields⟩
  refine h.asks.changes hn (fun _ => rfl) (fun _ hnone => by cases hnone) ?_ ⟨fun hnone => ?_, fun _ => ?_⟩
    (fun r' hr' hne => (h.asks.told r' hr').last_ne hne _) (fun k hk hun => hun.last_ne hk _)
    (h.asks.pairs_last hopen.notMem_pairs _)
  · exact h.asks.counted.congr ⟨h.asks.counted.canCall.running, h.asks.counted.canCall.hostStyle⟩ rfl rfl
  · cases hnone
  · have hended := Asked.Ended.last_self hopen.gathered []
    rwa [List.append_nil] at hended

theorem waitBytes_eq (s : Link w) (n : Nat) (checks : Bool) :
    ∃ caller, (∃ idle, caller.wire = { s.caller.wire with idleCallHandles := idle }) ∧
      (s.step checks (.waitBytes n) = { s with caller } ∨ ∃ r chunks, s.calls[n]? = some r ∧
        s.step checks (.waitBytes n) =
          { s with caller, calls := s.calls.modify n fun r => { r with result := some chunks } }) := by
  simp only [step]
  split
  · rename_i g hheld
    obtain ⟨r, hn, hheld⟩ := Option.bind_eq_some_iff.1 hheld
    rcases g.waitBytes_cases s.caller with ⟨m, -, hr⟩ | ⟨e, t', hr, ⟨locks, rfl⟩, -⟩
    · refine ⟨_, ?_, .inr ⟨r, m.chunks, hn, onCall_eq hn hr⟩⟩
      exact ⟨_, rfl⟩
    · refine ⟨{ s.caller with interface := s.caller.interface.withCreationLocks locks }, ⟨_, rfl⟩, .inl ?_⟩
      rw [onCall, hn]
      simp only [hr]
  · exact ⟨s.caller, ⟨_, rfl⟩, .inl rfl⟩

theorem waitBytes (h : s.Exchanges y results registered max v u) (n : Nat) :
    (s.step checks (.waitBytes n)).Exchanges y results registered max v u := by
  obtain ⟨caller, ⟨idle, hwire⟩, hstep⟩ := waitBytes_eq s n checks
  have hcounted : caller.Counted (callsTo s.calls) := by
    refine h.asks.counted.congr ⟨?_, ?_⟩ ?_ ?_ <;> rw [hwire]
    · exact h.asks.counted.canCall.running
    · exact h.asks.counted.canCall.hostStyle
  have hpipe : Pipe Asked.recv (Asked.Legal registered max) caller.wire.queue s.toPeer v u := by
    rw [hwire]
    exact h.pipe
  rcases hstep with heq | ⟨r, chunks, hn, heq⟩ <;> rw [heq]
  · exact ⟨h.hears, hpipe, h.asks.congr hcounted, h.yields⟩
  · have htold := h.asks.told r (List.mem_of_getElem? hn)
    refine ⟨h.hears, hpipe, ?_, h.yields⟩
    exact h.asks.changes hn (fun _ => rfl) (fun _ hnone => hnone) hcounted ⟨htold.opened, htold.ended⟩
      (fun r' hr' _ => h.asks.told r' hr') (fun _ _ hun => hun) h.asks.pairs

theorem signalCaller (h : s.Exchanges y results registered max v u) :
    (s.step checks .signalCaller).Exchanges y results registered max v u := by
  have hcan := h.asks.counted.canCall
  have hr : (Site.onWire Wire.signalEndOfInput).run s.caller = .ok () (s.caller.queued .endOfInput) := by
    simp [Site.onWire, Wire.signalEndOfInput, hcan.running, Site.queued]
  show ({ s with caller := ((Site.onWire Wire.signalEndOfInput).run s.caller).state } : Link w).Exchanges _ _ _ _ _ _
  rw [hr]
  have hlegal : Asked.Legal registered max u .endOfInput := trivial
  exact ⟨h.hears, h.pipe.send hlegal,
    h.asks.congr (h.asks.counted.congr ⟨hcan.running, hcan.hostStyle⟩ rfl rfl), h.yields⟩

theorem flushCaller (h : s.Exchanges y results registered max v u) :
    (s.step checks .flushCaller).Exchanges y results registered max v u := by
  have hcan := h.asks.counted.canCall
  show ({ s with caller := _, toPeer := _ } : Link w).Exchanges _ _ _ _ _ _
  rw [Wire.flushTo_run hcan.running]
  exact ⟨h.hears, h.pipe.flush, h.asks.congr (h.asks.counted.congr ⟨hcan.running, hcan.hostStyle⟩ rfl rfl), h.yields⟩

theorem fillCaller (h : s.Exchanges y results registered max v u) (hq : s.Relays x q said) (checks : Bool) :
    (s.step checks .fillCaller).Exchanges y results registered max v u := by
  by_cases hne : s.toCaller = []
  · rw [show s.step checks .fillCaller = s from if_pos hne]
    exact h
  · obtain ⟨m, rest, b, caller, -, hm, -, hr, -, heq⟩ := hq.fillCaller_eq hne checks
    rw [heq]
    cases m with
    | response p c t bytes =>
      -- a reply asks for no index
      have hstay : (s.caller.trafficStep checks (.response p c t bytes.val)).Counted (callsTo s.calls) :=
        h.asks.counted.stay rfl
      have hqueue := congrArg Wire.queue (Site.receiveResponse_answering p c t bytes.val s.caller).2
      have hstate : ((Site.receiveResponse p c t bytes.val).run s.caller).state = caller :=
        congrArg EStateM.Result.state hr
      rw [Site.trafficStep, show Site.receive (.response p c t bytes.val) = Site.receiveResponse
        p c t bytes.val from rfl, hstate] at hstay
      rw [hstate] at hqueue
      refine ⟨h.hears, ?_, h.asks.congr hstay, h.yields⟩
      show Pipe _ _ caller.wire.queue _ _ _
      rw [show caller.wire.queue = s.caller.wire.queue from hqueue]
      exact h.pipe
    | endOfInput =>
      cases hr
      exact ⟨h.hears, h.pipe, h.asks, h.yields⟩
    | call => cases hm
    | termination => cases hm

/-! ### Steps of the peer -/

theorem signalPeer (h : s.Exchanges y results registered max v u) :
    (s.step checks .signalPeer).Exchanges y results registered max v u := by
  have hr : (Site.onWire Wire.signalEndOfInput).run s.peer = .ok () (s.peer.queued .endOfInput) := by
    simp [Site.onWire, Wire.signalEndOfInput, h.hears.running, Site.queued]
  show ({ s with peer := ((Site.onWire Wire.signalEndOfInput).run s.peer).state } : Link w).Exchanges _ _ _ _ _ _
  rw [hr]
  exact ⟨h.hears.congr rfl rfl, h.pipe, h.asks, h.yields⟩

theorem flushPeer (h : s.Exchanges y results registered max v u) :
    (s.step checks .flushPeer).Exchanges y results registered max v u := by
  show ({ s with peer := _, toCaller := _ } : Link w).Exchanges _ _ _ _ _ _
  rw [Wire.flushTo_run h.hears.running]
  exact ⟨h.hears.congr rfl rfl, h.pipe, h.asks, h.yields⟩

theorem not_streaming (h : s.Exchanges y results registered max v u) {e : Nat} {ex : Execution w}
    (hex : s.peer.wire.executions[e]? = some ex) : ex.streaming = false :=
  h.hears.plain { ex with finished := false } (List.mem_map.2 ⟨ex, List.mem_of_getElem? hex, rfl⟩)

/-- Executions of the peer have nothing to yield. -/
theorem yield_eq (h : s.Exchanges y results registered max v u) (e : Nat) (bytes : Payload) (t : Terminator) :
    s.step checks (.yield e bytes t) = s := by
  simp only [step]
  split
  · rename_i p c args f hex
    cases h.not_streaming hex
  · rfl

/-- The peer reads a piece or the end of a call. -/
theorem fillPeer_eq (h : s.Exchanges y results registered max v u) (hne : s.toPeer ≠ [])
    (ha : s.Proper registered max .fillPeer) (checks : Bool) :
    ∃ m rest peer, s.toPeer = m.toBytes ++ rest ∧ s.step checks .fillPeer = { s with peer, toPeer := rest } ∧
      (s.step checks .fillPeer).Exchanges y results registered max (v.recv m) u := by
  obtain ⟨m, rest, hbytes, hm, hpipe⟩ := h.pipe.receive hne
  have hresponse : ∀ p c t b, m ≠ .response p c t b := by
    rintro p c t b rfl
    cases hm
  obtain ⟨b, peer, hr, hhears⟩ := h.hears.receives (ha.roomFor h.hears.running hresponse hbytes) hm
  have heq : s.step checks .fillPeer = { s with peer, toPeer := rest } := by
    show (if s.toPeer = [] then s else _ : Link w) = _
    rw [if_neg hne, hbytes, Receiver.fillStep_message s.peer m rest h.hears.running fun _ => hresponse, hr]
    rfl
  refine ⟨m, rest, peer, hbytes, heq, ?_⟩
  rw [heq]
  exact ⟨hhears, hpipe, h.asks, h.yields⟩

theorem fillPeer (h : s.Exchanges y results registered max v u)
    (ha : s.Proper registered max .fillPeer) (checks : Bool) :
    ∃ v', (s.step checks .fillPeer).Exchanges y results registered max v' u := by
  by_cases hne : s.toPeer = []
  · refine ⟨v, ?_⟩
    rw [show s.step checks .fillPeer = s from if_pos hne]
    exact h
  · obtain ⟨m, -, -, -, -, h'⟩ := h.fillPeer_eq hne ha checks
    exact ⟨_, h'⟩

/-! ### Runs -/

/-- The peer has executed calls that have ended, in the order in which they have ended. -/
theorem executed_prefix (h : s.Exchanges y results registered max v u) : s.peer.wire.executed <+: u.ended := by
  rw [h.hears.executed]
  exact h.pipe.within (R := Asked.Before) fun v m _ => Asked.before_recv v m

theorem pairs_of_executed (h : s.Exchanges y results registered max v u) {k : ProcedureIndex w × CallIndex w}
    (hk : k ∈ s.executed) : k ∈ u.pairs := (h.executed_prefix.map Prod.fst).subset hk

theorem called_of_pairs (h : s.Exchanges y results registered max v u) {k : ProcedureIndex w × CallIndex w}
    (hk : k ∈ u.pairs) : s.Called k := by
  obtain ⟨r, hr, rfl, hne⟩ := h.asks.exists_of_mem_pairs hk
  exact ⟨r, hr, rfl, hne⟩

/-- No call is executed twice. -/
theorem executed_nodup (h : s.Exchanges y results registered max v u) : s.executed.Nodup :=
  (h.executed_prefix.map Prod.fst).sublist.nodup h.asks.pairs

/-- A procedure of the peer replies once. -/
theorem firstReplies_eq (h : s.Exchanges y results registered max v u) {k : ProcedureIndex w × CallIndex w}
    (hk : s.Called k) (args : List UInt8) : s.firstReplies k args = [(results k.1 args, .complete)] := by
  obtain ⟨r, hr, rfl, -⟩ := hk
  rw [firstReplies, h.hears.procedures r.pair.1 (h.asks.registered r hr)]
  rfl

/-- In such a run nobody answers out of turn. -/
theorem orderly (h : s.Exchanges y results registered max v u) {a : LinkAction w} (ha : s.Proper registered max a) :
    s.Orderly checks a := by
  have hnew : ∀ p, s.Allows registered max p → s.caller.interface.messages.size < 2 ^ w.bits ∧
      (p, s.caller.nextIdx p) ∉ s.calls.map CallRecord.pair ∧ (p, s.caller.nextIdx p) ∉ s.executed := by
    intro p hp
    have hunused := h.asks.unused hp.indices
    exact ⟨hp.room, hunused, fun hk => (h.asks.unheard _ hunused).notMem_pairs (h.pairs_of_executed hk)⟩
  cases a with
  | startCall p args => exact hnew p ha.2
  | callWithBytes p args => exact hnew p ha
  | continueCall n args => exact ha.2
  | endCall n => exact ha
  | yield e bytes t =>
    intro ex hex hstream
    cases hstream.symm.trans (h.not_streaming hex)
  | fillPeer =>
    -- what is executed in the step has been told by the caller, once
    obtain ⟨v', h'⟩ := h.fillPeer ha checks
    intro k args hexec
    have hkeys : (s.step checks .fillPeer).executed = s.executed ++ [k] := by
      rw [executed, hexec, List.map_append]
      rfl
    have hnodup := h'.executed_nodup
    have hcalled : s.Called k := by
      refine h.called_of_pairs (h'.pairs_of_executed ?_)
      rw [hkeys]
      exact List.mem_append_right _ (List.mem_singleton_self k)
    rw [hkeys, List.nodup_append] at hnodup
    refine ⟨hcalled, fun hk => hnodup.2.2 k hk k (List.mem_singleton_self k) rfl, ?_⟩
    rw [h.firstReplies_eq hcalled]
    intro y hy
    cases hy
  | waitBytes n => trivial
  | signalCaller => trivial
  | flushCaller => trivial
  | fillCaller => trivial
  | signalPeer => trivial
  | flushPeer => trivial

theorem step (h : s.Exchanges y results registered max v u) (hq : s.Relays x q said) {a : LinkAction w}
    (ha : s.Proper registered max a) : ∃ v' u', (s.step checks a).Exchanges y results registered max v' u' := by
  cases a with
  | startCall p args => exact ⟨_, _, h.startCall ha⟩
  | callWithBytes p args => exact ⟨_, _, h.callWithBytes ha⟩
  | continueCall n args =>
    cases hn : s.calls[n]? with
    | none => exact ⟨v, u, ((step_of_none hn).1 args).symm ▸ h⟩
    | some r => exact ⟨_, _, h.continueCall hn ha⟩
  | endCall n =>
    cases hn : s.calls[n]? with
    | none => exact ⟨v, u, (step_of_none hn).2.symm ▸ h⟩
    | some r => exact ⟨_, _, h.endCall hq hn (ha r hn)⟩
  | waitBytes n => exact ⟨v, u, h.waitBytes n⟩
  | signalCaller => exact ⟨v, u, h.signalCaller⟩
  | flushCaller => exact ⟨v, u, h.flushCaller⟩
  | fillCaller => exact ⟨v, u, h.fillCaller hq checks⟩
  | yield e bytes t => exact ⟨v, u, (h.yield_eq e bytes t).symm ▸ h⟩
  | signalPeer => exact ⟨v, u, h.signalPeer⟩
  | flushPeer => exact ⟨v, u, h.flushPeer⟩
  | fillPeer =>
    obtain ⟨v', h'⟩ := h.fillPeer ha checks
    exact ⟨v', u, h'⟩

/-- What is issued is done: nothing else changes the calls but their results. -/
theorem issues (h : s.Exchanges y results registered max v u) (hq : s.Relays x q said) {a : LinkAction w}
    (ha : s.Proper registered max a) :
    (s.step checks a).calls.map CallRecord.issued = a.issue (s.calls.map CallRecord.issued) := by
  cases a with
  | startCall p args =>
    rw [h.startCall_eq ha, List.map_append]
    rfl
  | callWithBytes p args =>
    rw [h.callWithBytes_eq ha, List.map_append]
    rfl
  | continueCall n args =>
    cases hn : s.calls[n]? with
    | none =>
      rw [(step_of_none hn).1, LinkAction.issue, List.modify_eq_self]
      simpa using hn
    | some r =>
      rw [h.continueCall_eq hn ha.1]
      show (s.calls.modify n _).map _ = (s.calls.map _).modify n _
      refine CallRecord.map_modify _ _ ?_ s.calls n
      exact fun _ => rfl
  | endCall n =>
    cases hn : s.calls[n]? with
    | none =>
      rw [(step_of_none hn).2, LinkAction.issue, List.modify_eq_self]
      simpa using hn
    | some r =>
      obtain ⟨g, heq⟩ := endCall_eq checks hq hn (ha r hn)
      rw [heq]
      show (s.calls.modify n _).map _ = (s.calls.map _).modify n _
      refine CallRecord.map_modify _ _ ?_ s.calls n
      exact fun _ => rfl
  -- waiting changes the result of a call only
  | waitBytes n =>
    obtain ⟨caller, -, hstep⟩ := waitBytes_eq s n checks
    rcases hstep with heq | ⟨r, chunks, -, heq⟩ <;> rw [heq]
    · rfl
    · show (s.calls.modify n _).map _ = s.calls.map _
      rw [CallRecord.map_modify _ id ?_ s.calls n, List.modify_id]
      exact fun _ => rfl
  | fillCaller =>
    by_cases hne : s.toCaller = []
    · rw [show s.step checks .fillCaller = s from if_pos hne]
      rfl
    · obtain ⟨m, rest, b, caller, -, -, -, -, -, heq⟩ := hq.fillCaller_eq hne checks
      rw [heq]
      rfl
  | yield e bytes t =>
    rw [h.yield_eq]
    rfl
  | fillPeer =>
    by_cases hne : s.toPeer = []
    · rw [show s.step checks .fillPeer = s from if_pos hne]
      rfl
    · obtain ⟨m, rest, peer, -, heq, -⟩ := h.fillPeer_eq hne ha checks
      rw [heq]
      rfl
  | signalCaller => rfl
  | flushCaller => rfl
  | signalPeer => rfl
  | flushPeer => rfl

/-! ### What comes of the calls -/

/-- A call that has been executed has ended, and was executed on all its pieces. -/
theorem args_of_executed (h : s.Exchanges y results registered max v u) (hr : r ∈ s.calls) {args : List UInt8}
    (he : (r.pair, args) ∈ s.peer.wire.executed) : args = r.args := by
  have hmem := h.executed_prefix.subset he
  obtain ⟨r', hr', hpair, hne⟩ := h.asks.exists_of_mem_pairs (List.mem_map.2 ⟨_, hmem, rfl⟩)
  obtain rfl := List.inj_on_of_nodup_map h.asks.distinct hr' hr hpair
  have hended := ((h.asks.told r' hr).ended hne).mem_ended
  exact congrArg Prod.snd (List.inj_on_of_nodup_map h.asks.pairs hmem hended rfl)

theorem argsOf_prefix (h : s.Exchanges y results registered max v u) (hr : r ∈ s.calls) :
    s.peer.wire.argsOf r.pair <+: [r.args] := by
  by_cases hmem : r.pair ∈ s.executed
  · obtain ⟨ex, hex, hpair⟩ := List.mem_map.1 hmem
    replace hex : (r.pair, ex.2) ∈ s.peer.wire.executed := hpair ▸ hex
    rw [Wire.argsOf_eq_singleton h.executed_nodup hex, h.args_of_executed hr hex]
  · rw [Wire.argsOf_eq_nil hmem]
    exact List.nil_prefix

/-- An execution replies with the result of its procedure. -/
theorem repliesOf_eq (h : s.Exchanges y results registered max v u) (hr : r ∈ s.calls) {e : Nat} {args : List UInt8}
    (he : s.peer.wire.executed[e]? = some (r.pair, args)) :
    s.repliesOf e = [(results r.procedureIdx r.args, .complete)] := by
  have hmem := List.mem_of_getElem? he
  have hcalled := h.called_of_pairs (h.pairs_of_executed (List.mem_map.2 ⟨_, hmem, rfl⟩))
  rw [Link.repliesOf_eq he, h.firstReplies_eq hcalled, h.yields, h.args_of_executed hr hmem]
  rfl

/-- Once the peer has read all that the caller has said, the calls that have ended have been executed. -/
theorem executed_of_read (h : s.Exchanges y results registered max v u) (hqueue : s.caller.wire.queue = [])
    (htoPeer : s.toPeer = []) (hr : r ∈ s.calls) (hne : r.handle ≠ none) :
    (r.pair, r.args) ∈ s.peer.wire.executed := by
  have hpipe := h.pipe
  rw [hqueue, htoPeer] at hpipe
  rw [h.hears.executed, hpipe.eq_of_nil]
  exact ((h.asks.told r hr).ended hne).mem_ended

end Exchanges

section

variable {caller peer : Interface w} {id id' : WireId w} {moduleStyle : Bool} {max max' : IpfiInteger w}

theorem connect_hears (hpeer : Site.InCustody ⟨peer, .new id' moduleStyle max'⟩ y)
    (hkeys : ∀ p c, peer.callToBufferMap.lookup (p, c, id') = none)
    (hregistered : ∀ p, registered p → peer.procedures.lookup p = some (.standard fun args => .ok (results p args))) :
    Site.Hears ⟨peer, .new id' moduleStyle max'⟩ y results registered max'.toNat .none where
  custody := hpeer
  running := rfl
  limit := rfl
  procedures := hregistered
  executed := rfl
  ongoing k hk := absurd hk (AList.notMem_empty k)
  plain e he := by cases he
  accepts k hk _ := Site.accepts_nil (hregistered k.1 hk) (hkeys k.1 k.2)

theorem connect_asks (caller : Interface w) (id : WireId w) (max : IpfiInteger w) (limit : Nat) :
    Site.Asks ⟨caller, .new id false max⟩ [] registered limit .none where
  counted := Site.new_counted caller id max
  distinct := .nil
  indices r hr := by cases hr
  registered r hr := by cases hr
  told r hr := by cases hr
  unheard k _ := ⟨rfl, Finset.notMem_empty k, fun hk => by cases hk⟩
  pairs := .nil
  limit := Nat.zero_le limit

theorem connect_outstanding (hcaller : Site.InCustody ⟨caller, .new id false max⟩ x) :
    (connect caller peer id id' moduleStyle max max').Outstanding x where
  custody := hcaller
  canCall := ⟨rfl, rfl⟩
  distinct := .nil
  fresh r hr := by cases hr
  unexecuted r hr := by cases hr
  queue := rfl
  toCaller := rfl
  yields := rfl

/-- Two new wires, on interfaces whose buffers are in order, exchange calls within the limits: every call that is
issued is made.  Its procedure is called on all its pieces once these have been read, and never again; its handle
returns what the procedure has made of them once that has been read too.  Reading goes on for as long as there is
anything to be read. -/
theorem calls_executed_once (hcaller : Site.InCustody ⟨caller, .new id false max⟩ x)
    (hpeer : Site.InCustody ⟨peer, .new id' moduleStyle max'⟩ y)
    (hkeys : ∀ p c, peer.callToBufferMap.lookup (p, c, id') = none)
    (hregistered : ∀ p, registered p → peer.procedures.lookup p = some (.standard fun args => .ok (results p args)))
    (hs : Reaches (step checks) (Proper registered max'.toNat) (connect caller peer id id' moduleStyle max max') s) :
    (∀ a, s.Proper registered max'.toNat a →
      (s.step checks a).calls.map CallRecord.issued = a.issue (s.calls.map CallRecord.issued)) ∧
    (s.calls.map CallRecord.pair).Nodup ∧
    (∀ r ∈ s.calls, s.peer.wire.argsOf r.pair <+: [r.args] ∧
      ∀ chunks, r.result = some chunks → chunks = [(results r.procedureIdx r.args).val]) ∧
    (s.caller.wire.queue = [] → s.toPeer = [] → ∀ r ∈ s.calls, r.handle ≠ none →
      s.peer.wire.argsOf r.pair = [r.args] ∧ (s.peer.wire.queue = [] → s.toCaller = [] → ∀ h, r.held = some h →
        ∃ t, h.waitBytes.run s.caller = .ok [(results r.procedureIdx r.args).val] t)) ∧
    (s.Proper registered max'.toNat .fillPeer → s.toPeer ≠ [] →
      (s.step checks .fillPeer).toPeer.length < s.toPeer.length) ∧
    (s.toCaller ≠ [] → (s.step checks .fillCaller).toCaller.length < s.toCaller.length) := by
  obtain ⟨⟨q, said, hq⟩, v, u, h⟩ : (∃ q said, s.Relays x q said) ∧
      ∃ v u, s.Exchanges y results registered max'.toNat v u := by
    -- the two invariants need each other: replies are in turn because of the calls, and calls end on awaited responses
    refine hs.invariant (I := fun s => (∃ q said, s.Relays x q said) ∧
      ∃ v u, s.Exchanges y results registered max'.toNat v u) ⟨⟨_, _, (connect_outstanding hcaller).relays⟩, _, _,
        connect_hears hpeer hkeys hregistered, .empty _, connect_asks caller id max _, rfl⟩ ?_
    rintro s a ⟨⟨q, said, hq⟩, v, u, h⟩ ha
    exact ⟨hq.step (h.orderly ha), h.step hq ha⟩
  refine ⟨fun a ha => h.issues hq ha, h.asks.distinct, fun r hr => ⟨h.argsOf_prefix hr, fun chunks hc => ?_⟩,
    fun hqueue htoPeer r hr hne => ⟨?_, fun hqueue' htoCaller g hg => ?_⟩, fun ha hne => ?_, fun hne => ?_⟩
  · obtain ⟨e, args, he, -, rfl⟩ := hq.result_eq hr hc
    rw [h.repliesOf_eq hr he]
    rfl
  · exact Wire.argsOf_eq_singleton h.executed_nodup (h.executed_of_read hqueue htoPeer hr hne)
  · obtain ⟨e, he⟩ := List.mem_iff_getElem?.1 (h.executed_of_read hqueue htoPeer hr hne)
    have hreplies := h.repliesOf_eq hr he
    have hwait := hq.waitBytes_eq hqueue' htoCaller hr hg he
    rw [hreplies] at hwait
    exact hwait ⟨[], _, rfl, by simp⟩
  · obtain ⟨m, rest, peer', hbytes, heq, -⟩ := h.fillPeer_eq hne ha checks
    rw [heq, hbytes, List.length_append]
    exact Nat.lt_add_of_pos_left (List.length_pos_of_ne_nil (Message.toBytes_ne_nil m))
  · obtain ⟨m, rest, b, caller', hbytes, -, -, -, -, heq⟩ := hq.fillCaller_eq hne checks
    rw [heq, hbytes, List.length_append]
    exact Nat.lt_add_of_pos_left (List.length_pos_of_ne_nil (Message.toBytes_ne_nil m))

end

/-- The first bytes of the arguments. -/
private def firstBytes (_ : ProcedureIndex .u32) (args : List UInt8) : Payload :=
  ⟨args.take 4, (List.length_take_le 4 args).trans (by decide)⟩

private def firstBytesPeer : Interface .u32 :=
  Interface.new.addProcedure ⟨2⟩ (.standard fun args => .ok (firstBytes ⟨2⟩ args))

/-- Two calls whose pieces alternate. -/
private def alternating : List (LinkAction .u32) :=
  [.startCall ⟨2⟩ ⟨[61], by decide⟩, .startCall ⟨2⟩ ⟨[62], by decide⟩, .continueCall 0 ⟨[63], by decide⟩,
    .flushCaller, .fillPeer, .fillPeer, .fillPeer, .endCall 1, .endCall 0, .flushCaller, .fillPeer,
    .fillPeer, .flushPeer, .fillCaller, .fillCaller]

private def alternated : Link .u32 := alternating.foldl (step true) (connect .new firstBytesPeer ⟨0⟩ ⟨0⟩ false 2 2)

theorem open_of_all {s : Link w} (h : (s.calls[n]?).all fun r => r.handle.isNone) :
    ∀ r, s.calls[n]? = some r → r.handle = none := by
  intro r hr
  simpa [hr] using h

private theorem alternated_reaches :
    Reaches (step true) (Proper (· = ⟨2⟩) 2) (connect .new firstBytesPeer ⟨0⟩ ⟨0⟩ false 2 2) alternated := by
  unfold alternated alternating
  simp only [List.foldl_cons, List.foldl_nil]
  refine .next (.next (.next (.next (.next (.next (.next (.next (.next (.next (.next (.next (.next (.next (.next .start
    ?_) ?_) ?_) ?_) ?_) ?_) ?_) ?_) ?_) ?_) ?_) ?_) ?_) ?_) ?_
  · exact ⟨by decide, rfl, by decide +kernel, by decide +kernel, by decide +kernel⟩
  · exact ⟨by decide, rfl, by decide +kernel, by decide +kernel, by decide +kernel⟩
  · exact ⟨by decide, open_of_all (by decide +kernel)⟩
  · trivial
  · exact .of_lt (by decide +kernel)
  · exact .of_lt (by decide +kernel)
  · exact .of_lt (by decide +kernel)
  · exact open_of_all (by decide +kernel)
  · exact open_of_all (by decide +kernel)
  · trivial
  · exact .of_lt (by decide +kernel)
  · exact .of_lt (by decide +kernel)
  all_goals trivial

private def firstHandle : CallHandle .u32 := (alternated.calls[0]?.bind CallRecord.held).get (by decide +kernel)

theorem calls_executed_once_alternated : ∃ t, firstHandle.waitBytes.run alternated.caller = .ok [[61, 63]] t := by
  have hpeer : firstBytesPeer.WellFormed :=
    Interface.new_wellFormed.congr rfl rfl (Nat.le_refl _) (Nat.le_refl _) fun _ h => h
  have hregistered : ∀ p, p = ⟨2⟩ →
      firstBytesPeer.procedures.lookup p = some (.standard fun args => .ok (firstBytes p args)) := by
    rintro p rfl
    rfl
  obtain ⟨-, -, -, hall, -⟩ := calls_executed_once (Site.new_inCustody Interface.new_wellFormed rfl ⟨0⟩ false 2)
    (Site.new_inCustody hpeer rfl ⟨0⟩ false 2) (fun _ _ => rfl) hregistered alternated_reaches
  have hsome : (alternated.calls[0]?.bind CallRecord.held) = some firstHandle := (Option.some_get _).symm
  obtain ⟨r, hr, hheld⟩ := Option.bind_eq_some_iff.1 hsome
  have hargs : alternated.calls[0]?.map (fun r => (r.procedureIdx, r.args)) = some (⟨2⟩, [61, 63]) := by decide +kernel
  rw [hr, Option.map_some, Option.some_inj] at hargs
  obtain ⟨hp, ha⟩ := Prod.mk.inj hargs
  have hne : r.handle ≠ .none := by
    rw [(CallRecord.held_eq_some.1 hheld).2]
    exact Option.some_ne_none _
  have hown := (hall (by decide +kernel) (by decide +kernel) r (List.mem_of_getElem? hr) hne).2 (by decide +kernel)
    (by decide +kernel) firstHandle hheld
  rw [ha] at hown
  exact hown

end Link

end Ipfi
