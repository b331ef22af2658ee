import Ipfi.Attending
import Ipfi.Exchanges

/-!
# Calls of any procedures over a whole link

A caller that makes calls, whole or in pieces and in any order, to procedures of its peer that succeed: standard ones,
or streaming ones that yield whenever they like.  Every call makes its procedure be called on all its pieces, and its
handle returns what the execution has yielded.
-/

namespace Ipfi

variable {w : IntFeature}

open Site (chunksOf EndsInComplete)

namespace Link

variable {s s' : Link w} {x y : Surroundings w} {services : ProcedureIndex w → Procedure w}
  {registered : ProcedureIndex w → Prop} {max : Nat} {v u : Asked w} {q said : Replied w} {p : ProcedureIndex w}
  {args : Payload} {n : Nat} {r : CallRecord w} {checks : Bool}

/-! ### The calls of a run -/

/-- The number of calls that are not over, as far as the peer is concerned. -/
def live (s : Link w) : Nat := s.calls.countP fun r => !s.peer.wire.isDone r.pair

theorem live_eq (s : Link w) : s.live = (s.calls.map CallRecord.pair).countP fun k => !s.peer.wire.isDone k := by
  rw [live, List.countP_map]
  rfl

/-- One more call of the procedure stays within the limits. -/
structure Admits (s : Link w) (registered : ProcedureIndex w → Prop) (max : Nat) (p : ProcedureIndex w) : Prop where
  registered : registered p
  indices : callsTo s.calls p < 2 ^ w.bits
  limit : s.live < max
  room : s.caller.interface.messages.size < 2 ^ w.bits

/-- What the execution `e` of the call has replied: what its procedure has before its closure was over, and what it has
yielded since. -/
def answer (s : Link w) (services : ProcedureIndex w → Procedure w) (r : CallRecord w) (e : Nat) : List Site.Part :=
  partsOf ((services r.procedureIdx).replies r.args ++ (s.yields.filter fun y => decide (y.1 = e)).map Prod.snd)

/-- The pieces of calls are not empty and none is sent after the end of its call; the calls succeed and stay within the
limits, the buffers of both interfaces do so too, and no execution yields after the end of its response. -/
def Suitable (services : ProcedureIndex w → Procedure w) (registered : ProcedureIndex w → Prop) (max : Nat) (s : Link w)
    (a : LinkAction w) : Prop :=
  match a with
  | .startCall p args => args.val ≠ [] ∧ s.Admits registered max p
  | .callWithBytes p args => s.Admits registered max p ∧ (services p).Succeeds args.val
  | .continueCall n args => args.val ≠ [] ∧ ∀ r, s.calls[n]? = some r → r.handle = none
  | .endCall n => ∀ r, s.calls[n]? = some r → r.handle = none ∧ (services r.procedureIdx).Succeeds r.args
  | .yield e _ _ => ∀ y ∈ s.repliesOf e, y.2 ≠ .complete
  | .fillPeer => s.PeerHasRoom
  | _ => True

/-- What the peer has heard of the calls, and what the caller has told it. -/
structure Serves (s : Link w) (y : Surroundings w) (services : ProcedureIndex w → Procedure w)
    (registered : ProcedureIndex w → Prop) (max : Nat) (v u : Asked w) : Prop where
  attends : s.peer.Attends y services registered max v
  pipe : Pipe Asked.recv (Asked.Admissible services registered max s.peer.wire.isDone) s.caller.wire.queue s.toPeer v u
  asks : s.caller.Asks s.calls registered max u
  limit : s.live ≤ max

namespace Serves

/-- The peer has executed calls that have ended, in the order in which they have ended. -/
theorem executed_prefix (h : s.Serves y services registered max v u) : s.peer.wire.executed <+: u.ended := by
  rw [h.attends.executed]
  exact h.pipe.within (R := Asked.Before) fun v m _ => Asked.before_recv v m

theorem pairs_of_executed (h : s.Serves y services registered max v u) {k : ProcedureIndex w × CallIndex w}
    (hk : k ∈ s.executed) : k ∈ u.pairs := (h.executed_prefix.map Prod.fst).subset hk

/-- A call that has not been ended is not over. -/
theorem not_isDone (h : s.Serves y services registered max v u) (hr : r ∈ s.calls) (hnone : r.handle = none) :
    s.peer.wire.isDone r.pair = false := by
  rw [Wire.isDone_eq_false]
  exact fun hexec => absurd (h.pairs_of_executed hexec) ((h.asks.told r hr).opened hnone).notMem_pairs

theorem unfinished_le (h : s.Serves y services registered max v u) : unfinished s.calls ≤ s.live := by
  refine List.countP_mono_left fun r hr hnone => ?_
  rw [h.not_isDone hr (Option.isNone_iff_eq_none.1 hnone)]
  rfl

/-- The calls that the limit counts are calls that are not over. -/
theorem card_le (h : s.Serves y services registered max v u) :
    u.opened.card + u.pending s.peer.wire.isDone ≤ s.live := by
  have hopened : ∀ k ∈ u.opened, ∃ r ∈ s.calls, r.pair = k ∧ r.handle = none := by
    intro k hk
    have hmem : k ∈ s.calls.map CallRecord.pair := by
      by_contra hnot
      exact (h.asks.unheard k hnot).notMem_opened hk
    obtain ⟨r, hr, rfl⟩ := List.mem_map.1 hmem
    refine ⟨r, hr, rfl, ?_⟩
    by_contra hne
    exact ((h.asks.told r hr).ended hne).notMem_opened hk
  have hdisjoint : Disjoint u.opened (u.pairs.filter fun k => !s.peer.wire.isDone k).toFinset := by
    rw [Finset.disjoint_left]
    intro k hk hpair
    obtain ⟨r, hr, rfl, hnone⟩ := hopened k hk
    exact ((h.asks.told r hr).opened hnone).notMem_pairs (List.mem_filter.1 (List.mem_toFinset.1 hpair)).1
  have hsub : u.opened ∪ (u.pairs.filter fun k => !s.peer.wire.isDone k).toFinset ⊆
      ((s.calls.filter fun r => !s.peer.wire.isDone r.pair).map CallRecord.pair).toFinset := by
    intro k hk
    rw [List.mem_toFinset]
    rcases Finset.mem_union.1 hk with hk | hk
    · obtain ⟨r, hr, rfl, hnone⟩ := hopened k hk
      exact List.mem_map.2 ⟨r, List.mem_filter.2 ⟨hr, by rw [h.not_isDone hr hnone]; rfl⟩, rfl⟩
    · obtain ⟨hpair, hdone⟩ := List.mem_filter.1 (List.mem_toFinset.1 hk)
      obtain ⟨r, hr, rfl, -⟩ := h.asks.exists_of_mem_pairs hpair
      exact List.mem_map.2 ⟨r, List.mem_filter.2 ⟨hr, hdone⟩, rfl⟩
  have hle := (Finset.card_le_card hsub).trans (List.toFinset_card_le _)
  rw [Finset.card_union_of_disjoint hdisjoint, List.toFinset_card_of_nodup (h.asks.pairs.filter _), List.length_map,
    ← List.countP_eq_length_filter, ← List.countP_eq_length_filter] at hle
  exact hle

/-- A piece of a call that has not been ended may be sent. -/
theorem admissible_of_open (h : s.Serves y services registered max v u) (hr : r ∈ s.calls) (hnone : r.handle = none)
    (tm : Terminator) (bytes : Payload)
    (hok : tm = .complete → (services r.procedureIdx).Succeeds (r.args ++ bytes.val)) :
    Asked.Admissible services registered max s.peer.wire.isDone u (.call r.procedureIdx r.callIdx tm bytes) := by
  have hopen := (h.asks.told r hr).opened hnone
  have hinsert : insert (r.procedureIdx, r.callIdx) u.opened = u.opened := Finset.insert_eq_of_mem hopen.mem_opened
  have hgathered : u.gathered (r.procedureIdx, r.callIdx) = r.args := hopen.gathered
  refine ⟨h.asks.registered r hr, hopen.notMem_pairs, ?_, ?_⟩
  · rw [hinsert]
    exact h.card_le.trans h.limit
  · rw [hgathered]
    exact hok

/-- So may be the first piece of a new one. -/
theorem admissible_of_new (h : s.Serves y services registered max v u) (ha : s.Admits registered max p)
    (tm : Terminator) (bytes : Payload) (hok : tm = .complete → (services p).Succeeds bytes.val) :
    Asked.Admissible services registered max s.peer.wire.isDone u (.call p (s.caller.nextIdx p) tm bytes) := by
  have hnew := h.asks.unheard _ (h.asks.unused ha.indices)
  refine ⟨ha.registered, hnew.notMem_pairs, ?_, ?_⟩
  · have hle := Finset.card_insert_le (p, s.caller.nextIdx p) u.opened
    have hcard := h.card_le
    have hlt := ha.limit
    omega
  · rw [hnew.gathered]
    exact hok

theorem unfinished_lt (h : s.Serves y services registered max v u) (ha : s.Admits registered max p) :
    unfinished s.calls < max := Nat.lt_of_le_of_lt h.unfinished_le ha.limit

/-- A new call is not over. -/
theorem live_concat (ha : s.Admits registered max p) {caller : Site w} (r : CallRecord w) :
    Link.live { s with caller, calls := s.calls ++ [r] } ≤ max := by
  have hlt : s.live + 1 ≤ max := ha.limit
  refine Nat.le_trans ?_ hlt
  rw [Link.live, List.countP_append, List.countP_singleton]
  refine Nat.add_le_add_left ?_ _
  split <;> omega

theorem live_modify (h : s.Serves y services registered max v u) {caller : Site w} {n : Nat}
    {f : CallRecord w → CallRecord w} (hf : ∀ r, (f r).pair = r.pair) :
    Link.live { s with caller, calls := s.calls.modify n f } ≤ max := by
  rw [live_eq, CallRecord.map_pair_modify hf]
  exact (live_eq s).symm.trans_le h.limit

/-! ### Steps of the caller -/

theorem startCall_eq (h : s.Serves y services registered max v u)
    (ha : s.Suitable services registered max (.startCall p args)) :
    s.step checks (.startCall p args) = { s with
      caller := s.caller.started p args
      calls := s.calls ++ [⟨p, s.caller.nextIdx p, [args], none, none⟩] } := by
  have hr := Site.startCallWithPartialBytes_run h.asks.counted.canCall ha.1
    (h.asks.counted.allocateCall_run ha.2.indices checks)
  show s.newCall _ _ = _
  rw [newCall, hr]

theorem startCall (h : s.Serves y services registered max v u)
    (ha : s.Suitable services registered max (.startCall p args)) :
    (s.step checks (.startCall p args)).Serves y services registered max v
      (u.more (p, s.caller.nextIdx p) args.val) := by
  rw [h.startCall_eq ha]
  obtain ⟨hargs, hadmits⟩ := ha
  refine ⟨h.attends, h.pipe.send (h.admissible_of_new hadmits .none args (by simp)), ?_,
    live_concat hadmits _⟩
  have hnew := h.asks.unheard _ (h.asks.unused hadmits.indices)
  refine h.asks.adds hadmits.indices hadmits.registered rfl ?_ (h.unfinished_lt hadmits)
    ⟨fun _ => ?_, fun hne => absurd rfl hne⟩ (fun r' hr' hne => (h.asks.told r' hr').more_ne hne _)
    (fun k hk hun => hun.more_ne hk _) h.asks.pairs
  · exact h.asks.counted.allotted hadmits.indices
      ⟨h.asks.counted.canCall.running, h.asks.counted.canCall.hostStyle⟩ rfl rfl
  · rw [CallRecord.args_singleton rfl]
    exact Asked.Open.more_self hnew.gathered hnew.notMem_pairs args.val

theorem callWithBytes_eq (h : s.Serves y services registered max v u)
    (ha : s.Suitable services registered max (.callWithBytes p args)) :
    s.step checks (.callWithBytes p args) = { s with
      caller := s.caller.called p args
      calls := s.calls ++
        [⟨p, s.caller.nextIdx p, [args], some ⟨s.caller.interface.push.1, s.caller.interface.lockCount⟩, none⟩] } := by
  have hr := Site.callWithBytes_run h.asks.counted.canCall (h.asks.counted.allocateCall_run ha.1.indices checks) args
  show s.newCall _ _ = _
  rw [newCall, hr]

theorem callWithBytes (h : s.Serves y services registered max v u)
    (ha : s.Suitable services registered max (.callWithBytes p args)) :
    (s.step checks (.callWithBytes p args)).Serves y services registered max v
      (u.last (p, s.caller.nextIdx p) args.val) := by
  rw [h.callWithBytes_eq ha]
  obtain ⟨hadmits, hok⟩ := ha
  refine ⟨h.attends, h.pipe.send (h.admissible_of_new hadmits .complete args fun _ => hok), ?_,
    live_concat hadmits _⟩
  have hnew := h.asks.unheard _ (h.asks.unused hadmits.indices)
  refine h.asks.adds hadmits.indices hadmits.registered rfl ?_ (h.unfinished_lt hadmits)
    ⟨fun hnone => ?_, fun _ => ?_⟩ (fun r' hr' hne => (h.asks.told r' hr').last_ne hne _)
    (fun k hk hun => hun.last_ne hk _) (h.asks.pairs_last hnew.notMem_pairs _)
  · exact h.asks.counted.allotted hadmits.indices
      ⟨h.asks.counted.canCall.running, h.asks.counted.canCall.hostStyle⟩ rfl rfl
  · cases hnone
  · rw [CallRecord.args_singleton rfl]
    exact Asked.Ended.last_self hnew.gathered args.val

theorem continueCall_eq (h : s.Serves y services registered max v u) (hn : s.calls[n]? = some r)
    (hargs : args.val ≠ []) :
    s.step checks (.continueCall n args) = { s with
      caller := s.caller.queued (.call r.procedureIdx r.callIdx .none args)
      calls := s.calls.modify n fun r => { r with pieces := r.pieces ++ [args] } } := by
  show s.onCall n _ _ = _
  exact Exchanges.onCall_eq hn (Site.continueGivenCallWithBytes_run h.asks.counted.canCall hargs)

theorem continueCall (h : s.Serves y services registered max v u) (hn : s.calls[n]? = some r)
    (ha : s.Suitable services registered max (.continueCall n args)) :
    (s.step checks (.continueCall n args)).Serves y services registered max v (u.more r.pair args.val) := by
  have hr := List.mem_of_getElem? hn
  have hnone := ha.2 r hn
  have hopen := (h.asks.told r hr).opened hnone
  rw [h.continueCall_eq hn ha.1]
  refine ⟨h.attends, h.pipe.send (h.admissible_of_open hr hnone .none args (by simp)), ?_,
    h.live_modify fun _ => rfl⟩
  refine h.asks.changes hn (fun _ => rfl) (fun _ hnone => hnone) ?_ ⟨fun _ => ?_, fun hne => absurd hnone hne⟩
    (fun r' hr' hne => (h.asks.told r' hr').more_ne hne _) (fun k hk hun => hun.more_ne hk _) h.asks.pairs
  · exact h.asks.counted.congr ⟨h.asks.counted.canCall.running, h.asks.counted.canCall.hostStyle⟩ rfl rfl
  · rw [CallRecord.args_concat rfl]
    exact Asked.Open.more_self hopen.gathered hopen.notMem_pairs args.val

theorem endCall (h : s.Serves y services registered max v u) (hq : s.Relays x q said) (hn : s.calls[n]? = some r)
    (ha : s.Suitable services registered max (.endCall n)) :
    (s.step checks (.endCall n)).Serves y services registered max v (u.last r.pair []) := by
  have hr := List.mem_of_getElem? hn
  obtain ⟨hnone, hok⟩ := ha r hn
  have hopen := (h.asks.told r hr).opened hnone
  obtain ⟨g, heq⟩ := Exchanges.endCall_eq checks hq hn hnone
  rw [heq]
  have hok' : (services r.procedureIdx).Succeeds (r.args ++ Payload.empty.val) := by
    rw [show Payload.empty.val = [] from rfl, List.append_nil]
    exact hok
  refine ⟨h.attends, h.pipe.send (h.admissible_of_open hr hnone .complete .empty fun _ => hok'), ?_,
    h.live_modify fun _ => rfl⟩
  refine h.asks.changes hn (fun _ => rfl) (fun _ hnone => by cases hnone) ?_ ⟨fun hnone => ?_, fun _ => ?_⟩
    (fun r' hr' hne => (h.asks.told r' hr').last_ne hne _) (fun k hk hun => hun.last_ne hk _)
    (h.asks.pairs_last hopen.notMem_pairs _)
  · exact h.asks.counted.congr ⟨h.asks.counted.canCall.running, h.asks.counted.canCall.hostStyle⟩ rfl rfl
  · cases hnone
  · have hended := Asked.Ended.last_self hopen.gathered []
    rwa [List.append_nil] at hended

/-- Only what the caller counts and what it has queued matter. -/
theorem of_caller (h : s.Serves y services registered max v u) {caller : Site w} {toPeer : List UInt8}
    (hcounted : caller.Counted (callsTo s.calls))
    (hpipe : Pipe Asked.recv (Asked.Admissible services registered max s.peer.wire.isDone)
      caller.wire.queue toPeer v u) :
    ({ s with caller, toPeer } : Link w).Serves y services registered max v u :=
  ⟨h.attends, hpipe, h.asks.congr hcounted, h.limit⟩

theorem waitBytes (h : s.Serves y services registered max v u) (n : Nat) :
    (s.step checks (.waitBytes n)).Serves y services registered max v u := by
  obtain ⟨caller, ⟨idle, hwire⟩, hstep⟩ := Exchanges.waitBytes_eq s n checks
  have hcounted : caller.Counted (callsTo s.calls) := by
    refine h.asks.counted.congr ⟨?_, ?_⟩ ?_ ?_ <;> rw [hwire]
    · exact h.asks.counted.canCall.running
    · exact h.asks.counted.canCall.hostStyle
  have hqueue : caller.wire.queue = s.caller.wire.queue := by rw [hwire]
  rcases hstep with heq | ⟨r, chunks, hn, heq⟩ <;> rw [heq]
  · exact h.of_caller hcounted (hqueue ▸ h.pipe)
  · have htold := h.asks.told r (List.mem_of_getElem? hn)
    refine ⟨h.attends, hqueue ▸ h.pipe, ?_, h.live_modify fun _ => rfl⟩
    exact h.asks.changes hn (fun _ => rfl) (fun _ hnone => hnone) hcounted ⟨htold.opened, htold.ended⟩
      (fun r' hr' _ => h.asks.told r' hr') (fun _ _ hun => hun) h.asks.pairs

theorem signalCaller (h : s.Serves y services registered max v u) :
    (s.step checks .signalCaller).Serves y services registered max v u := by
  have hcan := h.asks.counted.canCall
  have hr : (Site.onWire Wire.signalEndOfInput).run s.caller = .ok () (s.caller.queued .endOfInput) := by
    simp [Site.onWire, Wire.signalEndOfInput, hcan.running, Site.queued]
  show ({ s with caller := ((Site.onWire Wire.signalEndOfInput).run s.caller).state } : Link w).Serves _ _ _ _ _ _
  rw [hr]
  have hm : Asked.Admissible services registered max s.peer.wire.isDone u .endOfInput := trivial
  exact h.of_caller (h.asks.counted.congr ⟨hcan.running, hcan.hostStyle⟩ rfl rfl) (h.pipe.send hm)

theorem flushCaller (h : s.Serves y services registered max v u) :
    (s.step checks .flushCaller).Serves y services registered max v u := by
  have hcan := h.asks.counted.canCall
  show ({ s with caller := _, toPeer := _ } : Link w).Serves _ _ _ _ _ _
  rw [Wire.flushTo_run hcan.running]
  exact h.of_caller (h.asks.counted.congr ⟨hcan.running, hcan.hostStyle⟩ rfl rfl) h.pipe.flush

theorem fillCaller (h : s.Serves y services registered max v u) (hq : s.Relays x q said) (checks : Bool) :
    (s.step checks .fillCaller).Serves y services registered max v u := by
  by_cases hne : s.toCaller = []
  · rw [show s.step checks .fillCaller = s from if_pos hne]
    exact h
  · obtain ⟨m, rest, b, caller, -, hm, -, hr, -, heq⟩ := hq.fillCaller_eq hne checks
    rw [heq]
    cases m with
    | response p c t bytes =>
      -- a reply asks for no index
      have hstay : (s.caller.trafficStep checks (.response p c t bytes.val)).Counted (callsTo s.calls) :=
        h.asks.counted.stay rfl
      have hqueue := congrArg Wire.queue (Site.receiveResponse_answering p c t bytes.val s.caller).2
      have hstate : ((Site.receiveResponse p c t bytes.val).run s.caller).state = caller :=
        congrArg EStateM.Result.state hr
      rw [Site.trafficStep, show Site.receive (.response p c t bytes.val) = Site.receiveResponse
        p c t bytes.val from rfl, hstate] at hstay
      rw [hstate] at hqueue
      exact ⟨h.attends, (show caller.wire.queue = s.caller.wire.queue from hqueue) ▸ h.pipe, h.asks.congr hstay,
        h.limit⟩
    | endOfInput =>
      cases hr
      exact ⟨h.attends, h.pipe, h.asks, h.limit⟩
    | call => cases hm
    | termination => cases hm

/-! ### Steps of the peer -/

/-- Calls may get over. -/
theorem of_peer (h : s.Serves y services registered max v u) {peer : Site w} {toPeer : List UInt8} {v' : Asked w}
    (hattends : peer.Attends y services registered max v')
    (hdone : ∀ k, s.peer.wire.isDone k = true → peer.wire.isDone k = true)
    (hpipe : Pipe Asked.recv (Asked.Admissible services registered max s.peer.wire.isDone)
      s.caller.wire.queue toPeer v' u) :
    ({ s with peer, toPeer } : Link w).Serves y services registered max v' u := by
  refine ⟨hattends, hpipe.mono fun v m hm => hm.mono hdone v m, h.asks, le_trans ?_ h.limit⟩
  refine List.countP_mono_left fun r _ hr => ?_
  rw [Bool.not_eq_true'] at hr ⊢
  by_contra hne
  exact absurd (hdone r.pair (by simpa using hne)) (by simp [hr])

/-- What the peer says changes nothing of what it has heard. -/
theorem of_said (h : s.Serves y services registered max v u) {peer : Site w} (hi : peer.interface = s.peer.interface)
    (hw : peer.wire.calling = s.peer.wire.calling) (hexec : peer.wire.executed = s.peer.wire.executed)
    (hongoing : ∀ k ∈ peer.wire.ongoingProcedures, k ∈ s.peer.wire.ongoingProcedures) :
    ({ s with peer } : Link w).Serves y services registered max v u := by
  refine h.of_peer (h.attends.congr hi hw hexec hongoing) (fun k hk => ?_) h.pipe
  exact Wire.isDone_mono (hexec ▸ List.prefix_refl _) (fun k hmem _ => hongoing k hmem) hk

theorem signalPeer (h : s.Serves y services registered max v u) :
    (s.step checks .signalPeer).Serves y services registered max v u := by
  have hr : (Site.onWire Wire.signalEndOfInput).run s.peer = .ok () (s.peer.queued .endOfInput) := by
    simp [Site.onWire, Wire.signalEndOfInput, h.attends.running, Site.queued]
  show ({ s with peer := ((Site.onWire Wire.signalEndOfInput).run s.peer).state } : Link w).Serves _ _ _ _ _ _
  rw [hr]
  exact h.of_said rfl rfl rfl fun _ hk => hk

theorem flushPeer (h : s.Serves y services registered max v u) :
    (s.step checks .flushPeer).Serves y services registered max v u := by
  show ({ s with peer := _, toCaller := _ } : Link w).Serves _ _ _ _ _ _
  rw [Wire.flushTo_run h.attends.running]
  have h' : ({ s with peer := { s.peer with wire := { s.peer.wire with queue := [] } } } : Link w).Serves y services
      registered max v u := h.of_said rfl rfl rfl fun _ hk => hk
  exact ⟨h'.attends, h'.pipe, h'.asks, h'.limit⟩

theorem yield (h : s.Serves y services registered max v u) (e : Nat) (bytes : Payload) (t : Terminator)
    (checks : Bool) :
    (s.step checks (.yield e bytes t)).Serves y services registered max v u := by
  simp only [step]
  split
  · rename_i p c args f hex
    have hsaid : ({ s with peer := { s.peer with wire := ((Wire.yielder p c e bytes t).run s.peer.wire).state } } :
        Link w).Serves y services registered max v u := by
      refine h.of_said rfl (Site.yielder_calling p c e bytes t s.peer.wire) ?_ fun k hk => ?_
      · exact Wire.yielder_executed p c e bytes t s.peer.wire
      · replace hk : k ∈ ((Wire.yielder p c e bytes t).run s.peer.wire).state.ongoingProcedures := hk
        rw [Wire.yielder_run] at hk
        split at hk
        · exact hk
        · split at hk
          · exact (AList.mem_erase.1 hk).2
          · exact hk
    cases hr : (Wire.yielder p c e bytes t).run s.peer.wire with
    | ok a x =>
      rw [hr] at hsaid
      exact ⟨hsaid.attends, hsaid.pipe, hsaid.asks, hsaid.limit⟩
    | error a x =>
      rw [hr] at hsaid
      exact hsaid
  · exact h

/-- The peer reads a piece or the end of a call. -/
theorem fillPeer_eq (h : s.Serves y services registered max v u) (hne : s.toPeer ≠ [])
    (ha : s.Suitable services registered max .fillPeer) (checks : Bool) :
    ∃ m rest peer, s.toPeer = m.toBytes ++ rest ∧ s.step checks .fillPeer = { s with peer, toPeer := rest } ∧
      (s.step checks .fillPeer).Serves y services registered max (v.recv m) u := by
  obtain ⟨m, rest, hbytes, hm, hpipe⟩ := h.pipe.receive hne
  have hresponse : ∀ p c t b, m ≠ .response p c t b := by
    rintro p c t b rfl
    cases hm
  obtain ⟨b, peer, hr, hattends, hdone⟩ := h.attends.receives (ha.roomFor h.attends.running hresponse hbytes) hm
  have heq : s.step checks .fillPeer = { s with peer, toPeer := rest } := by
    show (if s.toPeer = [] then s else _ : Link w) = _
    rw [if_neg hne, hbytes, Receiver.fillStep_message s.peer m rest h.attends.running fun _ => hresponse, hr]
    rfl
  refine ⟨m, rest, peer, hbytes, heq, ?_⟩
  rw [heq]
  exact h.of_peer hattends hdone hpipe

theorem fillPeer (h : s.Serves y services registered max v u) (ha : s.Suitable services registered max .fillPeer)
    (checks : Bool) : ∃ v', (s.step checks .fillPeer).Serves y services registered max v' u := by
  by_cases hne : s.toPeer = []
  · refine ⟨v, ?_⟩
    rw [show s.step checks .fillPeer = s from if_pos hne]
    exact h
  · obtain ⟨m, -, -, -, -, h'⟩ := h.fillPeer_eq hne ha checks
    exact ⟨_, h'⟩

/-! ### Runs -/

theorem called_of_pairs (h : s.Serves y services registered max v u) {k : ProcedureIndex w × CallIndex w}
    (hk : k ∈ u.pairs) : s.Called k := by
  obtain ⟨r, hr, rfl, hne⟩ := h.asks.exists_of_mem_pairs hk
  exact ⟨r, hr, rfl, hne⟩

/-- No call is executed twice. -/
theorem executed_nodup (h : s.Serves y services registered max v u) : s.executed.Nodup :=
  (h.executed_prefix.map Prod.fst).sublist.nodup h.asks.pairs

theorem firstReplies_eq (h : s.Serves y services registered max v u) {k : ProcedureIndex w × CallIndex w}
    (hk : s.Called k) (args : List UInt8) : s.firstReplies k args = (services k.1).replies args := by
  obtain ⟨r, hr, rfl, -⟩ := hk
  rw [firstReplies, h.attends.procedures r.pair.1 (h.asks.registered r hr)]

/-- In such a run nobody answers out of turn. -/
theorem orderly (h : s.Serves y services registered max v u) {a : LinkAction w}
    (ha : s.Suitable services registered max a) : s.Orderly checks a := by
  have hnew : ∀ p, s.Admits registered max p → s.caller.interface.messages.size < 2 ^ w.bits ∧
      (p, s.caller.nextIdx p) ∉ s.calls.map CallRecord.pair ∧ (p, s.caller.nextIdx p) ∉ s.executed := by
    intro p hp
    have hunused := h.asks.unused hp.indices
    exact ⟨hp.room, hunused, fun hk => (h.asks.unheard _ hunused).notMem_pairs (h.pairs_of_executed hk)⟩
  cases a with
  | startCall p args => exact hnew p ha.2
  | callWithBytes p args => exact hnew p ha.1
  | continueCall n args => exact ha.2
  | endCall n => exact fun r hn => (ha r hn).1
  | yield e bytes t =>
    intro ex hex _
    refine ⟨h.called_of_pairs (h.pairs_of_executed (List.mem_map.2 ⟨(ex.pair, ex.args), ?_, rfl⟩)), ha⟩
    exact List.mem_map.2 ⟨ex, List.mem_of_getElem? hex, rfl⟩
  | fillPeer =>
    -- what is executed in the step has been told by the caller, once, and succeeds
    obtain ⟨v', h'⟩ := h.fillPeer ha checks
    intro k args hexec
    have hkeys : (s.step checks .fillPeer).executed = s.executed ++ [k] := by
      rw [executed, hexec, List.map_append]
      rfl
    have hnodup := h'.executed_nodup
    have hcalled : s.Called k := by
      refine h.called_of_pairs (h'.pairs_of_executed ?_)
      rw [hkeys]
      exact List.mem_append_right _ (List.mem_singleton_self k)
    rw [hkeys, List.nodup_append] at hnodup
    refine ⟨hcalled, fun hk => hnodup.2.2 k hk k (List.mem_singleton_self k) rfl, ?_⟩
    rw [h.firstReplies_eq hcalled]
    have hmem : (k, args) ∈ v'.ended := by
      rw [← h'.attends.executed, hexec]
      exact List.mem_append_right _ (List.mem_singleton_self _)
    exact (h'.attends.succeeds _ hmem).last
  | waitBytes n => trivial
  | signalCaller => trivial
  | flushCaller => trivial
  | fillCaller => trivial
  | signalPeer => trivial
  | flushPeer => trivial

theorem step (h : s.Serves y services registered max v u) (hq : s.Relays x q said) {a : LinkAction w}
    (ha : s.Suitable services registered max a) :
    ∃ v' u', (s.step checks a).Serves y services registered max v' u' := by
  cases a with
  | startCall p args => exact ⟨_, _, h.startCall ha⟩
  | callWithBytes p args => exact ⟨_, _, h.callWithBytes ha⟩
  | continueCall n args =>
    cases hn : s.calls[n]? with
    | none => exact ⟨v, u, ((Exchanges.step_of_none hn).1 args).symm ▸ h⟩
    | some r => exact ⟨_, _, h.continueCall hn ha⟩
  | endCall n =>
    cases hn : s.calls[n]? with
    | none => exact ⟨v, u, (Exchanges.step_of_none hn).2.symm ▸ h⟩
    | some r => exact ⟨_, _, h.endCall hq hn ha⟩
  | waitBytes n => exact ⟨v, u, h.waitBytes n⟩
  | signalCaller => exact ⟨v, u, h.signalCaller⟩
  | flushCaller => exact ⟨v, u, h.flushCaller⟩
  | fillCaller => exact ⟨v, u, h.fillCaller hq checks⟩
  | yield e bytes t => exact ⟨v, u, h.yield e bytes t checks⟩
  | signalPeer => exact ⟨v, u, h.signalPeer⟩
  | flushPeer => exact ⟨v, u, h.flushPeer⟩
  | fillPeer =>
    obtain ⟨v', h'⟩ := h.fillPeer ha checks
    exact ⟨v', u, h'⟩

/-! ### What comes of the calls -/

/-- A call that has been executed has ended, and was executed on all its pieces. -/
theorem args_of_executed (h : s.Serves y services registered max v u) (hr : r ∈ s.calls) {args : List UInt8}
    (he : (r.pair, args) ∈ s.peer.wire.executed) : args = r.args := by
  have hmem := h.executed_prefix.subset he
  obtain ⟨r', hr', hpair, hne⟩ := h.asks.exists_of_mem_pairs (List.mem_map.2 ⟨_, hmem, rfl⟩)
  obtain rfl := List.inj_on_of_nodup_map h.asks.distinct hr' hr hpair
  have hended := ((h.asks.told r' hr).ended hne).mem_ended
  exact congrArg Prod.snd (List.inj_on_of_nodup_map h.asks.pairs hmem hended rfl)

theorem argsOf_prefix (h : s.Serves y services registered max v u) (hr : r ∈ s.calls) :
    s.peer.wire.argsOf r.pair <+: [r.args] := by
  by_cases hmem : r.pair ∈ s.executed
  · obtain ⟨ex, hex, hpair⟩ := List.mem_map.1 hmem
    replace hex : (r.pair, ex.2) ∈ s.peer.wire.executed := hpair ▸ hex
    rw [Wire.argsOf_eq_singleton h.executed_nodup hex, h.args_of_executed hr hex]
  · rw [Wire.argsOf_eq_nil hmem]
    exact List.nil_prefix

theorem answer_eq (h : s.Serves y services registered max v u) (hr : r ∈ s.calls) {e : Nat} {args : List UInt8}
    (he : s.peer.wire.executed[e]? = some (r.pair, args)) : partsOf (s.repliesOf e) = s.answer services r e := by
  have hmem := List.mem_of_getElem? he
  have hcalled := h.called_of_pairs (h.pairs_of_executed (List.mem_map.2 ⟨_, hmem, rfl⟩))
  rw [Link.repliesOf_eq he, h.firstReplies_eq hcalled, h.args_of_executed hr hmem]
  rfl

/-- Once the peer has read all that the caller has said, the calls that have ended have been executed. -/
theorem executed_of_read (h : s.Serves y services registered max v u) (hqueue : s.caller.wire.queue = [])
    (htoPeer : s.toPeer = []) (hr : r ∈ s.calls) (hne : r.handle ≠ none) :
    (r.pair, r.args) ∈ s.peer.wire.executed := by
  have hpipe := h.pipe
  rw [hqueue, htoPeer] at hpipe
  rw [h.attends.executed, hpipe.eq_of_nil]
  exact ((h.asks.told r hr).ended hne).mem_ended

end Serves

section

variable {caller peer : Interface w} {id id' : WireId w} {moduleStyle : Bool} {max max' : IpfiInteger w}

/-- Two new wires. -/
theorem connect_serves (hpeer : Site.InCustody ⟨peer, .new id' moduleStyle max'⟩ y)
    (hkeys : ∀ p c, peer.callToBufferMap.lookup (p, c, id') = none)
    (hregistered : ∀ p, registered p → peer.procedures.lookup p = some (services p)) :
    (connect caller peer id id' moduleStyle max max').Serves y services registered max'.toNat .none .none where
  attends :=
    { custody := hpeer
      running := rfl
      limit := rfl
      procedures := hregistered
      executed := rfl
      succeeds := fun e he => by cases he
      ongoing := fun k hk => absurd hk (AList.notMem_empty k)
      accepts := fun k hk _ => Site.accepts_nil (hregistered k.1 hk) (hkeys k.1 k.2) }
  pipe := .empty _
  asks := connect_asks caller id max _
  limit := Nat.zero_le _

/-- The two invariants of a run need each other: replies are in turn because of the calls, and calls end on awaited
responses. -/
theorem serves_of_reaches (hcaller : Site.InCustody ⟨caller, .new id false max⟩ x)
    (hpeer : Site.InCustody ⟨peer, .new id' moduleStyle max'⟩ y)
    (hkeys : ∀ p c, peer.callToBufferMap.lookup (p, c, id') = none)
    (hregistered : ∀ p, registered p → peer.procedures.lookup p = some (services p))
    (hs : Reaches (step checks) (Suitable services registered max'.toNat)
      (connect caller peer id id' moduleStyle max max') s) :
    (∃ q said, s.Relays x q said) ∧ ∃ v u, s.Serves y services registered max'.toNat v u := by
  refine hs.invariant (I := fun s => (∃ q said, s.Relays x q said) ∧
    ∃ v u, s.Serves y services registered max'.toNat v u) ⟨⟨_, _, (connect_outstanding hcaller).relays⟩, _, _,
      connect_serves hpeer hkeys hregistered⟩ fun s a hI ha => ?_
  obtain ⟨⟨q, said, hq⟩, v, u, h⟩ := hI
  exact ⟨hq.step (h.orderly ha), h.step hq ha⟩

/-- Two new wires, on interfaces whose buffers are in order, exchange calls of procedures that succeed, streaming ones
included, within the limits.  Once all pieces of a call have been read its procedure is called on them, and never again;
once its execution has yielded the end of its response and that has been read too, its handle returns all that the
execution has yielded, and nothing else ever. -/
theorem calls_served (hcaller : Site.InCustody ⟨caller, .new id false max⟩ x)
    (hpeer : Site.InCustody ⟨peer, .new id' moduleStyle max'⟩ y)
    (hkeys : ∀ p c, peer.callToBufferMap.lookup (p, c, id') = none)
    (hregistered : ∀ p, registered p → peer.procedures.lookup p = some (services p))
    (hs : Reaches (step checks) (Suitable services registered max'.toNat)
      (connect caller peer id id' moduleStyle max max') s) :
    (s.calls.map CallRecord.pair).Nodup ∧
    (∀ r ∈ s.calls, s.peer.wire.argsOf r.pair <+: [r.args] ∧ ∀ chunks, r.result = some chunks →
      ∃ e, s.peer.wire.executed[e]? = some (r.pair, r.args) ∧ EndsInComplete (s.answer services r e) ∧
        chunks = chunksOf (s.answer services r e)) ∧
    (s.caller.wire.queue = [] → s.toPeer = [] → ∀ r ∈ s.calls, r.handle ≠ none →
      s.peer.wire.argsOf r.pair = [r.args] ∧ ∃ e, s.peer.wire.executed[e]? = some (r.pair, r.args) ∧
        (s.peer.wire.queue = [] → s.toCaller = [] → EndsInComplete (s.answer services r e) → ∀ h, r.held = some h →
          ∃ t, h.waitBytes.run s.caller = .ok (chunksOf (s.answer services r e)) t)) ∧
    (s.Suitable services registered max'.toNat .fillPeer → s.toPeer ≠ [] →
      (s.step checks .fillPeer).toPeer.length < s.toPeer.length) ∧
    (s.toCaller ≠ [] → (s.step checks .fillCaller).toCaller.length < s.toCaller.length) := by
  obtain ⟨⟨q, said, hq⟩, v, u, h⟩ := serves_of_reaches hcaller hpeer hkeys hregistered hs
  refine ⟨h.asks.distinct, fun r hr => ⟨h.argsOf_prefix hr, fun chunks hc => ?_⟩, fun hqueue htoPeer r hr hne => ?_,
    fun ha hne => ?_, fun hne => ?_⟩
  · obtain ⟨e, args, he, hend, rfl⟩ := hq.result_eq hr hc
    rw [h.answer_eq hr he] at hend
    exact ⟨e, h.args_of_executed hr (List.mem_of_getElem? he) ▸ he, hend, congrArg chunksOf (h.answer_eq hr he)⟩
  · have hexec := h.executed_of_read hqueue htoPeer hr hne
    obtain ⟨e, he⟩ := List.mem_iff_getElem?.1 hexec
    refine ⟨Wire.argsOf_eq_singleton h.executed_nodup hexec, e, he, fun hqueue' htoCaller hend g hg => ?_⟩
    have hwait := hq.waitBytes_eq hqueue' htoCaller hr hg he
    rw [h.answer_eq hr he] at hwait
    exact hwait hend
  · obtain ⟨m, rest, peer', hbytes, heq, -⟩ := h.fillPeer_eq hne ha checks
    rw [heq, hbytes, List.length_append]
    exact Nat.lt_add_of_pos_left (List.length_pos_of_ne_nil (Message.toBytes_ne_nil m))
  · obtain ⟨m, rest, b, caller', hbytes, -, -, -, -, heq⟩ := hq.fillCaller_eq hne checks
    rw [heq, hbytes, List.length_append]
    exact Nat.lt_add_of_pos_left (List.length_pos_of_ne_nil (Message.toBytes_ne_nil m))

end

/-- A procedure that yields later, and one that returns at once. -/
private def twoServices (p : ProcedureIndex .u32) : Procedure .u32 :=
  if p = ⟨2⟩ then .streaming fun _ => (.ok (), []) else .standard fun _ => .ok .empty

private def twoServicesPeer : Interface .u32 :=
  (Interface.new.addProcedure ⟨2⟩ (twoServices ⟨2⟩)).addProcedure ⟨3⟩ (twoServices ⟨3⟩)

private theorem twoServices_succeeds (p : ProcedureIndex .u32) (args : List UInt8) : (twoServices p).Succeeds args := by
  unfold twoServices
  split
  · exact ⟨rfl, fun y hy => by cases hy⟩
  · exact ⟨⟨_, rfl⟩, fun y hy => by cases hy⟩

/-- A streaming execution goes on while the response to a later call has come back. -/
private def overtaking : List (LinkAction .u32) :=
  [.startCall ⟨2⟩ ⟨[84], by decide⟩, .endCall 0, .callWithBytes ⟨3⟩ .empty, .flushCaller, .fillPeer, .fillPeer,
    .fillPeer, .yield 0 ⟨[85], by decide⟩ .chunk, .flushPeer, .fillCaller, .fillCaller,
    .yield 0 ⟨[86], by decide⟩ .complete, .flushPeer, .fillCaller]

private def overtaken : Link .u32 := overtaking.foldl (step true) (connect .new twoServicesPeer ⟨0⟩ ⟨0⟩ false 2 2)

private theorem open_of_all' {s : Link .u32} (h : (s.calls[n]?).all fun r => r.handle.isNone) :
    ∀ r, s.calls[n]? = some r → r.handle = none ∧ (twoServices r.procedureIdx).Succeeds r.args :=
  fun r hr => ⟨open_of_all h r hr, twoServices_succeeds _ _⟩

private theorem overtaken_reaches : Reaches (step true) (Suitable twoServices (fun p => p = ⟨2⟩ ∨ p = ⟨3⟩) 2)
    (connect .new twoServicesPeer ⟨0⟩ ⟨0⟩ false 2 2) overtaken := by
  unfold overtaken overtaking
  simp only [List.foldl_cons, List.foldl_nil]
  refine .next (.next (.next (.next (.next (.next (.next (.next (.next (.next (.next (.next (.next (.next .start
    ?_) ?_) ?_) ?_) ?_) ?_) ?_) ?_) ?_) ?_) ?_) ?_) ?_) ?_
  · exact ⟨by decide, .inl rfl, by decide +kernel, by decide +kernel, by decide +kernel⟩
  · exact open_of_all' (by decide +kernel)
  · exact ⟨⟨.inr rfl, by decide +kernel, by decide +kernel, by decide +kernel⟩, twoServices_succeeds _ _⟩
  · trivial
  · exact .of_lt (by decide +kernel)
  · exact .of_lt (by decide +kernel)
  · exact .of_lt (by decide +kernel)
  · show ∀ y ∈ _, _
    decide +kernel
  · trivial
  · trivial
  · trivial
  · show ∀ y ∈ _, _
    decide +kernel
  · trivial
  · trivial

private def streamedHandle : CallHandle .u32 := (overtaken.calls[0]?.bind CallRecord.held).get (by decide +kernel)

theorem calls_served_overtaken : ∃ t, streamedHandle.waitBytes.run overtaken.caller = .ok [[85], [86]] t := by
  have hpeer : twoServicesPeer.WellFormed :=
    Interface.new_wellFormed.congr rfl rfl (Nat.le_refl _) (Nat.le_refl _) fun _ h => h
  have hregistered : ∀ p, p = ⟨2⟩ ∨ p = ⟨3⟩ → twoServicesPeer.procedures.lookup p = some (twoServices p) := by
    rintro p (rfl | rfl) <;> rfl
  obtain ⟨-, -, hall, -⟩ := calls_served (Site.new_inCustody Interface.new_wellFormed rfl ⟨0⟩ false 2)
    (Site.new_inCustody hpeer rfl ⟨0⟩ false 2) (fun _ _ => rfl) hregistered overtaken_reaches
  have hsome : (overtaken.calls[0]?.bind CallRecord.held) = some streamedHandle := (Option.some_get _).symm
  obtain ⟨r, hr, hheld⟩ := Option.bind_eq_some_iff.1 hsome
  have hne : r.handle ≠ none := by
    rw [(CallRecord.held_eq_some.1 hheld).2]
    exact Option.some_ne_none _
  have hpair : overtaken.calls[0]?.map CallRecord.pair = some (⟨2⟩, ⟨0⟩) := by decide +kernel
  rw [hr, Option.map_some, Option.some_inj] at hpair
  obtain ⟨-, e, he, hwait⟩ := hall (by decide +kernel) (by decide +kernel) r (List.mem_of_getElem? hr) hne
  have hexec : overtaken.peer.wire.executed = [((⟨2⟩, ⟨0⟩), [84]), ((⟨3⟩, ⟨0⟩), [])] := by decide +kernel
  obtain rfl : e = 0 := by
    rw [hexec, hpair] at he
    match e, he with
    | 0, _ => rfl
    | 1, he => cases he
  have hanswer : overtaken.answer twoServices r 0 = [([85], .chunk), ([86], .complete)] := by
    have hyields : partsOf ((overtaken.yields.filter fun y => decide (y.1 = 0)).map Prod.snd) =
        [([85], .chunk), ([86], .complete)] := by decide +kernel
    have hp : r.procedureIdx = ⟨2⟩ := congrArg Prod.fst hpair
    rw [answer, hp, ← hyields]
    rfl
  rw [hanswer] at hwait
  exact hwait (by decide +kernel) (by decide +kernel) ⟨[([85], .chunk)], [86], rfl, by simp⟩ streamedHandle hheld

end Link

end Ipfi
