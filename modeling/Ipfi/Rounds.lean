import Ipfi.Exchanges
import Ipfi.Footprint

/-!
# Rounds of calls and results

Two single-threaded programs take turns: one makes its calls and ends its input with `flush_end`; the other serves them
in `fill` and ends its input in its turn, and then the first one fills.  Such a round is a run of the link that leaves
nothing on the way, so after every round all calls that had been ended have their results.
-/

namespace Ipfi

variable {w : IntFeature}

open EStateM (Meets)

/-! ### Messages before an end of input -/

namespace Message

def IsCall : Message w → Prop
  | .call _ _ _ _ => True
  | _ => False

def IsResponse : Message w → Prop
  | .response _ _ _ _ => True
  | _ => False

/-- What stands first is read off. -/
theorem toBytes_append_inj {m m' : Message w} {rest rest' : List UInt8}
    (h : m.toBytes ++ rest = m'.toBytes ++ rest') : m = m' ∧ rest = rest' := by
  have hr := readMessage_toBytes false m rest (by simp)
  have hr' := readMessage_toBytes false m' rest' (by simp)
  rw [h, hr'] at hr
  obtain ⟨hm, hrest⟩ := EStateM.Result.ok.inj hr
  exact ⟨incoming_injective hm.symm, hrest.symm⟩

end Message

namespace Wire

/-- The messages on the queue are of a kind. -/
def Holds (x : Wire w) (P : Message w → Prop) : Prop :=
  ∃ ms : List (Message w), (∀ m ∈ ms, P m) ∧ x.queue = ms.map Message.toBytes

variable {x y : Wire w} {P : Message w → Prop}

theorem Holds.of_nil (hq : x.queue = []) : x.Holds P := ⟨[], by simp, hq⟩

theorem Holds.append (ms : List (Message w)) (h : x.Holds P) (hms : ∀ m ∈ ms, P m)
    (hq : y.queue = x.queue ++ ms.map Message.toBytes) : y.Holds P := by
  obtain ⟨ms', hms', hx⟩ := h
  refine ⟨ms' ++ ms, fun m hm => ?_, ?_⟩
  · exact (List.mem_append.1 hm).elim (hms' m) (hms m)
  · rw [hq, hx, List.map_append]

end Wire

/-- Makes a call, in one or in pieces, or waits for one. -/
def LinkAction.IsLocal : LinkAction w → Prop
  | .startCall _ _ | .continueCall _ _ | .endCall _ | .callWithBytes _ _ | .waitBytes _ => True
  | _ => False

/-! ### Messages that a round of `fill` goes on after -/

private theorem meets_any {ε σ α : Type} (x : EStateM ε σ α) :
    Meets (fun _ => True) x (fun _ _ => True) fun _ _ => True := by
  intro s _
  cases hr : x.run s <;> trivial

/-- Only an end of input and a termination end a `fill` without an error. -/
theorem Site.receive_ne_none {m : Message w} (hm : m.IsCall ∨ m.IsResponse) {t t' : Site w} {b : Option Bool}
    (hr : (receive m.incoming).run t = .ok b t') : b ≠ none := by
  have hnext {α : Type} {x : Op (Error w) (Site w) α} {f : α → Op (Error w) (Site w) (Option Bool)}
      (hf : ∀ a, Meets (fun _ => True) (f a) (fun b _ => b ≠ none) fun _ _ => True) :
      Meets (fun _ => True) (x >>= f) (fun b _ => b ≠ none) fun _ _ => True := (meets_any x).bind hf
  suffices hall : Meets (fun _ => True) (receive m.incoming) (fun b _ => b ≠ none) fun _ _ => True from
    hall.ok trivial hr
  cases m with
  | call p c tm bytes =>
    refine hnext fun s => .ite (fun _ => .pure fun _ _ => by simp) fun _ => hnext fun b => hnext fun _ => ?_
    refine hnext fun _ => .ite (fun _ => hnext fun _ => hnext fun _ => hnext fun ret => ?_) fun _ =>
      .pure fun _ _ => by simp
    split
    · exact hnext fun _ => hnext fun _ => .pure fun _ _ => by simp
    · exact Meets.pure fun _ _ => by simp
  | response p c tm bytes =>
    refine hnext fun b => hnext fun _ => ?_
    split
    · exact hnext fun _ => hnext fun _ => .pure fun _ _ => by simp
    · exact hnext fun _ => .pure fun _ _ => by simp
    · exact .pure fun _ _ => by simp
  | endOfInput => exact absurd hm (by simp [Message.IsCall, Message.IsResponse])
  | termination => exact absurd hm (by simp [Message.IsCall, Message.IsResponse])

/-- A round that goes on is one of the rounds of a `fill`. -/
theorem Receiver.rounds_message {t t' : Site w} {m : Message w} {b : Option Bool} (rest : List UInt8)
    (ht : t.wire.terminated = false) (hm : t.wire.moduleStyle = true → ∀ p c tm b, m ≠ .response p c tm b)
    (hkind : m.IsCall ∨ m.IsResponse) (hr : (Site.receive m.incoming).run t = .ok b t') :
    rounds ⟨t, m.toBytes ++ rest⟩ = rounds ⟨t', rest⟩ := by
  obtain ⟨b, rfl⟩ := Option.ne_none_iff_exists'.1 (Site.receive_ne_none hkind hr)
  rw [rounds_eq, fillStep_message t m rest ht hm, hr]
  rfl

namespace Link

variable {s s' : Link w} {x y : Surroundings w} {results : ProcedureIndex w → List UInt8 → Payload}
  {registered : ProcedureIndex w → Prop} {max : Nat} {v u : Asked w} {q said : Replied w} {checks : Bool}

/-! ### The peer fills -/

/-- A message needs room for one buffer at most. -/
private theorem size_fillStep (t : Site w) (reader : List UInt8) :
    (Receiver.fillStep.run ⟨t, reader⟩).state.site.interface.messages.size ≤ t.interface.messages.size + 1 := by
  have h := Site.serveStep_raises (r := ⟨1, 0, 0⟩) t (.fillStep reader)
  unfold Raises Site.price at h
  rw [Interface.price_buffers, Interface.price_buffers] at h
  refine Nat.le_trans h (Nat.add_le_add_left ?_ _)
  cases (Site.ServeAction.fillStep reader).message? t with
  | none => exact Nat.zero_le 1
  | some m => cases m <;> simp [Price.ofIncoming]

/-- The peer reads a call. -/
private theorem Exchanges.fillPeer_call {m : Message w} {rest : List UInt8}
    (h : s.Exchanges y results registered max v u) (hm : m.IsCall) (hbytes : s.toPeer = m.toBytes ++ rest)
    (ha : s.Proper registered max .fillPeer) (hqueue : s.peer.wire.Holds Message.IsResponse) (checks : Bool) :
    ∃ peer, s.step checks .fillPeer = { s with peer, toPeer := rest } ∧
      Receiver.rounds ⟨s.peer, s.toPeer⟩ = Receiver.rounds ⟨peer, rest⟩ ∧
      peer.interface.messages.size ≤ s.peer.interface.messages.size + 1 ∧ peer.wire.Holds Message.IsResponse ∧
      ({ s with peer, toPeer := rest } : Link w).Exchanges y results registered max (v.recv m) u := by
  have hne : s.toPeer ≠ [] := by simp [hbytes, Message.toBytes_ne_nil]
  obtain ⟨m', rest', hbytes', hlegal, hpipe⟩ := h.pipe.receive hne
  obtain ⟨rfl, rfl⟩ := Message.toBytes_append_inj (hbytes'.symm.trans hbytes)
  have hresponse : ∀ p c tm b, m' ≠ .response p c tm b := by
    rintro p c tm b rfl
    exact hm
  obtain ⟨b, peer, hr, hhears⟩ := h.hears.receives (ha.roomFor h.hears.running hresponse hbytes) hlegal
  have hfill := Receiver.fillStep_message s.peer m' rest' h.hears.running fun _ => hresponse
  rw [hr] at hfill
  have hsize := size_fillStep s.peer (m'.toBytes ++ rest')
  have hreplies := Site.fillStep_replies s.peer (m'.toBytes ++ rest')
  rw [hfill] at hsize hreplies
  refine ⟨peer, ?_, ?_, hsize, ?_, hhears, hpipe, h.asks, h.yields⟩
  · show (if s.toPeer = [] then s else _ : Link w) = _
    rw [if_neg hne, hbytes, hfill]
    rfl
  · rw [hbytes]
    exact Receiver.rounds_message _ h.hears.running (fun _ => hresponse) (.inl hm) hr
  · -- only responses are put on the queue
    rcases hreplies with ⟨heq, -⟩ | ⟨p, c, procedure, args, -, heq, -⟩
    · exact hqueue.append [] (by simp) (heq.trans (List.append_nil _).symm)
    · refine hqueue.append _ (fun m hm => ?_) heq
      obtain ⟨y, -, rfl⟩ := List.mem_map.1 hm
      trivial

/-- The peer reads calls up to an end of input.  Each of the rounds of its `fill` is a step of the link. -/
theorem Exchanges.fillPeer_rounds (ms : List (Message w)) (h : s.Exchanges y results registered max v u)
    (hms : ∀ m ∈ ms, m.IsCall) (hbytes : s.toPeer = encode ms ++ Message.toBytes (.endOfInput : Message w))
    (hroom : s.peer.interface.messages.size + ms.length < 2 ^ w.bits)
    (hqueue : s.peer.wire.Holds Message.IsResponse) (checks : Bool) :
    ∃ peer, Receiver.rounds ⟨s.peer, s.toPeer⟩ = .ok () ⟨peer, []⟩ ∧ peer.wire.Holds Message.IsResponse ∧
      Reaches (Link.step checks) (Proper registered max) s { s with peer, toPeer := [] } := by
  have ha : s.Proper registered max .fillPeer := .of_lt (Nat.lt_of_le_of_lt (Nat.le_add_right _ _) hroom)
  have hfirst : Reaches (Link.step checks) (Proper registered max) s (s.step checks .fillPeer) := .next .start ha
  induction ms generalizing s v with
  | nil =>
    rw [encode_nil, List.nil_append] at hbytes
    have hstep : s.step checks .fillPeer = { s with peer := s.peer, toPeer := [] } := by
      show (if s.toPeer = [] then s else _ : Link w) = _
      rw [if_neg (hbytes ▸ Message.toBytes_ne_nil _), hbytes, ← List.append_nil (Message.toBytes _),
        Receiver.fillStep_message s.peer .endOfInput [] h.hears.running (by simp)]
      rfl
    rw [hstep] at hfirst
    exact ⟨s.peer, hbytes ▸ Receiver.rounds_endOfInput h.hears.running [], hqueue, hfirst⟩
  | cons m ms ih =>
    rw [encode_cons, List.append_assoc] at hbytes
    obtain ⟨peer, hstep, hrounds, hsize, hqueue', h'⟩ :=
      h.fillPeer_call (hms m List.mem_cons_self) hbytes ha hqueue checks
    rw [hstep] at hfirst
    have hroom' : peer.interface.messages.size + ms.length < 2 ^ w.bits := by
      rw [List.length_cons] at hroom
      omega
    have ha' : PeerHasRoom { s with peer, toPeer := encode ms ++ Message.toBytes (.endOfInput : Message w) } :=
      .of_lt (Nat.lt_of_le_of_lt (Nat.le_add_right _ _) hroom')
    obtain ⟨peer', hrounds', hqueue'', hreaches⟩ :=
      ih h' (fun m hm => hms m (List.mem_cons_of_mem _ hm)) rfl hroom' hqueue' ha' (.next .start ha')
    exact ⟨peer', hrounds.trans hrounds', hqueue'', hfirst.trans hreaches⟩

/-! ### The caller fills -/

/-- The caller reads responses up to an end of input. -/
theorem Relays.fillCaller_rounds (ms : List (Message w)) (h : s.Relays x q said) (hms : ∀ m ∈ ms, m.IsResponse)
    (hbytes : s.toCaller = encode ms ++ Message.toBytes (.endOfInput : Message w)) (checks : Bool) :
    ∃ caller, Receiver.rounds ⟨s.caller, s.toCaller⟩ = .ok () ⟨caller, []⟩ ∧ caller.wire.queue = s.caller.wire.queue ∧
      Reaches (Link.step checks) (Proper registered max) s { s with caller, toCaller := [] } := by
  have hfirst : Reaches (Link.step checks) (Proper registered max) s (s.step checks .fillCaller) := .next .start trivial
  induction ms generalizing s q with
  | nil =>
    rw [encode_nil, List.nil_append] at hbytes
    have hstep : s.step checks .fillCaller = { s with caller := s.caller, toCaller := [] } := by
      show (if s.toCaller = [] then s else _ : Link w) = _
      rw [if_neg (hbytes ▸ Message.toBytes_ne_nil _), hbytes, ← List.append_nil (Message.toBytes _),
        Receiver.fillStep_message s.caller .endOfInput [] h.expects.canCall.running (by simp)]
      rfl
    rw [hstep] at hfirst
    exact ⟨s.caller, hbytes ▸ Receiver.rounds_endOfInput h.expects.canCall.running [], rfl, hfirst⟩
  | cons m ms ih =>
    rw [encode_cons, List.append_assoc] at hbytes
    have hne : s.toCaller ≠ [] := by simp [hbytes, Message.toBytes_ne_nil]
    obtain ⟨m', rest, b, caller, hbytes', hlegal, hpipe, hr, he, hstep⟩ := h.fillCaller_eq hne checks
    obtain ⟨rfl, rfl⟩ := Message.toBytes_append_inj (hbytes'.symm.trans hbytes)
    have hkind := hms m' List.mem_cons_self
    have hstyle : s.caller.wire.moduleStyle = true → ∀ p c tm b, m' ≠ .response p c tm b := fun hms =>
      absurd (h.expects.canCall.hostStyle.symm.trans hms) Bool.false_ne_true
    have hrounds := Receiver.rounds_message (encode ms ++ Message.toBytes (.endOfInput : Message w))
      h.expects.canCall.running hstyle (.inr hkind) hr
    have hqueue : caller.wire.queue = s.caller.wire.queue := by
      cases m' with
      | response p c tm bytes =>
        have hsame := congrArg Wire.queue (Site.receiveResponse_answering p c tm bytes.val s.caller).2
        rwa [show (Site.receiveResponse p c tm bytes.val).run s.caller = _ from hr] at hsame
      | _ => exact absurd hkind id
    rw [hstep] at hfirst
    obtain ⟨caller', hrounds', hqueue', hreaches⟩ :=
      ih (s := { s with caller, toCaller := _ }) ⟨he, hpipe, h.answers, h.silent, h.once, h.early, h.yields⟩
        (fun m hm => hms m (List.mem_cons_of_mem _ hm)) rfl (.next .start trivial)
    refine ⟨caller', ?_, hqueue'.trans hqueue, hfirst.trans hreaches⟩
    rw [hbytes, hrounds]
    exact hrounds'

/-! ### A round -/

/-- `flush_end` into a writer that takes everything. -/
def flushEndTo : Op (Error w) (Wire w × List UInt8) Unit := Wire.flushEnd (fun bytes => modify (· ++ bytes)) (pure ())

def callerFlushesEnd : Op (Error w) (Link w) Unit :=
  EStateM.zoom (fun s => (s.caller.wire, s.toPeer))
    (fun s x => { s with caller := { s.caller with wire := x.1 }, toPeer := x.2 }) flushEndTo

def peerFills : Op (Error w) (Link w) Unit :=
  EStateM.zoom (fun s => ⟨s.peer, s.toPeer⟩) (fun s x => { s with peer := x.site, toPeer := x.reader }) Receiver.fill

def peerFlushesEnd : Op (Error w) (Link w) Unit :=
  EStateM.zoom (fun s => (s.peer.wire, s.toCaller))
    (fun s x => { s with peer := { s.peer with wire := x.1 }, toCaller := x.2 }) flushEndTo

def callerFills : Op (Error w) (Link w) Unit :=
  EStateM.zoom (fun s => ⟨s.caller, s.toCaller⟩) (fun s x => { s with caller := x.site, toCaller := x.reader })
    Receiver.fill

/-- The caller ends its input, the peer reads it to the end and ends its own, and the caller reads that to the end. -/
def round : Op (Error w) (Link w) Unit := do
  callerFlushesEnd
  peerFills
  peerFlushesEnd
  callerFills

theorem flushEndTo_run {x : Wire w} (hx : x.terminated = false) (out : List UInt8) :
    flushEndTo.run (x, out) =
      .ok () ({ x with queue := [] }, out ++ (x.queue.flatten ++ Message.toBytes (.endOfInput : Message w))) := by
  have hflush := Wire.flushTo_run (x := x.pushMessage .endOfInput) hx out
  rw [Wire.flushTo] at hflush
  simp only [flushEndTo, Wire.flushEnd, EStateM.run_bind, EStateM.run_get, hx, Bool.false_eq_true, if_false,
    EStateM.run_zoom, Wire.signalEndOfInput, EStateM.run_modify, EStateM.Result.mapState]
  rw [hflush]
  simp [Wire.pushMessage, hx]

private theorem signal_run {t : Site w} (ht : t.wire.terminated = false) :
    (Site.onWire Wire.signalEndOfInput).run t = .ok () (t.queued .endOfInput) := by
  simp [Site.onWire, Wire.signalEndOfInput, ht, Site.queued]

/-- The caller has flushed all that it had queued, and an end of input. -/
def callerEnded (s : Link w) : Link w :=
  { s with
    caller := { s.caller with wire := { s.caller.wire with queue := [] } }
    toPeer := s.toPeer ++ (s.caller.wire.queue.flatten ++ Message.toBytes (.endOfInput : Message w)) }

def peerEnded (s : Link w) : Link w :=
  { s with
    peer := { s.peer with wire := { s.peer.wire with queue := [] } }
    toCaller := s.toCaller ++ (s.peer.wire.queue.flatten ++ Message.toBytes (.endOfInput : Message w)) }

theorem callerFlushesEnd_run (hs : s.caller.wire.terminated = false) :
    callerFlushesEnd.run s = .ok () s.callerEnded := by
  simp [callerFlushesEnd, flushEndTo_run hs, callerEnded]

theorem peerFlushesEnd_run (hs : s.peer.wire.terminated = false) : peerFlushesEnd.run s = .ok () s.peerEnded := by
  simp [peerFlushesEnd, flushEndTo_run hs, peerEnded]

theorem peerFills_run {peer : Site w} (hs : s.peer.wire.terminated = false)
    (hr : Receiver.rounds ⟨s.peer, s.toPeer⟩ = .ok () ⟨peer, []⟩) :
    peerFills.run s = .ok () { s with peer, toPeer := [] } := by
  rw [peerFills, EStateM.run_zoom, Receiver.fill_run _ hs, hr]
  rfl

theorem callerFills_run {caller : Site w} (hs : s.caller.wire.terminated = false)
    (hr : Receiver.rounds ⟨s.caller, s.toCaller⟩ = .ok () ⟨caller, []⟩) :
    callerFills.run s = .ok () { s with caller, toCaller := [] } := by
  rw [callerFills, EStateM.run_zoom, Receiver.fill_run _ hs, hr]
  rfl

/-- Ending an input is two steps of the link. -/
theorem reaches_callerEnded (hs : s.caller.wire.terminated = false) (checks : Bool) :
    Reaches (step checks) (Proper registered max) s s.callerEnded := by
  have hsignal : s.step checks .signalCaller = { s with caller := s.caller.queued .endOfInput } := by
    show ({ s with caller := ((Site.onWire Wire.signalEndOfInput).run s.caller).state } : Link w) = _
    rw [signal_run hs]
    rfl
  have hflush : (s.step checks .signalCaller).step checks .flushCaller = s.callerEnded := by
    rw [hsignal, step, Wire.flushTo_run (x := (s.caller.queued .endOfInput).wire) hs]
    simp [Site.queued, Wire.pushMessage, callerEnded]
  rw [← hflush]
  refine .next (.next .start ?_) ?_ <;> trivial

theorem reaches_peerEnded (hs : s.peer.wire.terminated = false) (checks : Bool) :
    Reaches (step checks) (Proper registered max) s s.peerEnded := by
  have hsignal : s.step checks .signalPeer = { s with peer := s.peer.queued .endOfInput } := by
    show ({ s with peer := ((Site.onWire Wire.signalEndOfInput).run s.peer).state } : Link w) = _
    rw [signal_run hs]
    rfl
  have hflush : (s.step checks .signalPeer).step checks .flushPeer = s.peerEnded := by
    rw [hsignal, step, Wire.flushTo_run (x := (s.peer.queued .endOfInput).wire) hs]
    simp [Site.queued, Wire.pushMessage, peerEnded]
  rw [← hflush]
  refine .next (.next .start ?_) ?_ <;> trivial

/-! ### Runs of rounds -/

/-- Both sides and what is between them are in order. -/
def Exchanging (x y : Surroundings w) (results : ProcedureIndex w → List UInt8 → Payload)
    (registered : ProcedureIndex w → Prop) (max : Nat) (s : Link w) : Prop :=
  (∃ q said, s.Relays x q said) ∧ ∃ v u, s.Exchanges y results registered max v u

theorem Exchanging.reaches (h : s.Exchanging x y results registered max)
    (hs : Reaches (step checks) (Proper registered max) s s') : s'.Exchanging x y results registered max := by
  refine hs.invariant h fun s a hI ha => ?_
  obtain ⟨⟨q, said, hq⟩, v, u, h⟩ := hI
  exact ⟨hq.step (h.orderly ha), h.step hq ha⟩

/-- Nothing is on the way, and the caller has only made calls since. -/
structure Rested (s : Link w) : Prop where
  toPeer : s.toPeer = []
  toCaller : s.toCaller = []
  peer : s.peer.wire.queue = []
  caller : s.caller.wire.Holds Message.IsCall

/-- A round ends without an error and leaves nothing on the way.  It is a run of the link. -/
theorem Exchanging.round_run (h : s.Exchanging x y results registered max) (hrest : s.Rested)
    (hroom : s.peer.interface.messages.size + s.caller.wire.queue.length < 2 ^ w.bits) (checks : Bool) :
    ∃ s', round.run s = .ok () s' ∧ Reaches (Link.step checks) (Proper registered max) s s' ∧ s'.calls = s.calls ∧
      s'.caller.wire.queue = [] ∧ s'.toPeer = [] ∧ s'.peer.wire.queue = [] ∧ s'.toCaller = [] := by
  obtain ⟨htoPeer, htoCaller, hqueue, ms, hms, hcaller⟩ := hrest
  obtain ⟨⟨q, said, hq⟩, v, u, he⟩ := id h
  have hcanCall := hq.expects.canCall.running
  -- the caller ends its input
  have hends : Reaches (Link.step checks) (Proper registered max) s s.callerEnded := reaches_callerEnded hcanCall checks
  obtain ⟨-, v₁, u₁, he₁⟩ := h.reaches hends
  -- the peer serves the calls
  obtain ⟨peer, hrounds, hholds, hserves⟩ := he₁.fillPeer_rounds ms hms
    (by rw [callerEnded, htoPeer, hcaller]; rfl) (by rwa [hcaller, List.length_map] at hroom) (.of_nil hqueue) checks
  replace hserves := hends.trans hserves
  obtain ⟨-, v₂, u₂, he₂⟩ := h.reaches hserves
  -- the peer ends its input
  replace hserves := hserves.trans (reaches_peerEnded he₂.hears.running checks)
  obtain ⟨⟨q₃, said₃, hq₃⟩, -⟩ := h.reaches hserves
  -- the caller takes the responses in
  obtain ⟨ms', hms', hpeer⟩ := hholds
  obtain ⟨caller, hrounds', hqueue', htakes⟩ := hq₃.fillCaller_rounds ms' hms'
    (by simp only [peerEnded, callerEnded, htoCaller, hpeer]; rfl) checks
  refine ⟨_, ?_, hserves.trans htakes, rfl, hqueue', rfl, rfl, rfl⟩
  rw [round, EStateM.run_bind_ok (callerFlushesEnd_run hcanCall),
    EStateM.run_bind_ok (peerFills_run he₁.hears.running hrounds),
    EStateM.run_bind_ok (peerFlushesEnd_run he₂.hears.running)]
  exact callerFills_run hq₃.expects.canCall.running hrounds'

/-! ### Turns -/

/-- What the two programs do together: the first one makes calls and waits for them, and there are rounds. -/
inductive Turn (w : IntFeature)
  | act (a : LinkAction w)
  | round

def turn (checks : Bool) (s : Link w) : Turn w → Link w
  | .act a => s.step checks a
  | .round => (round.run s).state

/-- The turns within the limits; a round may need room for each of the messages that are read in it. -/
def Takes (registered : ProcedureIndex w → Prop) (max : Nat) (s : Link w) : Turn w → Prop
  | .act a => a.IsLocal ∧ s.Proper registered max a
  | .round => s.peer.interface.messages.size + s.caller.wire.queue.length < 2 ^ w.bits

theorem Rested.calls {m : Message w} (h : s.Rested) {caller : Site w} {calls : List (CallRecord w)} (hm : m.IsCall)
    (hqueue : caller.wire.queue = s.caller.wire.queue ++ [m.toBytes]) : ({ s with caller, calls } : Link w).Rested where
  toPeer := h.toPeer
  toCaller := h.toCaller
  peer := h.peer
  caller := h.caller.append [m] (by simpa using hm) hqueue

theorem Rested.act (h : s.Rested) (hs : s.Exchanging x y results registered max) {a : LinkAction w} (hlocal : a.IsLocal)
    (ha : s.Proper registered max a) : (s.step checks a).Rested := by
  obtain ⟨⟨q, said, hq⟩, v, u, he⟩ := hs
  cases a with
  | startCall p args =>
    rw [he.startCall_eq ha]
    exact h.calls (m := .call p (s.caller.nextIdx p) .none args) trivial rfl
  | callWithBytes p args =>
    rw [he.callWithBytes_eq ha]
    exact h.calls (m := .call p (s.caller.nextIdx p) .complete args) trivial rfl
  | continueCall n args =>
    cases hn : s.calls[n]? with
    | none => exact ((Exchanges.step_of_none hn).1 args).symm ▸ h
    | some r =>
      rw [he.continueCall_eq hn ha.1]
      exact h.calls (m := .call r.procedureIdx r.callIdx .none args) trivial rfl
  | endCall n =>
    cases hn : s.calls[n]? with
    | none => exact (Exchanges.step_of_none hn).2.symm ▸ h
    | some r =>
      obtain ⟨g, heq⟩ := Exchanges.endCall_eq checks hq hn (ha r hn)
      rw [heq]
      exact h.calls (m := .call r.procedureIdx r.callIdx .complete .empty) trivial rfl
  | waitBytes n =>
    obtain ⟨caller, ⟨idle, hwire⟩, hstep⟩ := Exchanges.waitBytes_eq s n checks
    have hholds : caller.wire.Holds Message.IsCall := by
      rw [hwire]
      exact h.caller
    rcases hstep with heq | ⟨r, chunks, -, heq⟩ <;> rw [heq]
    · exact ⟨h.toPeer, h.toCaller, h.peer, hholds⟩
    · exact ⟨h.toPeer, h.toCaller, h.peer, hholds⟩
  | _ => exact hlocal.elim

/-- Every turn is a run of the link. -/
theorem Rested.turn (h : s.Rested) (hs : s.Exchanging x y results registered max) {a : Turn w}
    (ha : s.Takes registered max a) (checks : Bool) :
    (s.turn checks a).Rested ∧ Reaches (step checks) (Proper registered max) s (s.turn checks a) := by
  cases a with
  | act a => exact ⟨h.act hs ha.1 ha.2, .next .start ha.2⟩
  | round =>
    obtain ⟨s', hr, hreaches, -, hcaller, htoPeer, hpeer, htoCaller⟩ := hs.round_run h ha checks
    rw [show s.turn checks .round = s' from congrArg EStateM.Result.state hr]
    exact ⟨⟨htoPeer, htoCaller, hpeer, .of_nil hcaller⟩, hreaches⟩

section

variable {caller peer : Interface w} {id id' : WireId w} {moduleStyle : Bool} {max max' : IpfiInteger w}

/-- However two programs have taken turns, a round ends without an error and leaves nothing on the way: all calls that
have been ended have been executed, once and on all their pieces, and their handles return what has come of them.  To
the two sides the turns are a run of single messages. -/
theorem round_returns_results (hcaller : Site.InCustody ⟨caller, .new id false max⟩ x)
    (hpeer : Site.InCustody ⟨peer, .new id' moduleStyle max'⟩ y)
    (hkeys : ∀ p c, peer.callToBufferMap.lookup (p, c, id') = none)
    (hregistered : ∀ p, registered p → peer.procedures.lookup p = some (.standard fun args => .ok (results p args)))
    (hs : Reaches (turn checks) (Takes registered max'.toNat) (connect caller peer id id' moduleStyle max max') s)
    (hroom : s.peer.interface.messages.size + s.caller.wire.queue.length < 2 ^ w.bits) :
    ∃ s', round.run s = .ok () s' ∧
      Reaches (step checks) (Proper registered max'.toNat) (connect caller peer id id' moduleStyle max max') s ∧
      Reaches (step checks) (Proper registered max'.toNat) s s' ∧
      s'.calls = s.calls ∧ s'.caller.wire.queue = [] ∧ s'.toPeer = [] ∧ s'.peer.wire.queue = [] ∧ s'.toCaller = [] ∧
      ∀ r ∈ s.calls, r.handle ≠ none → s'.peer.wire.argsOf r.pair = [r.args] ∧
        ∀ h, r.held = some h → ∃ t, h.waitBytes.run s'.caller = .ok [(results r.procedureIdx r.args).val] t := by
  have hstart : (connect caller peer id id' moduleStyle max max').Exchanging x y results registered max'.toNat :=
    ⟨⟨_, _, (connect_outstanding hcaller).relays⟩, _, _, connect_hears hpeer hkeys hregistered, .empty _,
      connect_asks caller id max _, rfl⟩
  obtain ⟨hreaches, hrest⟩ : Reaches (step checks) (Proper registered max'.toNat) _ s ∧ s.Rested := by
    refine hs.invariant (I := fun s => Reaches (step checks) (Proper registered max'.toNat)
      (connect caller peer id id' moduleStyle max max') s ∧ s.Rested) ⟨.start, rfl, rfl, rfl, .of_nil rfl⟩ ?_
    intro s a hI ha
    obtain ⟨hrest, hturn⟩ := hI.2.turn (hstart.reaches hI.1) ha checks
    exact ⟨hI.1.trans hturn, hrest⟩
  have h := hstart.reaches hreaches
  obtain ⟨s', hr, hround, hcalls, hqueue, htoPeer, hqueue', htoCaller⟩ := h.round_run hrest hroom checks
  obtain ⟨⟨q, said, hq⟩, v, u, he⟩ := h.reaches hround
  refine ⟨s', hr, hreaches, hround, hcalls, hqueue, htoPeer, hqueue', htoCaller, fun r hr hne => ?_⟩
  rw [← hcalls] at hr
  have hexec := he.executed_of_read hqueue htoPeer hr hne
  refine ⟨Wire.argsOf_eq_singleton he.executed_nodup hexec, fun g hg => ?_⟩
  obtain ⟨e, hex⟩ := List.mem_iff_getElem?.1 hexec
  have hreplies := he.repliesOf_eq hr hex
  have hwait := hq.waitBytes_eq hqueue' htoCaller hr hg hex
  rw [hreplies] at hwait
  exact hwait ⟨[], _, rfl, by simp⟩

end

/-- The arguments in reverse order. -/
private def backwards (_ : ProcedureIndex .u32) (args : List UInt8) : Payload :=
  ⟨(args.take 4).reverse, by rw [List.length_reverse]; exact (List.length_take_le 4 args).trans (by decide)⟩

private def backwardsPeer : Interface .u32 :=
  Interface.new.addProcedure ⟨5⟩ (.standard fun args => .ok (backwards ⟨5⟩ args))

/-- A call that lasts over a round, next to one that does not. -/
private def turns : List (Turn .u32) :=
  [.act (.startCall ⟨5⟩ ⟨[81], by decide⟩), .act (.callWithBytes ⟨5⟩ ⟨[82], by decide⟩), .round,
    .act (.continueCall 0 ⟨[83], by decide⟩), .act (.waitBytes 1), .act (.endCall 0)]

private def taken : Link .u32 := turns.foldl (turn true) (connect .new backwardsPeer ⟨0⟩ ⟨0⟩ false 2 2)

private theorem taken_reaches :
    Reaches (turn true) (Takes (· = ⟨5⟩) 2) (connect .new backwardsPeer ⟨0⟩ ⟨0⟩ false 2 2) taken := by
  unfold taken turns
  simp only [List.foldl_cons, List.foldl_nil]
  refine .next (.next (.next (.next (.next (.next .start ?_) ?_) ?_) ?_) ?_) ?_
  · exact ⟨trivial, by decide, rfl, by decide +kernel, by decide +kernel, by decide +kernel⟩
  · exact ⟨trivial, rfl, by decide +kernel, by decide +kernel, by decide +kernel⟩
  · show _ < _
    decide +kernel
  · exact ⟨trivial, by decide, open_of_all (by decide +kernel)⟩
  · exact ⟨trivial, trivial⟩
  · exact ⟨trivial, open_of_all (by decide +kernel)⟩

private def lastingHandle : CallHandle .u32 := (taken.calls[0]?.bind CallRecord.held).get (by decide +kernel)

theorem round_returns_results_lasting :
    ∃ s' t, round.run taken = .ok () s' ∧ lastingHandle.waitBytes.run s'.caller = .ok [[83, 81]] t := by
  have hpeer : backwardsPeer.WellFormed :=
    Interface.new_wellFormed.congr rfl rfl (Nat.le_refl _) (Nat.le_refl _) fun _ h => h
  have hregistered : ∀ p, p = ⟨5⟩ →
      backwardsPeer.procedures.lookup p = some (.standard fun args => .ok (backwards p args)) := by
    rintro p rfl
    rfl
  obtain ⟨s', hr, -, -, -, -, -, -, -, hall⟩ := round_returns_results
    (Site.new_inCustody Interface.new_wellFormed rfl ⟨0⟩ false 2) (Site.new_inCustody hpeer rfl ⟨0⟩ false 2)
    (fun _ _ => rfl) hregistered taken_reaches (by decide +kernel)
  have hsome : (taken.calls[0]?.bind CallRecord.held) = some lastingHandle := (Option.some_get _).symm
  obtain ⟨r, hr₀, hheld⟩ := Option.bind_eq_some_iff.1 hsome
  have hargs : taken.calls[0]?.map (fun r => (r.procedureIdx, r.args)) = some (⟨5⟩, [81, 83]) := by decide +kernel
  rw [hr₀, Option.map_some, Option.some_inj] at hargs
  obtain ⟨hp, ha⟩ := Prod.mk.inj hargs
  have hne : r.handle ≠ none := by
    rw [(CallRecord.held_eq_some.1 hheld).2]
    exact Option.some_ne_none _
  obtain ⟨t, ht⟩ := (hall r (List.mem_of_getElem? hr₀) hne).2 lastingHandle hheld
  rw [ha] at ht
  exact ⟨s', t, hr, ht⟩

end Link

end Ipfi
