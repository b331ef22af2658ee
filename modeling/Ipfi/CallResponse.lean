import Ipfi.CallSteps
import Ipfi.Answers
import Ipfi.WorldCustody

/-!
# A call next to the reader and the writer of its wire

The message of a call is on the queue before the call looks up its response buffer, so the answer may be processed in
between.  As long as the last part of the answer is not, the call returns a handle on the buffer that gathers it.
-/

namespace Ipfi

variable {w : IntFeature}

namespace CallMethod

variable {checks : Bool} {m : CallMethod w} {s : Site w} {p : ProcedureIndex w} {c : CallIndex w} {b : IpfiInteger w}

/-- The call index that the method works for, once it has one. -/
def expects (m : CallMethod w) : CallPlace w → Option (CallIndex w)
  | .begin =>
    match m with
    | endGivenCall _ c => some c
    | _ => none
  | a => a.callIdx?

/-- What a method that returns a handle starts from: `end_given_call` is called on a call that is started, and whose
response has arrived in the given parts so far. -/
def Begins (m : CallMethod w) (s : Site w) (parts : List Site.Part) : Prop :=
  match m with
  | startCallWithPartialBytes _ _ => False
  | callWithBytes _ _ => parts = []
  | endGivenCall p c => ∃ b l, s.Accumulates p c b l (Site.chunksOf parts) ∧ ∀ q ∈ parts, q.2 ≠ .complete

theorem Begins.queued {parts : List Site.Part} (h : m.Begins s parts) (c : CallIndex w) :
    m.queued c = .findResponse c := by
  cases m with
  | startCallWithPartialBytes p args => exact h.elim
  | callWithBytes p args => rfl
  | endGivenCall p c => rfl

theorem advance_findResponse (h : s.Awaits m.procedureIdx c b) :
    (m.advance checks (.findResponse c)).run s = .ok (.register c b) s := by
  simp [advance, Site.onWire, Wire.getResponseIdx, h.running, h.mapped]

theorem advance_register {m' : MessageBuffer} (h : s.interface.messages.lookup b = some m') :
    (m.advance checks (.register c b)).run s =
      .ok (.returned c (some ⟨b, m'.completeLock⟩)) (s.handled b m'.completeLock) := by
  simp [advance, Site.onWire, Interface.getCompleteLock, h, Site.handled]

end CallMethod

namespace CallPlace

/-- Before the response buffer of the call is looked up. -/
def unlocated : CallPlace w → Bool
  | .begin | .queueMessage _ | .findResponse _ => true
  | _ => false

end CallPlace

/-- A thread in a calling method on a wire that receives and is flushed in between. -/
structure ServedCall (w : IntFeature) where
  site : Site w
  call : CallPlace w
  /-- A history variable: whether the message of the call has been queued. -/
  sent : Bool
  /-- A history variable: the parts of the response that have arrived. -/
  parts : List Site.Part

namespace ServedCall

inductive Event
  | caller
  /-- `flush_partial` into a writer that takes everything. -/
  | flush
  /-- `receive_one` on a reader with the given bytes. -/
  | receiveOne (reader : List UInt8)

def start (s : Site w) (parts : List Site.Part) : ServedCall w := ⟨s, .begin, false, parts⟩

/-- The message that an event makes the wire receive. -/
def incoming? (x : ServedCall w) : Event → Option (Incoming w)
  | .receiveOne reader => (Site.ServeAction.receiveOne reader).message? x.site
  | _ => none

/-- The part of the response that a message is. -/
def partOf (m : CallMethod w) (x : ServedCall w) (msg : Incoming w) : List Site.Part :=
  match m.expects x.call with
  | some c => x.site.partOf m.procedureIdx c msg
  | none => []

/-- The parts after a step of the call: a new response begins when it is mapped. -/
def partsAfter (parts : List Site.Part) : CallPlace w → List Site.Part
  | .mapResponse _ _ => []
  | _ => parts

def step (checks : Bool) (m : CallMethod w) (x : ServedCall w) : Event → ServedCall w
  | .caller =>
    let y := m.next checks x.call x.site
    { site := y.2
      call := y.1
      sent := x.sent || decide (x.site.wire.queue.length < y.2.wire.queue.length)
      parts := partsAfter x.parts x.call }
  | .flush => { x with site := ((Site.onWire World.flushToSink).run x.site).state }
  | .receiveOne reader =>
    { x with
      site := x.site.serveStep (.receiveOne reader)
      parts := match x.incoming? (.receiveOne reader) with
        | some msg => x.parts ++ x.partOf m msg
        | none => x.parts }

/-- An event that does not terminate the wire. -/
def Unterminated (x : ServedCall w) (e : Event) : Prop := x.incoming? e ≠ some .termination

/-- The end of the response is not received before the call has looked up its buffer, and there is an identifier left
for each message buffer that is made. -/
structure Unhurried (m : CallMethod w) (x : ServedCall w) (e : Event) : Prop where
  pushes : ∀ c, e = .caller → x.call = .pushBuffer c → x.site.interface.messages.size < 2 ^ w.bits
  begins : ∀ msg, x.incoming? e = some msg → x.site.RoomFor msg
  unterminated : x.Unterminated e
  later : ∀ {c bytes}, x.incoming? e = some (.response m.procedureIdx c .complete bytes) → m.expects x.call = some c →
    x.call.unlocated = false

variable {checks : Bool} {m : CallMethod w} {x : ServedCall w} {s : Site w} {k : Nat} {parts : List Site.Part}

/-- The wire alone, where the rest of its interface does not matter. -/
private def alone (k : Nat) : Surroundings w := ⟨k, fun _ _ => none, fun _ _ => False⟩

/-- The response is awaited, and has arrived in the given parts so far. -/
def Asked (s : Site w) (p : ProcedureIndex w) (c : CallIndex w) (parts : List Site.Part) : Prop :=
  ∃ b l, s.Accumulates p c b l (Site.chunksOf parts) ∧ ∀ q ∈ parts, q.2 ≠ .complete

/-- A new buffer that is not yet mapped. -/
structure Pushed (k : Nat) (s : Site w) (b : IpfiInteger w) (l : LockRef) : Prop where
  unheld : s.Unheld (alone k) b
  unknown : ∀ j, ¬ s.knows (alone k) j l
  buffer : s.interface.messages.lookup b = some { chunks := [[]], completeLock := l, sender := none }
  lock : s.interface.locks l = .incomplete

/-- What holds at each place of the method. -/
def Placed (m : CallMethod w) (k : Nat) (s : Site w) (sent : Bool) (parts : List Site.Part) : CallPlace w → Prop
  | .begin => sent = false ∧ m.Begins s parts
  | .lookUpCounter | .insertFirst | .pushBuffer _ | .failed _ _ => sent = false
  | .mapResponse _ b => sent = false ∧ ∃ l, Pushed k s b l
  | .queueMessage c => sent = false ∧ Asked s m.procedureIdx c parts
  | .findResponse c => Asked s m.procedureIdx c parts
  | .register c b => ∃ l, s.Responds m.procedureIdx c b l parts
  | .returned c h => ∃ h', h = some h' ∧ s.Responds m.procedureIdx c h'.responseIdx h'.completeLock parts

structure Tracks (m : CallMethod w) (k : Nat) (x : ServedCall w) : Prop where
  custody : x.site.InCustody (alone k)
  running : x.site.wire.terminated = false
  placed : Placed m k x.site x.sent x.parts x.call

/-! ### Receiving -/

private theorem Asked.receive {p : ProcedureIndex w} {c : CallIndex w} {msg : Incoming w} (h : Asked s p c parts)
    (hs : s.InCustody (alone k)) (hroom : s.RoomFor msg) (hm : msg ≠ .termination)
    (hlast : ∀ bytes, msg ≠ .response p c .complete bytes) :
    Asked ((Site.receive msg).run s).state p c (parts ++ s.partOf p c msg) := by
  obtain ⟨b, l, h, hparts⟩ := h
  have hnot : ∀ q ∈ parts ++ s.partOf p c msg, q.2 ≠ .complete := by
    intro q hq
    rcases List.mem_append.1 hq with hold | hnew
    · exact hparts q hold
    · unfold Site.partOf at hnew
      split at hnew
      · split at hnew
        · rename_i hkey
          obtain ⟨rfl, rfl⟩ := Prod.mk.inj hkey.1
          obtain rfl := List.mem_singleton.1 hnew
          rintro rfl
          exact hlast _ rfl
        · cases hnew
      · cases hnew
  rcases h.receive hparts hs hroom hm with ⟨h', -⟩ | ⟨-, ⟨init, bytes, heq, -⟩, -⟩
  · exact ⟨b, l, h', hnot⟩
  · exact absurd rfl (hnot (bytes, .complete) (by simp [heq]))

private theorem Pushed.receive {b : IpfiInteger w} {l : LockRef} {msg : Incoming w} (h : Pushed k s b l)
    (hs : s.InCustody (alone k)) (hroom : s.RoomFor msg) (hm : msg ≠ .termination) :
    Pushed k ((Site.receive msg).run s).state b l := by
  obtain ⟨hsame, hunheld⟩ := Site.receive_unheld hs hroom hm h.unheld
  obtain ⟨hb, hl, -⟩ := hsame _ h.buffer
  refine ⟨hunheld, fun j hj => h.unknown j ?_, hb, hl.trans h.lock⟩
  rcases hj with hj | hj
  · exact .inl hj
  · rw [Site.receive_idleCallHandles] at hj
    exact .inr hj

private theorem Placed.receive {a : CallPlace w} {sent : Bool} {msg : Incoming w} (h : Placed m k s sent parts a)
    (hs : s.InCustody (alone k)) (hroom : s.RoomFor msg) (hm : msg ≠ .termination)
    (hlast : ∀ c bytes, msg = .response m.procedureIdx c .complete bytes → m.expects a = some c → a.unlocated = false) :
    Placed m k ((Site.receive msg).run s).state sent (parts ++ partOf m ⟨s, a, sent, parts⟩ msg) a := by
  have hlast' {c : CallIndex w} (ha : a.unlocated = true) (hc : m.expects a = some c) :
      ∀ bytes, msg ≠ .response m.procedureIdx c .complete bytes := fun bytes heq => by
    rw [hlast c bytes heq hc] at ha
    cases ha
  cases a with
  | begin =>
    refine ⟨h.1, ?_⟩
    cases m with
    | startCallWithPartialBytes p args => exact h.2.elim
    | callWithBytes p args => rw [show parts = [] from h.2]; rfl
    | endGivenCall p c => exact Asked.receive h.2 hs hroom hm (hlast' rfl rfl)
  | lookUpCounter | insertFirst | pushBuffer c | failed c e => exact h
  | mapResponse c b =>
    obtain ⟨hsent, l, h⟩ := h
    exact ⟨hsent, l, h.receive hs hroom hm⟩
  | queueMessage c => exact ⟨h.1, h.2.receive hs hroom hm (hlast' rfl rfl)⟩
  | findResponse c => exact Asked.receive h hs hroom hm (hlast' rfl rfl)
  | register c b =>
    obtain ⟨l, h⟩ := h
    exact ⟨l, h.receive hs hroom hm⟩
  | returned c h' =>
    obtain ⟨h', rfl, h⟩ := h
    exact ⟨h', rfl, h.receive hs hroom hm⟩

/-! ### The steps of the call -/

private theorem own_alone {o : Owner w} {b : IpfiInteger w} {s' : Site w}
    (hi : s'.interface.callToBufferMap = s.interface.callToBufferMap)
    (hr : s'.wire.responseIdxMap = s.wire.responseIdxMap) (ho : s'.own (alone k) o = some b) :
    s.own (alone k) o = some b := by
  cases o with
  | args key => exact (congrArg (AList.lookup key) hi).symm.trans ho
  | response j call => simpa only [Site.own, hr] using ho

private theorem pushed_inCustody (hs : s.InCustody (alone k)) (hroom : s.interface.messages.size < 2 ^ w.bits) :
    Site.InCustody { s with interface := s.interface.push.2 } (alone k) :=
  Custody.evolve (i := s.interface) hs (Interface.push_evolves hs.wellFormed hroom fun _ => False) fun ho =>
    .inl ⟨own_alone rfl rfl ho, False.elim⟩

private theorem pushed_pushed (hs : s.InCustody (alone k)) (hroom : s.interface.messages.size < 2 ^ w.bits) :
    Pushed k { s with interface := s.interface.push.2 } s.interface.push.1 s.interface.lockCount where
  unheld := ⟨(Interface.push_open _).mem, fun _ ho =>
    Interface.push_notMem hs.wellFormed hroom (hs.opened (own_alone rfl rfl ho)).mem⟩
  unknown _ hj := Nat.lt_irrefl _ (hs.lt hj)
  buffer := (Interface.lookup_push _ _).trans (if_pos rfl)
  lock := Interface.push_locks_self _

/-- The site in which the buffer `b` is mapped to the call. -/
private def mapped (s : Site w) (key : ProcedureIndex w × CallIndex w) (b : IpfiInteger w) : Site w :=
  { s with wire := { s.wire with responseIdxMap := s.wire.responseIdxMap.insert key b } }

private theorem mapped_inCustody {b : IpfiInteger w} {l : LockRef} (hs : s.InCustody (alone k)) (h : Pushed k s b l)
    (key : ProcedureIndex w × CallIndex w) : (mapped s key b).InCustody (alone k) := by
  have hl : s.interface.locks l ≠ .complete := by rw [h.lock]; decide
  refine Custody.give (.response k key) hs h.buffer hl h.unheld.free h.unknown fun {o b'} ho => ?_
  cases o with
  | args key => exact .inl ho
  | response j call =>
    by_cases hj : j = k
    · subst hj
      replace ho : (s.wire.responseIdxMap.insert key b).lookup call = some b' := (if_pos rfl).symm.trans ho
      rw [AList.lookup_insert_eq] at ho
      split at ho
      · subst_vars
        exact .inr ⟨rfl, (Option.some.inj ho).symm⟩
      · exact .inl ((if_pos rfl).trans ho)
    · exact .inl ((if_neg hj).trans ((if_neg hj).symm.trans ho))

private theorem handled_alone {p : ProcedureIndex w} {c : CallIndex w} {b : IpfiInteger w} {l : LockRef}
    (hs : s.InCustody (alone k)) (h : s.Responds p c b l parts) : (s.handled b l).InCustody (alone k) := by
  rcases h with ⟨h, -⟩ | ⟨h, -⟩
  · exact Site.handled_inCustody hs h.awaits h.buffer
  · refine Custody.mark_free (k := k) hs h.buffer (h.unheld hs).free (fun _ hj => (hj.resolve_left id).1) fun hl => ?_
    rcases hl with hl | ⟨rfl, hl⟩
    · exact False.elim hl
    · exact (AList.mem_values_insert hl).imp (fun hl => .inr ⟨rfl, hl⟩) fun hl => ⟨rfl, hl⟩

private theorem Asked.congr {p : ProcedureIndex w} {c : CallIndex w} {s' : Site w} (h : Asked s p c parts)
    (hi : s'.interface = s.interface) (hr : s'.wire.responseIdxMap = s.wire.responseIdxMap)
    (ht : s'.wire.terminated = s.wire.terminated) : Asked s' p c parts := by
  obtain ⟨b, l, h, hparts⟩ := h
  refine ⟨b, l, h.of_same ⟨ht.trans h.awaits.running, ?_⟩ ?_, hparts⟩
  · rw [hr]; exact h.awaits.mapped
  · rw [hi]; exact .rfl

private theorem sent_stays {sent : Bool} (n : Nat) : (sent || decide (n < n)) = sent := by simp

private theorem Placed.moves {a a' : CallPlace w} {s' : Site w} {sent : Bool} (hmoves : m.Moves checks s a a' s')
    (h : Placed m k s sent parts a) (hs : s.InCustody (alone k)) (hrun : s.wire.terminated = false)
    (hroom : ∀ c, a = .pushBuffer c → s.interface.messages.size < 2 ^ w.bits)
    (hends : ∀ c, m.queued c = .findResponse c) :
    s'.InCustody (alone k) ∧ s'.wire.terminated = false ∧
    Placed m k s' (sent || decide (s.wire.queue.length < s'.wire.queue.length))
      (partsAfter parts a) a' := by
  cases hmoves with
  | fails hfail =>
    refine ⟨hs, hrun, (sent_stays _).trans ?_⟩
    -- where it can fail nothing has been sent, or the call has not been made
    cases a with
    | begin | mapResponse | queueMessage => exact h.1
    | lookUpCounter | insertFirst | pushBuffer | failed => exact h
    | findResponse c =>
      obtain ⟨b, l, h, -⟩ := h
      rw [CallMethod.advance_findResponse h.awaits] at hfail
      cases hfail
    | register c b =>
      obtain ⟨l, h⟩ := h
      obtain ⟨m', hm'⟩ : ∃ m', s.interface.messages.lookup b = some m' :=
        h.elim (fun h => ⟨_, h.1.buffer⟩) fun h => ⟨_, h.1.buffer⟩
      rw [CallMethod.advance_register hm'] at hfail
      cases hfail
    | returned c h => cases hfail
  | begins =>
    refine ⟨hs, hrun, ?_⟩
    rw [sent_stays]
    cases m with
    | startCallWithPartialBytes p args => exact h.2.elim
    | callWithBytes p args => exact h.1
    | endGivenCall p c => exact h
  | found | inserted => exact ⟨hs.congr rfl rfl rfl, hrun, (sent_stays _).trans h⟩
  | missed => exact ⟨hs, hrun, (sent_stays _).trans h⟩
  | pushed =>
    replace hroom := hroom _ rfl
    exact ⟨pushed_inCustody hs hroom, hrun, (sent_stays _).trans h, _, pushed_pushed hs hroom⟩
  | @mapped c b =>
    obtain ⟨hsent, l, h⟩ := h
    exact ⟨mapped_inCustody hs h _, hrun, (sent_stays _).trans hsent, b, l,
      ⟨⟨hrun, AList.lookup_insert _⟩, h.buffer, h.lock⟩, fun _ hq => absurd hq List.not_mem_nil⟩
  | @queued c =>
    refine ⟨hs.congr rfl rfl rfl, hrun, ?_⟩
    have h' : Asked { s with wire := s.wire.pushMessage (m.message c) } m.procedureIdx c parts := h.2.congr rfl rfl rfl
    show Placed m k _ _ parts (m.queued c)
    rw [hends]
    exact h'
  | located _ hb =>
    obtain ⟨b', l, h, hparts⟩ := h
    cases hb.symm.trans h.awaits.mapped
    exact ⟨hs, hrun, l, .inl ⟨h, hparts⟩⟩
  | registered hl =>
    obtain ⟨l, h⟩ := h
    have hbuf := h.elim (fun h => h.1.buffer) fun h => h.1.buffer
    rw [Interface.getCompleteLock, hbuf] at hl
    cases hl
    exact ⟨handled_alone hs h, hrun, _, rfl, h.congr rfl rfl rfl⟩
  | returned =>
    obtain ⟨h', rfl, h⟩ := h
    exact ⟨hs, hrun, h', rfl, h⟩
  | failed => exact ⟨hs, hrun, (sent_stays _).trans h⟩

/-! ### Runs -/

private theorem Placed.flush {a : CallPlace w} {sent : Bool} (h : Placed m k s sent parts a)
    (queue : List (List UInt8)) :
    Placed m k { s with wire := { s.wire with queue } } sent parts a := by
  cases a with
  | begin =>
    refine ⟨h.1, ?_⟩
    cases m with
    | startCallWithPartialBytes p args => exact h.2
    | callWithBytes p args => exact h.2
    | endGivenCall p c => exact Asked.congr h.2 rfl rfl rfl
  | lookUpCounter | insertFirst | pushBuffer | failed => exact h
  | mapResponse c b =>
    obtain ⟨hsent, l, h⟩ := h
    refine ⟨hsent, l, ⟨h.unheld.mem, fun o ho => h.unheld.free o ?_⟩, h.unknown, h.buffer, h.lock⟩
    exact own_alone rfl rfl ho
  | queueMessage c => exact ⟨h.1, h.2.congr rfl rfl rfl⟩
  | findResponse c => exact Asked.congr h rfl rfl rfl
  | register c b =>
    obtain ⟨l, h⟩ := h
    exact ⟨l, Site.Responds.congr h rfl rfl rfl⟩
  | returned c h' =>
    obtain ⟨h', rfl, h⟩ := h
    exact ⟨h', rfl, Site.Responds.congr h rfl rfl rfl⟩

private theorem Tracks.step (h : x.Tracks m k) (hends : ∀ c, m.queued c = .findResponse c) {e : Event}
    (he : x.Unhurried m e) : (x.step checks m e).Tracks m k := by
  cases e with
  | caller =>
    have hmoves := CallMethod.next_moves checks m x.call x.site
    obtain ⟨hs, hrun, hplaced⟩ := h.placed.moves hmoves h.custody h.running (fun c => he.pushes c rfl) hends
    exact ⟨hs, hrun, hplaced⟩
  | flush =>
    have hsite : ((Site.onWire World.flushToSink).run x.site).state =
        { x.site with wire := { x.site.wire with queue := [] } } := by
      refine (EStateM.Result.state_mapState _ _).trans ?_
      rw [World.flushToSink_state, if_neg (by rw [h.running]; decide)]
    refine ⟨?_, ?_, ?_⟩ <;> simp only [ServedCall.step, hsite]
    · exact h.custody.congr rfl rfl rfl
    · exact h.running
    · exact h.placed.flush []
  | receiveOne reader =>
    have hsite : x.site.serveStep (.receiveOne reader) = _ := Site.receiveOne_site x.site reader
    have hincoming : x.incoming? (.receiveOne reader) = (Site.ServeAction.receiveOne reader).message? x.site := rfl
    cases hmsg : (Site.ServeAction.receiveOne reader).message? x.site with
    | none =>
      rw [hmsg] at hsite hincoming
      refine ⟨?_, ?_, ?_⟩ <;> simp only [ServedCall.step, hsite, hincoming]
      · exact h.custody
      · exact h.running
      · exact h.placed
    | some msg =>
      rw [hmsg] at hsite hincoming
      have hm : msg ≠ .termination := fun heq => he.unterminated (hincoming.trans (congrArg some heq))
      have hroom : x.site.RoomFor msg := he.begins msg hincoming
      refine ⟨?_, ?_, ?_⟩ <;> simp only [ServedCall.step, hsite, hincoming]
      · exact (Site.receive_confines h.custody hroom).custody
      · exact Site.receive_running h.running hm
      · exact h.placed.receive h.custody hroom hm fun c bytes heq => he.later (hincoming.trans (congrArg some heq))

private theorem Tracks.leads (h : x.Tracks m k) (hsent : x.sent = true) :
    ∃ c h' y, m.Leads checks (x.call, x.site) (.returned c (some h'), y) := by
  have hregister {c b s} (hb : ∃ l, s.Responds m.procedureIdx c b l x.parts) :
      ∃ c' h' y, m.Leads checks (.register c b, s) (.returned c' (some h'), y) := by
    obtain ⟨l, hb⟩ := hb
    have hbuf := hb.elim (fun h => h.1.buffer) fun h => h.1.buffer
    exact ⟨c, ⟨b, l⟩, s.handled b l, .single (by simp only [CallMethod.next, CallMethod.advance_register hbuf])⟩
  have hplaced := h.placed
  rw [hsent] at hplaced
  generalize hcall : x.call = a at hplaced
  cases a with
  | begin | mapResponse | queueMessage => cases hplaced.1
  | lookUpCounter | insertFirst | pushBuffer | failed => cases hplaced
  | findResponse c =>
    obtain ⟨b, l, h, hparts⟩ := hplaced
    obtain ⟨c', h', y, hlead⟩ := hregister (s := x.site) ⟨l, .inl ⟨h, hparts⟩⟩
    refine ⟨c', h', y, .head ?_ hlead⟩
    simp only [CallMethod.next, CallMethod.advance_findResponse h.awaits]
  | register c b => exact hregister hplaced
  | returned c h' =>
    obtain ⟨h', rfl, -⟩ := hplaced
    exact ⟨c, h', _, .refl⟩

/-- Once the message of the call is queued, the call returns a handle, on the buffer with what has arrived of the
response. -/
theorem returns_of_sent {world : World w} (hworld : Reaches (World.step checks) World.RoomFor .new world)
    (hsite : world.site? k = some s) (hrun : s.wire.terminated = false) (hbegin : m.Begins s parts)
    (hx : Reaches (step checks m) (Unhurried m) (start s parts) x) :
    (x.sent = true → (∀ c e, x.call ≠ .failed c e) ∧
      ∃ c h y, m.Leads checks (x.call, x.site) (.returned c (some h), y)) ∧
    ∀ c h, x.call = .returned c h →
      ∃ h', h = some h' ∧ x.site.Responds m.procedureIdx c h'.responseIdx h'.completeLock x.parts := by
  have hcustody : world.InCustody fun _ _ => False :=
    hworld.invariant World.new_inCustody fun _ _ h hroom => h.step hroom
  have halone : s.InCustody (alone k) := by
    refine Custody.mono (hcustody.site hsite) (fun {o b} ho => ?_) fun {j l} hl => .inr (hl.resolve_left id)
    cases o with
    | args key => exact ho
    | response j call =>
      by_cases hj : j = k
      · exact (if_pos hj).trans ((if_pos hj).symm.trans ho)
      · cases (if_neg hj).symm.trans ho
  have htracks : x.Tracks m k :=
    hx.invariant ⟨halone, hrun, rfl, hbegin⟩ fun x e h he => h.step hbegin.queued he
  refine ⟨fun hsent => ⟨fun c e hcall => ?_, htracks.leads hsent⟩, fun c h hcall => ?_⟩ <;>
    have hplaced := htracks.placed <;> rw [hcall] at hplaced
  · cases hsent.symm.trans hplaced
  · exact hplaced

/-- A world with one wire. -/
private def oneWire : World .u16 := World.new.step true (.newWire false 4)

private def wireSite : Site .u16 := ⟨oneWire.interface, .new ⟨0⟩ false 4⟩

private def newCall : CallMethod .u16 := .callWithBytes ⟨1⟩ .empty

/-- The whole response to the first call. -/
private def answer : List UInt8 := (Message.response ⟨1⟩ ⟨0⟩ .complete ⟨[17], by decide⟩ : Message .u16).toBytes

private theorem oneWire_reaches : Reaches (World.step true) World.RoomFor .new oneWire :=
  .next .start fun _ => by show (_ : Nat) < 2 ^ 16; decide

/-- The call up to where its message is queued. -/
private def asked : ServedCall .u16 := (List.replicate 6 Event.caller).foldl (step true newCall) (start wireSite [])

/-- The response arrives between the last two steps of the call. -/
private def answered : ServedCall .u16 :=
  [Event.caller, .receiveOne answer, .caller].foldl (step true newCall) asked

private theorem unhurried_of_room {e : Event} {x : ServedCall .u16} (h : x.site.interface.messages.size < 2 ^ 16)
    (he : x.call.unlocated = false ∨ x.incoming? e = none) (ht : x.Unterminated e) : x.Unhurried newCall e :=
  ⟨fun _ _ _ => h, fun msg _ => .of_lt h msg, ht, fun hm _ => he.resolve_right (by rw [hm]; nofun)⟩

private theorem answered_reaches : Reaches (step true newCall) (Unhurried newCall) (start wireSite []) answered := by
  have hcaller {x : ServedCall .u16} (hx : Reaches (step true newCall) (Unhurried newCall) (start wireSite []) x)
      (h : x.site.interface.messages.size < 2 ^ 16) :
      Reaches (step true newCall) (Unhurried newCall) (start wireSite []) (x.step true newCall .caller) :=
    hx.next (unhurried_of_room h (.inr rfl) nofun)
  have hqueued := hcaller (hcaller (hcaller (hcaller (hcaller (hcaller .start (by decide +kernel)) (by decide +kernel))
    (by decide +kernel)) (by decide +kernel)) (by decide +kernel)) (by decide +kernel)
  have hfound := hcaller hqueued (by decide +kernel)
  have hreceived := hfound.next (a := .receiveOne answer) (unhurried_of_room (by decide +kernel) (.inl rfl) nofun)
  exact hcaller hreceived (by decide +kernel)

theorem returns_of_sent_answered : answered.site.Responds ⟨1⟩ ⟨0⟩ 0 0 answered.parts := by
  have hsite : oneWire.site? 0 = some wireSite := rfl
  have hbegin : newCall.Begins wireSite [] := rfl
  obtain ⟨h, heq, hr⟩ := (returns_of_sent oneWire_reaches hsite rfl hbegin answered_reaches).2 ⟨0⟩ (some ⟨0, 0⟩) rfl
  cases heq
  exact hr

/-- The call is flushed and answered before it has looked up its buffer. -/
theorem not_returns_of_sent_answered :
    ¬ ∀ x : ServedCall .u16, Reaches (step true newCall) Unterminated (start wireSite []) x →
      x.sent = true → ∀ c e, x.call ≠ .failed c e := by
  intro h
  have hasked : Reaches (step true newCall) Unterminated (start wireSite []) asked :=
    Reaches.start.foldl _ fun a ha s => by
      rw [List.eq_of_mem_replicate ha]
      nofun
  have hanswer : Reaches (step true newCall) Unterminated (start wireSite []) _ :=
    (hasked.next (a := .flush) nofun).next (a := .receiveOne answer) nofun
  exact h _ (hanswer.next (a := .caller) nofun) rfl _ _ rfl

end ServedCall

end Ipfi
