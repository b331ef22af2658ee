import Ipfi.Replies

/-!
# Replies over a whole link

What the peer has replied to the calls of a link, what of it the caller has received, and the messages between the two.
Executions may yield in any order: the replies to one call are those of its one execution, in the order in which it
yielded them.
-/

namespace Ipfi

variable {w : IntFeature}

open Site (ServeAction Part chunksOf EndsInComplete)

/-! ### Views of the replies -/

namespace Replied

variable {q q' : Replied w} {k : ProcedureIndex w × CallIndex w}

/-- Every call has got further replies, and none after the one that completes them. -/
def Extends (q q' : Replied w) : Prop := ∀ k, q k <+: q' k ∧ ((∃ y ∈ q k, y.2 = .complete) → q' k = q k)

instance : IsPreorder (Replied w) Extends where
  refl q k := ⟨List.prefix_refl (q k), fun _ => rfl⟩
  trans q q' q'' h h' k := by
    refine ⟨(h k).1.trans (h' k).1, fun hc => ?_⟩
    have heq := (h k).2 hc
    rw [(h' k).2 (heq ▸ hc), heq]

theorem extends_recv {ended : ProcedureIndex w × CallIndex w → Prop} {m : Message w} (hm : Legal ended q m) :
    Extends q (q.recv m) := by
  cases m with
  | response p c t bytes =>
    intro k
    by_cases hk : k = (p, c)
    · subst hk
      rw [recv, Function.update_self]
      refine ⟨List.prefix_append _ _, fun ⟨y, hy, hc⟩ => ?_⟩
      exact absurd hc (hm.2 y hy)
    · rw [recv, Function.update_of_ne hk]
      exact ⟨List.prefix_refl _, fun _ => rfl⟩
  | call => exact refl_of Extends q
  | endOfInput => exact refl_of Extends q
  | termination => exact refl_of Extends q

end Replied

/-! ### A round of the peer -/

namespace Site

/-- The wire has called a procedure and queued its replies, or it has called none and queued nothing. -/
def Replies (t t' : Site w) : Prop :=
  (t'.wire.queue = t.wire.queue ∧ t'.wire.started = t.wire.started) ∨
    ∃ p c procedure args, t.interface.procedures.lookup p = some procedure ∧
      t'.wire.queue = t.wire.queue ++ (Wire.responses p c (procedure.replies args)).map Message.toBytes ∧
      t'.wire.started = t.wire.started ++ [⟨p, c, args, procedure.isStreaming, false⟩]

theorem receiveCall_replies (t : Site w) (ht : t.wire.terminated = false) (p : ProcedureIndex w) (c : CallIndex w)
    (tm : Terminator) (bytes : List UInt8) : t.Replies ((receiveCall p c tm bytes).run t).state := by
  have hshape := receiveCall_shape t p c tm bytes
  generalize ((receiveCall p c tm bytes).run t).state = t' at hshape
  cases hshape with
  | rejected => exact .inl ⟨rfl, rfl⟩
  | admitted i => exact .inl ⟨rfl, rfl⟩
  | dropped i => exact .inl ⟨rfl, rfl⟩
  | served i procedure args hrej htm hi hp =>
    exact .inr ⟨p, c, procedure, args, hp, Wire.serve_queue (x := (t.admitCall p c).wire) ht p c procedure args,
      Wire.serve_started _ p c procedure args⟩

theorem fillStep_replies (t : Site w) (reader : List UInt8) :
    t.Replies (Receiver.fillStep.run ⟨t, reader⟩).state.site := by
  refine serveStep_invariant (I := t.Replies) (a := .fillStep reader) (fun _ => .inl ⟨rfl, rfl⟩)
    (fun p c tm bytes hm => receiveCall_replies t (ServeAction.running_of_message? hm) p c tm bytes)
    (fun p c tm bytes _ => ?_) (fun _ h => h) fun _ _ _ _ _ _ _ ha => by cases ha
  have hans := (receiveResponse_answering p c tm bytes t).2
  have hqueue := congrArg Wire.queue hans
  have hstarted := congrArg Wire.started hans
  exact .inl ⟨hqueue, hstarted⟩

end Site

/-- A writer that takes everything. -/
theorem Wire.flushTo_run {x : Wire w} (hx : x.terminated = false) (out : List UInt8) :
    Wire.flushTo.run (x, out) = .ok () ({ x with queue := [] }, out ++ x.queue.flatten) := by
  have hfold : ∀ queue : List (List UInt8), queue.foldl (· ++ ·) out = out ++ queue.flatten := by
    intro queue
    induction queue generalizing out with
    | nil => simp
    | cons bytes queue ih => rw [List.foldl_cons, ih, List.flatten_cons, List.append_assoc]
  have hwrite : ∀ bytes o, (modify (· ++ bytes) : Op (Error w) (List UInt8) Unit).run o = .ok () (o ++ bytes) :=
    fun _ _ => rfl
  rw [Wire.flushTo, Wire.flushPartial_run hwrite hx, hfold]

/-! ### Replies of executions -/

namespace Link

variable {s s' : Link w} {x : Surroundings w} {q said : Replied w} {e : Nat} {k : ProcedureIndex w × CallIndex w}
  {args : List UInt8} {checks : Bool}

/-- Local code holds, or has held, a handle on the call. -/
def Called (s : Link w) (k : ProcedureIndex w × CallIndex w) : Prop := ∃ r ∈ s.calls, r.pair = k ∧ r.handle ≠ none

def executed (s : Link w) : List (ProcedureIndex w × CallIndex w) := s.peer.wire.executed.map Prod.fst

/-- What the procedure of the call replies before its closure is over. -/
def firstReplies (s : Link w) (k : ProcedureIndex w × CallIndex w) (args : List UInt8) : List Yield :=
  match s.peer.interface.procedures.lookup k.1 with
  | some procedure => procedure.replies args
  | none => []

theorem repliesOf_eq (h : s.peer.wire.executed[e]? = some (k, args)) :
    s.repliesOf e = s.firstReplies k args ++ (s.yields.filter fun y => decide (y.1 = e)).map Prod.snd := by
  rw [Wire.executed, List.getElem?_map, Option.map_eq_some_iff] at h
  obtain ⟨ex, hex, heq⟩ := h
  cases heq
  rw [repliesOf, hex]
  rfl

/-- The caller has received `q` of what the executions of its calls have said so far. -/
structure Relays (s : Link w) (x : Surroundings w) (q said : Replied w) : Prop where
  expects : s.caller.Expects x s.calls q
  pipe : Pipe Replied.recv (Replied.Legal s.Called) s.peer.wire.queue s.toCaller q said
  answers : ∀ {e : Nat} {k args}, s.peer.wire.executed[e]? = some (k, args) → s.Called k → said k = s.repliesOf e
  silent : ∀ {k}, said k ≠ [] → s.Called k ∧ k ∈ s.executed
  once : ∀ {e e' : Nat} {k args args'}, s.peer.wire.executed[e]? = some (k, args) →
    s.peer.wire.executed[e']? = some (k, args') → s.Called k → e = e'
  early : ∀ {r}, r ∈ s.calls → r.handle = none → r.pair ∉ s.executed
  yields : ∀ {y}, y ∈ s.yields → y.1 < s.peer.wire.executed.length

/-- A step as in a run in which the calls are made once, each of them is executed at most once, and what an execution
yields does not go on after it is complete. -/
def Orderly (checks : Bool) (s : Link w) (a : LinkAction w) : Prop :=
  match a with
  | .startCall p _ | .callWithBytes p _ =>
    s.caller.interface.messages.size < 2 ^ w.bits ∧ (p, s.caller.nextIdx p) ∉ s.calls.map CallRecord.pair ∧
      (p, s.caller.nextIdx p) ∉ s.executed
  | .continueCall n _ | .endCall n => ∀ r, s.calls[n]? = some r → r.handle = none
  | .yield e _ _ => ∀ ex, s.peer.wire.executions[e]? = some ex → ex.streaming = true →
    s.Called ex.pair ∧ ∀ y ∈ s.repliesOf e, y.2 ≠ .complete
  | .fillPeer => ∀ k args, (s.step checks .fillPeer).peer.wire.executed = s.peer.wire.executed ++ [(k, args)] →
    s.Called k ∧ k ∉ s.executed ∧ ∀ y ∈ (s.firstReplies k args).dropLast, y.2 ≠ .complete
  | _ => True

namespace Relays

/-! ### Steps of the caller -/

/-- The caller may call, and take in nothing. -/
theorem of_caller (h : s.Relays x q said) {caller : Site w} {calls : List (CallRecord w)} (toPeer : List UInt8)
    (he : caller.Expects x calls q) (hs' : s' = { s with caller, calls, toPeer })
    (hmono : ∀ k, s.Called k → s'.Called k) (hnew : ∀ k, s'.Called k → s.Called k ∨ k ∉ s.executed)
    (hearly : ∀ r ∈ calls, r.handle = none → r.pair ∉ s.executed) : s'.Relays x q said := by
  subst hs'
  have hcalled : ∀ {e : Nat} {k args}, s.peer.wire.executed[e]? = some (k, args) →
      Called { s with caller, calls, toPeer } k → s.Called k := by
    intro e k args hex hk
    refine (hnew k hk).resolve_right fun hnot => hnot ?_
    exact List.mem_map.2 ⟨_, List.mem_of_getElem? hex, rfl⟩
  refine ⟨he, h.pipe.mono fun _ => Replied.Legal.mono hmono, fun hex hk => h.answers hex (hcalled hex hk), fun hk => ?_,
    fun hex hex' hk => h.once hex hex' (hcalled hex hk), fun {r} => hearly r, h.yields⟩
  exact ⟨hmono _ (h.silent hk).1, (h.silent hk).2⟩

/-- The caller may do what has nothing to do with its calls. -/
theorem of_passive (h : s.Relays x q said) {caller : Site w} (toPeer : List UInt8)
    (hi : caller.interface = s.caller.interface) (hr : caller.wire.responseIdxMap = s.caller.wire.responseIdxMap)
    (hh : caller.wire.idleCallHandles = s.caller.wire.idleCallHandles)
    (ht : caller.wire.terminated = s.caller.wire.terminated)
    (hm : caller.wire.moduleStyle = s.caller.wire.moduleStyle) :
    ({ s with caller, toPeer } : Link w).Relays x q said :=
  h.of_caller toPeer (h.expects.congr (h.expects.custody.congr hi hr hh) hi hr ht hm) rfl (fun _ hk => hk)
    (fun _ hk => .inl hk) fun _ hr hn => h.early hr hn

/-- One call may change, if its handle stays. -/
theorem of_call (h : s.Relays x q said) {caller : Site w} {n : Nat} {r : CallRecord w} {f : CallRecord w → CallRecord w}
    (hn : s.calls[n]? = some r) (hf : ∀ r, (f r).pair = r.pair) (hhandle : ∀ r, (f r).handle = none → r.handle = none)
    (he : caller.Expects x (s.calls.modify n f) q) :
    ({ s with caller, calls := s.calls.modify n f } : Link w).Relays x q said := by
  have hr : r ∈ s.calls := List.mem_of_getElem? hn
  -- every call is the one that has changed or an old one
  have hback : ∀ r' ∈ s.calls.modify n f, r' = f r ∨ r' ∈ s.calls := fun r' hr' =>
    (CallRecord.mem_modify h.expects.distinct hn hr').imp_right And.left
  refine h.of_caller s.toPeer he rfl ?_ ?_ ?_
  · rintro k ⟨r', hr', hk, hh⟩
    obtain ⟨n', hn'⟩ := List.mem_iff_getElem?.1 hr'
    by_cases heq : n = n'
    · subst heq
      obtain rfl : r = r' := Option.some.inj (hn.symm.trans hn')
      refine ⟨f r, List.mem_of_getElem? (i := n) ?_, (hf r).trans hk, fun hnone => hh (hhandle r hnone)⟩
      rw [List.getElem?_modify_eq, hn]
      rfl
    · refine ⟨r', List.mem_of_getElem? (i := n') ?_, hk, hh⟩
      rw [List.getElem?_modify_ne f s.calls heq]
      exact hn'
  · rintro k ⟨r', hr', rfl, hh⟩
    rcases hback r' hr' with rfl | hr'
    · by_cases hnone : r.handle = none
      · exact .inr (hf r ▸ h.early hr hnone)
      · exact .inl ⟨r, hr, (hf r).symm, hnone⟩
    · exact .inl ⟨r', hr', rfl, hh⟩
  · intro r' hr' hnone
    rcases hback r' hr' with rfl | hr'
    · exact hf r ▸ h.early hr (hhandle r hnone)
    · exact h.early hr' hnone

/-- A call that is new to both sides has got no replies. -/
theorem unanswered (h : s.Relays x q said) (hk : k ∉ s.executed) : q k = [] := by
  have hsaid : said k = [] := by
    by_contra hne
    exact hk (h.silent hne).2
  have hext := h.pipe.within (R := Replied.Extends) fun _ _ hm => Replied.extends_recv hm
  exact List.prefix_nil.1 (hsaid ▸ (hext k).1)

/-- A new call. -/
theorem of_new (h : s.Relays x q said) {caller : Site w} {r : CallRecord w} (hnew : r.pair ∉ s.executed)
    (he : caller.Expects x (s.calls ++ [r]) q) :
    ({ s with caller, calls := s.calls ++ [r] } : Link w).Relays x q said := by
  refine h.of_caller s.toPeer he rfl ?_ ?_ ?_
  · rintro k ⟨r', hr', hk⟩
    exact ⟨r', List.mem_append_left _ hr', hk⟩
  · rintro k ⟨r', hr', rfl, hh⟩
    rcases List.mem_append.1 hr' with hr' | hr'
    · exact .inl ⟨r', hr', rfl, hh⟩
    · obtain rfl := List.mem_singleton.1 hr'
      exact .inr hnew
  · intro r' hr' hnone
    rcases List.mem_append.1 hr' with hr' | hr'
    · exact h.early hr' hnone
    · obtain rfl := List.mem_singleton.1 hr'
      exact hnew

theorem startCall (h : s.Relays x q said) {p : ProcedureIndex w} {args : Payload}
    (ha : s.Orderly checks (.startCall p args)) : (s.step checks (.startCall p args)).Relays x q said := by
  obtain ⟨hroom, hcalls, hexecuted⟩ := ha
  show (s.newCall _ _).Relays x q said
  unfold newCall
  rcases Site.startCallWithPartialBytes_cases checks s.caller p args with ⟨hcan, hr⟩ | ⟨e, hr⟩ <;> rw [hr]
  · refine h.of_new hexecuted (h.expects.makes hroom ?_ ⟨hcan.running, hcan.hostStyle⟩ rfl rfl (fun r' hr' heq => ?_)
      (h.unanswered hexecuted) rfl fun _ hh => by cases hh)
    · exact Site.queued_inCustody (Site.allotted_inCustody h.expects.custody hroom p) _
    · exact hcalls (List.mem_map.2 ⟨r', hr', heq⟩)
  · exact h

theorem callWithBytes (h : s.Relays x q said) {p : ProcedureIndex w} {args : Payload}
    (ha : s.Orderly checks (.callWithBytes p args)) : (s.step checks (.callWithBytes p args)).Relays x q said := by
  obtain ⟨hroom, hcalls, hexecuted⟩ := ha
  show (s.newCall _ _).Relays x q said
  unfold newCall
  rcases Site.callWithBytes_cases checks s.caller p args with ⟨hcan, hr⟩ | ⟨e, hr⟩ <;> rw [hr]
  · refine h.of_new hexecuted (h.expects.makes hroom ?_ ⟨hcan.running, hcan.hostStyle⟩ rfl rfl (fun r' hr' heq => ?_)
      (h.unanswered hexecuted) rfl fun _ hh => (Option.some.inj hh).symm)
    · exact Site.called_inCustody h.expects.custody hroom hcan.running p args
    · exact hcalls (List.mem_map.2 ⟨r', hr', heq⟩)
  · exact h

theorem continueCall (h : s.Relays x q said) (n : Nat) (args : Payload) :
    (s.step checks (.continueCall n args)).Relays x q said := by
  show (s.onCall n _ _).Relays x q said
  unfold onCall
  split
  · exact h
  · rename_i r hn
    by_cases ha : args.val = []
    · have hr : (Site.continueGivenCallWithBytes r.procedureIdx r.callIdx args).run s.caller =
          .error (.error .zeroLengthInNonTerminating) s.caller := by
        rw [Site.continueGivenCallWithBytes, EStateM.run_bind_ok (Site.checkCanCall_run h.expects.canCall)]
        simp [ha]
      rw [hr]
      exact h
    · rw [Site.continueGivenCallWithBytes_run h.expects.canCall ha]
      exact h.of_call hn (fun _ => rfl) (fun _ hnone => hnone) (h.expects.continues hn args _)

theorem endCall (h : s.Relays x q said) {n : Nat} (ha : s.Orderly checks (.endCall n)) :
    (s.step checks (.endCall n)).Relays x q said := by
  show (s.onCall n _ _).Relays x q said
  unfold onCall
  split
  · exact h
  · rename_i r hn
    obtain ⟨h', hr, he⟩ := h.expects.ends hn (ha r hn)
    rw [hr]
    exact h.of_call hn (fun _ => rfl) (fun _ hnone => by cases hnone) he

theorem waitBytes (h : s.Relays x q said) (n : Nat) : (s.step checks (.waitBytes n)).Relays x q said := by
  simp only [step]
  split
  · rename_i h' hheld
    obtain ⟨r, hn, hheld⟩ := Option.bind_eq_some_iff.1 hheld
    unfold onCall
    rw [hn]
    by_cases hend : EndsInComplete (partsOf (q r.pair))
    · obtain ⟨t', hr, he⟩ := h.expects.waits hn hheld hend
      simp only [hr]
      exact h.of_call hn (fun _ => rfl) (fun _ hnone => hnone) he
    · simp only [h.expects.blocks hn hheld hend]
      exact h
  · exact h

theorem signalCaller (h : s.Relays x q said) : (s.step checks .signalCaller).Relays x q said := by
  have hr : (Site.onWire Wire.signalEndOfInput).run s.caller = .ok () (s.caller.queued .endOfInput) := by
    simp [Site.onWire, Wire.signalEndOfInput, h.expects.canCall.running, Site.queued]
  show ({ s with caller := ((Site.onWire Wire.signalEndOfInput).run s.caller).state } : Link w).Relays x q said
  rw [hr]
  exact h.of_passive s.toPeer rfl rfl rfl rfl rfl

theorem flushCaller (h : s.Relays x q said) : (s.step checks .flushCaller).Relays x q said := by
  show ({ s with caller := _, toPeer := _ } : Link w).Relays x q said
  rw [Wire.flushTo_run h.expects.canCall.running]
  exact h.of_passive _ rfl rfl rfl rfl rfl

/-- The caller reads a reply to a call of its own, or nothing that matters to it. -/
theorem fillCaller_eq (h : s.Relays x q said) (hne : s.toCaller ≠ []) (checks : Bool) :
    ∃ m rest b caller, s.toCaller = m.toBytes ++ rest ∧ Replied.Legal s.Called q m ∧
      Pipe Replied.recv (Replied.Legal s.Called) s.peer.wire.queue rest (q.recv m) said ∧
      (Site.receive m.incoming).run s.caller = .ok b caller ∧ caller.Expects x s.calls (q.recv m) ∧
      s.step checks .fillCaller = { s with caller, toCaller := rest } := by
  obtain ⟨m, rest, hbytes, hm, hpipe⟩ := h.pipe.receive hne
  obtain ⟨b, caller, hr, he⟩ : ∃ b caller, (Site.receive m.incoming).run s.caller = .ok b caller ∧
      caller.Expects x s.calls (q.recv m) := by
    cases m with
    | response p c t bytes =>
      obtain ⟨⟨r, hr, hpair, hh⟩, hq⟩ := hm
      obtain ⟨rfl, rfl⟩ := Prod.mk.inj hpair
      obtain ⟨b, t', hr', he⟩ := h.expects.receives hr hh hq t bytes
      exact ⟨_, t', hr', he⟩
    | endOfInput => exact ⟨_, s.caller, rfl, h.expects⟩
    | call => cases hm
    | termination => cases hm
  refine ⟨m, rest, b, caller, hbytes, hm, hpipe, hr, he, ?_⟩
  show (if s.toCaller = [] then s else _ : Link w) = _
  rw [if_neg hne, hbytes, Receiver.fillStep_message s.caller m rest h.expects.canCall.running fun hms =>
    absurd (h.expects.canCall.hostStyle.symm.trans hms) Bool.false_ne_true, hr]
  rfl

theorem fillCaller (h : s.Relays x q said) (checks : Bool) : ∃ q', (s.step checks .fillCaller).Relays x q' said := by
  by_cases hne : s.toCaller = []
  · refine ⟨q, ?_⟩
    rw [show s.step checks .fillCaller = s from if_pos hne]
    exact h
  · obtain ⟨m, rest, b, caller, -, -, hpipe, -, he, heq⟩ := h.fillCaller_eq hne checks
    rw [heq]
    exact ⟨_, he, hpipe, h.answers, h.silent, h.once, h.early, h.yields⟩

/-! ### Steps of the peer -/

theorem signalPeer (h : s.Relays x q said) : (s.step checks .signalPeer).Relays x q said := by
  show ({ s with peer := ((Site.onWire Wire.signalEndOfInput).run s.peer).state } : Link w).Relays x q said
  cases ht : s.peer.wire.terminated with
  | true =>
    have hr : ((Site.onWire Wire.signalEndOfInput).run s.peer).state = s.peer := by
      simp [Site.onWire, Wire.signalEndOfInput, ht]
    rw [hr]
    exact h
  | false =>
    have hr : ((Site.onWire Wire.signalEndOfInput).run s.peer).state = s.peer.queued .endOfInput := by
      simp [Site.onWire, Wire.signalEndOfInput, ht, Site.queued]
    rw [hr]
    exact ⟨h.expects, h.pipe.send trivial, h.answers, h.silent, h.once, h.early, h.yields⟩

theorem flushPeer (h : s.Relays x q said) : (s.step checks .flushPeer).Relays x q said := by
  show ({ s with peer := _, toCaller := _ } : Link w).Relays x q said
  cases ht : s.peer.wire.terminated with
  | true =>
    have hr : (Wire.flushTo.run (s.peer.wire, s.toCaller)).state = (s.peer.wire, s.toCaller) := by
      simp [Wire.flushTo, Wire.flushPartial, ht]
    rw [hr]
    exact h
  | false =>
    rw [Wire.flushTo_run ht]
    exact ⟨h.expects, h.pipe.flush, h.answers, h.silent, h.once, h.early, h.yields⟩

/-- A procedure that is called for a call replies first. -/
private theorem executes (h : s.Relays x q said) {peer : Site w} {toPeer : List UInt8}
    {k : ProcedureIndex w × CallIndex w} {args : List UInt8} {procedure : Procedure w} (hcalled : s.Called k)
    (hnew : k ∉ s.executed) (hlast : ∀ y ∈ (s.firstReplies k args).dropLast, y.2 ≠ .complete)
    (hp : s.peer.interface.procedures.lookup k.1 = some procedure)
    (hprocedures : peer.interface.procedures = s.peer.interface.procedures) (hqueue : peer.wire.queue =
    s.peer.wire.queue ++ (Wire.responses k.1 k.2 (procedure.replies args)).map Message.toBytes)
    (hexecuted : peer.wire.executed = s.peer.wire.executed ++ [(k, args)]) :
    ({ s with peer, toPeer } : Link w).Relays x q (Function.update said k (procedure.replies args)) := by
  have hquiet : said k = [] := by
    by_contra hne
    exact hnew (h.silent hne).2
  have hfirst : s.firstReplies k args = procedure.replies args := by rw [firstReplies, hp]
  have hmem : ∀ k', k' ∈ executed { s with peer, toPeer } ↔ k' ∈ s.executed ∨ k' = k := by
    intro k'
    rw [executed, hexecuted, List.map_append, List.mem_append]
    exact or_congr_right List.mem_singleton
  -- an execution is one of those before or the new one
  have hcases : ∀ {e : Nat} {k' args'}, peer.wire.executed[e]? = some (k', args') →
      s.peer.wire.executed[e]? = some (k', args') ∧ k' ≠ k ∨
        e = s.peer.wire.executed.length ∧ k' = k ∧ args' = args := by
    intro e k' args' hex
    rw [hexecuted, List.getElem?_append] at hex
    split at hex
    · refine .inl ⟨hex, ?_⟩
      rintro rfl
      exact hnew (List.mem_map.2 ⟨_, List.mem_of_getElem? hex, rfl⟩)
    · rename_i hle
      rw [List.getElem?_singleton] at hex
      split at hex
      · cases hex
        exact .inr ⟨by omega, rfl, rfl⟩
      · cases hex
  have hsend : Transit Replied.recv (Replied.Legal s.Called) said (Wire.responses k.1 k.2 (procedure.replies args))
      (Function.update said k (said k ++ procedure.replies args)) :=
    Replied.transit_responses hcalled _ said
      (fun _ y hy => by rw [show said (k.1, k.2) = [] from hquiet] at hy; cases hy) (hfirst ▸ hlast)
  rw [hquiet, List.nil_append] at hsend
  refine ⟨h.expects, hqueue ▸ h.pipe.sendAll hsend, fun {e k' args'} hex hk' => ?_, fun {k'} hk' => ?_,
    fun {e e' k' args' args''} hex hex' hk' => ?_, fun {r} hr hh hmemr => ?_, fun {y} hy => ?_⟩
  · have hsame : firstReplies { s with peer, toPeer } k' args' = s.firstReplies k' args' := by
      rw [firstReplies, hprocedures, firstReplies]
    rw [repliesOf_eq hex, hsame]
    rcases hcases hex with ⟨hold, hne⟩ | ⟨rfl, rfl, rfl⟩
    · rw [Function.update_of_ne hne, h.answers hold hk', repliesOf_eq hold]
    · have hnone : s.yields.filter (fun y => decide (y.1 = s.peer.wire.executed.length)) = [] := by
        rw [List.filter_eq_nil_iff]
        intro y hy heq
        exact absurd (of_decide_eq_true heq) (Nat.ne_of_lt (h.yields hy))
      rw [Function.update_self, hfirst, hnone]
      exact (List.append_nil _).symm
  · rw [hmem]
    by_cases hkk : k' = k
    · exact ⟨hkk ▸ hcalled, .inr hkk⟩
    · rw [Function.update_of_ne hkk] at hk'
      exact ⟨(h.silent hk').1, .inl (h.silent hk').2⟩
  · rcases hcases hex with ⟨hold, hne⟩ | ⟨rfl, rfl, rfl⟩ <;> rcases hcases hex' with ⟨hold', hne'⟩ | ⟨rfl, heq, rfl⟩
    · exact h.once hold hold' hk'
    · exact absurd heq hne
    · exact absurd rfl hne'
    · rfl
  · rcases (hmem _).1 hmemr with hold | heq
    · exact h.early hr hh hold
    · obtain ⟨r', hr', hpair, hh'⟩ := hcalled
      exact hh' (h.expects.eq_of_pair hr' hr (hpair.trans heq.symm) ▸ hh)
  · have := h.yields hy
    show y.1 < peer.wire.executed.length
    rw [hexecuted, List.length_append]
    omega

theorem fillPeer (h : s.Relays x q said) (ha : s.Orderly checks .fillPeer) :
    ∃ said', (s.step checks .fillPeer).Relays x q said' := by
  by_cases hne : s.toPeer = []
  · refine ⟨said, ?_⟩
    rw [show s.step checks .fillPeer = s from if_pos hne]
    exact h
  · have hstep : s.step checks .fillPeer = { s with
        peer := (Receiver.fillStep.run ⟨s.peer, s.toPeer⟩).state.site
        toPeer := (Receiver.fillStep.run ⟨s.peer, s.toPeer⟩).state.reader } := if_neg hne
    have hprocedures : (Receiver.fillStep.run ⟨s.peer, s.toPeer⟩).state.site.interface.procedures =
        s.peer.interface.procedures := (Site.serveStep_fixed s.peer (.fillStep s.toPeer)).1.procedures
    rw [Orderly, hstep] at ha
    rw [hstep]
    -- the peer calls a procedure, or says nothing
    rcases Site.fillStep_replies s.peer s.toPeer with ⟨hqueue, hstarted⟩ | ⟨p, c, procedure, args, hp, hqueue, hstarted⟩
    · have hexecuted := Wire.executed_of_started hstarted
      refine ⟨said, h.expects, hqueue ▸ h.pipe, fun hex hk => ?_, fun hk => ?_, ?_, ?_, ?_⟩
      · rw [repliesOf_eq hex, firstReplies, hprocedures]
        rw [hexecuted] at hex
        exact (h.answers hex hk).trans (repliesOf_eq hex)
      · rw [executed, hexecuted]
        exact h.silent hk
      · rw [hexecuted]
        exact h.once
      · rw [executed, hexecuted]
        exact h.early
      · rw [hexecuted]
        exact h.yields
    · have hexecuted := Wire.executed_append hstarted
      obtain ⟨hcalled, hnew, hlast⟩ := ha (p, c) args hexecuted
      exact ⟨_, h.executes hcalled hnew hlast hp hprocedures hqueue hexecuted⟩

/-- A streaming execution yields. -/
private theorem yields_one (h : s.Relays x q said) {y : Wire w} {bytes : Payload} {t : Terminator}
    (hexec : s.peer.wire.executed[e]? = some (k, args)) (hcalled : s.Called k)
      (hopen : ∀ z ∈ s.repliesOf e, z.2 ≠ .complete)
    (hqueue : y.queue = s.peer.wire.queue ++ [(Message.response k.1 k.2 t bytes).toBytes])
    (hexecuted : y.executed = s.peer.wire.executed) :
    ({ s with peer := { s.peer with wire := y }, yields := s.yields ++ [(e, bytes, t)] } : Link w).Relays x q
      (said.recv (.response k.1 k.2 t bytes)) := by
  have hself : said k = s.repliesOf e := h.answers hexec hcalled
  have hmem : k ∈ s.executed := List.mem_map.2 ⟨_, List.mem_of_getElem? hexec, rfl⟩
  refine ⟨h.expects, hqueue ▸ h.pipe.send ⟨hcalled, fun z hz => hopen z (hself ▸ hz)⟩, fun {e' k' args'} hex hk => ?_,
    fun {k'} hk => ?_, hexecuted ▸ h.once, ?_, fun {z} hz => ?_⟩
  · rw [hexecuted] at hex
    have hbefore := (h.answers hex hk).trans (repliesOf_eq hex)
    rw [repliesOf_eq (hexecuted ▸ hex), List.filter_append, List.map_append, ← List.append_assoc]
    show said.recv _ k' = s.firstReplies k' args' ++ _ ++ _
    rw [← hbefore]
    by_cases hkk : k' = k
    · subst hkk
      obtain rfl := h.once hex hexec hk
      simp [Replied.recv]
    · have hee : e ≠ e' := by
        rintro rfl
        exact hkk (congrArg Prod.fst (Option.some.inj (hex.symm.trans hexec)))
      rw [Replied.recv, Function.update_of_ne hkk]
      simp [hee]
  · rw [executed, hexecuted]
    by_cases hkk : k' = k
    · exact hkk ▸ ⟨hcalled, hmem⟩
    · rw [Replied.recv, Function.update_of_ne hkk] at hk
      exact h.silent hk
  · rw [executed, hexecuted]
    exact h.early
  · rw [hexecuted]
    rcases List.mem_append.1 hz with hz | hz
    · exact h.yields hz
    · rw [List.mem_singleton.1 hz]
      exact (List.getElem?_eq_some_iff.1 hexec).1

theorem yield (h : s.Relays x q said) {bytes : Payload} {t : Terminator}
    (ha : s.Orderly checks (.yield e bytes t)) : ∃ said', (s.step checks (.yield e bytes t)).Relays x q said' := by
  simp only [step]
  split
  · rename_i p c args f hex
    have hexec : s.peer.wire.executed[e]? = some ((p, c), args) := by
      rw [Wire.executed, List.getElem?_map, hex]
      rfl
    obtain ⟨hcalled, hopen⟩ := ha _ hex rfl
    cases ht : s.peer.wire.terminated with
    | true =>
      have hr : (Wire.yielder p c e bytes t).run s.peer.wire = .error (.error .wireTerminated) s.peer.wire := by
        simp [Wire.yielder, ht]
      rw [hr]
      exact ⟨said, h⟩
    | false =>
      have hok : (Wire.yielder p c e bytes t).run s.peer.wire =
          .ok () ((Wire.yielder p c e bytes t).run s.peer.wire).state := by
        cases t <;> simp [Wire.yielder, ht]
      have hqueue : ((Wire.yielder p c e bytes t).run s.peer.wire).state.queue =
          s.peer.wire.queue ++ [(Message.response p c t bytes).toBytes] := by
        rw [Wire.yielder_run, ht, if_neg Bool.false_ne_true]
        split <;> rfl
      rw [hok]
      exact ⟨_, h.yields_one (k := (p, c)) hexec hcalled hopen hqueue (Wire.yielder_executed p c e bytes t s.peer.wire)⟩
  · exact ⟨said, h⟩

/-- Every step of a run in which nobody answers out of turn. -/
theorem step (h : s.Relays x q said) {a : LinkAction w} (ha : s.Orderly checks a) :
    ∃ q' said', (s.step checks a).Relays x q' said' := by
  cases a with
  | startCall p args => exact ⟨q, said, h.startCall ha⟩
  | continueCall n args => exact ⟨q, said, h.continueCall n args⟩
  | endCall n => exact ⟨q, said, h.endCall ha⟩
  | callWithBytes p args => exact ⟨q, said, h.callWithBytes ha⟩
  | waitBytes n => exact ⟨q, said, h.waitBytes n⟩
  | signalCaller => exact ⟨q, said, h.signalCaller⟩
  | flushCaller => exact ⟨q, said, h.flushCaller⟩
  | fillCaller =>
    obtain ⟨q', h'⟩ := h.fillCaller checks
    exact ⟨q', said, h'⟩
  | yield e bytes t =>
    obtain ⟨said', h'⟩ := h.yield ha
    exact ⟨q, said', h'⟩
  | signalPeer => exact ⟨q, said, h.signalPeer⟩
  | flushPeer => exact ⟨q, said, h.flushPeer⟩
  | fillPeer =>
    obtain ⟨said', h'⟩ := h.fillPeer ha
    exact ⟨q, said', h'⟩

end Relays

/-! ### Outstanding calls -/

/-- The caller awaits the responses to its calls, for which the peer has executed and replied nothing yet. -/
structure Outstanding (s : Link w) (x : Surroundings w) : Prop where
  custody : s.caller.InCustody x
  canCall : s.caller.CanCall
  distinct : (s.calls.map CallRecord.pair).Nodup
  fresh : ∀ r ∈ s.calls, r.result = none ∧
    ∃ h, s.caller.FreshResponse r.procedureIdx r.callIdx h ∧ ∀ h', r.handle = some h' → h' = h
  unexecuted : ∀ r ∈ s.calls, r.pair ∉ s.executed
  queue : s.peer.wire.queue = []
  toCaller : s.toCaller = []
  yields : s.yields = []

theorem Outstanding.relays (h : s.Outstanding x) : s.Relays x (fun _ => []) fun _ => [] := by
  have hnot : ¬ EndsInComplete (partsOf []) := fun hend => by
    obtain ⟨y, hy, -⟩ := exists_complete hend
    cases hy
  have hcalled : ∀ {k}, s.Called k → k ∉ s.executed := by
    rintro k ⟨r, hr, rfl, -⟩
    exact h.unexecuted r hr
  have hexec : ∀ {e : Nat} {k args}, s.peer.wire.executed[e]? = some (k, args) → k ∈ s.executed := fun hex =>
    List.mem_map.2 ⟨_, List.mem_of_getElem? hex, rfl⟩
  refine ⟨⟨h.custody, h.canCall, h.distinct, fun r hr => ?_, fun r hr r' hr' g g' hg hg' heq => ?_⟩,
    ?_, fun hex hk => absurd (hexec hex) (hcalled hk), fun hk => absurd rfl hk,
    fun hex _ hk => absurd (hexec hex) (hcalled hk), fun hr _ => h.unexecuted _ hr, fun hy => ?_⟩
  · obtain ⟨hnone, hd, hfresh, hhd⟩ := h.fresh r hr
    refine ⟨fun _ => ⟨hd.responseIdx, hd.completeLock, .inl ⟨hfresh, fun _ hq => by cases hq⟩, hhd⟩,
      fun chunks hc => ?_, fun hend => absurd hend hnot⟩
    cases hnone.symm.trans hc
  · obtain ⟨-, hd, hfresh, hhd⟩ := h.fresh r hr
    obtain ⟨-, hd', hfresh', hhd'⟩ := h.fresh r' hr'
    obtain rfl := hhd g (CallRecord.held_eq_some.1 hg).2
    obtain rfl := hhd' g' (CallRecord.held_eq_some.1 hg').2
    have howner := h.custody.inj (hfresh.own x) (heq ▸ hfresh'.own x)
    exact (Owner.response.inj howner).2
  · rw [h.queue, h.toCaller]
    exact .empty _
  · rw [h.yields] at hy
    cases hy

/-- Whatever waiting for a call has returned are the chunks that its execution has yielded. -/
theorem Relays.result_eq (h : s.Relays x q said) {r : CallRecord w} (hr : r ∈ s.calls) {chunks : List (List UInt8)}
    (hc : r.result = some chunks) : ∃ e args, s.peer.wire.executed[e]? = some (r.pair, args) ∧
      EndsInComplete (partsOf (s.repliesOf e)) ∧ chunks = chunksOf (partsOf (s.repliesOf e)) := by
  obtain ⟨rfl, hend⟩ := (h.expects.stands r hr).waited chunks hc
  have hext := h.pipe.within (R := Replied.Extends) fun _ _ hm => Replied.extends_recv hm
  have hsaid := (hext r.pair).2 (exists_complete hend)
  have hne : said r.pair ≠ [] := by
    obtain ⟨y, hy, -⟩ := exists_complete hend
    exact hsaid ▸ List.ne_nil_of_mem hy
  obtain ⟨hcalled, hmem⟩ := h.silent hne
  obtain ⟨ex, hex, hpair⟩ := List.mem_map.1 hmem
  obtain ⟨e, he⟩ := List.mem_iff_getElem?.1 hex
  replace he : s.peer.wire.executed[e]? = some (r.pair, ex.2) := hpair ▸ he
  refine ⟨e, ex.2, he, ?_⟩
  rw [← h.answers he hcalled, hsaid]
  exact ⟨hend, rfl⟩

/-- With nothing on the way, the handle of a call whose execution is complete returns what it has yielded. -/
theorem Relays.waitBytes_eq (h : s.Relays x q said) (hqueue : s.peer.wire.queue = []) (htoCaller : s.toCaller = [])
    {r : CallRecord w} (hr : r ∈ s.calls) {g : CallHandle w} (hg : r.held = some g)
    (he : s.peer.wire.executed[e]? = some (r.pair, args)) (hend : EndsInComplete (partsOf (s.repliesOf e))) :
    ∃ t, g.waitBytes.run s.caller = .ok (chunksOf (partsOf (s.repliesOf e))) t := by
  have hpipe := h.pipe
  rw [hqueue, htoCaller] at hpipe
  obtain ⟨n, hn⟩ := List.mem_iff_getElem?.1 hr
  have hcalled : s.Called r.pair := ⟨r, hr, rfl, by rw [(CallRecord.held_eq_some.1 hg).2]; simp⟩
  have hq : q r.pair = s.repliesOf e := (congrFun hpipe.eq_of_nil r.pair).trans (h.answers he hcalled)
  obtain ⟨t, ht, -⟩ := h.expects.waits hn hg (hq ▸ hend)
  exact ⟨t, hq ▸ ht⟩

/-- Whatever waiting for an outstanding call has returned are the chunks that its execution has yielded, and with
nothing on the way the handle of a call whose execution is complete returns them. -/
theorem waitBytes_own_replies {s₀ : Link w} (h₀ : s₀.Outstanding x) (hs : Reaches (step checks) (Orderly checks) s₀ s) :
    (∀ r ∈ s.calls, ∀ chunks, r.result = some chunks → ∃ e args, s.peer.wire.executed[e]? = some (r.pair, args) ∧
      EndsInComplete (partsOf (s.repliesOf e)) ∧ chunks = chunksOf (partsOf (s.repliesOf e))) ∧
    (s.peer.wire.queue = [] → s.toCaller = [] → ∀ r ∈ s.calls, ∀ h, r.held = some h →
      ∀ e args, s.peer.wire.executed[e]? = some (r.pair, args) → EndsInComplete (partsOf (s.repliesOf e)) →
        ∃ t, h.waitBytes.run s.caller = .ok (chunksOf (partsOf (s.repliesOf e))) t) := by
  obtain ⟨q, said, h⟩ : ∃ q said, s.Relays x q said :=
    hs.invariant (I := fun s => ∃ q said, s.Relays x q said) ⟨_, _, h₀.relays⟩ fun s a ⟨q, said, h⟩ ha => h.step ha
  constructor
  · intro r hr chunks hc
    exact h.result_eq hr hc
  · intro hqueue htoCaller r hr g hg e args he hend
    exact h.waitBytes_eq hqueue htoCaller hr hg he hend

private def silentStreams : Link .u32 :=
  connect .new (Interface.new.addProcedure ⟨2⟩ (.streaming fun _ => (.ok (), []))) ⟨0⟩ ⟨0⟩ true 2 2

private theorem silentStreams_outstanding : silentStreams.Outstanding ⟨0, fun _ _ => none, fun _ _ => False⟩ where
  custody := Site.new_inCustody Interface.new_wellFormed rfl _ _ _
  canCall := ⟨rfl, rfl⟩
  distinct := .nil
  fresh _ hr := by cases hr
  unexecuted _ hr := by cases hr
  queue := rfl
  toCaller := rfl
  yields := rfl

private theorem orderly_fillPeer (k : ProcedureIndex w × CallIndex w) (args : List UInt8) (hcalled : s.Called k)
    (hex : (s.step checks .fillPeer).peer.wire.executed = s.peer.wire.executed ++ [(k, args)])
    (hnew : k ∉ s.executed) (hlast : ∀ y ∈ (s.firstReplies k args).dropLast, y.2 ≠ .complete) :
    s.Orderly checks .fillPeer := by
  intro k' args' hex'
  cases List.append_cancel_left (hex.symm.trans hex')
  exact ⟨hcalled, hnew, hlast⟩

private theorem orderly_yield (k : ProcedureIndex w × CallIndex w) (args : List UInt8) (hcalled : s.Called k)
    (hex : s.peer.wire.executed[e]? = some (k, args)) (hopen : ∀ y ∈ s.repliesOf e, y.2 ≠ .complete) (bytes : Payload)
    (t : Terminator) : s.Orderly checks (.yield e bytes t) := by
  intro ex hex' _
  rw [Wire.executed, List.getElem?_map, hex', Option.map_some] at hex
  cases hex
  exact ⟨hcalled, hopen⟩

private theorem called_of_any {k : ProcedureIndex w × CallIndex w}
    (h : s.calls.any fun r => decide (r.pair = k) && r.handle.isSome) : s.Called k := by
  obtain ⟨r, hr, hk⟩ := List.any_eq_true.1 h
  rw [Bool.and_eq_true, decide_eq_true_eq] at hk
  exact ⟨r, hr, hk.1, fun hnone => by simp [hnone] at hk⟩

/-- Two calls whose executions yield in turn. -/
private def crossing : List (LinkAction .u32) :=
  [.callWithBytes ⟨2⟩ .empty, .callWithBytes ⟨2⟩ .empty, .flushCaller, .fillPeer, .fillPeer,
    .yield 0 ⟨[51], by decide⟩ .none, .yield 1 ⟨[52], by decide⟩ .chunk, .yield 0 ⟨[53], by decide⟩ .complete,
    .yield 1 ⟨[54], by decide⟩ .complete, .flushPeer, .fillCaller, .fillCaller, .fillCaller, .fillCaller]

private def crossed : Link .u32 := crossing.foldl (step true) silentStreams

private theorem crossed_reaches : Reaches (step true) (Orderly true) silentStreams crossed := by
  unfold crossed crossing
  simp only [List.foldl_cons, List.foldl_nil]
  refine .next (.next (.next (.next (.next (.next (.next (.next (.next (.next (.next (.next (.next (.next .start
    ?_) ?_) ?_) ?_) ?_) ?_) ?_) ?_) ?_) ?_) ?_) ?_) ?_) ?_
  · exact ⟨by decide +kernel, by decide +kernel, by decide +kernel⟩
  · exact ⟨by decide +kernel, by decide +kernel, by decide +kernel⟩
  · trivial
  · exact orderly_fillPeer (⟨2⟩, ⟨0⟩) [] (called_of_any (by decide +kernel)) (by decide +kernel) (by decide +kernel)
      (by decide +kernel)
  · exact orderly_fillPeer (⟨2⟩, ⟨1⟩) [] (called_of_any (by decide +kernel)) (by decide +kernel) (by decide +kernel)
      (by decide +kernel)
  · exact orderly_yield (⟨2⟩, ⟨0⟩) [] (called_of_any (by decide +kernel)) (by decide +kernel) (by decide +kernel) _ _
  · exact orderly_yield (⟨2⟩, ⟨1⟩) [] (called_of_any (by decide +kernel)) (by decide +kernel) (by decide +kernel) _ _
  · exact orderly_yield (⟨2⟩, ⟨0⟩) [] (called_of_any (by decide +kernel)) (by decide +kernel) (by decide +kernel) _ _
  · exact orderly_yield (⟨2⟩, ⟨1⟩) [] (called_of_any (by decide +kernel)) (by decide +kernel) (by decide +kernel) _ _
  all_goals trivial

private def secondHandle : CallHandle .u32 := (crossed.calls[1]?.bind CallRecord.held).get (by decide +kernel)

theorem waitBytes_own_replies_crossed :
    ∃ t, secondHandle.waitBytes.run crossed.caller = .ok (chunksOf [([52], .chunk), ([54], .complete)]) t := by
  have hall := (waitBytes_own_replies silentStreams_outstanding crossed_reaches).2 (by decide +kernel)
    (by decide +kernel)
  have hsome : (crossed.calls[1]?.bind CallRecord.held) = some secondHandle := (Option.some_get _).symm
  obtain ⟨r, hr, hheld⟩ := Option.bind_eq_some_iff.1 hsome
  have hpair : crossed.calls[1]?.map CallRecord.pair = some (⟨2⟩, ⟨1⟩) := by decide +kernel
  have hex : crossed.peer.wire.executed[1]? = some ((⟨2⟩, ⟨1⟩), []) := by decide +kernel
  have hparts : partsOf (crossed.repliesOf 1) = [([52], .chunk), ([54], .complete)] := by decide +kernel
  rw [hr, Option.map_some, Option.some_inj] at hpair
  have hown := hall r (List.mem_of_getElem? hr) secondHandle hheld 1 [] (hpair.symm ▸ hex)
  rw [hparts] at hown
  exact hown ⟨[([52], .chunk)], [54], rfl, by decide⟩

end Link

end Ipfi
