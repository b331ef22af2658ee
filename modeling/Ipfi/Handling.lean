import Ipfi.Autonomous
import Ipfi.Rounds

/-!
# What autonomous wires queue

Nothing but its methods and its threads puts messages on the queue of an autonomous wire.  What the thread that fills
handles makes it queue responses, on a terminated wire at most one; the program queues calls, and what streaming
executions yield.
-/

namespace Ipfi

variable {w : IntFeature}

/-! ### What operations put on the queue -/

/-- The wire has put the messages on its queue, and is still terminated if it was. -/
structure Wire.Puts (ms : List (Message w)) (x x' : Wire w) : Prop where
  queue : x'.queue = x.queue ++ ms.map Message.toBytes
  style : x'.moduleStyle = x.moduleStyle
  terminated : x.terminated = true → x'.terminated = true

namespace Wire

variable {x x' : Wire w} {ms : List (Message w)}

theorem Puts.nothing (hq : x'.queue = x.queue) (hs : x'.moduleStyle = x.moduleStyle)
    (ht : x.terminated = true → x'.terminated = true) : Puts [] x x' :=
  ⟨by rw [hq, List.map_nil, List.append_nil], hs, ht⟩

theorem Puts.message (x : Wire w) (m : Message w) : Puts [m] x (x.pushMessage m) := ⟨rfl, rfl, fun h => h⟩

/-- Whether the wire is terminated by then makes no difference. -/
theorem Puts.terminate (h : Puts ms x x') : Puts ms x { x' with terminated := true } := ⟨h.queue, h.style, fun _ => rfl⟩

private theorem runYields_terminated (h : x.terminated = true) (p : ProcedureIndex w) (c : CallIndex w) (e : Nat)
    (ys : List Yield) : Site.runYields (yielder p c e) ys x = x := by
  induction ys with
  | nil => rfl
  | cons y ys ih => rw [Site.runYields_cons, show ((yielder p c e y.1 y.2).run x).state = x by simp [yielder, h], ih]

/-- A procedure that is called on a terminated wire replies at most with what it returns. -/
private theorem serve_terminated (h : x.terminated = true) (p : ProcedureIndex w) (c : CallIndex w)
    (procedure : Procedure w) (args : List UInt8) :
    ∃ ms : List (Message w), ms.length ≤ 1 ∧ (∀ m ∈ ms, m.IsResponse) ∧
      (x.serve p c procedure args).queue = x.queue ++ ms.map Message.toBytes := by
  cases procedure with
  | standard closure =>
    cases hc : closure args with
    | ok ret =>
      exact ⟨[.response p c .complete ret], Nat.le_refl 1, by simp [Message.IsResponse], by simp [serve, hc]; rfl⟩
    | error e => exact ⟨[], by simp, by simp, by simp [serve, hc, recordExecution]⟩
  | streaming closure =>
    refine ⟨[], by simp, by simp, ?_⟩
    have hyields := runYields_terminated (x := x.recordExecution ⟨p, c, args, true, false⟩) h p c x.executions.length
      (closure args).2
    simp only [serve, hyields]
    split <;> simp [recordExecution, finishExecution]

private theorem serve_replies (x : Wire w) (p : ProcedureIndex w) (c : CallIndex w) (procedure : Procedure w)
    (args : List UInt8) :
    ∃ ms : List (Message w), (∀ m ∈ ms, m.IsResponse) ∧ (x.terminated = true → ms.length ≤ 1) ∧
      (x.serve p c procedure args).queue = x.queue ++ ms.map Message.toBytes := by
  cases ht : x.terminated with
  | true =>
    obtain ⟨ms, hlen, hms, hq⟩ := serve_terminated ht p c procedure args
    exact ⟨ms, hms, fun _ => hlen, hq⟩
  | false =>
    refine ⟨responses p c (procedure.replies args), fun m hm => ?_, by simp, serve_queue ht p c procedure args⟩
    obtain ⟨y, -, rfl⟩ := List.mem_map.1 hm
    trivial

end Wire

/-- What handling a message does to the wire. -/
structure Wire.Handles (m : Message w) (x x' : Wire w) : Prop where
  puts : ∃ ms, Puts ms x x' ∧ (∀ m' ∈ ms, m'.IsResponse) ∧ (x.terminated = true → ms.length ≤ 1) ∧
    (¬ m.IsCall → ms = [])
  started : ¬ m.IsCall → x'.started = x.started
  ends : m = .termination → x'.terminated = true

theorem Wire.Handles.terminate {m : Message w} {x x' : Wire w} (h : Handles m x x') :
    Handles m x { x' with terminated := true } where
  puts := h.puts.imp fun _ hms => ⟨hms.1.terminate, hms.2⟩
  started := h.started
  ends _ := rfl

/-- Receiving a message queues what its procedure replies, if it is a call, and on a terminated wire at most one
message. -/
theorem Site.receive_handles (m : Message w) (t : Site w) :
    Wire.Handles m t.wire ((receive m.incoming).run t).state.wire := by
  have hstyle := (receive_fixed m.incoming t).moduleStyle
  -- nothing is queued
  have hquiet : ∀ {x : Wire w}, x.queue = t.wire.queue → x.moduleStyle = t.wire.moduleStyle →
      (t.wire.terminated = true → x.terminated = true) →
      ∃ ms, Wire.Puts ms t.wire x ∧ (∀ m' ∈ ms, m'.IsResponse) ∧ (t.wire.terminated = true → ms.length ≤ 1) ∧
        (¬ m.IsCall → ms = []) :=
    fun hq hs ht => ⟨[], .nothing hq hs ht, by simp, by simp, fun _ => rfl⟩
  cases m with
  | call p c tm args =>
    have hterm : ((receiveCall p c tm args.val).run t).state.wire.terminated = t.wire.terminated :=
      (receiveCall_calling p c tm args.val t).passive_of_calling.terminated
    have hshape := receiveCall_shape t p c tm args.val
    suffices hq : ∃ ms : List (Message w), (∀ m' ∈ ms, m'.IsResponse) ∧ (t.wire.terminated = true → ms.length ≤ 1) ∧
        ((receiveCall p c tm args.val).run t).state.wire.queue = t.wire.queue ++ ms.map Message.toBytes by
      obtain ⟨ms, hms, hlen, hq⟩ := hq
      refine ⟨⟨ms, ⟨hq, hstyle, hterm.trans⟩, hms, hlen, fun h => absurd trivial h⟩, fun h => absurd trivial h,
        fun h => by cases h⟩
    generalize ((receiveCall p c tm args.val).run t).state = t' at hshape
    cases hshape with
    | rejected => exact ⟨[], by simp, by simp, by simp⟩
    | admitted i => exact ⟨[], by simp, by simp, by simp [admitCall]⟩
    | dropped i => exact ⟨[], by simp, by simp, by simp [admitCall]⟩
    | served i procedure args' => exact (t.admitCall p c).wire.serve_replies p c procedure args'
  | response p c tm args =>
    have hans := receiveResponse_answering p c tm args.val t
    have hqueue := congrArg Wire.queue hans.2
    have hstarted := congrArg Wire.started hans.2
    exact ⟨hquiet hqueue hstyle hans.passive_of_answering.terminated.trans, fun _ => hstarted, fun h => by cases h⟩
  | endOfInput => exact ⟨hquiet rfl rfl fun h => h, fun _ => rfl, fun h => by cases h⟩
  | termination => exact ⟨hquiet rfl rfl fun _ => rfl, fun _ => rfl, fun _ => rfl⟩

/-- What a round handles it takes off the line. -/
theorem Receiver.receiveChecked_handles (m : Message w) (t : Site w) (rest : List UInt8)
    (hm : t.wire.moduleStyle = true → ¬ m.IsResponse) :
    (receiveChecked.run ⟨t, m.toBytes ++ rest⟩).state.reader = rest ∧
      Wire.Handles m t.wire (receiveChecked.run ⟨t, m.toBytes ++ rest⟩).state.site.wire := by
  have hread := readMessage_toBytes t.wire.moduleStyle m rest (by rintro hs p c tm b rfl; exact hm hs trivial)
  have hrun : receiveChecked.run ⟨t, m.toBytes ++ rest⟩ =
      atEof (((Site.receive m.incoming).run t).mapState fun t' => ⟨t', rest⟩) := by
    show atEof ((onReader (readMessage t.wire.moduleStyle) >>= fun m => onSite (Site.receive m)).run _) = _
    rw [EStateM.run_bind, onReader, EStateM.run_zoom, hread]
    rfl
  have hhandles := Site.receive_handles m t
  rw [hrun]
  generalize (Site.receive m.incoming).run t = r at hhandles ⊢
  rcases r with ⟨b, t'⟩ | ⟨e, t'⟩
  · exact ⟨rfl, hhandles⟩
  · rw [EStateM.Result.mapState_error, atEof_error]
    refine ⟨rfl, ?_⟩
    show Wire.Handles m t.wire (if e = _ then t'.markTerminated else t').wire
    split
    · exact hhandles.terminate
    · exact hhandles

namespace LocalAction

theorem drop_puts (t : Site w) : Wire.Puts [] t.wire t.dropClone.wire := .nothing rfl rfl fun _ => rfl

private theorem newCallHandle_queue (p : ProcedureIndex w) (c : CallIndex w) :
    (Site.newCallHandle p c).Within (Site.Follows Interface.Steady Wire.queue) :=
  (Site.onWire_follows (Wire.getResponseIdx_within p c)).bind fun _ => .bind .get fun _ =>
    (EStateM.Within.unwrap _).bind fun _ => (Site.onWire_follows (.modify fun _ => by rfl)).bind fun _ => .pure _

/-- What local code does puts calls on the queue of a wire that can call and responses on that of one that has been
called, and nothing but terminations once the wire is terminated. -/
theorem run_puts (checks : Bool) (a : LocalAction w) (t : Site w) :
    (a.run checks t).wire.started = t.wire.started ∧ ∃ ms, Wire.Puts ms t.wire (a.run checks t).wire ∧
      (∀ m ∈ ms, (m.IsCall → t.wire.moduleStyle = false) ∧ (m.IsResponse → t.wire.started ≠ [])) ∧
      (t.wire.terminated = true → a ≠ signalTermination → ms = []) := by
  -- a method that makes calls
  have hcalls : ∀ {t' : Site w}, Wire.serving t'.wire = Wire.serving t.wire →
      (t' = t ∨ t.CanCall ∧ ∃ m : Message w, m.IsCall ∧ t'.wire.queue = t.wire.queue ++ [m.toBytes]) →
      t'.wire.started = t.wire.started ∧ ∃ ms, Wire.Puts ms t.wire t'.wire ∧
        (∀ m ∈ ms, (m.IsCall → t.wire.moduleStyle = false) ∧ (m.IsResponse → t.wire.started ≠ [])) ∧
        (t.wire.terminated = true → a ≠ signalTermination → ms = []) := by
    intro t' hs hq
    have hexec : t'.wire.executions = t.wire.executions := congrArg (fun x => x.2.2.2) hs
    have hstyle : t'.wire.moduleStyle = t.wire.moduleStyle := congrArg (fun x => x.1.2.1) hs
    have hterm : t'.wire.terminated = t.wire.terminated := congrArg (fun x => x.2.1) hs
    refine ⟨by rw [Wire.started, Wire.started, hexec], ?_⟩
    rcases hq with rfl | ⟨hcan, m, hm, hq⟩
    · exact ⟨[], .nothing rfl rfl fun h => h, by simp, fun _ _ => rfl⟩
    · refine ⟨[m], ⟨hq, hstyle, fun h => hterm.trans h⟩, fun m' hm' => ?_, fun h => ?_⟩
      · obtain rfl := List.mem_singleton.1 hm'
        refine ⟨fun _ => hcan.hostStyle, fun hr => ?_⟩
        cases m' <;> first | exact absurd hm id | exact absurd hr id
      · rw [hcan.running] at h
        cases h
  cases a with
  | startCall p args =>
    refine hcalls (Site.startCallWithPartialBytes_serving checks p args t).2 ?_
    rcases Site.startCallWithPartialBytes_cases checks t p args with ⟨hcan, hr⟩ | ⟨e, hr⟩
    · exact .inr ⟨hcan, .call p (t.nextIdx p) .none args, trivial, by simp only [run, hr]; rfl⟩
    · exact .inl (by simp only [run, hr]; rfl)
  | continueCall p c args =>
    refine hcalls (Site.continueGivenCallWithBytes_serving p c args t).2 ?_
    rcases Site.checkCanCall_cases t with hcan | ⟨e, he⟩
    · rcases Site.continueGivenCallWithBytes_cases t p c args with hr | ⟨e, hr⟩
      · exact .inr ⟨hcan, .call p c .none args, trivial, by simp only [run, hr]; rfl⟩
      · exact .inl (by simp only [run, hr]; rfl)
    · exact .inl (by rw [run, Site.continueGivenCallWithBytes, EStateM.run_bind_error he]; rfl)
  | endCall p c =>
    refine hcalls (Site.endGivenCall_serving p c t).2 ?_
    rcases Site.checkCanCall_cases t with hcan | ⟨e, he⟩
    · refine .inr ⟨hcan, .call p c .complete .empty, trivial, ?_⟩
      rw [run, Site.endGivenCall_run hcan]
      exact (newCallHandle_queue p c _).2
    · exact .inl (by rw [run, Site.endGivenCall, EStateM.run_bind_error he]; rfl)
  | callWithBytes p args =>
    refine hcalls (Site.callWithBytes_serving checks p args t).2 ?_
    rcases Site.callWithBytes_cases checks t p args with ⟨hcan, hr⟩ | ⟨e, hr⟩
    · exact .inr ⟨hcan, .call p (t.nextIdx p) .complete args, trivial, by simp only [run, hr]; rfl⟩
    · exact .inl (by simp only [run, hr]; rfl)
  | signalEndOfInput =>
    cases ht : t.wire.terminated with
    | true =>
      have hrun : (signalEndOfInput : LocalAction w).run checks t = t := by
        simp [run, Site.onWire, Wire.signalEndOfInput, ht]
      rw [hrun]
      exact ⟨rfl, [], .nothing rfl rfl fun h => h, by simp, fun _ _ => rfl⟩
    | false =>
      have hrun : (signalEndOfInput : LocalAction w).run checks t =
        { t with wire := t.wire.pushMessage .endOfInput } := by
        simp [run, Site.onWire, Wire.signalEndOfInput, ht]
      rw [hrun]
      exact ⟨rfl, [.endOfInput], .message _ _, by simp [Message.IsCall, Message.IsResponse], by simp⟩
  | signalTermination =>
    exact ⟨rfl, [.termination], .message _ _, by simp [Message.IsCall, Message.IsResponse], fun _ h => absurd rfl h⟩
  | yield e bytes tm =>
    simp only [run, Site.serveStep]
    split
    · rename_i p c args f hex
      have hne : t.wire.started ≠ [] := by
        rintro hnil
        rw [List.map_eq_nil_iff.1 hnil] at hex
        cases hex
      refine ⟨Wire.yielder_started p c e bytes tm t.wire, ?_⟩
      rw [Wire.yielder_run]
      cases ht : t.wire.terminated with
      | true => exact ⟨[], .nothing rfl rfl fun _ => ht, by simp, fun _ _ => rfl⟩
      | false =>
        refine ⟨[.response p c tm bytes], ?_, fun m hm => ?_, by simp⟩
        · simp only [Bool.false_eq_true, if_false]
          split <;> exact ⟨rfl, rfl, fun h => h⟩
        · obtain rfl := List.mem_singleton.1 hm
          exact ⟨fun h => absurd h id, fun _ => hne⟩
    · exact ⟨rfl, [], .nothing rfl rfl fun h => h, by simp, fun _ _ => rfl⟩
  | drop => exact ⟨rfl, [], drop_puts t, by simp, fun _ _ => rfl⟩
  | strike id => exact ⟨rfl, [], .nothing rfl rfl fun h => h, by simp, fun _ _ => rfl⟩
  | others i => exact ⟨rfl, [], .nothing rfl rfl fun h => h, by simp, fun _ _ => rfl⟩

end LocalAction

end Ipfi
