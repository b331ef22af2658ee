import Ipfi.Calls

/-!
# Calls that fail

A method that makes calls and returns an error has changed nothing, except that `end_given_call` queues its message
before it looks up whether there is a response to wait for.
-/

namespace Ipfi

variable {w : IntFeature}

namespace Site

variable {s s' : Site w} {checks : Bool} {p : ProcedureIndex w} {c : CallIndex w}

/-- A call of one of the methods that make calls.  Typed arguments are given as what `into_bytes` makes of them. -/
inductive Calling (w : IntFeature)
  | startCallWithPartialBytes (p : ProcedureIndex w) (args : Payload)
  | callWithBytes (p : ProcedureIndex w) (args : Payload)
  | continueGivenCallWithBytes (p : ProcedureIndex w) (c : CallIndex w) (args : Payload)
  | endGivenCall (p : ProcedureIndex w) (c : CallIndex w)
  | startCallWithPartialArgs (p : ProcedureIndex w) (args : Except (Error w) Payload)
  | call (p : ProcedureIndex w) (args : Except (Error w) Payload)
  | continueGivenCallWithArgs (p : ProcedureIndex w) (c : CallIndex w) (args : Except (Error w) Payload)

/-- Calls the method, and forgets what it returns. -/
def Calling.method (checks : Bool) : Calling w → Op (Error w) (Site w) Unit
  | .startCallWithPartialBytes p args => discard (Site.startCallWithPartialBytes checks p args)
  | .callWithBytes p args => discard (Site.callWithBytes checks p args)
  | .continueGivenCallWithBytes p c args => Site.continueGivenCallWithBytes p c args
  | .endGivenCall p c => discard (Site.endGivenCall p c)
  | .startCallWithPartialArgs p args => discard (Site.startCallWithPartialArgs checks p args)
  | .call p args => discard (Site.call checks p args)
  | .continueGivenCallWithArgs p c args => Site.continueGivenCallWithArgs p c args

/-- The operation leaves the site as it is when it returns an error. -/
def Atomic {α : Type} (x : Op (Error w) (Site w) α) (s : Site w) : Prop := ∀ e s', x.run s = .error e s' → s' = s

theorem Atomic.discard {α : Type} {x : Op (Error w) (Site w) α} (h : Atomic x s) : Atomic (discard x) s := by
  intro e s' hr
  rw [EStateM.run_discard] at hr
  split at hr
  · cases hr
  · cases hr
    exact h _ _ ‹_›

theorem Atomic.of_cases {α : Type} {x : Op (Error w) (Site w) α} {a : α}
    (h : x.run s = .ok a s' ∨ ∃ e, x.run s = .error e s) : Atomic x s := by
  rintro e t hr
  rcases h with h | ⟨e', h⟩ <;> rw [h] at hr <;> cases hr
  rfl

theorem startCallWithPartialBytes_atomic (checks : Bool) (s : Site w) (p : ProcedureIndex w) (args : Payload) :
    Atomic (startCallWithPartialBytes checks p args) s :=
  .of_cases ((startCallWithPartialBytes_cases checks s p args).imp_left And.right)

theorem callWithBytes_atomic (checks : Bool) (s : Site w) (p : ProcedureIndex w) (args : Payload) :
    Atomic (callWithBytes checks p args) s :=
  .of_cases ((callWithBytes_cases checks s p args).imp_left And.right)

theorem continueGivenCallWithBytes_atomic (s : Site w) (p : ProcedureIndex w) (c : CallIndex w) (args : Payload) :
    Atomic (continueGivenCallWithBytes p c args) s :=
  .of_cases (continueGivenCallWithBytes_cases s p c args)

/-- Encoding the arguments comes before any effect. -/
private theorem Atomic.typed {α : Type} {f : Payload → Op (Error w) (Site w) α} (hf : ∀ args, Atomic (f args) s)
    (args : Except (Error w) Payload) :
    Atomic (do checkCanCall; let args ← orThrow args; f args : Op (Error w) (Site w) α) s := by
  intro e s' hr
  rcases checkCanCall_cases s with hc | ⟨e', he⟩
  · rw [EStateM.run_bind_ok (checkCanCall_run hc)] at hr
    cases args with
    | error e' => cases hr; rfl
    | ok args => exact hf args e s' hr
  · rw [EStateM.run_bind_error he] at hr
    cases hr
    rfl

/-- The call is not one that can be ended, and the wire is one that could end it. -/
structure Unawaited (s : Site w) (p : ProcedureIndex w) (c : CallIndex w) : Prop where
  canCall : s.CanCall
  unmapped : (p, c) ∉ s.wire.responseIdxMap

private theorem queued_ne (s : Site w) (m : Message w) : s.queued m ≠ s := by
  intro heq
  have hlen : (s.wire.queue ++ [m.toBytes]).length = s.wire.queue.length :=
    congrArg (fun t : Site w => t.wire.queue.length) heq
  simp at hlen

theorem Unawaited.endGivenCall_run (h : s.Unawaited p c) : (endGivenCall p c).run s =
    .error (.error (.noResponseBuffer p.idx c.idx)) (s.queued (.call p c .complete .empty)) := by
  have hrun : (s.queued (.call p c .complete .empty)).wire.terminated = false := h.canCall.running
  have hmap : (s.queued (.call p c .complete .empty)).wire.responseIdxMap.lookup (p, c) = none :=
    AList.lookup_eq_none.2 h.unmapped
  rw [Site.endGivenCall_run h.canCall p c]
  simp [newCallHandle, onWire, Wire.getResponseIdx, hrun, hmap]

/-- A handle for a call that is mapped is made, unless there is no message for it: then the method panics. -/
private theorem newCallHandle_mapped (hrun : s.wire.terminated = false) (hmap : (p, c) ∈ s.wire.responseIdxMap)
    {e : Error w} : (newCallHandle p c).run s ≠ .error (.error e) s' := by
  obtain ⟨b, hb⟩ := AList.mem_iff_lookup.1 hmap
  cases hl : s.interface.getCompleteLock b <;>
    simp [newCallHandle, onWire, Wire.getResponseIdx, hrun, hb, hl]

theorem endGivenCall_atomic_iff (s : Site w) (p : ProcedureIndex w) (c : CallIndex w) :
    (∀ e s', (endGivenCall p c).run s = .error (.error e) s' → s' = s) ↔ ¬ s.Unawaited p c := by
  constructor
  · intro hall hun
    exact queued_ne s _ (hall _ _ hun.endGivenCall_run)
  · intro hun e s' hr
    rcases checkCanCall_cases s with hc | ⟨e', he⟩
    · rw [Site.endGivenCall_run hc p c] at hr
      have hmap : (p, c) ∈ s.wire.responseIdxMap := by
        by_contra hnot
        exact hun ⟨hc, hnot⟩
      exact absurd hr (newCallHandle_mapped (s := s.queued (.call p c .complete .empty)) hc.running hmap)
    · rw [Site.endGivenCall, EStateM.run_bind_error he] at hr
      cases hr
      rfl

/-- A method that makes calls and returns an error has left everything as it was, if and only if it does not end a call
that no response is awaited for. -/
theorem calling_error_iff (checks : Bool) (s : Site w) (m : Calling w) :
    (∀ e s', (m.method checks).run s = .error (.error e) s' → s' = s) ↔
      ∀ p c, m = .endGivenCall p c → ¬ s.Unawaited p c := by
  have hatomic {x : Op (Error w) (Site w) Unit} (hx : Atomic x s) (e : Error w) (s' : Site w)
      (hr : x.run s = .error (.error e) s') : s' = s := hx _ _ hr
  cases m with
  | endGivenCall p c =>
    have hdiscard : (∀ e s', (discard (endGivenCall p c)).run s = .error (.error e) s' → s' = s) ↔
        ∀ e s', (endGivenCall p c).run s = .error (.error e) s' → s' = s := by
      refine forall₂_congr fun e s' => ?_
      rw [EStateM.run_discard]
      cases (endGivenCall p c).run s <;> simp
    show (∀ e s', (discard (endGivenCall p c)).run s = .error (.error e) s' → s' = s) ↔ _
    rw [hdiscard, endGivenCall_atomic_iff]
    simp
  | startCallWithPartialBytes p args =>
    exact iff_of_true (hatomic (startCallWithPartialBytes_atomic checks s p args).discard) (by simp)
  | callWithBytes p args => exact iff_of_true (hatomic (callWithBytes_atomic checks s p args).discard) (by simp)
  | continueGivenCallWithBytes p c args =>
    exact iff_of_true (hatomic (continueGivenCallWithBytes_atomic s p c args)) (by simp)
  | startCallWithPartialArgs p args =>
    exact iff_of_true (hatomic (Atomic.typed (startCallWithPartialBytes_atomic checks s p) args).discard) (by simp)
  | call p args => exact iff_of_true (hatomic (Atomic.typed (callWithBytes_atomic checks s p) args).discard) (by simp)
  | continueGivenCallWithArgs p c args =>
    exact iff_of_true (hatomic (Atomic.typed (continueGivenCallWithBytes_atomic s p c) args)) (by simp)

/-- Ending a call that was never started sends the end of it to the peer. -/
theorem not_calling_error :
    ¬ ∀ e s', ((Calling.endGivenCall ⟨0⟩ ⟨0⟩ : Calling .u32).method true).run ⟨.new, .new ⟨0⟩ false 10⟩ =
      .error (.error e) s' → s' = ⟨.new, .new ⟨0⟩ false 10⟩ := by
  intro h
  exact queued_ne _ _ (h (.noResponseBuffer 0 0) _ rfl)

end Site

end Ipfi
