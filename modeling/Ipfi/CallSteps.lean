import Ipfi.Calls
import Ipfi.Lib.Threads

/-!
# The calling methods step by step

`start_call_with_partial_bytes`, `call_with_bytes` and `end_given_call` are sequences of atomic steps on what the clones
of a wire share.  Between two of them other threads may call, receive, flush or terminate.
-/

namespace Ipfi

variable {w : IntFeature}

theorem Wire.getResponseIdx_cases (x : Wire w) (p : ProcedureIndex w) (c : CallIndex w) :
    (∃ b, x.terminated = false ∧ x.responseIdxMap.lookup (p, c) = some b ∧ (getResponseIdx p c).run x = .ok b x) ∨
      ∃ e, (getResponseIdx p c).run x = .error (.error e) x := by
  by_cases ht : x.terminated = true
  · exact .inr ⟨.wireTerminated, by simp [getResponseIdx, ht]⟩
  · cases hl : x.responseIdxMap.lookup (p, c) with
    | none => exact .inr ⟨.noResponseBuffer p.idx c.idx, by simp [getResponseIdx, ht, hl]⟩
    | some b => exact .inl ⟨b, by simpa using ht, rfl, by simp [getResponseIdx, ht, hl]⟩

/-- The calling methods that take several steps. -/
inductive CallMethod (w : IntFeature)
  | startCallWithPartialBytes (p : ProcedureIndex w) (args : Payload)
  | callWithBytes (p : ProcedureIndex w) (args : Payload)
  | endGivenCall (p : ProcedureIndex w) (c : CallIndex w)

/-- Where a thread is in a calling method. -/
inductive CallPlace (w : IntFeature)
  | begin
  /-- Before the lookup in the call counter, which increments what it finds. -/
  | lookUpCounter
  /-- The lookup has found nothing; before the insertion of a first entry. -/
  | insertFirst
  | pushBuffer (c : CallIndex w)
  | mapResponse (c : CallIndex w) (responseIdx : IpfiInteger w)
  | queueMessage (c : CallIndex w)
  | findResponse (c : CallIndex w)
  | register (c : CallIndex w) (responseIdx : IpfiInteger w)
  | returned (c : CallIndex w) (h : Option (CallHandle w))
  /-- The method has failed, with the call index it had been allotted by then. -/
  | failed (c : Option (CallIndex w)) (e : Stop (Error w))

namespace CallPlace

/-- The call index that has been handed out to the thread. -/
def callIdx? : CallPlace w → Option (CallIndex w)
  | .begin | .lookUpCounter | .insertFirst => none
  | .pushBuffer c | .mapResponse c _ | .queueMessage c | .findResponse c | .register c _ | .returned c _ => some c
  | .failed c _ => c

end CallPlace

namespace CallMethod

def procedureIdx : CallMethod w → ProcedureIndex w
  | startCallWithPartialBytes p _ | callWithBytes p _ | endGivenCall p _ => p

/-- The next atomic step of a thread in the method. -/
def advance (checks : Bool) (m : CallMethod w) : CallPlace w → Op (Error w) (Site w) (CallPlace w)
  | .begin => do
    Site.checkCanCall
    match m with
    | startCallWithPartialBytes _ args =>
      if args.val = [] then throw (.error .zeroLengthInNonTerminating) else pure .lookUpCounter
    | callWithBytes _ _ => pure .lookUpCounter
    | endGivenCall _ c => pure (.queueMessage c)
  | .lookUpCounter => do
    match (← get).wire.remoteCallCounter.lookup m.procedureIdx with
    | some lastCallIdx =>
      if checks ∧ lastCallIdx + 1 = 0 then throw .panicked
      else
        Site.onWire (modify fun x =>
          { x with remoteCallCounter := x.remoteCallCounter.insert m.procedureIdx (lastCallIdx + 1) })
        pure (.pushBuffer ⟨lastCallIdx + 1⟩)
    | none => pure .insertFirst
  | .insertFirst => do
    Site.onWire (modify fun x => { x with remoteCallCounter := x.remoteCallCounter.insert m.procedureIdx 0 })
    pure (.pushBuffer ⟨0⟩)
  | .pushBuffer c => do
    let responseIdx ← Site.onInterface (modifyGet Interface.push)
    pure (.mapResponse c responseIdx)
  | .mapResponse c responseIdx => do
    Site.onWire (modify fun x =>
      { x with responseIdxMap := x.responseIdxMap.insert (m.procedureIdx, c) responseIdx })
    pure (.queueMessage c)
  | .queueMessage c => do
    match m with
    | startCallWithPartialBytes p args =>
      -- the nested call checks again before it queues its message
      Site.continueGivenCallWithBytes p c args
      pure (.returned c none)
    | callWithBytes p args =>
      Site.onWire (modify fun x => x.pushMessage (.call p c .complete args))
      pure (.findResponse c)
    | endGivenCall p _ =>
      Site.onWire (modify fun x => x.pushMessage (.call p c .complete .empty))
      pure (.findResponse c)
  | .findResponse c => do
    let responseIdx ← Site.onWire (Wire.getResponseIdx m.procedureIdx c)
    pure (.register c responseIdx)
  | .register c responseIdx => do
    let completeLock ← unwrap ((← get).interface.getCompleteLock responseIdx)
    Site.onWire (modify fun x => { x with idleCallHandles := x.idleCallHandles.insert responseIdx completeLock })
    pure (.returned c (some { responseIdx, completeLock }))
  | .returned c h => pure (.returned c h)
  | .failed c e => pure (.failed c e)

/-- The place and the site after the next step; an error ends the method. -/
def next (checks : Bool) (m : CallMethod w) (a : CallPlace w) (s : Site w) : CallPlace w × Site w :=
  match (m.advance checks a).run s with
  | .ok a' s' => (a', s')
  | .error e s' => (.failed a.callIdx? e, s')

variable {checks : Bool} {m : CallMethod w} {a a' : CallPlace w} {s s' : Site w} {e : Stop (Error w)}

/-! ### Every single step -/

/-- Whether the method makes a new call. -/
def allots : CallMethod w → Bool
  | startCallWithPartialBytes _ _ | callWithBytes _ _ => true
  | endGivenCall _ _ => false

/-- Where the checks at the start of the method lead. -/
def entry : CallMethod w → CallPlace w
  | startCallWithPartialBytes _ _ | callWithBytes _ _ => .lookUpCounter
  | endGivenCall _ c => .queueMessage c

/-- The message of the call that the method queues. -/
def message (m : CallMethod w) (c : CallIndex w) : Message w :=
  match m with
  | startCallWithPartialBytes p args => .call p c .none args
  | callWithBytes p args => .call p c .complete args
  | endGivenCall p _ => .call p c .complete .empty

/-- Where the method is once its message is queued. -/
def queued (m : CallMethod w) (c : CallIndex w) : CallPlace w :=
  match m with
  | startCallWithPartialBytes _ _ => .returned c none
  | callWithBytes _ _ | endGivenCall _ _ => .findResponse c

/-- What one step of a thread in the method can do. -/
inductive Moves (checks : Bool) (m : CallMethod w) (s : Site w) : CallPlace w → CallPlace w → Site w → Prop
  | fails {a : CallPlace w} {e : Stop (Error w)} (h : (m.advance checks a).run s = .error e s) :
      Moves checks m s a (.failed a.callIdx? e) s
  | begins (h : s.wire.terminated = false) : Moves checks m s .begin m.entry s
  | found {last : IpfiInteger w} (h : s.wire.remoteCallCounter.lookup m.procedureIdx = some last) :
      Moves checks m s .lookUpCounter (.pushBuffer ⟨last + 1⟩)
        { s with wire :=
          { s.wire with remoteCallCounter := s.wire.remoteCallCounter.insert m.procedureIdx (last + 1) } }
  | missed (h : s.wire.remoteCallCounter.lookup m.procedureIdx = none) :
      Moves checks m s .lookUpCounter .insertFirst s
  | inserted : Moves checks m s .insertFirst (.pushBuffer ⟨0⟩)
      { s with wire := { s.wire with remoteCallCounter := s.wire.remoteCallCounter.insert m.procedureIdx 0 } }
  | pushed {c : CallIndex w} : Moves checks m s (.pushBuffer c) (.mapResponse c s.interface.push.1)
      { s with interface := s.interface.push.2 }
  | mapped {c : CallIndex w} {b : IpfiInteger w} : Moves checks m s (.mapResponse c b) (.queueMessage c)
      { s with wire := { s.wire with responseIdxMap := s.wire.responseIdxMap.insert (m.procedureIdx, c) b } }
  | queued {c : CallIndex w} : Moves checks m s (.queueMessage c) (m.queued c)
      { s with wire := s.wire.pushMessage (m.message c) }
  | located {c : CallIndex w} {b : IpfiInteger w} (h : s.wire.terminated = false)
      (hb : s.wire.responseIdxMap.lookup (m.procedureIdx, c) = some b) :
      Moves checks m s (.findResponse c) (.register c b) s
  | registered {c : CallIndex w} {b : IpfiInteger w} {l : LockRef} (h : s.interface.getCompleteLock b = some l) :
      Moves checks m s (.register c b) (.returned c (some ⟨b, l⟩))
        { s with wire := { s.wire with idleCallHandles := s.wire.idleCallHandles.insert b l } }
  | returned {c : CallIndex w} {h : Option (CallHandle w)} : Moves checks m s (.returned c h) (.returned c h) s
  | failed {c : Option (CallIndex w)} {e : Stop (Error w)} : Moves checks m s (.failed c e) (.failed c e) s

private theorem next_ok (h : (m.advance checks a).run s = .ok a' s') : m.next checks a s = (a', s') := by
  simp only [next, h]

private theorem Moves.of_ok (h : (m.advance checks a).run s = .ok a' s') (hm : m.Moves checks s a a' s') :
    m.Moves checks s a (m.next checks a s).1 (m.next checks a s).2 := by
  rw [next_ok h]
  exact hm

private theorem Moves.of_error (h : (m.advance checks a).run s = .error e s) :
    m.Moves checks s a (m.next checks a s).1 (m.next checks a s).2 := by
  simp only [next, h]
  exact .fails h

theorem next_moves (checks : Bool) (m : CallMethod w) (a : CallPlace w) (s : Site w) :
    m.Moves checks s a (m.next checks a s).1 (m.next checks a s).2 := by
  cases a with
  | begin =>
    rcases Site.checkCanCall_cases s with hc | ⟨e, he⟩
    · cases m with
      | startCallWithPartialBytes p args =>
        by_cases hargs : args.val = []
        · exact .of_error (e := .error .zeroLengthInNonTerminating) (by simp [advance, Site.checkCanCall_run hc, hargs])
        · exact .of_ok (by simp [advance, Site.checkCanCall_run hc, hargs]; rfl) (.begins hc.1)
      | callWithBytes p args => exact .of_ok (by simp [advance, Site.checkCanCall_run hc]; rfl) (.begins hc.1)
      | endGivenCall p c => exact .of_ok (by simp [advance, Site.checkCanCall_run hc]; rfl) (.begins hc.1)
    · exact .of_error (e := e) (by simp only [advance, EStateM.run_bind, he])
  | lookUpCounter =>
    cases hl : s.wire.remoteCallCounter.lookup m.procedureIdx with
    | none => exact .of_ok (by simp [advance, hl]) (.missed hl)
    | some last =>
      by_cases ho : checks = true ∧ last + 1 = 0
      · refine .of_error (e := .panicked) ?_
        simp only [advance, EStateM.run_bind, EStateM.run_get, hl, if_pos ho, EStateM.run_throw_any]
      · refine .of_ok ?_ (.found hl)
        simp only [advance, EStateM.run_bind, EStateM.run_get, hl, if_neg ho]
        rfl
  | insertFirst => exact .of_ok rfl .inserted
  | pushBuffer c => exact .of_ok rfl .pushed
  | mapResponse c b => exact .of_ok rfl .mapped
  | queueMessage c =>
    cases m with
    | startCallWithPartialBytes p args =>
      rcases Site.continueGivenCallWithBytes_cases s p c args with hr | ⟨e, hr⟩
      · exact .of_ok (by simp only [advance, EStateM.run_bind, hr]; rfl) .queued
      · exact .of_error (e := e) (by simp only [advance, EStateM.run_bind, hr])
    | callWithBytes p args => exact .of_ok rfl .queued
    | endGivenCall p c' => exact .of_ok rfl .queued
  | findResponse c =>
    rcases Wire.getResponseIdx_cases s.wire m.procedureIdx c with ⟨b, ht, hb, hr⟩ | ⟨e, hr⟩
    · refine .of_ok ?_ (.located ht hb)
      simp only [advance, EStateM.run_bind, Site.onWire, EStateM.run_zoom, hr, EStateM.Result.mapState_ok]
      rfl
    · refine .of_error (e := .error e) ?_
      simp only [advance, EStateM.run_bind, Site.onWire, EStateM.run_zoom, hr, EStateM.Result.mapState_error]
  | register c b =>
    cases hl : s.interface.getCompleteLock b with
    | none =>
      refine .of_error (e := .panicked) ?_
      simp only [advance, EStateM.run_bind, EStateM.run_get, hl, EStateM.run_unwrap_none]
    | some l =>
      refine .of_ok ?_ (.registered hl)
      simp only [advance, EStateM.run_bind, EStateM.run_get, hl, EStateM.run_unwrap_some]
      rfl
  | returned c h => exact .of_ok rfl .returned
  | failed c e => exact .of_ok rfl .failed

/-! ### Without other threads -/

/-- The steps of a thread in the method, with nothing in between. -/
def Leads (checks : Bool) (m : CallMethod w) : CallPlace w × Site w → CallPlace w × Site w → Prop :=
  Relation.ReflTransGen fun y z => m.next checks y.1 y.2 = z

private theorem leads_ok (h : (m.advance checks a).run s = .ok a' s') : m.Leads checks (a, s) (a', s') :=
  .single (by simp only [next, h])

private theorem leads_error (h : (m.advance checks a).run s = .error e s') :
    m.Leads checks (a, s) (.failed a.callIdx? e, s') :=
  .single (by simp only [next, h])

/-- The steps do what the operation does, and leave the thread where its result says. -/
def Ends {α : Type} (checks : Bool) (m : CallMethod w) (a : CallPlace w) (op : Op (Error w) (Site w) α)
    (after : α → CallPlace w → Prop) : Prop :=
  ∀ s, match op.run s with
    | .ok b s' => ∃ a', after b a' ∧ m.Leads checks (a, s) (a', s')
    | .error e s' => ∃ c, m.Leads checks (a, s) (.failed c e, s')

private theorem Ends.bind {α β : Type} {op : Op (Error w) (Site w) α} {f : α → Op (Error w) (Site w) β}
    {after : α → CallPlace w → Prop} {after' : β → CallPlace w → Prop} (h : m.Ends checks a op after)
    (hf : ∀ b a', after b a' → m.Ends checks a' (f b) after') : m.Ends checks a (op >>= f) after' := by
  intro s
  have hs := h s
  rw [EStateM.run_bind]
  rcases hr : op.run s with ⟨b, s₁⟩ | ⟨e, s₁⟩ <;> rw [hr] at hs
  · obtain ⟨a₁, hafter, hlead⟩ := hs
    have hs₁ := hf b a₁ hafter s₁
    show match (f b).run s₁ with
      | .ok b s' => ∃ a', after' b a' ∧ m.Leads checks (a, s) (a', s')
      | .error e s' => ∃ c, m.Leads checks (a, s) (.failed c e, s')
    rcases hr₁ : (f b).run s₁ with ⟨b', s₂⟩ | ⟨e, s₂⟩ <;> rw [hr₁] at hs₁
    · obtain ⟨a₂, hafter', hlead'⟩ := hs₁
      exact ⟨a₂, hafter', hlead.trans hlead'⟩
    · obtain ⟨c, hlead'⟩ := hs₁
      exact ⟨c, hlead.trans hlead'⟩
  · exact hs

/-- One step that is the operation itself. -/
private theorem ends_single {α : Type} {op : Op (Error w) (Site w) α} (place : α → CallPlace w)
    (h : m.advance checks a = (do let b ← op; pure (place b))) : m.Ends checks a op fun b a' => a' = place b := by
  intro s
  rcases hr : op.run s with ⟨b, s'⟩ | ⟨e, s'⟩
  · exact ⟨place b, rfl, leads_ok (by rw [h, EStateM.run_bind_ok hr]; rfl)⟩
  · exact ⟨_, leads_error (by rw [h, EStateM.run_bind_error hr])⟩

private theorem nextCallIdx_ends (checks : Bool) (m : CallMethod w) :
    m.Ends checks .lookUpCounter (Site.onWire (Wire.nextCallIdx checks m.procedureIdx)) fun c a' =>
      a' = .pushBuffer c := by
  intro s
  cases hl : s.wire.remoteCallCounter.lookup m.procedureIdx with
  | none =>
    have hr : (Wire.nextCallIdx checks m.procedureIdx).run s.wire =
        .ok ⟨0⟩ { s.wire with remoteCallCounter := s.wire.remoteCallCounter.insert m.procedureIdx 0 } := by
      simp [Wire.nextCallIdx, hl]
    rw [Site.onWire, EStateM.run_zoom, hr]
    have hlook : m.Leads checks (.lookUpCounter, s) (.insertFirst, s) := leads_ok (by simp [advance, hl])
    exact ⟨_, rfl, hlook.trans (leads_ok rfl)⟩
  | some last =>
    by_cases ho : checks = true ∧ last + 1 = 0
    · have hr : (Wire.nextCallIdx checks m.procedureIdx).run s.wire = .error .panicked s.wire := by
        simp only [Wire.nextCallIdx, EStateM.run_bind, EStateM.run_get, hl, if_pos ho]
        rfl
      rw [Site.onWire, EStateM.run_zoom, hr]
      refine ⟨none, leads_error ?_⟩
      simp only [advance, EStateM.run_bind, EStateM.run_get, hl, if_pos ho]
      rfl
    · have hr : (Wire.nextCallIdx checks m.procedureIdx).run s.wire = .ok ⟨last + 1⟩
          { s.wire with remoteCallCounter := s.wire.remoteCallCounter.insert m.procedureIdx (last + 1) } := by
        simp only [Wire.nextCallIdx, EStateM.run_bind, EStateM.run_get, hl, if_neg ho]
        rfl
      rw [Site.onWire, EStateM.run_zoom, hr]
      refine ⟨_, rfl, leads_ok ?_⟩
      simp only [advance, EStateM.run_bind, EStateM.run_get, hl, if_neg ho]
      rfl

private theorem allocateCall_ends (checks : Bool) (m : CallMethod w) :
    m.Ends checks .lookUpCounter (Site.allocateCall checks m.procedureIdx) fun c a' => a' = .queueMessage c := by
  refine (nextCallIdx_ends checks m).bind fun c a' ha' => ?_
  subst ha'
  refine (ends_single (.mapResponse c) rfl).bind fun b a' ha' => ?_
  subst ha'
  exact (ends_single (fun _ => .queueMessage c) rfl).bind fun _ a' ha' s => ⟨a', ha', .refl⟩

private theorem newCallHandle_ends (checks : Bool) (m : CallMethod w) (c : CallIndex w) :
    m.Ends checks (.findResponse c) (Site.newCallHandle m.procedureIdx c) fun h a' => a' = .returned c (some h) := by
  refine (ends_single (.register c) rfl).bind fun b a' ha' => ?_
  subst ha'
  refine ends_single (fun h => .returned c (some h)) ?_
  simp only [advance, bind_assoc, pure_bind]

private theorem checkCanCall_ends (checks : Bool) {m : CallMethod w} (a' : CallPlace w)
    (h : m.advance checks .begin = (do Site.checkCanCall; pure a')) :
    m.Ends checks .begin Site.checkCanCall fun _ a => a = a' :=
  ends_single (fun _ => a') h

/-- Without other threads the steps of `call_with_bytes` are the method. -/
theorem callWithBytes_ends (checks : Bool) (p : ProcedureIndex w) (args : Payload) :
    (callWithBytes p args).Ends checks .begin (Site.callWithBytes checks p args) fun h a =>
      ∃ c, a = .returned c (some h) := by
  refine (checkCanCall_ends checks .lookUpCounter rfl).bind fun _ a ha => ?_
  subst ha
  refine (allocateCall_ends checks (callWithBytes p args)).bind fun c a ha => ?_
  subst ha
  refine (ends_single (fun _ => .findResponse c) rfl).bind fun _ a ha => ?_
  subst ha
  intro s
  have h := newCallHandle_ends checks (callWithBytes p args) c s
  rcases hr : (Site.newCallHandle p c).run s with ⟨h', s'⟩ | ⟨e, s'⟩ <;> rw [procedureIdx, hr] at h
  · obtain ⟨a, ha, hlead⟩ := h
    exact ⟨a, ⟨c, ha⟩, hlead⟩
  · exact h

/-- Without other threads the steps of `end_given_call` are the method. -/
theorem endGivenCall_ends (checks : Bool) (p : ProcedureIndex w) (c : CallIndex w) :
    (endGivenCall p c).Ends checks .begin (Site.endGivenCall p c) fun h a => a = .returned c (some h) := by
  refine (checkCanCall_ends checks (.queueMessage c) rfl).bind fun _ a ha => ?_
  subst ha
  refine (ends_single (fun _ => .findResponse c) rfl).bind fun _ a ha => ?_
  subst ha
  exact newCallHandle_ends checks (endGivenCall p c) c

/-- Without other threads the steps of `start_call_with_partial_bytes` are the method. -/
theorem startCallWithPartialBytes_ends (checks : Bool) (p : ProcedureIndex w) (args : Payload) :
    (startCallWithPartialBytes p args).Ends checks .begin (Site.startCallWithPartialBytes checks p args)
      fun c a => a = .returned c none := by
  have hallot : (startCallWithPartialBytes p args).Ends checks .lookUpCounter (do
      let callIdx ← Site.allocateCall checks p
      Site.continueGivenCallWithBytes p callIdx args
      pure callIdx) fun c a => a = .returned c none := by
    refine (allocateCall_ends checks (startCallWithPartialBytes p args)).bind fun c a ha => ?_
    subst ha
    exact (ends_single (fun _ => .returned c none) rfl).bind fun _ a ha s => ⟨a, ha, .refl⟩
  intro s
  rcases Site.checkCanCall_cases s with hc | ⟨e, he⟩
  · rw [Site.startCallWithPartialBytes, EStateM.run_bind_ok (Site.checkCanCall_run hc)]
    by_cases hargs : args.val = []
    · have hfail : ((startCallWithPartialBytes p args).advance checks .begin).run s =
          .error (.error .zeroLengthInNonTerminating) s := by
        simp [advance, Site.checkCanCall_run hc, hargs]
      simp only [hargs, if_true, EStateM.run_bind, EStateM.run_throw_any]
      exact ⟨_, leads_error hfail⟩
    · have hbegin : (startCallWithPartialBytes p args).Leads checks (.begin, s) (.lookUpCounter, s) :=
        leads_ok (by simp [advance, Site.checkCanCall_run hc, hargs])
      have hs := hallot s
      rw [if_neg hargs]
      split at hs
      · rename_i hr
        obtain ⟨a, ha, hlead⟩ := hs
        simp only [hr]
        exact ⟨a, ha, hbegin.trans hlead⟩
      · rename_i hr
        obtain ⟨c, hlead⟩ := hs
        simp only [hr]
        exact ⟨c, hbegin.trans hlead⟩
  · have hfail : ((startCallWithPartialBytes p args).advance checks .begin).run s = .error e s := by
      simp only [advance, EStateM.run_bind, he]
    rw [Site.startCallWithPartialBytes, EStateM.run_bind_error he]
    exact ⟨_, leads_error hfail⟩

end CallMethod

end Ipfi
