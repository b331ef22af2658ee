import Ipfi.Confinement

/-!
# Making calls and waiting for them

The calling methods and the methods of the handles, case by case: either nothing happens, or a call gets its index, its
response buffer and its messages on the queue, and the handle knows the lock of the response.  All of them keep custody.
-/

namespace Ipfi

variable {w : IntFeature}

namespace Site

open Interface (Stays)

variable {s : Site w} {x : Surroundings w} {p : ProcedureIndex w} {c : CallIndex w} {args : Payload} {checks : Bool}

structure CanCall (s : Site w) : Prop where
  running : s.wire.terminated = false
  hostStyle : s.wire.moduleStyle = false

theorem checkCanCall_run (h : s.CanCall) : (checkCanCall : Op (Error w) _ _).run s = .ok () s := by
  simp [checkCanCall, h.running, h.hostStyle]

theorem checkCanCall_cases (s : Site w) : s.CanCall ∨ ∃ e, (checkCanCall : Op (Error w) _ _).run s = .error e s := by
  by_cases ht : s.wire.terminated = true
  · exact .inr ⟨.error .wireTerminated, by simp [checkCanCall, ht]⟩
  · by_cases hm : s.wire.moduleStyle = true
    · exact .inr ⟨.error .callFromModule, by simp [checkCanCall, ht, hm]⟩
    · exact .inl ⟨by simpa using ht, by simpa using hm⟩

/-! ### The steps of a call -/

/-- The index that the next call of the procedure gets. -/
def nextIdx (s : Site w) (p : ProcedureIndex w) : CallIndex w :=
  match s.wire.remoteCallCounter.lookup p with
  | some lastCallIdx => ⟨lastCallIdx + 1⟩
  | none => ⟨0⟩

/-- The site with a message put on its queue. -/
def queued (s : Site w) (m : Message w) : Site w := { s with wire := s.wire.pushMessage m }

/-- The site with a new call and an empty buffer for its response. -/
def allotted (s : Site w) (p : ProcedureIndex w) : Site w where
  interface := s.interface.push.2
  wire := { s.wire with
    remoteCallCounter := s.wire.remoteCallCounter.insert p (s.nextIdx p).idx
    responseIdxMap := s.wire.responseIdxMap.insert (p, s.nextIdx p) s.interface.push.1 }

/-- The site with a handle on the response `b`, whose lock is `l`. -/
def handled (s : Site w) (b : IpfiInteger w) (l : LockRef) : Site w :=
  { s with wire := { s.wire with idleCallHandles := s.wire.idleCallHandles.insert b l } }

theorem nextCallIdx_cases (checks : Bool) (s : Site w) (p : ProcedureIndex w) :
    (Wire.nextCallIdx checks p).run s.wire = .ok (s.nextIdx p)
        { s.wire with remoteCallCounter := s.wire.remoteCallCounter.insert p (s.nextIdx p).idx } ∨
      ∃ last, s.wire.remoteCallCounter.lookup p = some last ∧ last + 1 = 0 ∧
        (Wire.nextCallIdx checks p).run s.wire = .error .panicked s.wire := by
  unfold nextIdx
  cases hl : s.wire.remoteCallCounter.lookup p with
  | none => exact .inl (by simp only [Wire.nextCallIdx, EStateM.run_bind, EStateM.run_get, hl]; rfl)
  | some last =>
    by_cases hlast : checks = true ∧ last + 1 = 0
    · refine .inr ⟨last, rfl, hlast.2, ?_⟩
      simp only [Wire.nextCallIdx, EStateM.run_bind, EStateM.run_get, hl, if_pos hlast]
      rfl
    · left
      simp only [Wire.nextCallIdx, EStateM.run_bind, EStateM.run_get, hl, if_neg hlast]
      rfl

theorem allocateCall_cases (checks : Bool) (s : Site w) (p : ProcedureIndex w) :
    (allocateCall checks p).run s = .ok (s.nextIdx p) (s.allotted p) ∨
      ∃ last, s.wire.remoteCallCounter.lookup p = some last ∧ last + 1 = 0 ∧
        (allocateCall checks p).run s = .error .panicked s := by
  rcases nextCallIdx_cases checks s p with hr | ⟨last, hl, hlast, hr⟩
  · left
    simp only [allocateCall, onWire, EStateM.run_bind, EStateM.run_zoom, hr]
    rfl
  · refine .inr ⟨last, hl, hlast, ?_⟩
    simp only [allocateCall, onWire, EStateM.run_bind, EStateM.run_zoom, hr]
    rfl

theorem newCallHandle_run {b : IpfiInteger w} {m : MessageBuffer} (ha : s.Awaits p c b)
    (hm : s.interface.messages.lookup b = some m) :
    (newCallHandle p c).run s = .ok ⟨b, m.completeLock⟩ (s.handled b m.completeLock) := by
  simp [newCallHandle, onWire, Wire.getResponseIdx, ha.running, ha.mapped, Interface.getCompleteLock, hm, handled]

theorem newCallHandle_cases (h : s.InCustody x) (p : ProcedureIndex w) (c : CallIndex w) :
    (∃ b m, s.Awaits p c b ∧ s.interface.messages.lookup b = some m ∧
      (newCallHandle p c).run s = .ok ⟨b, m.completeLock⟩ (s.handled b m.completeLock)) ∨
    ∃ e, (newCallHandle p c).run s = .error e s := by
  by_cases ht : s.wire.terminated = true
  · exact .inr ⟨.error .wireTerminated, by simp [newCallHandle, onWire, Wire.getResponseIdx, ht]⟩
  · cases hl : s.wire.responseIdxMap.lookup (p, c) with
    | none =>
      exact .inr ⟨.error (.noResponseBuffer p.idx c.idx), by simp [newCallHandle, onWire, Wire.getResponseIdx, ht, hl]⟩
    | some b =>
      obtain ⟨m, hm, -⟩ := h.response_open hl
      have ha : s.Awaits p c b := ⟨by simpa using ht, hl⟩
      exact .inl ⟨b, m, ha, hm, newCallHandle_run ha hm⟩

/-! ### The calling methods -/

theorem continueGivenCallWithBytes_run (h : s.CanCall) (ha : args.val ≠ []) :
    (continueGivenCallWithBytes p c args).run s = .ok () (s.queued (.call p c .none args)) := by
  rw [continueGivenCallWithBytes, EStateM.run_bind_ok (checkCanCall_run h)]
  simp [ha, onWire, queued]

theorem continueGivenCallWithBytes_cases (s : Site w) (p : ProcedureIndex w) (c : CallIndex w) (args : Payload) :
    (continueGivenCallWithBytes p c args).run s = .ok () (s.queued (.call p c .none args)) ∨
      ∃ e, (continueGivenCallWithBytes p c args).run s = .error e s := by
  rcases checkCanCall_cases s with h | ⟨e, he⟩
  · by_cases ha : args.val = []
    · refine .inr ⟨.error .zeroLengthInNonTerminating, ?_⟩
      rw [continueGivenCallWithBytes, EStateM.run_bind_ok (checkCanCall_run h)]
      simp [ha]
    · exact .inl (continueGivenCallWithBytes_run h ha)
  · exact .inr ⟨e, by rw [continueGivenCallWithBytes, EStateM.run_bind_error he]⟩

/-- The site after a call has been started with its first piece. -/
def started (s : Site w) (p : ProcedureIndex w) (args : Payload) : Site w :=
  (s.allotted p).queued (.call p (s.nextIdx p) .none args)

/-- The site after a whole call has been made. -/
def called (s : Site w) (p : ProcedureIndex w) (args : Payload) : Site w :=
  ((s.allotted p).queued (.call p (s.nextIdx p) .complete args)).handled s.interface.push.1 s.interface.lockCount

theorem startCallWithPartialBytes_run (h : s.CanCall) (ha : args.val ≠ [])
    (hr : (allocateCall checks p).run s = .ok (s.nextIdx p) (s.allotted p)) :
    (startCallWithPartialBytes checks p args).run s = .ok (s.nextIdx p) (s.started p args) := by
  have h' : (s.allotted p).CanCall := ⟨h.running, h.hostStyle⟩
  rw [startCallWithPartialBytes, EStateM.run_bind_ok (checkCanCall_run h), if_neg ha, EStateM.run_bind_ok hr,
    EStateM.run_bind_ok (continueGivenCallWithBytes_run h' ha)]
  rfl

theorem startCallWithPartialBytes_cases (checks : Bool) (s : Site w) (p : ProcedureIndex w) (args : Payload) :
    s.CanCall ∧ (startCallWithPartialBytes checks p args).run s = .ok (s.nextIdx p) (s.started p args) ∨
      ∃ e, (startCallWithPartialBytes checks p args).run s = .error e s := by
  rcases checkCanCall_cases s with h | ⟨e, he⟩
  · by_cases ha : args.val = []
    · refine .inr ⟨.error .zeroLengthInNonTerminating, ?_⟩
      rw [startCallWithPartialBytes, EStateM.run_bind_ok (checkCanCall_run h)]
      simp [ha]
    · rcases allocateCall_cases checks s p with hr | ⟨last, -, -, hr⟩
      · exact .inl ⟨h, startCallWithPartialBytes_run h ha hr⟩
      · refine .inr ⟨.panicked, ?_⟩
        rw [startCallWithPartialBytes, EStateM.run_bind_ok (checkCanCall_run h), if_neg ha, EStateM.run_bind_error hr]
  · exact .inr ⟨e, by rw [startCallWithPartialBytes, EStateM.run_bind_error he]⟩

theorem callWithBytes_run (h : s.CanCall) (hr : (allocateCall checks p).run s = .ok (s.nextIdx p) (s.allotted p))
    (args : Payload) :
    (callWithBytes checks p args).run s = .ok ⟨s.interface.push.1, s.interface.lockCount⟩ (s.called p args) := by
  have ha : ((s.allotted p).queued (.call p (s.nextIdx p) .complete args)).Awaits p (s.nextIdx p) s.interface.push.1 :=
    ⟨h.running, AList.lookup_insert _⟩
  have hm := (Interface.lookup_push s.interface s.interface.push.1).trans (if_pos rfl)
  rw [callWithBytes, EStateM.run_bind_ok (checkCanCall_run h), EStateM.run_bind_ok hr]
  exact newCallHandle_run ha hm

theorem callWithBytes_cases (checks : Bool) (s : Site w) (p : ProcedureIndex w) (args : Payload) :
    s.CanCall ∧
        (callWithBytes checks p args).run s = .ok ⟨s.interface.push.1, s.interface.lockCount⟩ (s.called p args) ∨
      ∃ e, (callWithBytes checks p args).run s = .error e s := by
  rcases checkCanCall_cases s with h | ⟨e, he⟩
  · rcases allocateCall_cases checks s p with hr | ⟨last, -, -, hr⟩
    · exact .inl ⟨h, callWithBytes_run h hr args⟩
    · refine .inr ⟨.panicked, ?_⟩
      rw [callWithBytes, EStateM.run_bind_ok (checkCanCall_run h)]
      exact EStateM.run_bind_error hr
  · exact .inr ⟨e, by rw [callWithBytes, EStateM.run_bind_error he]⟩

theorem queued_inCustody (h : s.InCustody x) (m : Message w) : (s.queued m).InCustody x := h.congr rfl rfl rfl

theorem endGivenCall_run (h : s.CanCall) (p : ProcedureIndex w) (c : CallIndex w) :
    (endGivenCall p c).run s = (newCallHandle p c).run (s.queued (.call p c .complete .empty)) := by
  rw [endGivenCall, EStateM.run_bind_ok (checkCanCall_run h)]
  rfl

theorem endGivenCall_awaited (h : s.CanCall) {b : IpfiInteger w} {m : MessageBuffer} (ha : s.Awaits p c b)
    (hm : s.interface.messages.lookup b = some m) :
    (endGivenCall p c).run s =
      .ok ⟨b, m.completeLock⟩ ((s.queued (.call p c .complete .empty)).handled b m.completeLock) := by
  rw [endGivenCall_run h]
  exact newCallHandle_run (s := s.queued (.call p c .complete .empty)) ⟨ha.running, ha.mapped⟩ hm

theorem endGivenCall_cases (h : s.InCustody x) (p : ProcedureIndex w) (c : CallIndex w) :
    (∃ b m, s.CanCall ∧ s.Awaits p c b ∧ s.interface.messages.lookup b = some m ∧
      (endGivenCall p c).run s =
        .ok ⟨b, m.completeLock⟩ ((s.queued (.call p c .complete .empty)).handled b m.completeLock)) ∨
    ∃ e s', (endGivenCall p c).run s = .error e s' ∧ (s' = s ∨ s' = s.queued (.call p c .complete .empty)) := by
  rcases checkCanCall_cases s with hc | ⟨e, he⟩
  · rcases newCallHandle_cases (queued_inCustody h (.call p c .complete .empty)) p c with ⟨b, m, ha, hm, -⟩ | ⟨e, hr⟩
    · have ha' : s.Awaits p c b := ⟨ha.running, ha.mapped⟩
      exact .inl ⟨b, m, hc, ha', hm, endGivenCall_awaited hc ha' hm⟩
    · exact .inr ⟨e, _, (endGivenCall_run hc p c).trans hr, .inr rfl⟩
  · exact .inr ⟨e, s, by rw [endGivenCall, EStateM.run_bind_error he], .inl rfl⟩

/-! ### Custody -/

theorem allotted_inCustody (h : s.InCustody x) (hroom : s.interface.messages.size < 2 ^ w.bits) (p : ProcedureIndex w) :
    (s.allotted p).InCustody x := by
  have hnew := Interface.push_notMem h.wellFormed hroom
  have hopen := Interface.push_open s.interface
  have hown : ∀ {o b}, (s.allotted p).own x o = some b →
      o = .response x.position (p, s.nextIdx p) ∧ b = s.interface.push.1 ∨ s.own x o = some b := by
    intro o b ho
    cases o with
    | args key => exact .inr ho
    | response k call =>
      simp only [own, allotted] at ho ⊢
      split at ho
      · rw [AList.lookup_insert_eq] at ho
        split at ho
        · subst_vars
          exact .inl ⟨rfl, (Option.some.inj ho).symm⟩
        · exact .inr ((if_pos ‹_›).trans ho)
      · exact .inr ((if_neg ‹_›).trans ho)
  refine Custody.evolve (i := s.interface) h (Interface.push_evolves h.wellFormed hroom fun _ => False)
    fun {o b} ho => ?_
  rcases hown ho with ⟨rfl, rfl⟩ | hob
  · refine .inr ⟨hnew, hopen, fun {o'} ho' => ?_⟩
    rcases hown ho' with ⟨rfl, -⟩ | hob'
    · rfl
    · exact absurd (h.opened hob').mem hnew
  · exact .inl ⟨hob, False.elim⟩

theorem handled_inCustody (h : s.InCustody x) {b : IpfiInteger w} {m : MessageBuffer} (ha : s.Awaits p c b)
    (hm : s.interface.messages.lookup b = some m) : (s.handled b m.completeLock).InCustody x := by
  have ho : s.own x (.response x.position (p, c)) = some b := (if_pos rfl).trans ha.mapped
  refine Custody.mark h ho hm fun {j l} hl => ?_
  rcases hl with hl | ⟨rfl, hl⟩
  · exact .inl (.inl hl)
  · rcases AList.mem_values_insert hl with hl | rfl
    · exact .inl (.inr ⟨rfl, hl⟩)
    · exact .inr ⟨rfl, rfl⟩

/-- Custody is kept, and every buffer that can be written to stays as it is. -/
def KeepsCustody (x : Surroundings w) (s s' : Site w) : Prop :=
  s.InCustody x → s'.InCustody x ∧ ∀ b, Stays s.interface s'.interface b

instance (x : Surroundings w) : IsPreorder (Site w) (KeepsCustody x) where
  refl _ h := ⟨h, fun _ => .rfl⟩
  trans _ _ _ h h' hs := ⟨(h' (h hs).1).1, fun b => ((h hs).2 b).trans ((h' (h hs).1).2 b)⟩

theorem called_inCustody (h : s.InCustody x) (hroom : s.interface.messages.size < 2 ^ w.bits)
    (hs : s.wire.terminated = false) (p : ProcedureIndex w) (args : Payload) : (s.called p args).InCustody x := by
  have hq := queued_inCustody (allotted_inCustody h hroom p) (.call p (s.nextIdx p) .complete args)
  have ha : ((s.allotted p).queued (.call p (s.nextIdx p) .complete args)).Awaits p (s.nextIdx p) s.interface.push.1 :=
    ⟨hs, AList.lookup_insert _⟩
  exact handled_inCustody hq ha ((Interface.lookup_push _ _).trans (if_pos rfl))

theorem continueGivenCallWithBytes_keepsCustody (s : Site w) (p : ProcedureIndex w) (c : CallIndex w) (args : Payload) :
    KeepsCustody x s ((continueGivenCallWithBytes p c args).run s).state := by
  intro h
  rcases continueGivenCallWithBytes_cases s p c args with hr | ⟨e, hr⟩ <;> rw [hr]
  · exact ⟨queued_inCustody h _, fun _ => .rfl⟩
  · exact ⟨h, fun _ => .rfl⟩

theorem startCallWithPartialBytes_keepsCustody (hroom : s.CanCall → s.interface.messages.size < 2 ^ w.bits)
    (checks : Bool) (p : ProcedureIndex w) (args : Payload) :
    KeepsCustody x s ((startCallWithPartialBytes checks p args).run s).state := by
  intro h
  rcases startCallWithPartialBytes_cases checks s p args with ⟨hs, hr⟩ | ⟨e, hr⟩ <;> rw [hr]
  · replace hroom := hroom hs
    exact ⟨queued_inCustody (allotted_inCustody h hroom p) _, fun _ => (Interface.push_same h.wellFormed hroom).stays⟩
  · exact ⟨h, fun _ => .rfl⟩

theorem callWithBytes_keepsCustody (hroom : s.CanCall → s.interface.messages.size < 2 ^ w.bits) (checks : Bool)
    (p : ProcedureIndex w) (args : Payload) : KeepsCustody x s ((callWithBytes checks p args).run s).state := by
  intro h
  rcases callWithBytes_cases checks s p args with ⟨hs, hr⟩ | ⟨e, hr⟩ <;> rw [hr]
  · replace hroom := hroom hs
    exact ⟨called_inCustody h hroom hs.running p args, fun _ => (Interface.push_same h.wellFormed hroom).stays⟩
  · exact ⟨h, fun _ => .rfl⟩

theorem endGivenCall_keepsCustody (s : Site w) (p : ProcedureIndex w) (c : CallIndex w) :
    KeepsCustody x s ((endGivenCall p c).run s).state := by
  intro h
  rcases endGivenCall_cases h p c with ⟨b, m, -, ha, hm, hr⟩ | ⟨e, s', hr, rfl | rfl⟩ <;> rw [hr]
  · exact ⟨handled_inCustody (queued_inCustody h _) ⟨ha.running, ha.mapped⟩ hm, fun _ => .rfl⟩
  · exact ⟨h, fun _ => .rfl⟩
  · exact ⟨queued_inCustody h _, fun _ => .rfl⟩

/-! ### Handles -/

open EStateM (Within)

/-- What the methods of the handles do: waiting on the interface, and striking handles. -/
inductive Waits (s : Site w) : Site w → Prop
  | start : Waits s s
  | wait {s' : Site w} {i : Interface w} : Waits s s' → Interface.Waited s'.interface i →
      Waits s { s' with interface := i }
  | strike {s' : Site w} (b : IpfiInteger w) : Waits s s' →
      Waits s { s' with wire := { s'.wire with idleCallHandles := s'.wire.idleCallHandles.erase b } }

instance : IsPreorder (Site w) Waits where
  refl _ := .start
  trans _ _ _ h h' := by
    induction h' with
    | start => exact h
    | wait _ hi ih => exact ih.wait hi
    | strike b _ ih => exact ih.strike b

theorem onInterface_waits {α : Type} {op : Op (Error w) (Interface w) α}
    (hop : op.Within Interface.Waited) : (onInterface op).Within Waits :=
  hop.zoom fun _ _ h => Waits.start.wait h

theorem strike_waits (b : IpfiInteger w) : (CallHandle.strike b).Within Waits := fun _ => Waits.start.strike b

section

variable (h : CallHandle w) (decodes : List UInt8 → Bool)

theorem waitBytes_waits : h.waitBytes.Within Waits :=
  (onInterface_waits fun i => Interface.getRaw_waited i _).bind fun _ => (strike_waits _).bind fun _ => .pure _

theorem wait_waits : (CallHandle.wait decodes h).Within Waits :=
  (onInterface_waits fun i => Interface.getTyped_waited decodes i _).bind fun _ =>
    (strike_waits _).bind fun _ => .pure _

theorem waitChunks_waits : (CallHandle.waitChunks decodes h).Within Waits :=
  (onInterface_waits fun i => Interface.getChunks_waited decodes i _).bind fun _ =>
    (strike_waits _).bind fun _ => .pure _

theorem waitChunkStream_waits : h.waitChunkStream.Within Waits :=
  (onInterface_waits fun i => Interface.getChunkStream_waited i _).bind fun _ => .pure _

theorem intoResponseIdx_waits : h.intoResponseIdx.Within Waits := (strike_waits _).bind fun _ => .pure _

theorem recvRaw_waits (r : ChunkReceiverHandle w) : r.recvRaw.Within Waits := by
  refine (onInterface_waits fun i => Interface.recvRaw_waited i r.rx).bind fun chunk => ?_
  split
  · exact (strike_waits _).bind fun _ => .pure _
  · exact .pure _

end

theorem Waits.serving {s' : Site w} (h : Waits s s') : Follows Interface.Steady Wire.serving s s' := by
  induction h with
  | start => exact refl_of (Follows Interface.Steady Wire.serving) s
  | wait _ hi ih => exact ⟨trans_of Interface.Steady ih.1 hi.steady, ih.2⟩
  | strike b _ ih => exact ih

private theorem waited_keepsCustody {i : Interface w} (hi : Interface.Waited s.interface i) :
    KeepsCustody x s { s with interface := i } := by
  intro h
  obtain ⟨he, ho⟩ := hi.preserves h.wellFormed
  refine ⟨Custody.evolve h he fun {o b} hob => .inl ?_, ho⟩
  have hob' : s.own x o = some b := by
    cases o with
    | args key => exact (congrArg (AList.lookup key) hi.steady.calls).symm.trans hob
    | response k call => exact hob
  exact ⟨hob', fun _ => (ho b).open (h.opened hob')⟩

private theorem strike_keepsCustody (s : Site w) (b : IpfiInteger w) :
    KeepsCustody x s { s with wire := { s.wire with idleCallHandles := s.wire.idleCallHandles.erase b } } := by
  intro h
  refine ⟨Custody.mono h (fun {o b} ho => ?_) fun {k l} hl => ?_, fun _ => .rfl⟩
  · cases o <;> exact ho
  · exact hl.imp_right fun ⟨hk, hl⟩ => ⟨hk, AList.mem_values_erase hl⟩

/-- Waiting for responses keeps custody. -/
theorem Waits.keepsCustody {s' : Site w} (h : Waits s s') : KeepsCustody x s s' := by
  induction h with
  | start => exact refl_of (KeepsCustody x) s
  | wait _ hi ih => exact trans_of (KeepsCustody x) ih (waited_keepsCustody hi)
  | strike b _ ih => exact trans_of (KeepsCustody x) ih (strike_keepsCustody _ b)

end Site

end Ipfi
