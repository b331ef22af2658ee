import Ipfi.Frames
import Ipfi.MessageStore

/-!
# The call branch

What receiving a call does, case by case: it is rejected, its bytes are added to its argument buffer, or its procedure
is called on what the buffer then holds.
-/

namespace Ipfi

variable {w : IntFeature}

namespace Wire

/-- The wire after its procedure has been called on the arguments and, if it returned, its result has been queued. -/
def serve (x : Wire w) (p : ProcedureIndex w) (c : CallIndex w) (procedure : Procedure w) (args : List UInt8) :
    Wire w :=
  match procedure with
  | .standard closure =>
    match closure args with
    | .ok ret =>
      { (x.recordExecution ⟨p, c, args, false, true⟩).pushMessage (.response p c .complete ret) with
        ongoingProcedures := x.ongoingProcedures.erase (p, c) }
    | .error _ => x.recordExecution ⟨p, c, args, false, true⟩
  | .streaming closure =>
    let x' := Site.runYields (yielder p c x.executions.length) (closure args).2
      (x.recordExecution ⟨p, c, args, true, false⟩)
    match (closure args).1 with
    | .ok () => x'
    | .error _ => x'.finishExecution x.executions.length

end Wire

namespace Site

variable {s : Site w} {p : ProcedureIndex w} {c : CallIndex w} {t : Terminator} {bytes : List UInt8}

/-- Whether the limit of ongoing procedures makes the wire discard a message of the call. -/
def Rejects (s : Site w) (p : ProcedureIndex w) (c : CallIndex w) : Prop :=
  (p, c) ∉ s.wire.ongoingProcedures ∧ s.wire.maxOngoingProcedures.toNat ≤ s.wire.ongoingProcedures.size

instance : Decidable (s.Rejects p c) := inferInstanceAs (Decidable (_ ∧ _))

/-- The buffer that a message of the call goes to. -/
def bufferOf (s : Site w) (p : ProcedureIndex w) (c : CallIndex w) : IpfiInteger w :=
  (s.interface.getCallBuffer (p, c, s.wire.id)).1

/-- The site once a message of the call has been admitted. -/
def admitCall (s : Site w) (p : ProcedureIndex w) (c : CallIndex w) : Site w where
  interface := (s.interface.getCallBuffer (p, c, s.wire.id)).2
  wire := { s.wire with ongoingProcedures := s.wire.ongoingProcedures.insert (p, c) () }

theorem receiveCall_run (s : Site w) (p : ProcedureIndex w) (c : CallIndex w) (t : Terminator) (bytes : List UInt8) :
    (receiveCall p c t bytes).run s =
      if s.Rejects p c then .ok (some false) s
      else (acceptCall p c t bytes (s.bufferOf p c)).run (s.admitCall p c) := by
  simp only [receiveCall, EStateM.run_bind, EStateM.run_get]
  split
  · rw [if_pos ‹_›]; rfl
  · rw [if_neg ‹_›]; rfl

/-! ### Calling the procedure -/

/-- The interface once the call has lost its entry for an argument buffer. -/
def unmapped (i : Interface w) (key : CallKey w) : Interface w :=
  { i with callToBufferMap := i.callToBufferMap.erase key }

/-- The site after the procedure has been called on the arguments in the buffer `b`. -/
def served (s : Site w) (p : ProcedureIndex w) (c : CallIndex w) (b : IpfiInteger w) (procedure : Procedure w)
    (args : List UInt8) : EStateM.Result (Stop (Error w)) (Site w) (Option Bool) :=
  match procedure with
  | .standard closure =>
    match closure args with
    | .ok _ => .ok (some true) ⟨(s.interface.pop b).2, s.wire.serve p c procedure args⟩
    | .error e => .error (.error e) ⟨(s.interface.pop b).2, s.wire.serve p c procedure args⟩
  | .streaming closure =>
    match (closure args).1 with
    | .ok () => .ok (some true) ⟨(s.interface.pop b).2, s.wire.serve p c procedure args⟩
    | .error e => .error (.error e) ⟨s.interface, s.wire.serve p c procedure args⟩

/-- What remains of accepting the last message of a call once its bytes are in and the message is complete. -/
private def callAndReply (p : ProcedureIndex w) (c : CallIndex w) : Op (Error w) (Site w) (Option Bool) := do
  let ret ← callProcedure p c (← get).wire.id (Wire.yielder p c)
  match ret with
  | some retBytes =>
    onWire (modify fun x => x.pushMessage (.response p c .complete retBytes))
    onWire (modify fun x => { x with ongoingProcedures := x.ongoingProcedures.erase (p, c) })
  | none => pure ()
  pure (some true)

/-- The procedure is called on the arguments once its buffer is complete. -/
private theorem callAndReply_served {i : Interface w} (x : Wire w) {b : IpfiInteger w} {procedure : Procedure w}
    {m : MessageBuffer} {args : List UInt8} (hkey : i.callToBufferMap.lookup (p, c, x.id) = some b)
    (hp : i.procedures.lookup p = some procedure) (hm : i.messages.lookup b = some m)
    (hl : i.locks m.completeLock = .complete) (ha : m.chunks.head? = some args) :
    (callAndReply p c).run ⟨i, x⟩ = served ⟨unmapped i (p, c, x.id), x⟩ p c b procedure args := by
  have hbuf : i.getCallBuffer (p, c, x.id) = (b, i) := by
    unfold Interface.getCallBuffer; rw [hkey]
  cases procedure with
  | standard closure =>
    cases hc : closure args <;>
      simp [callAndReply, callProcedure, onInterface, onWire, hbuf, hp, hm, hl, ha, hc, unmapped, served, Wire.serve,
        Wire.recordExecution, Wire.pushMessage]
  | streaming closure =>
    cases hc : (closure args).1 <;>
      simp [callAndReply, callProcedure, onInterface, onWire, hbuf, hp, hm, hl, ha, hc, unmapped, served, Wire.serve]

theorem callAndReply_cases {i : Interface w} (x : Wire w) {b : IpfiInteger w}
    (hkey : i.callToBufferMap.lookup (p, c, x.id) = some b) :
    (∃ e, (callAndReply p c).run ⟨i, x⟩ = .error e ⟨unmapped i (p, c, x.id), x⟩) ∨
    ∃ procedure m args, i.procedures.lookup p = some procedure ∧ i.messages.lookup b = some m ∧
      i.locks m.completeLock = .complete ∧ m.chunks.head? = some args ∧
      (callAndReply p c).run ⟨i, x⟩ = served ⟨unmapped i (p, c, x.id), x⟩ p c b procedure args := by
  have hbuf : i.getCallBuffer (p, c, x.id) = (b, i) := by
    unfold Interface.getCallBuffer; rw [hkey]
  cases hp : i.procedures.lookup p with
  | none =>
    exact .inl ⟨.error (.noSuchProcedure p.idx), by
      simp [callAndReply, callProcedure, onInterface, hbuf, hp, unmapped]⟩
  | some procedure =>
    cases hm : i.messages.lookup b with
    | none =>
      exact .inl ⟨.error (.noCallBuffer b), by
        simp [callAndReply, callProcedure, onInterface, hbuf, hp, hm, unmapped]⟩
    | some m =>
      cases hl : i.locks m.completeLock with
      | incomplete =>
        exact .inl ⟨.error (.callBufferIncomplete b), by
          simp [callAndReply, callProcedure, onInterface, hbuf, hp, hm, hl, unmapped]⟩
      | poisoned =>
        exact .inl ⟨.error (.callBufferPoisoned b), by
          simp [callAndReply, callProcedure, onInterface, hbuf, hp, hm, hl, unmapped]⟩
      | complete =>
        cases ha : m.chunks.head? with
        | none =>
          exact .inl ⟨.panicked, by
            simp [callAndReply, callProcedure, onInterface, hbuf, hp, hm, hl, ha, unmapped]⟩
        | some args =>
          exact .inr ⟨procedure, m, args, rfl, rfl, hl, ha, callAndReply_served x hkey hp hm hl ha⟩

private theorem acceptCall_eq (p : ProcedureIndex w) (c : CallIndex w) (t : Terminator) (bytes : List UInt8)
    (b : IpfiInteger w) :
    acceptCall p c t bytes b = (do
      onInterface (Interface.sendMany bytes b)
      if t = .complete then
        onInterface (Interface.terminateMessage b)
        callAndReply p c
      else pure (some false)) := rfl

/-! ### The shape of the outcome -/

theorem lookup_getCallBuffer (i : Interface w) (key key' : CallKey w) :
    (i.getCallBuffer key).2.callToBufferMap.lookup key' =
      if key' = key then some (i.getCallBuffer key).1 else i.callToBufferMap.lookup key' := by
  unfold Interface.getCallBuffer
  split
  · split
    · subst_vars; assumption
    · rfl
  · exact AList.lookup_insert_eq _ _ _ _

theorem lookup_admitCall (s : Site w) (p : ProcedureIndex w) (c : CallIndex w) (key : CallKey w) :
    (s.admitCall p c).interface.callToBufferMap.lookup key =
      if key = (p, c, s.wire.id) then some (s.bufferOf p c) else s.interface.callToBufferMap.lookup key :=
  lookup_getCallBuffer _ _ _

/-- The outcomes of receiving a call, as far as they concern the maps and the wire. -/
inductive CallShape (s : Site w) (p : ProcedureIndex w) (c : CallIndex w) (t : Terminator) : Site w → Prop
  | rejected : s.Rejects p c → CallShape s p c t s
  /-- The message was added to the argument buffer, or that failed. -/
  | admitted (i : Interface w) : ¬ s.Rejects p c → i.callToBufferMap = (s.admitCall p c).interface.callToBufferMap →
      CallShape s p c t ⟨i, (s.admitCall p c).wire⟩
  /-- The call is over without its procedure having been called. -/
  | dropped (i : Interface w) : ¬ s.Rejects p c → t = .complete →
      i.callToBufferMap = (s.admitCall p c).interface.callToBufferMap.erase (p, c, s.wire.id) →
      CallShape s p c t ⟨i, (s.admitCall p c).wire⟩
  | served (i : Interface w) (procedure : Procedure w) (args : List UInt8) : ¬ s.Rejects p c → t = .complete →
      i.callToBufferMap = (s.admitCall p c).interface.callToBufferMap.erase (p, c, s.wire.id) →
      s.interface.procedures.lookup p = some procedure →
      CallShape s p c t ⟨i, (s.admitCall p c).wire.serve p c procedure args⟩

/-- The argument buffer is deleted unless the procedure is a streaming one that failed. -/
theorem served_state (s : Site w) (p : ProcedureIndex w) (c : CallIndex w) (b : IpfiInteger w) (procedure : Procedure w)
    (args : List UInt8) :
    ∃ i, (i = s.interface ∨ i = (s.interface.pop b).2) ∧
      (served s p c b procedure args).state = ⟨i, s.wire.serve p c procedure args⟩ := by
  cases procedure with
  | standard closure =>
    cases hc : closure args <;> exact ⟨_, .inr rfl, by simp [served, hc]⟩
  | streaming closure =>
    cases hc : (closure args).1 with
    | ok _ => exact ⟨_, .inr rfl, by simp [served, hc]⟩
    | error _ => exact ⟨_, .inl rfl, by simp [served, hc]⟩

theorem receiveCall_shape (s : Site w) (p : ProcedureIndex w) (c : CallIndex w) (t : Terminator) (bytes : List UInt8) :
    CallShape s p c t ((receiveCall p c t bytes).run s).state := by
  rw [receiveCall_run]
  split
  · exact .rejected ‹_›
  · rename_i hrej
    rw [acceptCall_eq, EStateM.run_bind, onInterface, EStateM.run_zoom]
    have hsend := Interface.steady_writes.sendMany bytes (s.bufferOf p c) (s.admitCall p c).interface
    rcases hs : (Interface.sendMany bytes (s.bufferOf p c)).run (s.admitCall p c).interface with ⟨_, i⟩ | ⟨e, i⟩
    · rw [hs] at hsend
      simp only [EStateM.Result.mapState_ok]
      split
      · rename_i ht
        rw [EStateM.run_bind, onInterface, EStateM.run_zoom]
        have hterm := Interface.steady_writes.terminateMessage (s.bufferOf p c) i
        rcases hr : (Interface.terminateMessage (s.bufferOf p c)).run i with ⟨_, i'⟩ | ⟨e, i'⟩
        · rw [hr] at hterm
          have hst : Interface.Steady (s.admitCall p c).interface i' := trans_of Interface.Steady hsend hterm
          -- the buffer is still mapped to the call when the procedure is called
          have hkey : i'.callToBufferMap.lookup (p, c, s.wire.id) = some (s.bufferOf p c) := by
            rw [hst.calls, lookup_admitCall, if_pos rfl]
          have hmap : i'.callToBufferMap.erase (p, c, s.wire.id) =
              (s.admitCall p c).interface.callToBufferMap.erase (p, c, s.wire.id) := by rw [hst.calls]
          rcases callAndReply_cases (s.admitCall p c).wire hkey with ⟨e, he⟩ | ⟨procedure, m, args, hp, -, -, -, hrun⟩
          · simp only [EStateM.Result.mapState_ok]
            rw [he]
            exact .dropped _ hrej ht hmap
          · simp only [EStateM.Result.mapState_ok]
            obtain ⟨i'', hi'', hstate⟩ := served_state ⟨unmapped i' (p, c, s.wire.id), (s.admitCall p c).wire⟩ p c
              (s.bufferOf p c) procedure args
            have hst' : i''.callToBufferMap = (unmapped i' (p, c, s.wire.id)).callToBufferMap := by
              rcases hi'' with rfl | rfl
              · rfl
              · exact (Interface.pop_steady _ _).calls
            rw [hrun]
            refine hstate ▸ ?_
            refine .served _ procedure args hrej ht (hst'.trans hmap) ?_
            rw [← hp, hst.procedures]
            exact congrArg _ (Interface.getCallBuffer_later _ _).procedures.symm
        · rw [hr] at hterm
          exact .admitted _ hrej (trans_of Interface.Steady hsend hterm).calls
      · exact .admitted _ hrej hsend.calls
    · rw [hs] at hsend
      exact .admitted _ hrej hsend.calls

/-! ### What the outcome does to the store -/

open Interface (WellFormed Same Edits Evolves)

/-- The last message of a call, once its bytes are in and its buffer is complete. -/
private theorem receiveCall_run_complete {i₁ i₂ : Interface w} (hrej : ¬ s.Rejects p c)
    (hr₁ : (Interface.sendMany bytes (s.bufferOf p c)).run (s.admitCall p c).interface = .ok () i₁)
    (hr₂ : (Interface.terminateMessage (s.bufferOf p c)).run i₁ = .ok () i₂) :
    (receiveCall p c .complete bytes).run s = (callAndReply p c).run ⟨i₂, (s.admitCall p c).wire⟩ := by
  rw [receiveCall_run, if_neg hrej, acceptCall_eq, EStateM.run_bind, onInterface, EStateM.run_zoom, hr₁]
  simp only [EStateM.Result.mapState_ok, if_true]
  rw [EStateM.run_bind, onInterface, EStateM.run_zoom, hr₂]
  rfl

/-- The buffer holds the bytes as its only chunk, and can be written to. -/
def Gathers (i : Interface w) (b : IpfiInteger w) (acc : List UInt8) : Prop :=
  ∃ m, i.messages.lookup b = some m ∧ i.locks m.completeLock ≠ .complete ∧ m.chunks = [acc]

theorem Gathers.open {i : Interface w} {b : IpfiInteger w} {acc : List UInt8} (h : Gathers i b acc) : i.Open b := by
  obtain ⟨m, hm, hl, -⟩ := h
  exact ⟨m, hm, hl⟩

/-- What has been gathered for a call: nothing if it has no buffer. -/
def Holds (s : Site w) (p : ProcedureIndex w) (c : CallIndex w) (acc : List UInt8) : Prop :=
  match s.interface.callToBufferMap.lookup (p, c, s.wire.id) with
  | some b => Gathers s.interface b acc
  | none => acc = []

theorem admitCall_evolves (h : s.interface.WellFormed)
    (hroom : (p, c, s.wire.id) ∉ s.interface.callToBufferMap → s.interface.messages.size < 2 ^ w.bits)
    (touched : IpfiInteger w → Prop) : Evolves s.interface (s.admitCall p c).interface touched :=
  Interface.getCallBuffer_evolves h _ hroom _

theorem admitCall_gathers {acc : List UInt8} (hh : s.Holds p c acc) :
    Gathers (s.admitCall p c).interface (s.bufferOf p c) acc := by
  unfold Holds at hh
  unfold admitCall bufferOf Interface.getCallBuffer
  split at hh
  · rename_i b hb
    rw [hb]
    exact hh
  · rename_i hb
    subst hh
    rw [hb]
    refine ⟨_, (Interface.lookup_push _ _).trans (if_pos rfl), ?_, rfl⟩
    exact (Interface.push_locks_self s.interface).symm ▸ by decide

theorem admitCall_open
    (hopen : ∀ b, s.interface.callToBufferMap.lookup (p, c, s.wire.id) = some b → s.interface.Open b) :
    (s.admitCall p c).interface.Open (s.bufferOf p c) := by
  unfold admitCall bufferOf Interface.getCallBuffer
  split
  · rename_i b hb
    exact hopen b hb
  · exact Interface.push_open s.interface

theorem sendMany_gathers {i i' : Interface w} {b : IpfiInteger w} {acc : List UInt8} (h : Gathers i b acc)
    (hr : (Interface.sendMany bytes b).run i = .ok () i') : Gathers i' b (acc ++ bytes) := by
  obtain ⟨m, hm, hl, hc⟩ := h
  rw [Interface.sendMany_run hm hl (by rw [hc, Interface.extendLast_singleton])] at hr
  cases hr
  exact ⟨_, (Interface.lookup_setMessage _ _ _ _).trans (if_pos rfl), hl, rfl⟩

/-- If ending a message leaves it in the store, it has the chunks it had. -/
theorem terminateMessage_gathers {i i' : Interface w} {b : IpfiInteger w} {acc : List UInt8} {m' : MessageBuffer}
    (hw : i.WellFormed) (h : Gathers i b acc) (hr : (Interface.terminateMessage b).run i = .ok () i')
    (hm' : i'.messages.lookup b = some m') : m'.chunks = [acc] := by
  obtain ⟨m, hm, hl, hc⟩ := h
  match hs : m.sender with
  | none =>
    rw [Interface.terminateMessage_run_none hm hl hs] at hr
    cases hr
    cases hm.symm.trans hm'
    exact hc
  | some none => exact absurd (hw.sender_gone hm hs) hl
  | some (some ch) =>
    cases ha : (i.chans ch).receiverAlive with
    | true =>
      rw [Interface.terminateMessage_run_alive hm hl hs ha (show m.chunks = [] ++ [acc] from hc)] at hr
      cases hr
      rw [Interface.lookup_pop, if_pos rfl] at hm'
      cases hm'
    | false =>
      rw [Interface.terminateMessage_run_dead hm hl hs ha (by simp [hc])] at hr
      cases hr
      replace hm' :=
        (Interface.lookup_setMessage (i.markComplete m.completeLock) b b { m with sender := some none }).symm.trans hm'
      rw [if_pos rfl] at hm'
      cases hm'
      exact hc

/-- Ending a message that nobody streams leaves it in the store, complete. -/
private theorem terminateMessage_kept {i : Interface w} {b : IpfiInteger w} {m : MessageBuffer}
    (hm : i.messages.lookup b = some m) (hl : i.locks m.completeLock ≠ .complete) (hne : m.chunks ≠ [])
    (hgone : m.sender ≠ some none) (hdead : ∀ ch, m.sender = some (some ch) → (i.chans ch).receiverAlive = false) :
    ∃ i' m', (Interface.terminateMessage b).run i = .ok () i' ∧ i'.messages.lookup b = some m' ∧
      i'.locks m'.completeLock = .complete ∧ m'.chunks = m.chunks := by
  rcases hs : m.sender with _ | _ | ch
  · refine ⟨_, m, Interface.terminateMessage_run_none hm hl hs, hm, ?_, rfl⟩
    exact Function.update_self ..
  · exact absurd hs hgone
  · refine ⟨_, { m with sender := some none }, Interface.terminateMessage_run_dead hm hl hs (hdead ch hs) hne, ?_,
      Function.update_self .., rfl⟩
    exact (Interface.lookup_setMessage _ _ _ _).trans (if_pos rfl)

/-- Nobody receives the chunks of the argument buffer of the call. -/
def Unstreamed (s : Site w) (p : ProcedureIndex w) (c : CallIndex w) : Prop :=
  ∀ b m ch, s.interface.callToBufferMap.lookup (p, c, s.wire.id) = some b → s.interface.messages.lookup b = some m →
    m.sender = some (some ch) → (s.interface.chans ch).receiverAlive = false

/-- Once a message of the call has been admitted, its buffer is the one it had, or a new one. -/
theorem admitCall_buffer {m : MessageBuffer}
    (hm : (s.admitCall p c).interface.messages.lookup (s.bufferOf p c) = some m) :
    (s.admitCall p c).interface = s.interface ∧ (∃ b, s.interface.callToBufferMap.lookup (p, c, s.wire.id) = some b ∧
      s.interface.messages.lookup b = some m) ∨ m.sender = none := by
  revert hm
  unfold admitCall bufferOf Interface.getCallBuffer
  split
  · rename_i b hb
    exact fun hm => .inl ⟨rfl, b, hb, hm⟩
  · intro hm
    rw [show _ = some _ from (Interface.lookup_push s.interface _).trans (if_pos rfl)] at hm
    cases hm
    exact .inr rfl

private theorem admitCall_unstreamed {m : MessageBuffer} (h : s.Unstreamed p c)
    (hm : (s.admitCall p c).interface.messages.lookup (s.bufferOf p c) = some m) (ch : ChanRef)
    (hs : m.sender = some (some ch)) : ((s.admitCall p c).interface.chans ch).receiverAlive = false := by
  rcases admitCall_buffer hm with ⟨hi, b, hb, hmb⟩ | hnone
  · rw [hi]
    exact h b m ch hb hmb hs
  · rw [hnone] at hs
    cases hs

/-- A message that ends the call makes its procedure be called on all that its buffer then holds. -/
theorem receiveCall_run_served (hrej : ¬ s.Rejects p c) {procedure : Procedure w} {acc : List UInt8} {m : MessageBuffer}
    (hp : s.interface.procedures.lookup p = some procedure)
    (hm : (s.admitCall p c).interface.messages.lookup (s.bufferOf p c) = some m)
    (hl : (s.admitCall p c).interface.locks m.completeLock ≠ .complete) (hc : m.chunks = [acc])
    (hgone : m.sender ≠ some none)
    (hdead : ∀ ch, m.sender = some (some ch) → ((s.admitCall p c).interface.chans ch).receiverAlive = false)
    (bytes : List UInt8) :
    ∃ i, i.callToBufferMap = (s.admitCall p c).interface.callToBufferMap.erase (p, c, s.wire.id) ∧
      (receiveCall p c .complete bytes).run s =
        served ⟨i, (s.admitCall p c).wire⟩ p c (s.bufferOf p c) procedure (acc ++ bytes) := by
  have hc₁ : Interface.extendLast m.chunks bytes = some [acc ++ bytes] := by rw [hc, Interface.extendLast_singleton]
  have hr₁ := Interface.sendMany_run hm hl hc₁
  have hm₁ := (Interface.lookup_setMessage (s.admitCall p c).interface (s.bufferOf p c) (s.bufferOf p c)
    { m with chunks := [acc ++ bytes] }).trans (if_pos rfl)
  obtain ⟨i₂, m₂, hr₂, hm₂, hl₂, hc₂⟩ := terminateMessage_kept hm₁ hl (List.cons_ne_nil (acc ++ bytes) []) hgone hdead
  have hst : Interface.Steady (s.admitCall p c).interface i₂ := by
    have hsend := Interface.steady_writes.sendMany bytes (s.bufferOf p c) (s.admitCall p c).interface
    have hterm := Interface.steady_writes.terminateMessage (s.bufferOf p c)
      ((s.admitCall p c).interface.setMessage (s.bufferOf p c) { m with chunks := [acc ++ bytes] })
    rw [hr₁] at hsend
    rw [hr₂] at hterm
    exact trans_of Interface.Steady hsend hterm
  have hkey : i₂.callToBufferMap.lookup (p, c, s.wire.id) = some (s.bufferOf p c) := by
    rw [hst.calls, lookup_admitCall, if_pos rfl]
  have hp₂ : i₂.procedures.lookup p = some procedure := by
    rw [hst.procedures, ← hp]
    exact congrArg _ (Interface.getCallBuffer_later _ _).procedures
  refine ⟨unmapped i₂ (p, c, s.wire.id), by rw [← hst.calls]; rfl, ?_⟩
  rw [receiveCall_run_complete hrej hr₁ hr₂]
  exact callAndReply_served (s.admitCall p c).wire hkey hp₂ hm₂ hl₂ (by rw [hc₂]; rfl)

/-- A message that does not end the call, once its bytes are in. -/
theorem receiveCall_run_piece {i : Interface w} (hrej : ¬ s.Rejects p c) (ht : t ≠ .complete)
    (hr : (Interface.sendMany bytes (s.bufferOf p c)).run (s.admitCall p c).interface = .ok () i) :
    (receiveCall p c t bytes).run s = .ok (some false) ⟨i, (s.admitCall p c).wire⟩ := by
  rw [receiveCall_run, if_neg hrej, acceptCall_eq, EStateM.run_bind, onInterface, EStateM.run_zoom, hr]
  simp [ht]

variable (hw : s.interface.WellFormed)
  (hroom : (p, c, s.wire.id) ∉ s.interface.callToBufferMap → s.interface.messages.size < 2 ^ w.bits)
  (hopen : ∀ b, s.interface.callToBufferMap.lookup (p, c, s.wire.id) = some b → s.interface.Open b)

include hw hroom hopen

/-- A message that does not end the call adds its bytes to the argument buffer. -/
theorem receiveCall_continue (hrej : ¬ s.Rejects p c) (ht : t ≠ .complete) (bytes : List UInt8) :
    ∃ i, (receiveCall p c t bytes).run s = .ok (some false) ⟨i, (s.admitCall p c).wire⟩ ∧
      Edits (s.admitCall p c).interface i (s.bufferOf p c) ∧ i.Open (s.bufferOf p c) ∧
      ∀ acc, Gathers (s.admitCall p c).interface (s.bufferOf p c) acc → Gathers i (s.bufferOf p c) (acc ++ bytes) := by
  obtain ⟨i, hr, he, ho⟩ := Interface.sendMany_edits (admitCall_evolves hw hroom fun _ => True).wellFormed
    (admitCall_open hopen) bytes
  exact ⟨i, receiveCall_run_piece hrej ht hr, he, ho, fun acc hacc => sendMany_gathers hacc hr⟩

/-- A message that ends the call takes its buffer off the map, and calls the procedure on all of the buffer or fails. -/
theorem receiveCall_complete (hrej : ¬ s.Rejects p c) (bytes : List UInt8) :
    ∃ i, Evolves (s.admitCall p c).interface i (· = s.bufferOf p c) ∧
      i.callToBufferMap = (s.admitCall p c).interface.callToBufferMap.erase (p, c, s.wire.id) ∧
      ((∃ e, (receiveCall p c .complete bytes).run s = .error e ⟨i, (s.admitCall p c).wire⟩) ∨
        ∃ procedure args, s.interface.procedures.lookup p = some procedure ∧
          ((receiveCall p c .complete bytes).run s).state = ⟨i, (s.admitCall p c).wire.serve p c procedure args⟩ ∧
          ∀ acc, Gathers (s.admitCall p c).interface (s.bufferOf p c) acc → args = acc ++ bytes) := by
  have hw' := (admitCall_evolves hw hroom fun _ => True).wellFormed
  obtain ⟨i₁, hr₁, he₁, ho₁⟩ := Interface.sendMany_edits hw' (admitCall_open hopen) bytes
  obtain ⟨i₂, hr₂, he₂⟩ := Interface.terminateMessage_edits he₁.wellFormed ho₁
  have he := he₁.trans he₂
  have hkey : i₂.callToBufferMap.lookup (p, c, s.wire.id) = some (s.bufferOf p c) := by
    rw [he.steady.calls, lookup_admitCall, if_pos rfl]
  have hmap : i₂.callToBufferMap.erase (p, c, s.wire.id) =
      (s.admitCall p c).interface.callToBufferMap.erase (p, c, s.wire.id) := by rw [he.steady.calls]
  have hun :=
    he.evolves.trans (Interface.withCalls_evolves he.wellFormed (i₂.callToBufferMap.erase (p, c, s.wire.id)) _)
  rw [receiveCall_run_complete hrej hr₁ hr₂]
  rcases callAndReply_cases (s.admitCall p c).wire hkey with ⟨e, hcall⟩ | ⟨procedure, m, args, hp, hm, -, hargs, hcall⟩
  · exact ⟨_, hun, hmap, .inl ⟨e, hcall⟩⟩
  · have hp' : s.interface.procedures.lookup p = some procedure := by
      rw [← hp, he.steady.procedures]
      exact congrArg _ (Interface.getCallBuffer_later _ _).procedures.symm
    obtain ⟨i, hi, hstate⟩ := served_state ⟨unmapped i₂ (p, c, s.wire.id), (s.admitCall p c).wire⟩ p c (s.bufferOf p c)
      procedure args
    have hargs' : ∀ acc, Gathers (s.admitCall p c).interface (s.bufferOf p c) acc → args = acc ++ bytes := by
      intro acc hacc
      rw [terminateMessage_gathers he₁.wellFormed (sendMany_gathers hacc hr₁) hr₂ hm] at hargs
      exact (Option.some.inj hargs).symm
    have hun' : Evolves (s.admitCall p c).interface i (· = s.bufferOf p c) ∧
        i.callToBufferMap = (unmapped i₂ (p, c, s.wire.id)).callToBufferMap := by
      rcases hi with rfl | rfl
      · exact ⟨hun, rfl⟩
      · exact ⟨hun.trans (Interface.pop_edits hun.wellFormed _).evolves, (Interface.pop_steady _ _).calls⟩
    exact ⟨i, hun'.1, hun'.2.trans hmap,
      .inr ⟨procedure, args, hp', (congrArg EStateM.Result.state hcall).trans hstate, hargs'⟩⟩

omit hopen in
/-- A message that ends the call makes its procedure be called on all that has been gathered. -/
theorem receiveCall_served (hrej : ¬ s.Rejects p c) {procedure : Procedure w} {acc : List UInt8}
    (hp : s.interface.procedures.lookup p = some procedure) (hh : s.Holds p c acc) (hun : s.Unstreamed p c)
    (bytes : List UInt8) :
    ∃ i, i.callToBufferMap = (s.admitCall p c).interface.callToBufferMap.erase (p, c, s.wire.id) ∧
      ((receiveCall p c .complete bytes).run s).state =
        ⟨i, (s.admitCall p c).wire.serve p c procedure (acc ++ bytes)⟩ := by
  obtain ⟨m, hm, hl, hc⟩ := admitCall_gathers hh
  have hw' := (admitCall_evolves hw hroom fun _ => True).wellFormed
  obtain ⟨i, hmap, hr⟩ := receiveCall_run_served hrej hp hm hl hc (fun hgone => hl (hw'.sender_gone hm hgone))
    (admitCall_unstreamed hun hm) bytes
  obtain ⟨i', hi', hstate⟩ := served_state ⟨i, (s.admitCall p c).wire⟩ p c (s.bufferOf p c) procedure (acc ++ bytes)
  refine ⟨i', ?_, by rw [hr, hstate]⟩
  rcases hi' with rfl | rfl
  · exact hmap
  · exact (Interface.pop_steady _ _).calls.trans hmap

end Site

end Ipfi
