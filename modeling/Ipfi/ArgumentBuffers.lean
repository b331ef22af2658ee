import Ipfi.CallBranch

/-!
# What becomes of argument buffers

`call_procedure` takes the buffer with the arguments off the map before anything else, and deletes it only after a
closure has taken the arguments.  On every other way out the buffer stays in the store with nothing mapped to it.
-/

namespace Ipfi

variable {w : IntFeature}

/-- The closure ends in a way that gives up the arguments: a streaming one has to succeed. -/
def Procedure.Takes (procedure : Procedure w) (args : List UInt8) : Prop :=
  ∀ closure, procedure = .streaming closure → (closure args).1 = .ok ()

@[simp] theorem Procedure.takes_standard (closure : List UInt8 → Except (Error w) Payload) (args : List UInt8) :
    (Procedure.standard closure).Takes args := nofun

@[simp] theorem Procedure.takes_streaming
    (closure : List UInt8 → Except (Error w) Unit × List (Payload × Terminator)) (args : List UInt8) :
    (Procedure.streaming closure).Takes args ↔ (closure args).1 = .ok () :=
  ⟨fun h => h _ rfl, fun h _ hc => by cases hc; exact h⟩

namespace Interface

variable {i i' : Interface w} {key : CallKey w} {b : IpfiInteger w}

/-- The buffer `b` is complete, and there is a procedure that takes what it holds. -/
def TakesArgs (i : Interface w) (p : ProcedureIndex w) (b : IpfiInteger w) : Prop :=
  ∃ procedure m args, i.procedures.lookup p = some procedure ∧ i.messages.lookup b = some m ∧
    i.locks m.completeLock = .complete ∧ m.chunks.head? = some args ∧ procedure.Takes args

/-- The buffer with the arguments of the call is deleted and its identifier given back, or is still mapped to the call,
and no argument buffer stays behind that no call is mapped to. -/
structure Disposes (i i' : Interface w) (key : CallKey w) : Prop where
  disposed : (i.getCallBuffer key).1 ∉ i'.messages ∧
      i'.messageIdQueue = (i.getCallBuffer key).2.messageIdQueue.relinquish (i.getCallBuffer key).1 ∨
    i'.callToBufferMap.lookup key = some (i.getCallBuffer key).1
  reachable : ∀ key' b, (i.getCallBuffer key).2.callToBufferMap.lookup key' = some b → b ∈ i'.messages →
    ∃ key'', i'.callToBufferMap.lookup key'' = some b

theorem getCallBuffer_mapped (h : i.callToBufferMap.lookup key = some b) : i.getCallBuffer key = (b, i) := by
  unfold getCallBuffer
  rw [h]

theorem getCallBuffer_new (h : i.callToBufferMap.lookup key = none) :
    i.getCallBuffer key =
      (i.push.1, { i.push.2 with callToBufferMap := i.push.2.callToBufferMap.insert key i.push.1 }) := by
  unfold getCallBuffer
  rw [h]

/-- A buffer made for the call is not complete. -/
private theorem getCallBuffer_takesArgs_iff (i : Interface w) (key : CallKey w) (p : ProcedureIndex w) :
    (Site.unmapped (i.getCallBuffer key).2 key).TakesArgs p (i.getCallBuffer key).1 ↔
      ∃ b, i.callToBufferMap.lookup key = some b ∧ i.TakesArgs p b := by
  cases hb : i.callToBufferMap.lookup key with
  | some b =>
    rw [getCallBuffer_mapped hb]
    refine ⟨fun h => ⟨b, rfl, h⟩, ?_⟩
    rintro ⟨b', hb', h⟩
    exact Option.some.inj hb' ▸ h
  | none =>
    refine iff_of_false ?_ (by simp)
    rw [getCallBuffer_new hb]
    rintro ⟨procedure, m, args, -, hm, hl, -⟩
    replace hm : i.push.2.messages.lookup i.push.1 = some m := hm
    rw [lookup_push, if_pos rfl] at hm
    cases hm
    exact absurd ((push_locks_self i).symm.trans hl) (by decide)

/-- Once the call has lost its entry, its identifier has to be given back. -/
private theorem unmapped_not_disposes (i : Interface w) (key : CallKey w) :
    ¬ Disposes i (Site.unmapped (i.getCallBuffer key).2 key) key := by
  intro h
  rcases h.disposed with ⟨-, hqueue⟩ | hmap
  · have hlen := congrArg (fun q => q.relinquished.length) hqueue
    simp [Site.unmapped, RoiQueue.relinquish] at hlen
  · have hnone := AList.lookup_erase key (i.getCallBuffer key).2.callToBufferMap
    exact absurd (hnone.symm.trans hmap) (by simp)

private theorem pop_disposes (hmem : (i.getCallBuffer key).1 ∈ (i.getCallBuffer key).2.messages) :
    Disposes i ((Site.unmapped (i.getCallBuffer key).2 key).pop (i.getCallBuffer key).1).2 key := by
  obtain ⟨m, hm⟩ := AList.mem_iff_lookup.1 hmem
  have hpop := pop_eq (i := Site.unmapped (i.getCallBuffer key).2 key) hm
  constructor
  · left
    rw [hpop]
    exact ⟨fun hin => (AList.mem_erase.1 hin).1 rfl, rfl⟩
  · intro key' b hb hin
    refine ⟨key', ?_⟩
    rw [hpop] at hin ⊢
    have hne : key' ≠ key := by
      rintro rfl
      rw [Site.lookup_getCallBuffer, if_pos rfl] at hb
      cases hb
      exact (AList.mem_erase.1 hin).1 rfl
    exact (AList.lookup_erase_ne hne).trans hb

end Interface

namespace Site

open Interface (TakesArgs Disposes)

/-- The interface after a procedure has been called: its arguments are gone if it took them. -/
theorem callProcedure_interface (s : Site w) (p : ProcedureIndex w) (c : CallIndex w) (id : WireId w)
    (yielder : Nat → Payload → Terminator → Op (Error w) (Wire w) Unit) {b : IpfiInteger w} {i : Interface w}
    (hb : s.interface.getCallBuffer (p, c, id) = (b, i)) :
    (unmapped i (p, c, id)).TakesArgs p b ∧
        ((callProcedure p c id yielder).run s).state.interface = ((unmapped i (p, c, id)).pop b).2 ∨
      ¬ (unmapped i (p, c, id)).TakesArgs p b ∧
        ((callProcedure p c id yielder).run s).state.interface = unmapped i (p, c, id) := by
  cases hp : i.procedures.lookup p with
  | none =>
    refine .inr ⟨?_, by simp [callProcedure, onInterface, hb, hp, unmapped]⟩
    rintro ⟨_, _, _, hp', -⟩
    exact absurd (hp.symm.trans hp') (by simp)
  | some procedure =>
    cases hm : i.messages.lookup b with
    | none =>
      refine .inr ⟨?_, by simp [callProcedure, onInterface, hb, hp, hm, unmapped]⟩
      rintro ⟨_, _, _, _, hm', -⟩
      exact absurd (hm.symm.trans hm') (by simp)
    | some m =>
      -- before the arguments are complete nothing takes them
      have hstuck : i.locks m.completeLock ≠ .complete → ¬ (unmapped i (p, c, id)).TakesArgs p b := by
        rintro hne ⟨_, m', _, _, hm', hl', _⟩
        cases hm.symm.trans hm'
        exact hne hl'
      cases hl : i.locks m.completeLock with
      | incomplete =>
        refine .inr ⟨hstuck (by simp [hl]), ?_⟩
        simp [callProcedure, onInterface, hb, hp, hm, hl, unmapped]
      | poisoned =>
        refine .inr ⟨hstuck (by simp [hl]), ?_⟩
        simp [callProcedure, onInterface, hb, hp, hm, hl, unmapped]
      | complete =>
        cases ha : m.chunks.head? with
        | none =>
          refine .inr ⟨?_, by simp [callProcedure, onInterface, hb, hp, hm, hl, ha, unmapped]⟩
          rintro ⟨_, m', _, _, hm', _, ha', _⟩
          cases hm.symm.trans hm'
          exact absurd (ha.symm.trans ha') (by simp)
        | some args =>
          have htakes : (unmapped i (p, c, id)).TakesArgs p b ↔ procedure.Takes args := by
            refine ⟨?_, fun ht => ⟨procedure, m, args, hp, hm, hl, ha, ht⟩⟩
            rintro ⟨procedure', m', args', hp', hm', -, ha', ht⟩
            cases hp.symm.trans hp'
            cases hm.symm.trans hm'
            cases ha.symm.trans ha'
            exact ht
          rw [htakes]
          -- a streaming closure that fails leaves its arguments behind, a standard one does not
          cases procedure with
          | standard closure =>
            refine .inl ⟨by simp, ?_⟩
            cases hc : closure args <;>
              simp [callProcedure, onInterface, onWire, hb, hp, hm, hl, ha, hc, unmapped]
          | streaming closure =>
            cases hc : (closure args).1 with
            | ok u =>
              exact .inl ⟨by simp [hc], by simp [callProcedure, onInterface, onWire, hb, hp, hm, hl, ha, hc, unmapped]⟩
            | error e =>
              exact .inr ⟨by simp [hc], by simp [callProcedure, onInterface, onWire, hb, hp, hm, hl, ha, hc, unmapped]⟩

private theorem callProcedure_disposes (s : Site w) (p : ProcedureIndex w) (c : CallIndex w) (id : WireId w)
    (yielder : Nat → Payload → Terminator → Op (Error w) (Wire w) Unit) :
    Disposes s.interface ((callProcedure p c id yielder).run s).state.interface (p, c, id) ↔
      (unmapped (s.interface.getCallBuffer (p, c, id)).2 (p, c, id)).TakesArgs p
        (s.interface.getCallBuffer (p, c, id)).1 := by
  rcases callProcedure_interface s p c id yielder rfl with ⟨htakes, hi⟩ | ⟨hnot, hi⟩
  · rw [hi]
    have hmem : (s.interface.getCallBuffer (p, c, id)).1 ∈ (s.interface.getCallBuffer (p, c, id)).2.messages := by
      obtain ⟨_, m, _, _, hm, -⟩ := htakes
      exact AList.mem_of_lookup hm
    exact iff_of_true (Interface.pop_disposes hmem) htakes
  · rw [hi]
    exact iff_of_false (Interface.unmapped_not_disposes _ _) hnot

/-- Calling a procedure disposes of the buffer with the arguments, if and only if the call has a complete buffer and
there is a procedure that takes what it holds. -/
theorem callProcedure_disposes_iff (s : Site w) (p : ProcedureIndex w) (c : CallIndex w) (id : WireId w)
    (yielder : Nat → Payload → Terminator → Op (Error w) (Wire w) Unit) :
    Disposes s.interface ((callProcedure p c id yielder).run s).state.interface (p, c, id) ↔
      ∃ b, s.interface.callToBufferMap.lookup (p, c, id) = some b ∧ s.interface.TakesArgs p b :=
  (callProcedure_disposes s p c id yielder).trans (Interface.getCallBuffer_takesArgs_iff _ _ _)

/-- An interface without procedures that holds the complete arguments of a call. -/
private def gathered : Interface .u32 := (Interface.new.getCallBuffer (⟨1⟩, ⟨0⟩, ⟨0⟩)).2.markComplete 0

private theorem gathered_wellFormed : gathered.WellFormed := by
  have hroom : (Interface.new : Interface .u32).messages.size < 2 ^ IntFeature.u32.bits := by decide
  have hevolves :=
    Interface.getCallBuffer_evolves Interface.new_wellFormed (⟨1⟩, ⟨0⟩, ⟨0⟩) (fun _ => hroom) fun _ => False
  exact Interface.markComplete_wellFormed hevolves.wellFormed _

/-- The arguments of a call of a procedure that is not there are never deleted. -/
theorem not_callProcedure_disposes :
    ¬ ∀ (s : Site .u32) (p : ProcedureIndex .u32) (c : CallIndex .u32) (id : WireId .u32), s.interface.WellFormed →
      Disposes s.interface ((callProcedure p c id (Wire.yielder p c)).run s).state.interface (p, c, id) := by
  intro h
  have hdisposes := h ⟨gathered, .new ⟨0⟩ false 10⟩ ⟨1⟩ ⟨0⟩ ⟨0⟩ gathered_wellFormed
  obtain ⟨procedure, _, _, hp, -⟩ := (callProcedure_disposes _ _ _ _ _).1 hdisposes
  have hnone : none = some procedure := hp
  cases hnone

end Site

end Ipfi
