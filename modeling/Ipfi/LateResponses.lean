import Ipfi.Calls
import Ipfi.Framing

/-!
# Responses after the last one

The last response to a call takes the call off the map, so whatever is yielded after it finds no response buffer, and
`fill` returns that as an error and leaves the rest of the input behind.
-/

namespace Ipfi

variable {w : IntFeature}

/-- A response as it was yielded. -/
structure Yielded (w : IntFeature) where
  call : ProcedureIndex w × CallIndex w
  terminator : Terminator
  bytes : Payload

namespace Yielded

def message (y : Yielded w) : Message w := .response y.call.1 y.call.2 y.terminator y.bytes

/-- The responses without those to calls that are over: the given ones, and each after its complete response. -/
def dropLate : List (ProcedureIndex w × CallIndex w) → List (Yielded w) → List (Yielded w)
  | _, [] => []
  | done, y :: ys =>
    if y.call ∈ done then dropLate done ys
    else y :: dropLate (if y.terminator = .complete then y.call :: done else done) ys

/-- The second response does not come after the end of its call. -/
def InTime (y y' : Yielded w) : Prop := y.call = y'.call → y.terminator ≠ .complete

variable {done : List (ProcedureIndex w × CallIndex w)} {y : Yielded w} {ys : List (Yielded w)}

theorem mem_of_mem_dropLate (h : y ∈ dropLate done ys) : y ∈ ys := by
  induction ys generalizing done with
  | nil => cases h
  | cons y' ys ih =>
    simp only [dropLate] at h
    split at h
    · exact List.mem_cons_of_mem _ (ih h)
    · rcases List.mem_cons.1 h with rfl | h
      · exact List.mem_cons_self
      · exact List.mem_cons_of_mem _ (ih h)

/-- Nothing of what is left is late. -/
theorem dropLate_inTime (done : List (ProcedureIndex w × CallIndex w)) (ys : List (Yielded w)) :
    (dropLate done ys).Pairwise InTime ∧ ∀ y ∈ dropLate done ys, y.call ∉ done := by
  induction ys generalizing done with
  | nil => exact ⟨.nil, fun y hy => by cases hy⟩
  | cons y ys ih =>
    simp only [dropLate]
    split
    · exact ih done
    · rename_i hnot
      obtain ⟨hpair, hmem⟩ := ih (if y.terminator = .complete then y.call :: done else done)
      refine ⟨.cons (fun y' hy' heq hcomplete => ?_) hpair, fun y' hy' => ?_⟩
      · have hcall := hmem y' hy'
        rw [if_pos hcomplete] at hcall
        exact hcall (List.mem_cons.2 (.inl heq.symm))
      · rcases List.mem_cons.1 hy' with rfl | hy'
        · exact hnot
        · have hcall := hmem y' hy'
          split at hcall
          · exact fun hd => hcall (List.mem_cons_of_mem _ hd)
          · exact hcall

theorem dropLate_eq_self (h : ys.Pairwise InTime) (hdone : ∀ y ∈ ys, y.call ∉ done) : dropLate done ys = ys := by
  induction h generalizing done with
  | nil => rfl
  | @cons y ys hy _ ih =>
    rw [dropLate, if_neg (hdone y List.mem_cons_self), ih fun y' hy' => ?_]
    have hnot := hdone y' (List.mem_cons_of_mem _ hy')
    split
    · rintro hin
      rcases List.mem_cons.1 hin with heq | hin
      · exact hy y' hy' heq.symm ‹_›
      · exact hnot hin
    · exact hnot

end Yielded

namespace Receiver

variable {s s' : Site w} {x : Surroundings w} {y : Yielded w} {ys : List (Yielded w)}

/-- A caller whose calls have buffers that can be written to. -/
structure Caller (x : Surroundings w) (s : Site w) : Prop where
  custody : s.InCustody x
  hostStyle : s.wire.moduleStyle = false
  running : s.wire.terminated = false

private theorem receive_mapped (h : Caller x s) (hy : y.call ∈ s.wire.responseIdxMap) :
    ∃ b s', (Site.receive y.message.incoming).run s = .ok (some b) s' ∧ Caller x s' ∧
      ∀ k, k ∈ s'.wire.responseIdxMap ↔ k ∈ s.wire.responseIdxMap ∧ ¬ (y.call = k ∧ y.terminator = .complete) := by
  obtain ⟨b, hb⟩ := AList.mem_iff_lookup.1 hy
  obtain ⟨i, hr, -, -⟩ := Site.receivePart_edits h.custody.wellFormed (h.custody.response_open hb)
    y.terminator y.bytes.val
  have hrun : (Site.receive y.message.incoming).run s = _ :=
    Site.receiveResponse_run (p := y.call.1) (c := y.call.2) ⟨h.running, hb⟩ hr
  have hworks := Site.receiveResponse_works h.custody y.call.1 y.call.2 y.terminator y.bytes.val
  have hp := Site.receive_passive hrun
  refine ⟨_, _, hrun,
    ⟨?_, hp.fixed_of_passive.moduleStyle.trans h.hostStyle, hp.terminated.trans h.running⟩, fun k => ?_⟩
  · have hcustody := hworks.custody
    rwa [show (Site.receiveResponse y.call.1 y.call.2 y.terminator y.bytes.val).run s = _ from hrun] at hcustody
  · unfold Site.afterPart
    by_cases ht : y.terminator = .complete
    · simp only [if_pos ht]
      rw [AList.mem_erase]
      simp [ht, and_comm, eq_comm]
    · simp [ht]

private theorem receive_unmapped (h : Caller x s) (hy : y.call ∉ s.wire.responseIdxMap) :
    (Site.receive y.message.incoming).run s =
      .error (.error (.noResponseBuffer y.call.1.idx y.call.2.idx)) s := by
  have hmap : s.wire.responseIdxMap.lookup (y.call.1, y.call.2) = none := AList.lookup_eq_none.2 hy
  simp [Site.receive, Message.incoming, Yielded.message, Site.receiveResponse, Site.onWire,
    Wire.getResponseIdx, h.running, hmap]

/-- The bytes of the responses, and an end of input. -/
def input (ys : List (Yielded w)) : List UInt8 := encode (ys.map Yielded.message ++ [.endOfInput])

private theorem fillStep_yielded (h : Caller x s) (y : Yielded w) (ys : List (Yielded w)) :
    fillStep.run ⟨s, input (y :: ys)⟩ =
      atEof (((Site.receive y.message.incoming).run s).mapState fun t => ⟨t, input ys⟩) := by
  have hstyle : s.wire.moduleStyle = true → ∀ p c tm b, y.message ≠ .response p c tm b := by simp [h.hostStyle]
  rw [input, List.map_cons, List.cons_append, encode_cons]
  exact fillStep_message s _ _ h.running hstyle

/-- All responses are received if and only if each is to a call that is still on the map when it comes. -/
private theorem rounds_ok_iff (h : Caller x s) (ys : List (Yielded w)) :
    (∃ y', rounds ⟨s, input ys⟩ = .ok () y') ↔
      (∀ y ∈ ys, y.call ∈ s.wire.responseIdxMap) ∧ ys.Pairwise Yielded.InTime := by
  induction ys generalizing s with
  | nil => exact iff_of_true ⟨_, rounds_endOfInput h.running []⟩ (by simp)
  | cons y ys ih =>
    by_cases hy : y.call ∈ s.wire.responseIdxMap
    · obtain ⟨b, s', hr, h', hmap⟩ := receive_mapped h hy
      have hstep : rounds ⟨s, input (y :: ys)⟩ = rounds ⟨s', input ys⟩ := by
        rw [rounds_eq, fillStep_yielded h, hr]
        rfl
      rw [hstep, ih h', List.pairwise_cons]
      simp only [hmap, List.forall_mem_cons, hy, true_and, Yielded.InTime, not_and]
      constructor
      · rintro ⟨hall, hpair⟩
        exact ⟨fun y' hy' => (hall y' hy').1, fun y' hy' => (hall y' hy').2, hpair⟩
      · rintro ⟨hall, hhead, hpair⟩
        exact ⟨fun y' hy' => ⟨hall y' hy', hhead y' hy'⟩, hpair⟩
    · refine iff_of_false ?_ fun hall => hy (hall.1 y List.mem_cons_self)
      rintro ⟨y', hr⟩
      rw [rounds_eq, fillStep_yielded h, receive_unmapped h hy, EStateM.Result.mapState_error, atEof_error] at hr
      cases hr

/-- Filling the wire of a caller from responses to its calls does what it does without the late ones, and ends well
without them, if and only if none is late. -/
theorem fill_dropLate_iff (h : Caller x s) (hys : ∀ y ∈ ys, y.call ∈ s.wire.responseIdxMap) :
    (∃ y', fill.run ⟨s, input (Yielded.dropLate [] ys)⟩ = .ok () y') ∧
    (fill.run ⟨s, input ys⟩ = fill.run ⟨s, input (Yielded.dropLate [] ys)⟩ ↔ ys.Pairwise Yielded.InTime) := by
  have hdropped : ∃ y', rounds ⟨s, input (Yielded.dropLate [] ys)⟩ = .ok () y' :=
    (rounds_ok_iff h _).2 ⟨fun y hy => hys y (Yielded.mem_of_mem_dropLate hy), (Yielded.dropLate_inTime [] ys).1⟩
  rw [fill_run ⟨s, input ys⟩ h.running, fill_run ⟨s, input (Yielded.dropLate [] ys)⟩ h.running]
  refine ⟨hdropped, fun heq => ?_, fun hpair => ?_⟩
  · rw [← heq] at hdropped
    exact ((rounds_ok_iff h ys).1 hdropped).2
  · rw [Yielded.dropLate_eq_self hpair (by simp)]

/-- A wire that has made a call. -/
private def calling : Site .u32 := Site.called ⟨.new, .new ⟨0⟩ false 10⟩ ⟨6⟩ .empty

private theorem calling_caller : Caller ⟨0, fun _ _ => none, fun _ _ => False⟩ calling where
  custody := by
    have hroom : (Interface.new : Interface .u32).messages.size < 2 ^ IntFeature.u32.bits := by decide
    exact Site.called_inCustody (Site.new_inCustody Interface.new_wellFormed rfl _ _ _) hroom rfl _ _
  hostStyle := rfl
  running := rfl

/-- The call is answered, and then once more. -/
private def answers : List (Yielded .u32) :=
  [⟨(⟨6⟩, ⟨0⟩), .complete, ⟨[33], by decide⟩⟩, ⟨(⟨6⟩, ⟨0⟩), .none, ⟨[34], by decide⟩⟩]

private theorem answers_mapped : ∀ y ∈ answers, y.call ∈ calling.wire.responseIdxMap := by
  decide

theorem fill_dropLate_iff_one :
    fill.run ⟨calling, input (answers.take 1)⟩ = fill.run ⟨calling, input (Yielded.dropLate [] (answers.take 1))⟩ :=
  (fill_dropLate_iff calling_caller fun y hy => answers_mapped y (List.mem_of_mem_take hy)).2.2 (by simp [answers])

/-- A response after the complete one. -/
theorem not_fill_dropLate :
    ¬ ∀ (s : Site .u32) (ys : List (Yielded .u32)), Caller ⟨0, fun _ _ => none, fun _ _ => False⟩ s →
      (∀ y ∈ ys, y.call ∈ s.wire.responseIdxMap) →
      fill.run ⟨s, input ys⟩ = fill.run ⟨s, input (Yielded.dropLate [] ys)⟩ := by
  intro h
  have heq := h calling answers calling_caller answers_mapped
  have hdropped : ∃ y', rounds ⟨calling, input (Yielded.dropLate [] answers)⟩ = .ok () y' :=
    (rounds_ok_iff calling_caller _).2
      ⟨fun y hy => answers_mapped y (Yielded.mem_of_mem_dropLate hy), (Yielded.dropLate_inTime [] answers).1⟩
  rw [fill_run _ calling_caller.running, fill_run _ calling_caller.running] at heq
  rw [← heq] at hdropped
  have hpair := ((rounds_ok_iff calling_caller _).1 hdropped).2
  simp [answers, Yielded.InTime] at hpair

end Receiver

end Ipfi
