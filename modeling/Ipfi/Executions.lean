import Ipfi.CallBranch

/-!
# Executions

What calling a procedure adds to a wire: the record of an execution, the responses that its closure yields or returns,
and what becomes of the ongoing procedures.
-/

namespace Ipfi

variable {w : IntFeature}

open EStateM (Within Keeps)

def Execution.pair (e : Execution w) : ProcedureIndex w × CallIndex w := (e.procedureIdx, e.callIdx)

/-- What a streaming procedure yields, or a standard one returns. -/
abbrev Yield : Type := Payload × Terminator

namespace Procedure

def isStreaming : Procedure w → Bool
  | .standard _ => false
  | .streaming _ => true

/-- What an execution sends back before its closure is over. -/
def replies (procedure : Procedure w) (args : List UInt8) : List Yield :=
  match procedure with
  | .standard closure =>
    match closure args with
    | .ok ret => [(ret, .complete)]
    | .error _ => []
  | .streaming closure => (closure args).2

end Procedure

namespace Wire

variable {p : ProcedureIndex w} {c : CallIndex w}

theorem yielder_run (x : Wire w) (p : ProcedureIndex w) (c : CallIndex w) (e : Nat) (bytes : Payload) (t : Terminator) :
    ((yielder p c e bytes t).run x).state =
      if x.terminated then x
      else if t = .complete then
        ({ x.pushMessage (.response p c t bytes) with
          ongoingProcedures := x.ongoingProcedures.erase (p, c) } : Wire w).finishExecution e
      else x.pushMessage (.response p c t bytes) := by
  cases ht : x.terminated <;> cases t <;> simp [yielder, ht, pushMessage]

/-! ### The record of executions -/

/-- The executions on the wire, as they were when they started. -/
def started (x : Wire w) : List (Execution w) := x.executions.map fun e => { e with finished := false }

/-- The arguments that the procedures have been called on, oldest first. -/
def calledOn (x : Wire w) : List (List UInt8) := x.executions.map Execution.args

theorem calledOn_eq (x : Wire w) : x.calledOn = x.started.map Execution.args := by
  simp [calledOn, started]

theorem finishExecution_started (x : Wire w) (e : Nat) : (x.finishExecution e).started = x.started := by
  refine List.ext_getElem? fun n => ?_
  simp only [started, finishExecution, List.getElem?_map, List.getElem?_modify]
  cases x.executions[n]? <;> split <;> rfl

theorem yielder_started (p : ProcedureIndex w) (c : CallIndex w) (e : Nat) (bytes : Payload) (t : Terminator) :
    (yielder p c e bytes t).Within (Keeps started) :=
  yielder_within p c e bytes t (fun _ _ => rfl) (fun _ => rfl) fun x => finishExecution_started x e

theorem yielder_calledOn (p : ProcedureIndex w) (c : CallIndex w) (e : Nat) (bytes : Payload) (t : Terminator) :
    (yielder p c e bytes t).Within (Keeps calledOn) := fun x => by
  rw [Keeps, calledOn_eq, calledOn_eq, show _ = _ from yielder_started p c e bytes t x]

/-- Calling a procedure adds one execution. -/
theorem serve_started (x : Wire w) (p : ProcedureIndex w) (c : CallIndex w) (procedure : Procedure w)
    (args : List UInt8) :
    (x.serve p c procedure args).started = x.started ++ [⟨p, c, args, procedure.isStreaming, false⟩] := by
  cases procedure with
  | standard closure => simp only [serve]; split <;> simp [started, recordExecution, pushMessage, Procedure.isStreaming]
  | streaming closure =>
    have hyields := Site.runYields_within (yielder_started p c x.executions.length) (closure args).2
      (x.recordExecution ⟨p, c, args, true, false⟩)
    have hrecord : (x.recordExecution ⟨p, c, args, true, false⟩).started = x.started ++
      [⟨p, c, args, true, false⟩] := by
      simp [started, recordExecution]
    simp only [serve]
    split
    · exact Eq.trans hyields hrecord
    · exact (finishExecution_started _ _).trans (Eq.trans hyields hrecord)

/-- The calls that have been executed and the arguments of their executions, oldest first. -/
def executed (x : Wire w) : List ((ProcedureIndex w × CallIndex w) × List UInt8) :=
  x.executions.map fun e => (e.pair, e.args)

private theorem executed_eq (x : Wire w) : x.executed = x.started.map fun e => (e.pair, e.args) := by
  simp [executed, started, Execution.pair]

theorem executed_of_started {x x' : Wire w} (h : x'.started = x.started) : x'.executed = x.executed := by
  rw [executed_eq, executed_eq, h]

theorem executed_append {x x' : Wire w} {e : Execution w} (h : x'.started = x.started ++ [e]) :
    x'.executed = x.executed ++ [(e.pair, e.args)] := by
  rw [executed_eq, executed_eq, h, List.map_append]
  rfl

theorem yielder_executed (p : ProcedureIndex w) (c : CallIndex w) (e : Nat) (bytes : Payload) (t : Terminator) :
    (yielder p c e bytes t).Within (Keeps executed) := fun x =>
  executed_of_started (yielder_started p c e bytes t x)

theorem serve_executed (x : Wire w) (p : ProcedureIndex w) (c : CallIndex w) (procedure : Procedure w)
    (args : List UInt8) :
    (x.serve p c procedure args).executed = x.executed ++ [((p, c), args)] := by
  rw [executed_append (serve_started x p c procedure args)]
  rfl

theorem serve_calledOn (x : Wire w) (p : ProcedureIndex w) (c : CallIndex w) (procedure : Procedure w)
    (args : List UInt8) : (x.serve p c procedure args).calledOn = x.calledOn ++ [args] := by
  rw [calledOn_eq, calledOn_eq, serve_started, List.map_append]
  rfl

/-- The arguments that the procedure of the call has been called on, oldest first. -/
def argsOf (x : Wire w) (call : ProcedureIndex w × CallIndex w) : List (List UInt8) :=
  (x.executed.filter fun e => e.1 = call).map Prod.snd

theorem argsOf_eq_nil {x : Wire w} {call : ProcedureIndex w × CallIndex w} (h : call ∉ x.executed.map Prod.fst) :
    x.argsOf call = [] := by
  rw [argsOf, List.filter_eq_nil_iff.2, List.map_nil]
  intro e he heq
  exact h (List.mem_map.2 ⟨e, he, of_decide_eq_true heq⟩)

/-- A call that is executed once. -/
theorem argsOf_eq_singleton {x : Wire w} {call : ProcedureIndex w × CallIndex w} {args : List UInt8}
    (h : (x.executed.map Prod.fst).Nodup) (hmem : (call, args) ∈ x.executed) : x.argsOf call = [args] := by
  obtain ⟨before, after, heq⟩ := List.append_of_mem hmem
  rw [heq, List.map_append, List.map_cons, List.nodup_middle, List.nodup_cons, List.mem_append, not_or] at h
  have hnone : ∀ es : List ((ProcedureIndex w × CallIndex w) × List UInt8), call ∉ es.map Prod.fst →
      es.filter (fun e => e.1 = call) = [] := by
    intro es hes
    rw [List.filter_eq_nil_iff]
    intro e he heq
    exact hes (List.mem_map.2 ⟨e, he, of_decide_eq_true heq⟩)
  rw [argsOf, heq, List.filter_append, List.filter_cons_of_pos (by simp), hnone before h.1.1, hnone after h.1.2]
  rfl

/-! ### Responses -/

/-- The responses to a call, as they are put on the queue. -/
def responses (p : ProcedureIndex w) (c : CallIndex w) (yields : List Yield) : List (Message w) :=
  yields.map fun y => .response p c y.2 y.1

private theorem runYields_queue (p : ProcedureIndex w) (c : CallIndex w) (e : Nat) (yields : List Yield) {x : Wire w}
    (hx : x.terminated = false) :
    (Site.runYields (yielder p c e) yields x).queue = x.queue ++ (responses p c yields).map Message.toBytes := by
  induction yields generalizing x with
  | nil => simp [Site.runYields, responses]
  | cons y yields ih =>
    have hrun := yielder_run x p c e y.1 y.2
    rw [hx, if_neg Bool.false_ne_true] at hrun
    have hterm : ((yielder p c e y.1 y.2).run x).state.terminated = false :=
      (congrArg (fun z => z.1.2.1) (Site.yielder_calling p c e y.1 y.2 x)).trans hx
    have hqueue : ((yielder p c e y.1 y.2).run x).state.queue = x.queue ++
      [(Message.response p c y.2 y.1).toBytes] := by
      rw [hrun]
      split <;> rfl
    rw [Site.runYields_cons, ih hterm, hqueue]
    simp [responses]

/-- Calling a procedure queues what it replies. -/
theorem serve_queue {x : Wire w} (hx : x.terminated = false) (p : ProcedureIndex w) (c : CallIndex w)
    (procedure : Procedure w) (args : List UInt8) :
    (x.serve p c procedure args).queue = x.queue ++ (responses p c (procedure.replies args)).map Message.toBytes := by
  cases procedure with
  | standard closure =>
    cases hc : closure args <;> simp [serve, Procedure.replies, hc, responses, pushMessage, recordExecution]
  | streaming closure =>
    have hyields := runYields_queue p c x.executions.length (closure args).2
      (x := x.recordExecution ⟨p, c, args, true, false⟩) hx
    simp only [serve]
    split <;> exact hyields

/-! ### Ongoing procedures -/

/-- The ongoing calls other than the given one. -/
def others (p : ProcedureIndex w) (c : CallIndex w) (x : Wire w) : Set (ProcedureIndex w × CallIndex w) :=
  {k | k ∈ x.ongoingProcedures ∧ k ≠ (p, c)}

private theorem erase_others (x : Wire w) :
    others p c { x with ongoingProcedures := x.ongoingProcedures.erase (p, c) } = others p c x := by
  ext k
  simp only [others, Set.mem_ofPred_eq, AList.mem_erase]
  tauto

theorem yielder_others (p : ProcedureIndex w) (c : CallIndex w) (e : Nat) (bytes : Payload) (t : Terminator) :
    (yielder p c e bytes t).Within (Keeps (others p c)) :=
  yielder_within p c e bytes t (fun _ _ => rfl) erase_others fun _ => rfl

/-- Serving a call ends no other. -/
theorem serve_others (x : Wire w) (p : ProcedureIndex w) (c : CallIndex w) (procedure : Procedure w)
    (args : List UInt8) : others p c (x.serve p c procedure args) = others p c x := by
  cases procedure with
  | standard closure =>
    simp only [serve]
    split
    · exact erase_others x
    · rfl
  | streaming closure =>
    have hyields := Site.runYields_within (yielder_others p c x.executions.length) (closure args).2
      (x.recordExecution ⟨p, c, args, true, false⟩)
    simp only [serve]
    split <;> exact hyields

end Wire

end Ipfi
