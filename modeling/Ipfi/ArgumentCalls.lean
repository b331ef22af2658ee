import Ipfi.ArgumentPieces
import Ipfi.Gathering

/-!
# Calls with typed arguments

The messages of one call come in over a wire while it receives whatever else its peer sends.  The procedure of the
call is called once, on the bytes of all of them, from which its closure decodes the arguments that the caller has
split.
-/

namespace Ipfi

variable {w : IntFeature}

namespace Site

variable {s s' : Site w} {x : Surroundings w} {p p' : ProcedureIndex w} {c c' : CallIndex w} {t : Terminator}
  {procedure : Procedure w} {acc : List UInt8}

/-! ### A call among others -/

/-- Calls of other procedures, or with other indices, do not make the procedure be called for this one. -/
theorem receiveCall_argsOf_ne (hne : (p', c') ≠ (p, c)) (t : Terminator) (bytes : List UInt8) :
    ((receiveCall p' c' t bytes).run s).state.wire.argsOf (p, c) = s.wire.argsOf (p, c) := by
  generalize hs' : ((receiveCall p' c' t bytes).run s).state = s'
  have hshape := receiveCall_shape s p' c' t bytes
  rw [hs'] at hshape
  cases hshape with
  | rejected => rfl
  | admitted => rfl
  | dropped => rfl
  | served i procedure args =>
    have hnone : [((p', c'), args)].filter (fun e => e.1 = (p, c)) = [] := List.filter_cons_of_neg (by simpa using hne)
    rw [Wire.argsOf, Wire.serve_executed, List.filter_append, hnone, List.append_nil]
    rfl

/-- The action reads one of the messages of the call. -/
def Reads (s : Site w) (a : ServeAction w) (p : ProcedureIndex w) (c : CallIndex w) : Prop :=
  ∃ t bytes, a.message? s = some (.call p c t bytes)

/-- The wire keeps what it has gathered for the call, whatever else it does. -/
theorem serveStep_elsewhere {a : ServeAction w} (hs : s.InCustody x)
    (hroom : ∀ m, a.message? s = some m → s.RoomFor m) (ha : ¬ s.Reads a p c) (procedure : Procedure w)
    (acc : List UInt8) :
    (s.serveStep a).wire.argsOf (p, c) = s.wire.argsOf (p, c) ∧
      ((s.wire.terminated = false → s.Accepts p c procedure acc) →
        (s.serveStep a).wire.terminated = false → (s.serveStep a).Accepts p c procedure acc) := by
  refine serveStep_invariant (I := fun s' => s'.wire.argsOf (p, c) = s.wire.argsOf (p, c) ∧
      ((s.wire.terminated = false → s.Accepts p c procedure acc) → s'.wire.terminated = false →
        s'.Accepts p c procedure acc)) (fun _ => ⟨rfl, id⟩) (fun p' c' t bytes hm => ?_) (fun p' c' t bytes hm => ?_)
    (fun s' hs' => ⟨hs'.1, fun _ ht => by cases ht⟩) fun e p' c' args f bytes t _ _ => ?_
  · have hne : (p', c') ≠ (p, c) := by
      rintro heq
      obtain ⟨rfl, rfl⟩ := Prod.mk.inj heq
      exact ha ⟨t, bytes, hm⟩
    have hlater := receive_follows Interface.later_serves.operates (.call p' c' t bytes) s
    refine ⟨receiveCall_argsOf_ne hne t bytes, fun h _ => ?_⟩
    refine (h (ServeAction.running_of_message? hm)).of_works hs (receiveCall_works hs (hroom _ hm) t bytes) ?_
      hlater.1.procedures
    intro heq
    have := Owner.args.inj heq
    exact hne (Prod.ext (congrArg Prod.fst this).symm (congrArg (fun k => k.2.1) this).symm)
  · have hlater := receive_follows Interface.later_serves.operates (.response p' c' t bytes) s
    have hframe := (receiveResponse_answering p' c' t bytes s).serving_of_answering
    refine ⟨?_, fun h _ => ?_⟩
    · simp only [Wire.argsOf, Wire.executed, hframe.executions]
    · refine (h (ServeAction.running_of_message? hm)).of_works hs (receiveResponse_works hs p' c' t bytes) ?_
        hlater.1.procedures
      intro heq
      cases heq
  · have hcalling := yielder_calling p' c' e bytes t s.wire
    refine ⟨?_, fun h hrun => ?_⟩
    · simp only [Wire.argsOf]
      rw [show _ = _ from Wire.yielder_executed p' c' e bytes t s.wire]
    · exact (h ((congrArg (fun y => y.1.2.1) hcalling).symm.trans hrun)).congr rfl
        (congrArg (fun y => y.1.1.1) hcalling)

/-! ### The messages of the call -/

/-- A step of the wire, and what is yet to come of the messages of the call. -/
def awaitStep (p : ProcedureIndex w) (c : CallIndex w) (y : Site w × List (List UInt8)) (a : ServeAction w) :
    Site w × List (List UInt8) :=
  (y.1.serveStep a, match a.message? y.1 with
    | some (.call p' c' _ _) => if (p', c') = (p, c) then y.2.tail else y.2
    | _ => y.2)

/-- A step at which the messages of the call come in their order, within the limit, and the store has room for
others. -/
structure InOrder (p : ProcedureIndex w) (c : CallIndex w) (y : Site w × List (List UInt8)) (a : ServeAction w) :
    Prop where
  next : y.1.Reads a p c → ¬ y.1.Rejects p c ∧ ∃ entry rest more, y.2 = entry :: rest ∧
    (a = .receiveOne (entry ++ more) ∨ a = .fillStep (entry ++ more))
  others : ¬ y.1.Reads a p c → (∃ x, y.1.InCustody x) ∧ ∀ m, a.message? y.1 = some m → y.1.RoomFor m

theorem awaitStep_reads {y : Site w × List (List UInt8)} {a : ServeAction w} (h : y.1.Reads a p c) :
    awaitStep p c y a = (y.1.serveStep a, y.2.tail) := by
  obtain ⟨t, bytes, hm⟩ := h
  simp only [awaitStep, hm, if_true]

theorem awaitStep_elsewhere {y : Site w × List (List UInt8)} {a : ServeAction w} (h : ¬ y.1.Reads a p c) :
    awaitStep p c y a = (y.1.serveStep a, y.2) := by
  unfold awaitStep
  split
  · rename_i p' c' t bytes hm
    rw [if_neg]
    intro heq
    obtain ⟨rfl, rfl⟩ := Prod.mk.inj heq
    exact h ⟨t, bytes, hm⟩
  · rfl

/-- What holds once the message has been received, and still if the wire is terminated then, holds after the step. -/
private theorem serveStep_call {I : Site w → Prop} {a : ServeAction w} {bytes : List UInt8}
    (hm : a.message? s = some (.call p c t bytes)) (h : I ((receiveCall p c t bytes).run s).state)
    (hterm : ∀ s, I s → I s.markTerminated) : I (s.serveStep a) := by
  refine serveStep_invariant (fun hnone => absurd hm (hnone p c t bytes)) (fun p' c' t' bytes' hm' => ?_)
    (fun p' c' t' bytes' hm' => ?_) hterm fun e p' c' args f bytes' t' ha _ => ?_
  · cases hm.symm.trans hm'
    exact h
  · cases hm.symm.trans hm'
  · subst ha
    cases hm

/-- A wire that runs reads the message of a call that stands first. -/
private theorem message?_call {a : ServeAction w} (h : s.wire.terminated = false) {b : Payload} (more : List UInt8)
    (ha : a = .receiveOne ((Message.call p c t b).toBytes ++ more) ∨
      a = .fillStep ((Message.call p c t b).toBytes ++ more)) : a.message? s = some (.call p c t b.val) :=
  ServeAction.message?_toBytes h (fun _ _ _ _ hm => by cases hm) more ha

theorem Reads.running {a : ServeAction w} (h : s.Reads a p c) : s.wire.terminated = false := by
  obtain ⟨t, bytes, hm⟩ := h
  exact ServeAction.running_of_message? hm

/-- How far the call has got: the procedure has been called on the arguments, or what has been gathered and what is
yet to come make them up. -/
inductive Progress (p : ProcedureIndex w) (c : CallIndex w) (procedure : Procedure w) (args : List UInt8)
    (before : List (List UInt8)) : Site w × List (List UInt8) → Prop
  | gathering {s : Site w} {acc : List UInt8} {parts : List Payload} {last : Payload} :
      acc ++ (parts.map Subtype.val).flatten ++ last.val = args → s.wire.argsOf (p, c) = before →
      (s.wire.terminated = false → s.Accepts p c procedure acc) → Progress p c procedure args before
        (s, Piece.messages p c parts ++ [(Message.call p c .complete last).toBytes])
  | called {s : Site w} : s.wire.argsOf (p, c) = before ++ [args] → Progress p c procedure args before (s, [])

theorem Progress.step {args : List UInt8} {before : List (List UInt8)} {y : Site w × List (List UInt8)}
    {a : ServeAction w} (h : Progress p c procedure args before y) (ha : InOrder p c y a) :
    Progress p c procedure args before (awaitStep p c y a) := by
  by_cases hread : y.1.Reads a p c
  · rw [awaitStep_reads hread]
    obtain ⟨hrej, entry, rest, more, hy, hbytes⟩ := ha.next hread
    have hrun := hread.running
    cases h with
    | @gathering s acc parts last hargs hbefore haccepts =>
      cases parts with
      -- the last message makes the procedure be called
      | nil =>
        cases hy
        refine .called ?_
        refine serveStep_call (I := fun s' => s'.wire.argsOf (p, c) = before ++ [args])
          (message?_call hrun more hbytes) ?_ fun _ h => h
        rw [Wire.argsOf, (haccepts hrun).executed hrej, List.filter_append, List.map_append, ← hbefore, ← hargs]
        simp [Wire.argsOf]
      -- one more piece is gathered
      | cons b parts =>
        cases hy
        obtain ⟨s', hr, hwire, hnext⟩ := (haccepts hrun).piece hrej (t := .none) (by decide) b.val
        have hexecuted : s'.wire.executed = s.wire.executed := by rw [hwire]; rfl
        rw [← EStateM.Result.state_ok (some false) s', ← hr] at hexecuted hnext
        have hkept := serveStep_call (I := fun s' => s'.wire.argsOf (p, c) = before ∧ (s'.wire.terminated = false →
            s'.Accepts p c procedure (acc ++ b.val))) (message?_call hrun more hbytes)
          ⟨by rw [Wire.argsOf, hexecuted]; exact hbefore, fun _ => hnext⟩ fun _ h => ⟨h.1, fun ht => by cases ht⟩
        exact .gathering (by rw [← hargs]; simp) hkept.1 hkept.2
    | called hargs => cases hy
  · rw [awaitStep_elsewhere hread]
    obtain ⟨⟨x, hx⟩, hroom⟩ := ha.others hread
    cases h with
    | @gathering s acc parts last hargs hbefore haccepts =>
      have hkept := serveStep_elsewhere hx hroom hread procedure acc
      exact .gathering hargs (hkept.1.trans hbefore) (hkept.2 haccepts)
    | called hargs =>
      exact .called ((serveStep_elsewhere hx hroom hread procedure []).1.trans hargs)

end Site

/-! ### The arguments of a call -/

namespace Rmp

variable {As : List Serial} {r : Rmp As} {s t : Site w} {p : ProcedureIndex w} {c : CallIndex w}

/-- A procedure that was registered with the closure's types. -/
inductive Registers (r : Rmp As) : Procedure w → Prop
  | procedure (R : Serial) (f : Tuple As → R.type) : Registers r (r.procedure R f)
  | sequenceProcedure (R : Serial) (f : Tuple As → List (R.type × Bool)) : Registers r (r.sequenceProcedure R f)

/-- The closure of the procedure decodes the arguments from the bytes. -/
inductive Decodes (r : Rmp As) (a : Tuple As) (data : List UInt8) : Procedure w → Prop
  | procedure (R : Serial) (f : Tuple As → R.type) : r.decodeArgs (w := w) data = .ok a →
      Decodes r a data (r.procedure R f)
  | sequenceProcedure (R : Serial) (f : Tuple As → List (R.type × Bool)) : r.decodeArgs (w := w) data = .ok a →
      Decodes r a data (r.sequenceProcedure R f)

theorem Registers.decodes {procedure : Procedure w} {a : Tuple As} {bytes : List UInt8} (h : r.Registers procedure)
    (hr : r.Lawful) (hbytes : encodings a.elems = some bytes) : r.Decodes a bytes procedure := by
  cases h with
  | procedure R f => exact .procedure R f (decodeArgs_encodings hr hbytes)
  | sequenceProcedure R f => exact .sequenceProcedure R f (decodeArgs_encodings hr hbytes)

/-- Numbers below 128 are encoded as themselves. -/
private def fixint : Serial := ⟨{n : UInt8 // n < 128}, fun n => some ⟨[n.val], by show 1 ≤ isizeMax; decide⟩⟩

private def pairRmp : Rmp [fixint, fixint] where
  writeArrayLen n := some (if n < 16 then [144 + n.toUInt8] else [220, (n / 256).toUInt8, n.toUInt8])
  unit := some [192]
  toVec a := some [146, a.1.val, a.2.1.val]
  fromSlice
    | [146, m, n] => if h : m < 128 ∧ n < 128 then some (⟨m, h.1⟩, ⟨n, h.2⟩, ()) else none
    | _ => none

private def front : Piece := .args (.array fixint 1 #v[⟨41, by decide⟩]) ⟨[41], by decide⟩ rfl

private def back : Piece := .args (.tuple [fixint] (⟨42, by decide⟩, ())) ⟨[42], by decide⟩ rfl

private def caller : Site .u32 := ⟨.new, .new ⟨0⟩ false 1⟩

/-- An interface with a procedure that takes two numbers and returns the first. -/
private def receiver : Site .u32 :=
  ⟨Interface.new.addProcedure ⟨0⟩ (pairRmp.procedure fixint Prod.fst), .new ⟨0⟩ false 1⟩

private def started : Site .u32 := ((front.startCall false ⟨0⟩).run caller).state

private def receivedPiece (s : Site .u32) (t : Terminator) (b : Payload) : Site .u32 :=
  s.serveStep (.receiveOne (Message.call (w := .u32) ⟨0⟩ ⟨0⟩ t b).toBytes)

private def called : Site .u32 :=
  receivedPiece (receivedPiece (receivedPiece receiver .none front.payload) .none back.payload) .complete .empty

end Rmp

end Ipfi
