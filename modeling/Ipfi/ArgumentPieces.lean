import Ipfi.Calls
import Ipfi.ProcedureArgs

/-!
# Arguments in pieces

A call is made with all its arguments at once, or started with a first piece, continued with further ones and ended.  A
piece is a vector, an array or a tuple, or any bytes.  The other side gathers what comes, so however the arguments are
split, its closure gets the encodings of all of them and decodes the arguments.
-/

namespace Ipfi

variable {w : IntFeature}

/-- A piece of the arguments of a call: bytes, or a container with the bytes that `into_bytes` makes of it. -/
inductive Piece
  | bytes (b : Payload)
  | args (xs : ProcedureArgs) (b : Payload) (h : xs.intoBytes = some b.val)

namespace Piece

def payload : Piece → Payload
  | bytes b | args _ b _ => b

/-- The pieces are the encodings of the values, cut anywhere. -/
def Cut (vs : List Value) (pieces : List Piece) : Prop :=
  ∃ bytes, encodings vs = some bytes ∧ (pieces.map fun q => q.payload.val).flatten = bytes

variable {checks : Bool} {s t : Site w} {p : ProcedureIndex w} {c : CallIndex w}

def call (checks : Bool) (p : ProcedureIndex w) : Piece → Op (Error w) (Site w) (CallHandle w)
  | bytes b => Site.callWithBytes checks p b
  | args _ b _ => Site.call checks p (.ok b)

def startCall (checks : Bool) (p : ProcedureIndex w) : Piece → Op (Error w) (Site w) (CallIndex w)
  | bytes b => Site.startCallWithPartialBytes checks p b
  | args _ b _ => Site.startCallWithPartialArgs checks p (.ok b)

def continueCall (p : ProcedureIndex w) (c : CallIndex w) : Piece → Op (Error w) (Site w) Unit
  | bytes b => Site.continueGivenCallWithBytes p c b
  | args _ b _ => Site.continueGivenCallWithArgs p c (.ok b)

/-- The methods for typed arguments check first what those for bytes check again. -/
private theorem checked_run {α : Type} {f : Payload → Op (Error w) (Site w) α} {g : Payload → Op (Error w) (Site w) α}
    (hf : ∀ b, f b = (do Site.checkCanCall; g b)) (s : Site w) (b : Payload) :
    (do Site.checkCanCall; let args ← orThrow (.ok b); f args : Op (Error w) (Site w) α).run s = (f b).run s := by
  rcases Site.checkCanCall_cases s with hc | ⟨e, he⟩
  · rw [EStateM.run_bind_ok (Site.checkCanCall_run hc)]
    rfl
  · rw [EStateM.run_bind_error he, hf, EStateM.run_bind_error he]

theorem call_run (q : Piece) (s : Site w) :
    (q.call checks p).run s = (Site.callWithBytes checks p q.payload).run s := by
  cases q with
  | bytes b => rfl
  | args xs b h => exact checked_run (fun _ => rfl) s b

theorem startCall_run (q : Piece) (s : Site w) :
    (q.startCall checks p).run s = (Site.startCallWithPartialBytes checks p q.payload).run s := by
  cases q with
  | bytes b => rfl
  | args xs b h => exact checked_run (fun _ => rfl) s b

theorem continueCall_run (q : Piece) (s : Site w) :
    (q.continueCall p c).run s = (Site.continueGivenCallWithBytes p c q.payload).run s := by
  cases q with
  | bytes b => rfl
  | args xs b h => exact checked_run (fun _ => rfl) s b

/-! ### What is sent -/

/-- What a method has put on the queue. -/
def added (s t : Site w) : List (List UInt8) := t.wire.queue.drop s.wire.queue.length

theorem added_eq {entries : List (List UInt8)} (h : t.wire.queue = s.wire.queue ++ entries) : added s t = entries := by
  rw [added, h, List.drop_left]

/-- What has been queued for a call that was started and continued with the pieces, whatever else the wire has done
between them. -/
inductive Sent (checks : Bool) (p : ProcedureIndex w) (c : CallIndex w) : List Piece → List (List UInt8) → Prop
  | start {q : Piece} {s t : Site w} : (q.startCall checks p).run s = .ok c t → Sent checks p c [q] (added s t)
  /-- A piece without bytes is refused. -/
  | next {pieces : List Piece} {entries : List (List UInt8)} {q : Piece} {s : Site w} : Sent checks p c pieces entries →
      s.CanCall → Sent checks p c (pieces ++ [q]) (entries ++ added s ((q.continueCall p c).run s).state)

/-- What has been queued for a call that was made with one piece or ended after the pieces. -/
inductive Called (checks : Bool) (p : ProcedureIndex w) (c : CallIndex w) : List Piece → List (List UInt8) → Prop
  | whole {q : Piece} {s t : Site w} {handle : CallHandle w} : (q.call checks p).run s = .ok handle t →
    c = s.nextIdx p → Called checks p c [q] (added s t)
  | ended {pieces : List Piece} {entries : List (List UInt8)} {s : Site w} : Sent checks p c pieces entries →
    s.CanCall → Called checks p c pieces (entries ++ added s ((Site.endGivenCall p c).run s).state)

theorem startCall_added {q : Piece} (hr : (q.startCall checks p).run s = .ok c t) :
    added s t = [(Message.call p c .none q.payload).toBytes] := by
  rw [startCall_run] at hr
  rcases Site.startCallWithPartialBytes_cases checks s p q.payload with ⟨-, hok⟩ | ⟨e, he⟩
  · cases hr.symm.trans hok
    exact added_eq rfl
  · cases hr.symm.trans he

theorem call_added {q : Piece} {handle : CallHandle w} (hr : (q.call checks p).run s = .ok handle t) :
    added s t = [(Message.call p (s.nextIdx p) .complete q.payload).toBytes] := by
  rw [call_run] at hr
  rcases Site.callWithBytes_cases checks s p q.payload with ⟨-, hok⟩ | ⟨e, he⟩
  · cases hr.symm.trans hok
    exact added_eq rfl
  · cases hr.symm.trans he

theorem continueCall_added (h : s.CanCall) (q : Piece) :
    added s ((q.continueCall p c).run s).state =
      if q.payload.val = [] then [] else [(Message.call p c .none q.payload).toBytes] := by
  rw [continueCall_run]
  split
  · rename_i hq
    rw [Site.continueGivenCallWithBytes, EStateM.run_bind_ok (Site.checkCanCall_run h), hq]
    exact added_eq (List.append_nil _).symm
  · rename_i hq
    rw [Site.continueGivenCallWithBytes_run h hq]
    exact added_eq rfl

private theorem newCallHandle_queue (s : Site w) (p : ProcedureIndex w) (c : CallIndex w) :
    ((Site.newCallHandle p c).run s).state.wire.queue = s.wire.queue := by
  have h : (Site.newCallHandle p c).Within (Site.Follows Interface.Steady Wire.queue) :=
    (Site.onWire_follows (Wire.getResponseIdx_within p c)).bind fun _ => .bind .get fun _ =>
      (EStateM.Within.unwrap _).bind fun _ => (Site.onWire_follows (.modify fun _ => by rfl)).bind fun _ => .pure _
  exact (h s).2

theorem endGivenCall_added (h : s.CanCall) (p : ProcedureIndex w) (c : CallIndex w) :
    added s ((Site.endGivenCall p c).run s).state = [(Message.call p c .complete .empty).toBytes] := by
  apply added_eq
  rw [Site.endGivenCall_run h, newCallHandle_queue]
  rfl

/-- The messages of a call that have these bytes. -/
def messages (p : ProcedureIndex w) (c : CallIndex w) (parts : List Payload) : List (List UInt8) :=
  parts.map fun b => (Message.call p c .none b).toBytes

/-- The bytes of the pieces are in messages that do not end the call. -/
theorem Sent.messages {pieces : List Piece} {entries : List (List UInt8)} (h : Sent checks p c pieces entries) :
    ∃ parts, entries = messages p c parts ∧
      (parts.map Subtype.val).flatten = (pieces.map fun q => q.payload.val).flatten := by
  induction h with
  | start hr => exact ⟨[_], startCall_added hr, rfl⟩
  | @next pieces entries q s h hs ih =>
    obtain ⟨parts, rfl, hflat⟩ := ih
    rw [continueCall_added hs, List.map_append, List.flatten_append, ← hflat]
    split
    · rename_i hq
      exact ⟨parts, List.append_nil _, by simp [hq]⟩
    · exact ⟨parts ++ [q.payload], by simp [Piece.messages], by simp⟩

/-- A message that ends the call comes last. -/
theorem Called.messages {pieces : List Piece} {entries : List (List UInt8)} (h : Called checks p c pieces entries) :
    ∃ parts last, entries = messages p c parts ++ [(Message.call p c .complete last).toBytes] ∧
      (parts.map Subtype.val).flatten ++ last.val = (pieces.map fun q => q.payload.val).flatten := by
  cases h with
  | @whole q s t handle hr hc =>
    subst hc
    exact ⟨[], q.payload, call_added hr, by simp⟩
  | ended h hs =>
    obtain ⟨parts, rfl, hflat⟩ := h.messages
    exact ⟨parts, .empty, by rw [endGivenCall_added hs], by rw [hflat]; exact List.append_nil _⟩

end Piece

end Ipfi
