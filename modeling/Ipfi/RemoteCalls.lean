import Ipfi.ArgumentPieces
import Ipfi.Services

/-!
# Calls of typed procedures over a whole link

The procedures of a peer take tuples of arguments and return a value or yield several.  A caller that splits its
arguments over pieces as it likes gets these values back, decoded from the chunks of the response.
-/

namespace Ipfi

variable {w : IntFeature}

open Site (chunksOf EndsInComplete)

/-! ### Typed procedures -/

/-- What a procedure computes; a sequence marks the values that end it. -/
inductive Body (As : List Serial) (R : Serial)
  | function (f : Tuple As → R.type)
  | sequence (f : Tuple As → List (R.type × Bool))

/-- A procedure with typed arguments and results, and how its caller decodes a result. -/
structure Remote where
  args : List Serial
  result : Serial
  rmp : Rmp args
  body : Body args result
  fromSlice : List UInt8 → Option result.type

namespace Remote

variable {m : Remote} {a : Tuple m.args} {values : List m.result.type} {rets : List Payload} {bytes : List UInt8}

/-- The procedure that `add_procedure` or `add_sequence_procedure` registers. -/
def procedure (m : Remote) : Procedure w :=
  match m.body with
  | .function f => m.rmp.procedure m.result f
  | .sequence f => m.rmp.sequenceProcedure m.result f

/-- The values that a call yields; that of a function ends it. -/
def yields (m : Remote) (a : Tuple m.args) : List (m.result.type × Bool) :=
  match m.body with
  | .function f => [(f a, true)]
  | .sequence f => f a

structure Lawful (m : Remote) : Prop where
  rmp : m.rmp.Lawful
  result : ∀ {x bytes}, m.result.toVec x = some bytes → m.fromSlice bytes.val = some x

/-- A call yields these values, of which exactly the last one ends it, and all of them can be serialised. -/
structure Answers (m : Remote) (a : Tuple m.args) (values : List m.result.type) (rets : List Payload) : Prop where
  yields : ∃ init last, m.yields a = init.map (·, false) ++ [(last, true)] ∧ values = init ++ [last]
  encoded : values.map m.result.toVec = rets.map some

/-- The bytes are the encodings of arguments that the procedure answers. -/
def Takes (m : Remote) (bytes : List UInt8) : Prop :=
  ∃ a values rets, encodings a.elems = some bytes ∧ m.Answers a values rets

/-- Each payload ends a chunk, and the last one the response. -/
def terminated : List Payload → List Yield
  | [] => []
  | [ret] => [(ret, .complete)]
  | ret :: rets => (ret, .chunk) :: terminated rets

theorem terminated_cons (ret : Payload) (h : rets ≠ []) :
    terminated (ret :: rets) = (ret, .chunk) :: terminated rets := by
  cases rets with
  | nil => exact absurd rfl h
  | cons => rfl

theorem endsInComplete_terminated (h : rets ≠ []) : EndsInComplete (partsOf (terminated rets)) := by
  induction rets with
  | nil => exact absurd rfl h
  | cons ret rets ih =>
    by_cases hrets : rets = []
    · subst hrets
      exact ⟨[], ret.val, rfl, by simp⟩
    · obtain ⟨init, bytes, heq, hinit⟩ := ih hrets
      refine ⟨(ret.val, .chunk) :: init, bytes, ?_, fun q hq => ?_⟩
      · rw [terminated_cons ret hrets, List.cons_append, ← heq]
        rfl
      · rcases List.mem_cons.1 hq with rfl | hq
        · simp
        · exact hinit q hq

theorem chunksOf_terminated (h : rets ≠ []) : chunksOf (partsOf (terminated rets)) = rets.map Subtype.val := by
  induction rets with
  | nil => exact absurd rfl h
  | cons ret rets ih =>
    by_cases hrets : rets = []
    · subst hrets
      simp [chunksOf, partsOf, terminated, Site.marked, Cut.chunks, Cut.chunksFrom]
    · rw [List.map_cons, ← ih hrets, terminated_cons ret hrets]
      simp [chunksOf, partsOf, Site.marked, Cut.chunks, Cut.chunksFrom]

private theorem filterMap_eq (init : List m.result.type) (last : m.result.type)
    (h : (init ++ [last]).map m.result.toVec = rets.map some) :
    ((init.map (·, false) ++ [(last, true)]).filterMap fun y : m.result.type × Bool =>
      (m.result.toVec y.1).map fun bytes => (bytes, if y.2 then Terminator.complete else .chunk)) =
      terminated rets := by
  induction init generalizing rets with
  | nil =>
    obtain ⟨ret, rfl⟩ : ∃ ret, rets = [ret] := List.length_eq_one_iff.1 (by simpa using (congrArg List.length h).symm)
    have hlast : m.result.toVec last = some ret := by simpa using h
    simp [hlast, terminated]
  | cons x init ih =>
    cases rets with
    | nil => simp at h
    | cons ret rets =>
      obtain ⟨hx, hrest⟩ := List.cons.inj h
      have hne : rets ≠ [] := by
        rintro rfl
        simp at hrest
      rw [terminated_cons ret hne, ← ih hrest]
      simp [hx]

namespace Answers

theorem rets_ne_nil (h : m.Answers a values rets) : rets ≠ [] := by
  obtain ⟨init, last, -, rfl⟩ := h.yields
  rintro rfl
  simpa using h.encoded

/-- The closure decodes the arguments and sends the values back. -/
theorem replies_eq (h : m.Answers a values rets) (hm : m.Lawful) (ha : encodings a.elems = some bytes) :
    (m.procedure (w := w)).returnsOk bytes ∧ (m.procedure (w := w)).replies bytes = terminated rets := by
  obtain ⟨init, last, hyields, rfl⟩ := h.yields
  have hdecode := m.rmp.decodeArgs_encodings (w := w) hm.rmp ha
  have henc := h.encoded
  unfold Remote.yields at hyields
  unfold Remote.procedure
  split at hyields
  · rename_i f _
    -- a function yields one value
    obtain rfl : init = [] := by
      have hlen := congrArg List.length hyields
      simpa using hlen.symm
    obtain ⟨ret, rfl⟩ : ∃ ret, rets = [ret] := List.length_eq_one_iff.1
      (by simpa using (congrArg List.length henc).symm)
    have hf : f a = last := by simpa using hyields
    have hret : m.result.toVec (f a) = some ret := by simpa [hf] using henc
    have hclosure : (do
        let argTuple ← m.rmp.decodeArgs (w := w) bytes
        Rmp.okOr .encode (m.result.toVec (f argTuple))) = .ok ret := by
      rw [hdecode]
      show Rmp.okOr .encode (m.result.toVec (f a)) = _
      rw [hret]
      rfl
    refine ⟨⟨ret, hclosure⟩, ?_⟩
    simp only [Rmp.procedure, Procedure.replies, hclosure]
    rfl
  · rename_i f _
    constructor
    · simp only [Rmp.sequenceProcedure, Procedure.returnsOk, hdecode]
    · simp only [Rmp.sequenceProcedure, Procedure.replies, hdecode, hyields]
      exact filterMap_eq init last henc

theorem succeeds (h : m.Answers a values rets) (hm : m.Lawful) (ha : encodings a.elems = some bytes) :
    (m.procedure (w := w)).Succeeds bytes := by
  obtain ⟨hreturns, hreplies⟩ := h.replies_eq (w := w) hm ha
  refine ⟨hreturns, fun y hy => ?_⟩
  obtain ⟨init, b, heq, hinit⟩ := endsInComplete_terminated h.rets_ne_nil
  rw [hreplies] at hy
  have hmem : (y.1.val, y.2) ∈ (partsOf (terminated rets)).dropLast := by
    rw [partsOf, ← List.map_dropLast]
    exact List.mem_map.2 ⟨y, hy, rfl⟩
  rw [heq, List.dropLast_concat] at hmem
  exact hinit _ hmem

/-- The caller decodes the values from the chunks. -/
theorem decodes (h : m.Answers a values rets) (hm : m.Lawful) :
    (rets.map Subtype.val).map m.fromSlice = values.map some := by
  have henc := h.encoded
  clear h
  induction values generalizing rets with
  | nil =>
    obtain rfl : rets = [] := by simpa using henc.symm
    rfl
  | cons x values ih =>
    cases rets with
    | nil => simp at henc
    | cons ret rets =>
      obtain ⟨hx, hrest⟩ := List.cons.inj henc
      rw [List.map_cons, List.map_cons, List.map_cons, hm.result hx, ih hrest]

end Answers

theorem Takes.succeeds {m : Remote} (h : m.Takes bytes) (hm : m.Lawful) : (m.procedure (w := w)).Succeeds bytes := by
  obtain ⟨a, values, rets, ha, hans⟩ := h
  exact hans.succeeds hm ha

end Remote

/-! ### Waiting for values -/

namespace CallHandle

variable {t : Site w} {h : CallHandle w} {l : LockRef} {chunk : List UInt8} {chunks : List (List UInt8)}
  {decodes : List UInt8 → Bool}

theorem waitChunks_completed (hc : t.Completed h.responseIdx l chunks) (hd : ∀ chunk ∈ chunks, decodes chunk = true) :
    (waitChunks decodes h).run t = .ok (some chunks) (h.struck (h.taken t)) := by
  have hget : (Interface.getChunks decodes h.responseIdx).run t.interface =
      .ok (some chunks) (t.interface.pop h.responseIdx).2 := by
    rw [Interface.getChunks, EStateM.run_bind_ok (Interface.waitForMessage_run hc.buffer hc.lock)]
    simp only [Option.isSome_none, Bool.false_eq_true, if_false, EStateM.run_bind, EStateM.run_modifyGet,
      Interface.pop_eq hc.buffer, EStateM.run_unwrap_some, List.all_eq_true.2 hd, if_true]
    rfl
  rw [waitChunks, EStateM.run_bind_ok (onInterface_ok hget)]
  rfl

theorem wait_completed (hc : t.Completed h.responseIdx l (chunk :: chunks)) (hd : decodes chunk = true) :
    (wait decodes h).run t = .ok chunk (h.struck (h.taken t)) := by
  have hget : (Interface.getTyped decodes h.responseIdx).run t.interface =
      .ok chunk (t.interface.pop h.responseIdx).2 := by
    rw [Interface.getTyped, EStateM.run_bind_ok (Interface.getRaw_run hc.buffer hc.lock)]
    simp [hd]
  rw [wait, EStateM.run_bind_ok (onInterface_ok hget)]
  rfl

end CallHandle

/-! ### Replies end once -/

/-- A response goes on up to its end and not beyond. -/
def Tidy (replies : List Yield) : Prop := ∀ y ∈ replies.dropLast, y.2 ≠ .complete

namespace Tidy

variable {replies : List Yield}

theorem of_endsInComplete (h : EndsInComplete (partsOf replies)) : Tidy replies := by
  obtain ⟨init, bytes, heq, hinit⟩ := h
  intro y hy
  have hmem : (y.1.val, y.2) ∈ (partsOf replies).dropLast := by
    rw [partsOf, ← List.map_dropLast]
    exact List.mem_map.2 ⟨y, hy, rfl⟩
  rw [heq, List.dropLast_concat] at hmem
  exact hinit _ hmem

/-- What comes after an end is nothing. -/
theorem eq_nil {later : List Yield} (h : Tidy (replies ++ later)) (hend : ∃ y ∈ replies, y.2 = .complete) :
    later = [] := by
  by_contra hne
  obtain ⟨y, hy, hc⟩ := hend
  refine h y ?_ hc
  rw [List.dropLast_append_of_ne_nil hne]
  exact List.mem_append_left _ hy

end Tidy

namespace Replied

/-- Tidy responses stay so. -/
def StaysTidy (q q' : Replied w) : Prop := ∀ k, Tidy (q k) → Tidy (q' k)

instance : IsPreorder (Replied w) StaysTidy where
  refl _ _ h := h
  trans _ _ _ h h' k hk := h' k (h k hk)

theorem staysTidy_recv {ended : ProcedureIndex w × CallIndex w → Prop} {q : Replied w} {m : Message w}
    (hm : Legal ended q m) : StaysTidy q (q.recv m) := by
  cases m with
  | response p c t bytes =>
    intro k hk
    by_cases heq : k = (p, c)
    · subst heq
      rw [recv, Function.update_self, Tidy, List.dropLast_concat]
      exact hm.2
    · rw [recv, Function.update_of_ne heq]
      exact hk
  | call => exact refl_of StaysTidy q
  | endOfInput => exact refl_of StaysTidy q
  | termination => exact refl_of StaysTidy q

end Replied

namespace Link

variable {s : Link w} {x y : Surroundings w} {q said : Replied w} {r : CallRecord w} {e : Nat} {args : List UInt8}
  {checks : Bool}

theorem Relays.tidy (h : s.Relays x q said) (hr : r ∈ s.calls) (hh : r.handle ≠ none)
    (he : s.peer.wire.executed[e]? = some (r.pair, args)) : Tidy (s.repliesOf e) := by
  rw [← h.answers he ⟨r, hr, rfl, hh⟩]
  refine h.pipe.within (R := Replied.StaysTidy) (fun _ _ hm => Replied.staysTidy_recv hm) r.pair ?_
  have hstands := h.expects.stands r hr
  cases hres : r.result with
  | some chunks => exact .of_endsInComplete (hstands.waited chunks hres).2
  | none =>
    obtain ⟨b, l, hresp, -⟩ := hstands.waits hres
    rcases hresp with ⟨-, hparts⟩ | ⟨-, hend, -⟩
    · intro y hy
      exact hparts (y.1.val, y.2) (List.mem_map.2 ⟨y, List.mem_of_mem_dropLast hy, rfl⟩)
    · exact .of_endsInComplete hend

/-- With nothing on the way, a handle finds all that the execution of its call has yielded. -/
theorem Relays.completed (h : s.Relays x q said) (hqueue : s.peer.wire.queue = []) (htoCaller : s.toCaller = [])
    (hr : r ∈ s.calls) {g : CallHandle w} (hg : r.held = some g)
    (he : s.peer.wire.executed[e]? = some (r.pair, args)) (hend : EndsInComplete (partsOf (s.repliesOf e))) :
    s.caller.Completed g.responseIdx g.completeLock (chunksOf (partsOf (s.repliesOf e))) := by
  have hpipe := h.pipe
  rw [hqueue, htoCaller] at hpipe
  obtain ⟨hnone, hhandle⟩ := CallRecord.held_eq_some.1 hg
  have hcalled : s.Called r.pair := ⟨r, hr, rfl, by rw [hhandle]; simp⟩
  have hq : q r.pair = s.repliesOf e := (congrFun hpipe.eq_of_nil r.pair).trans (h.answers he hcalled)
  obtain ⟨b, l, hresp, hhd⟩ := (h.expects.stands r hr).waits hnone
  rw [hq] at hresp
  obtain rfl := hhd g hhandle
  rcases hresp with ⟨-, hparts⟩ | ⟨hcompleted, -⟩
  · obtain ⟨init, bytes, heq, -⟩ := hend
    exact absurd rfl (hparts (bytes, .complete) (by simp [heq]))
  · exact hcompleted

/-! ### Runs -/

section

variable {remotes : ProcedureIndex w → Remote} {registered : ProcedureIndex w → Prop} {max : Nat} {v u : Asked w}

/-- The calls of a run take arguments of their procedures, and what else is needed for them to be served. -/
def WellTyped (remotes : ProcedureIndex w → Remote) (registered : ProcedureIndex w → Prop) (max : Nat) (s : Link w)
    (a : LinkAction w) : Prop :=
  match a with
  | .callWithBytes p args => s.Admits registered max p ∧ (remotes p).Takes args.val
  | .endCall n => ∀ r, s.calls[n]? = some r → r.handle = none ∧ (remotes r.procedureIdx).Takes r.args
  | a => s.Suitable (fun p => (remotes p).procedure) registered max a

theorem WellTyped.suitable {a : LinkAction w} (ha : s.WellTyped remotes registered max a)
    (hm : ∀ p, registered p → (remotes p).Lawful) (hreg : ∀ r ∈ s.calls, registered r.procedureIdx) :
    s.Suitable (fun p => (remotes p).procedure) registered max a := by
  cases a with
  | callWithBytes p args => exact ⟨ha.1, ha.2.succeeds (hm p ha.1.registered)⟩
  | endCall n =>
    intro r hr
    obtain ⟨hnone, htakes⟩ := ha r hr
    exact ⟨hnone, htakes.succeeds (hm _ (hreg r (List.mem_of_getElem? hr)))⟩
  | _ => exact ha

/-- An execution yields what the call answers, and no more. -/
theorem Serves.repliesOf_eq (h : s.Serves y (fun p => (remotes p).procedure) registered max v u)
    (hq : s.Relays x q said)
    (hm : ∀ p, registered p → (remotes p).Lawful) (hr : r ∈ s.calls) (hh : r.handle ≠ none)
    (he : s.peer.wire.executed[e]? = some (r.pair, args)) {a : Tuple (remotes r.procedureIdx).args}
    {values : List (remotes r.procedureIdx).result.type} {rets : List Payload} (ha : encodings a.elems = some r.args)
    (hans : (remotes r.procedureIdx).Answers a values rets) : s.repliesOf e = Remote.terminated rets := by
  have hmem := List.mem_of_getElem? he
  have hfirst : s.firstReplies r.pair args = Remote.terminated rets := by
    rw [h.firstReplies_eq ⟨r, hr, rfl, hh⟩, h.args_of_executed hr hmem]
    exact (hans.replies_eq (hm _ (h.asks.registered r hr)) ha).2
  have htidy := hq.tidy hr hh he
  rw [Link.repliesOf_eq he, hfirst] at htidy ⊢
  rw [htidy.eq_nil (exists_complete (Remote.endsInComplete_terminated hans.rets_ne_nil)), List.append_nil]

variable {caller peer : Interface w} {id id' : WireId w} {moduleStyle : Bool} {max max' : IpfiInteger w}

/-- Two new wires exchange calls of typed procedures.  However the arguments of a call are split, its handle returns the
values that the procedure yields for them, in their order and decoded, once all that was sent has been read; whatever
waiting has returned is these values. -/
theorem typed_calls_return (hm : ∀ p, registered p → (remotes p).Lawful)
    (hcaller : Site.InCustody ⟨caller, .new id false max⟩ x)
    (hpeer : Site.InCustody ⟨peer, .new id' moduleStyle max'⟩ y)
    (hkeys : ∀ p c, peer.callToBufferMap.lookup (p, c, id') = none)
    (hregistered : ∀ p, registered p → peer.procedures.lookup p = some (remotes p).procedure)
    (hs : Reaches (step checks) (WellTyped remotes registered max'.toNat)
      (connect caller peer id id' moduleStyle max max') s)
    (hr : r ∈ s.calls) {pieces : List Piece} {a : Tuple (remotes r.procedureIdx).args}
    (hpieces : pieces.map Piece.payload = r.pieces) (hcut : Piece.Cut a.elems pieces)
    {values : List (remotes r.procedureIdx).result.type} {rets : List Payload}
    (hans : (remotes r.procedureIdx).Answers a values rets) :
    let fromSlice := (remotes r.procedureIdx).fromSlice
    (∀ chunks, r.result = some chunks → chunks.map fromSlice = values.map some) ∧
    (s.caller.wire.queue = [] → s.toPeer = [] → s.peer.wire.queue = [] → s.toCaller = [] → ∀ h, r.held = some h →
      (∃ chunks t, (h.waitChunks fun b => (fromSlice b).isSome).run s.caller = .ok (some chunks) t ∧
        chunks.map fromSlice = values.map some) ∧
      ∃ bytes t, (h.wait fun b => (fromSlice b).isSome).run s.caller = .ok bytes t ∧
        fromSlice bytes = values.head?) := by
  have hreaches : Reaches (step checks) (Suitable (fun p => (remotes p).procedure) registered max'.toNat)
      (connect caller peer id id' moduleStyle max max') s := by
    refine hs.invariant (I := Reaches _ _ _) .start fun s a hI ha => .next hI ?_
    obtain ⟨-, v, u, h⟩ := serves_of_reaches hcaller hpeer hkeys hregistered hI
    exact ha.suitable hm h.asks.registered
  obtain ⟨⟨q, said, hq⟩, v, u, h⟩ := serves_of_reaches hcaller hpeer hkeys hregistered hreaches
  have hlawful := hm _ (h.asks.registered r hr)
  have hargs : encodings a.elems = some r.args := by
    obtain ⟨bytes, hbytes, hflat⟩ := hcut
    rw [hbytes, ← hflat, CallRecord.args, ← hpieces, List.map_map]
    rfl
  have hdecodes := hans.decodes hlawful
  have hchunks := Remote.chunksOf_terminated hans.rets_ne_nil
  constructor
  · intro chunks hc
    obtain ⟨e, args, he, -, rfl⟩ := hq.result_eq hr hc
    have hh : r.handle ≠ none := (hq.expects.stands r hr).ended ((hq.expects.stands r hr).waited _ hc).2
    rw [h.repliesOf_eq hq hm hr hh he hargs hans, hchunks]
    exact hdecodes
  · intro hqueue htoPeer hqueue' htoCaller g hg
    have hh : r.handle ≠ none := by simp [(CallRecord.held_eq_some.1 hg).2]
    obtain ⟨e, he⟩ := List.mem_iff_getElem?.1 (h.executed_of_read hqueue htoPeer hr hh)
    have hreplies := h.repliesOf_eq hq hm hr hh he hargs hans
    have hcompleted := hq.completed hqueue' htoCaller hr hg he
      (hreplies ▸ Remote.endsInComplete_terminated hans.rets_ne_nil)
    rw [hreplies, hchunks] at hcompleted
    have hall : ∀ chunk ∈ rets.map Subtype.val, ((remotes r.procedureIdx).fromSlice chunk).isSome = true := by
      intro chunk hchunk
      have hmem : (remotes r.procedureIdx).fromSlice chunk ∈ values.map some :=
        hdecodes ▸ List.mem_map.2 ⟨chunk, hchunk, rfl⟩
      obtain ⟨value, -, heq⟩ := List.mem_map.1 hmem
      rw [← heq]
      rfl
    refine ⟨⟨_, _, CallHandle.waitChunks_completed hcompleted hall, hdecodes⟩, ?_⟩
    cases hrets : rets with
    | nil => exact absurd hrets hans.rets_ne_nil
    | cons ret rets =>
      subst hrets
      refine ⟨_, _, CallHandle.wait_completed hcompleted (hall ret.val List.mem_cons_self), ?_⟩
      cases values with
      | nil => cases hdecodes
      | cons value values => exact (List.cons.inj hdecodes).1

end

/-! ### A procedure that yields its argument twice -/

private theorem one_le_isizeMax : 1 ≤ isizeMax := by decide

private def fixnum : Serial := ⟨{n : UInt8 // n < 128}, fun n => some ⟨[n.val], one_le_isizeMax⟩⟩

private def toFixnum : List UInt8 → Option fixnum.type
  | [n] => if h : n < 128 then some ⟨n, h⟩ else none
  | _ => none

private def twice : Remote where
  args := [fixnum]
  result := fixnum
  rmp :=
    { writeArrayLen := fun n => some (if n < 16 then [144 + n.toUInt8] else [220, (n / 256).toUInt8, n.toUInt8])
      unit := some [192]
      toVec := fun a => some [145, a.1.val]
      fromSlice := fun
        | [145, n] => if h : n < 128 then some (⟨n, h⟩, ()) else none
        | _ => none }
  body := .sequence fun a => [(a.1, false), (a.1, true)]
  fromSlice := toFixnum

private theorem twice_lawful : twice.Lawful where
  rmp :=
    { writes := ⟨_, rfl⟩
      unit := fun h => absurd h (List.cons_ne_nil _ _)
      tuple := by
        rintro - ⟨n, u⟩ header bytes hheader hbytes
        cases hheader
        cases hbytes
        rfl
      decodes := by
        rintro ⟨n, u⟩ bytes h
        cases h
        exact dif_pos n.2 }
  result := by
    intro x bytes h
    cases h
    exact dif_pos x.2

private def argument : Tuple twice.args := (⟨87, by decide⟩, ())

private def argumentBytes : Payload := ⟨[87], by decide⟩

private theorem twice_answers : twice.Answers argument [⟨87, by decide⟩, ⟨87, by decide⟩]
    [argumentBytes, argumentBytes] where
  yields := ⟨[⟨87, by decide⟩], ⟨87, by decide⟩, rfl, rfl⟩
  encoded := rfl

private def twicePeer : Interface .u32 := Interface.new.addProcedure ⟨5⟩ twice.procedure

private def doubling : List (LinkAction .u32) :=
  [.startCall ⟨5⟩ argumentBytes, .endCall 0, .flushCaller, .fillPeer, .fillPeer, .flushPeer, .fillCaller, .fillCaller]

private def doubled : Link .u32 := doubling.foldl (step true) (connect .new twicePeer ⟨0⟩ ⟨0⟩ false 2 2)

private theorem args_of_map {s : Link w} {n : Nat} {args : List UInt8}
    (h : s.calls[n]?.map CallRecord.args = some args) (hr : s.calls[n]? = some r) : r.args = args := by
  rw [hr] at h
  exact Option.some.inj h

private theorem doubled_reaches : Reaches (step true) (WellTyped (fun _ => twice) (· = ⟨5⟩) 2)
    (connect .new twicePeer ⟨0⟩ ⟨0⟩ false 2 2) doubled := by
  unfold doubled doubling
  simp only [List.foldl_cons, List.foldl_nil]
  refine .next (.next (.next (.next (.next (.next (.next (.next .start ?_) ?_) ?_) ?_) ?_) ?_) ?_) ?_
  · exact ⟨by decide, rfl, by decide +kernel, by decide +kernel, by decide +kernel⟩
  · intro r hr
    refine ⟨open_of_all (by decide +kernel) r hr, argument, _, _, ?_, twice_answers⟩
    exact congrArg some (args_of_map (by decide +kernel) hr).symm
  · trivial
  · exact .of_lt (by decide +kernel)
  · exact .of_lt (by decide +kernel)
  all_goals trivial

private def doubledHandle : CallHandle .u32 := (doubled.calls[0]?.bind CallRecord.held).get (by decide +kernel)

theorem typed_calls_return_doubled :
    ∃ chunks t, (doubledHandle.waitChunks fun b => (toFixnum b).isSome).run doubled.caller = .ok (some chunks) t ∧
      chunks.map toFixnum = [some ⟨87, by decide⟩, some ⟨87, by decide⟩] := by
  have hpeer : twicePeer.WellFormed :=
    Interface.new_wellFormed.congr rfl rfl (Nat.le_refl _) (Nat.le_refl _) fun _ h => h
  have hregistered : ∀ p, p = ⟨5⟩ → twicePeer.procedures.lookup p = some twice.procedure := by
    rintro p rfl
    rfl
  have hsome : (doubled.calls[0]?.bind CallRecord.held) = some doubledHandle := (Option.some_get _).symm
  obtain ⟨r, hr, hheld⟩ := Option.bind_eq_some_iff.1 hsome
  have hpieces : doubled.calls[0]?.map CallRecord.pieces = some [argumentBytes] := by decide +kernel
  rw [hr, Option.map_some, Option.some_inj] at hpieces
  have hsplit : [Piece.args (.tuple [fixnum] argument) argumentBytes rfl].map Piece.payload = r.pieces := hpieces.symm
  have hall := typed_calls_return (fun _ _ => twice_lawful)
    (Site.new_inCustody Interface.new_wellFormed rfl ⟨0⟩ false 2) (Site.new_inCustody hpeer rfl ⟨0⟩ false 2)
    (fun _ _ => rfl) hregistered doubled_reaches (List.mem_of_getElem? hr) hsplit ⟨_, rfl, rfl⟩ twice_answers
  exact (hall.2 (by decide +kernel) (by decide +kernel) (by decide +kernel) (by decide +kernel) doubledHandle hheld).1

end Link

end Ipfi
