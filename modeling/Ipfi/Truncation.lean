import Ipfi.Gathering
import Ipfi.WorldCustody

/-!
# Calls on all that was sent

What the peer has sent for each call, next to what the wire has made of it.  The limit of ongoing procedures discards
single messages, so a call can lose some of its pieces, or its end; as long as no end of such a call is accepted, every
procedure is called on all the bytes that were sent for its call.
-/

namespace Ipfi

variable {w : IntFeature}

/-- What the peer has sent for each call of a wire since the last end of it that the wire has accepted, what of this was
discarded, and all that was sent for each call a procedure was called for. -/
structure Ledger (w : IntFeature) where
  sent : ProcedureIndex w × CallIndex w → List UInt8
  discarded : ProcedureIndex w × CallIndex w → List UInt8
  calls : List (List UInt8)

def Ledger.empty : Ledger w := ⟨fun _ => [], fun _ => [], []⟩

/-- The ledger after a message of the call, which was rejected or not, and after which a procedure was called or not. -/
def Ledger.message (l : Ledger w) (call : ProcedureIndex w × CallIndex w) (t : Terminator) (bytes : List UInt8)
    (rejected called : Bool) : Ledger w where
  -- an end that is discarded ends nothing: what has been sent stays on record
  sent := Function.update l.sent call (if t = .complete ∧ rejected = false then [] else l.sent call ++ bytes)
  discarded := Function.update l.discarded call
    (if rejected then l.discarded call ++ bytes else if t = .complete then [] else l.discarded call)
  calls := if called then l.calls ++ [l.sent call ++ bytes] else l.calls

namespace Site

variable {s : Site w} {x : Surroundings w} {y : Site w × Ledger w} {a : ServeAction w}

def tallyStep (y : Site w × Ledger w) (a : ServeAction w) : Site w × Ledger w :=
  (y.1.serveStep a, match a.message? y.1 with
    | some (.call p c t bytes) => y.2.message (p, c) t bytes (decide (y.1.Rejects p c))
        (decide (y.1.wire.executions.length < (y.1.serveStep a).wire.executions.length))
    | _ => y.2)

/-- A step at which no call that has lost bytes is accepted to its end. -/
structure Whole (y : Site w × Ledger w) (a : ServeAction w) : Prop where
  room : ∀ m, a.message? y.1 = some m → y.1.RoomFor m
  accepted : ∀ {p c bytes}, a.message? y.1 = some (.call p c .complete bytes) → ¬ y.1.Rejects p c →
    p ∈ y.1.interface.procedures → y.2.discarded (p, c) = []

/-- The site agrees with the ledger. -/
structure Tallies (x : Surroundings w) (s : Site w) (l : Ledger w) : Prop where
  custody : s.InCustody x
  calls : s.wire.calledOn = l.calls
  holds : s.wire.terminated = false → ∀ {p c}, l.discarded (p, c) = [] → s.Holds p c (l.sent (p, c))

theorem Tallies.receiveCall {l : Ledger w} (h : Tallies x s l) {p : ProcedureIndex w} {c : CallIndex w}
    (hroom : s.Begins p c → s.interface.messages.size < 2 ^ w.bits) (hterm : s.wire.terminated = false) {t : Terminator}
    {bytes : List UInt8}
    (haccepted : t = .complete → ¬ s.Rejects p c → p ∈ s.interface.procedures → l.discarded (p, c) = []) :
    Tallies x ((Site.receiveCall p c t bytes).run s).state (l.message (p, c) t bytes (decide (s.Rejects p c))
      (decide (s.wire.executions.length < ((Site.receiveCall p c t bytes).run s).state.wire.executions.length))) := by
  refine ⟨(receiveCall_works h.custody hroom t bytes).custody, ?_, fun _ {p' c'} hd => ?_⟩
  · by_cases hrej : s.Rejects p c
    · rw [receiveCall_run, if_pos hrej]
      simp [Ledger.message, h.calls]
    · rw [receiveCall_calledOn h.custody hroom hrej (fun ht hp => h.holds hterm (haccepted ht hrej hp)), h.calls]
      simp only [Ledger.message, decide_eq_true_eq]
  · by_cases hpc : (p', c') = (p, c)
    · obtain ⟨rfl, rfl⟩ := Prod.mk.inj hpc
      simp only [Ledger.message, Function.update_self] at hd ⊢
      by_cases hrej : s.Rejects p' c'
      -- nothing was lost before, and the message that is discarded has no bytes
      · rw [receiveCall_run, if_pos hrej]
        simp only [hrej, decide_true, if_true, List.append_eq_nil_iff] at hd
        simp only [hrej, decide_true, Bool.true_eq_false, and_false, if_false, hd.2, List.append_nil]
        exact h.holds hterm hd.1
      · simp only [hrej, decide_false, and_true]
        refine receiveCall_holds h.custody hroom hrej (fun ht => ?_) bytes
        simp only [ht, hrej, decide_false, Bool.false_eq_true, if_false] at hd
        exact h.holds hterm hd
    · simp only [Ledger.message, Function.update_of_ne hpc] at hd ⊢
      exact receiveCall_holds_ne h.custody hroom hpc (h.holds hterm hd) t bytes

/-- A step that adds no call agrees with the same ledger. -/
theorem Tallies.of_works {o₀ : Owner w} {s' : Site w} {l : Ledger w} (h : Tallies x s l) (hworks : Works x o₀ s s')
    (hne : ∀ key, .args key ≠ o₀) (hcalls : s'.wire.calledOn = s.wire.calledOn)
    (hterm : s'.wire.terminated = s.wire.terminated) : Tallies x s' l :=
  ⟨hworks.custody, hcalls.trans h.calls, fun ht {_ _} hd => (h.holds (hterm ▸ ht) hd).of_works hworks (hne _)⟩

private theorem tallyStep_snd_of_ne {l : Ledger w} (hm : ∀ p c t bytes, a.message? s ≠ some (.call p c t bytes)) :
    (tallyStep (s, l) a).2 = l := by
  unfold tallyStep
  dsimp only
  split
  · exact absurd ‹_› (hm _ _ _ _)
  · rfl

theorem Tallies.step {l : Ledger w} (h : Tallies x s l) (ha : Whole (s, l) a) :
    Tallies x (tallyStep (s, l) a).1 (tallyStep (s, l) a).2 := by
  refine serveStep_invariant (I := fun s' => Tallies x s' (tallyStep (s, l) a).2) (fun hm => ?_)
    (fun p c t bytes hm => ?_) (fun p c t bytes hm => ?_) (fun s' hs' => ?_) fun e p c args f bytes t ha' hex => ?_
  · rwa [tallyStep_snd_of_ne hm]
  · have hl : (tallyStep (s, l) a).2 = l.message (p, c) t bytes (decide (s.Rejects p c)) (decide
        (s.wire.executions.length < ((Site.receiveCall p c t bytes).run s).state.wire.executions.length)) := by
      simp only [tallyStep, hm, serveStep_executions hm]
    rw [hl]
    refine h.receiveCall (ha.room _ hm) (ServeAction.running_of_message? hm) ?_
    rintro rfl
    exact ha.accepted hm
  · rw [tallyStep_snd_of_ne (by simp [hm])]
    have hframe := (receiveResponse_answering p c t bytes s).serving_of_answering
    exact h.of_works (receiveResponse_works h.custody p c t bytes) (fun _ => nofun)
      (congrArg (List.map Execution.args) hframe.executions) (congrArg (fun y => y.2.1) hframe.2)
  · exact ⟨(markTerminated_confines hs'.custody).custody, hs'.calls, fun ht => by cases ht⟩
  · subst ha'
    rw [tallyStep_snd_of_ne (by simp [ServeAction.message?])]
    have hcalling := yielder_calling p c e bytes t s.wire
    have hterm : ((Wire.yielder p c e bytes t).run s.wire).state.terminated = s.wire.terminated :=
      congrArg (fun y => y.1.2.1) hcalling
    refine ⟨h.custody.congr rfl (congrArg Prod.snd hcalling) (congrArg (fun y => y.1.2.2.2) hcalling),
      Eq.trans (Wire.yielder_calledOn p c e bytes t s.wire) h.calls, fun ht {_ _} hd => ?_⟩
    exact (h.holds (hterm.symm.trans ht) hd).congr rfl (congrArg (fun y => y.1.1.1) hcalling)

/-- In every state that steps lead to at which no call that has lost bytes is accepted to its end, the procedures have
been called on all that was sent for their calls. -/
theorem calledOn_eq_calls {i : Interface w} {id : WireId w} {moduleStyle : Bool} {max : IpfiInteger w}
    (hi : InCustody ⟨i, .new id moduleStyle max⟩ x) (hnone : ∀ key ∈ i.callToBufferMap, key.2.2 ≠ id)
    (hy : Reaches tallyStep Whole (⟨i, .new id moduleStyle max⟩, .empty) y) : y.1.wire.calledOn = y.2.calls := by
  have hstart : Tallies x ⟨i, .new id moduleStyle max⟩ .empty := by
    refine ⟨hi, rfl, fun _ {p c} _ => holds_nil (AList.lookup_eq_none.2 fun hmem => ?_)⟩
    exact hnone _ hmem rfl
  have htallies : Tallies x y.1 y.2 := hy.invariant (I := fun y => Tallies x y.1 y.2) hstart fun _ _ h ha => h.step ha
  exact htallies.calls

/-- An interface with a procedure that returns nothing. -/
private def silentInterface : Interface .u32 := Interface.new.addProcedure ⟨0⟩ (.standard fun _ => .ok .empty)

/-- A wire on it that serves one call at a time. -/
private def silentSite : Site .u32 := ⟨silentInterface, .new ⟨0⟩ false 1⟩

private def piece (c : CallIndex .u32) (t : Terminator) (bytes : Payload) : ServeAction .u32 :=
  .receiveOne (Message.call ⟨0⟩ c t bytes).toBytes

private theorem silentSite_inCustody : silentSite.InCustody ⟨0, fun _ _ => none, fun _ _ => False⟩ := by
  have hwf : silentSite.interface.WellFormed :=
    Interface.new_wellFormed.congr rfl rfl (Nat.le_refl _) (Nat.le_refl _) fun _ h => h
  exact new_inCustody hwf rfl _ _ _

private theorem silentSite_none : ∀ key ∈ silentInterface.callToBufferMap, key.2.2 ≠ ⟨0⟩ := by
  simp [silentInterface, Interface.addProcedure, Interface.new]

/-- The first piece of a call is discarded while another call is gathered. -/
private def beside : Site .u32 × Ledger .u32 :=
  [piece ⟨0⟩ .none ⟨[1], by decide⟩, piece ⟨1⟩ .none ⟨[2], by decide⟩].foldl tallyStep (silentSite, .empty)

private theorem whole_of_none {y : Site .u32 × Ledger .u32} {c : CallIndex .u32} {bytes : Payload}
    (hroom : y.1.interface.messages.size < 2 ^ 32)
    (hm : (piece c .none bytes).message? y.1 = some (.call ⟨0⟩ c .none bytes.val)) : Whole y (piece c .none bytes) :=
  ⟨fun m _ => .of_lt hroom m, fun h _ _ => by cases hm.symm.trans h⟩

private theorem beside_reaches : Reaches tallyStep Whole (silentSite, .empty) beside :=
  .next (.next .start (whole_of_none (by decide +kernel) rfl)) (whole_of_none (by decide +kernel) rfl)

theorem calledOn_eq_calls_beside :
    (tallyStep beside (piece ⟨0⟩ .complete ⟨[3], by decide⟩)).1.wire.calledOn =
      (tallyStep beside (piece ⟨0⟩ .complete ⟨[3], by decide⟩)).2.calls := by
  have hroom : beside.1.interface.messages.size < 2 ^ 32 := by decide +kernel
  refine calledOn_eq_calls silentSite_inCustody silentSite_none
    (beside_reaches.next ⟨fun m _ => .of_lt hroom m, fun {p c bytes} hm _ _ => ?_⟩)
  -- the call that ends is the one that has lost nothing
  have hend : (piece ⟨0⟩ .complete ⟨[3], by decide⟩).message? beside.1 = some (.call ⟨0⟩ ⟨0⟩ .complete [3]) := rfl
  cases hend.symm.trans hm
  rfl

/-- While one call is served, the first piece of another one is discarded, and its end is accepted later. -/
private def truncatedRun : List (ServeAction .u32) :=
  [piece ⟨0⟩ .none ⟨[1], by decide⟩, piece ⟨1⟩ .none ⟨[2], by decide⟩, piece ⟨0⟩ .complete .empty,
    piece ⟨1⟩ .complete .empty]

theorem not_calledOn_eq_calls_truncated :
    ¬ ∀ y, Reaches tallyStep (fun _ _ => True) (silentSite, .empty) y → y.1.wire.calledOn = y.2.calls := by
  intro h
  have hrun := (Reaches.start : Reaches tallyStep (fun _ _ => True) (silentSite, .empty) _).foldl truncatedRun
    fun _ _ _ => trivial
  exact absurd (h _ hrun) (by decide +kernel)

end Site

end Ipfi
