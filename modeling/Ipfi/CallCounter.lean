import Ipfi.Calls

/-!
# The call counter over long runs

Call indices are not recycled: the counter of a procedure is one less than the number of its calls so far, and the
indices of the calls that await a response are those below.  So the increments go well up to the last index, and the
call after it overflows the counter.
-/

namespace Ipfi

variable {w : IntFeature}

namespace Site

/-- What local code and the peer do with the calls of a wire. -/
inductive CallTraffic (w : IntFeature)
  | startCallWithPartialBytes (p : ProcedureIndex w) (args : Payload)
  | callWithBytes (p : ProcedureIndex w) (args : Payload)
  /-- A response is received. -/
  | response (p : ProcedureIndex w) (c : CallIndex w) (t : Terminator) (bytes : List UInt8)

namespace CallTraffic

/-- The procedure for which the action asks for a new call index. -/
def allots? : CallTraffic w → Option (ProcedureIndex w)
  | .startCallWithPartialBytes p args => if args.val = [] then none else some p
  | .callWithBytes p _ => some p
  | .response _ _ _ _ => none

end CallTraffic

def trafficStep (checks : Bool) (s : Site w) : CallTraffic w → Site w
  | .startCallWithPartialBytes p args => ((startCallWithPartialBytes checks p args).run s).state
  | .callWithBytes p args => ((callWithBytes checks p args).run s).state
  | .response p c t bytes => ((receive (.response p c t bytes)).run s).state

/-- The next increment of the counter overflows. -/
def Overflows (s : Site w) (p : ProcedureIndex w) : Prop :=
  ∃ last, s.wire.remoteCallCounter.lookup p = some last ∧ last + 1 = 0

/-- No increment overflows, and no new call gets the index of a call whose response is pending. -/
def CountsSoundly (checks : Bool) : Site w → List (CallTraffic w) → Prop
  | _, [] => True
  | s, a :: as =>
    (∀ p, a.allots? = some p → ¬ s.Overflows p ∧ (p, s.nextIdx p) ∉ s.wire.responseIdxMap) ∧
      CountsSoundly checks (s.trafficStep checks a) as

/-- After `n p` calls of each procedure `p`. -/
structure Counted (n : ProcedureIndex w → Nat) (s : Site w) : Prop where
  canCall : s.CanCall
  none : ∀ {p}, s.wire.remoteCallCounter.lookup p = none ↔ n p = 0
  last : ∀ {p last}, s.wire.remoteCallCounter.lookup p = some last → last.toNat + 1 = n p
  pending : ∀ {p c}, (p, c) ∈ s.wire.responseIdxMap → c.idx.toNat < n p

variable {checks : Bool} {s s' : Site w} {n : ProcedureIndex w → Nat} {p : ProcedureIndex w} {a : CallTraffic w}

theorem Counted.le (h : s.Counted n) (p : ProcedureIndex w) : n p ≤ 2 ^ w.bits := by
  cases hl : s.wire.remoteCallCounter.lookup p with
  | none => rw [h.none.1 hl]; exact Nat.zero_le _
  | some last => rw [← h.last hl]; exact last.isLt

theorem Counted.overflows_iff (h : s.Counted n) : s.Overflows p ↔ n p = 2 ^ w.bits := by
  constructor
  · rintro ⟨last, hl, hlast⟩
    rw [← h.last hl]
    exact IpfiInteger.succ_eq_zero.1 hlast
  · intro hp
    cases hl : s.wire.remoteCallCounter.lookup p with
    | none =>
      rw [h.none.1 hl] at hp
      exact absurd hp.symm (Nat.two_pow_pos _).ne'
    | some last => exact ⟨last, hl, IpfiInteger.succ_eq_zero.2 ((h.last hl).trans hp)⟩

/-- The next index is the number of calls so far. -/
theorem Counted.nextIdx (h : s.Counted n) (hp : n p < 2 ^ w.bits) : (s.nextIdx p).idx.toNat = n p := by
  unfold Site.nextIdx
  cases hl : s.wire.remoteCallCounter.lookup p with
  | none =>
    show (0 : IpfiInteger w).toNat = n p
    rw [h.none.1 hl]
    simp
  | some last =>
    show (last + 1).toNat = n p
    rw [IpfiInteger.toNat_succ (by rw [h.last hl]; exact hp), h.last hl]

/-- Only the counter and the awaited responses matter. -/
theorem Counted.congr (h : s.Counted n)
    (hs' : s'.CanCall) (hcounter : s'.wire.remoteCallCounter = s.wire.remoteCallCounter)
    (hmap : s'.wire.responseIdxMap = s.wire.responseIdxMap) : s'.Counted n :=
  ⟨hs', hcounter ▸ h.none, hcounter ▸ h.last, hmap ▸ h.pending⟩

/-- A call more. -/
theorem Counted.allotted (h : s.Counted n) (hp : n p < 2 ^ w.bits) (hs' : s'.CanCall)
    (hcounter : s'.wire.remoteCallCounter = s.wire.remoteCallCounter.insert p (s.nextIdx p).idx)
    (hmap : s'.wire.responseIdxMap = s.wire.responseIdxMap.insert (p, s.nextIdx p) s.interface.push.1) :
    s'.Counted (Function.update n p (n p + 1)) := by
  constructor
  · exact hs'
  · intro q
    rw [hcounter, AList.lookup_insert_eq, Function.update_apply]
    split
    · simp
    · exact h.none
  · intro q last hl
    rw [hcounter, AList.lookup_insert_eq] at hl
    rw [Function.update_apply]
    split at hl
    · subst_vars
      cases hl
      rw [if_pos rfl, h.nextIdx hp]
    · rw [if_neg ‹_›]
      exact h.last hl
  · intro q c hmem
    rw [hmap, AList.mem_insert] at hmem
    rw [Function.update_apply]
    rcases hmem with heq | hmem
    · cases heq
      rw [if_pos rfl, h.nextIdx hp]
      exact Nat.lt_succ_self _
    · have hlt := h.pending hmem
      split
      · subst_vars; exact Nat.lt_succ_of_lt hlt
      · exact hlt

theorem Counted.allocateCall_run (h : s.Counted n) (hp : n p < 2 ^ w.bits) (checks : Bool) :
    (allocateCall checks p).run s = .ok (s.nextIdx p) (s.allotted p) := by
  apply (allocateCall_cases checks s p).resolve_right
  rintro ⟨last, hl, hlast, -⟩
  exact hp.ne (h.overflows_iff.1 ⟨last, hl, hlast⟩)

/-- An action that asks for an index makes one call more. -/
theorem Counted.step (h : s.Counted n) (ha : a.allots? = some p) (hp : n p < 2 ^ w.bits) :
    (s.trafficStep checks a).Counted (Function.update n p (n p + 1)) := by
  cases a with
  | startCallWithPartialBytes q args =>
    simp only [CallTraffic.allots?] at ha
    split at ha
    · cases ha
    · cases ha
      have hr := startCallWithPartialBytes_run h.canCall ‹_› (h.allocateCall_run hp checks)
      rw [trafficStep, hr]
      exact h.allotted hp ⟨h.canCall.running, h.canCall.hostStyle⟩ rfl rfl
  | callWithBytes q args =>
    cases ha
    rw [trafficStep, callWithBytes_run h.canCall (h.allocateCall_run hp checks)]
    exact h.allotted hp ⟨h.canCall.running, h.canCall.hostStyle⟩ rfl rfl
  | response q c t bytes => cases ha

/-! ### Responses -/

/-- No response is awaited that was not awaited before. -/
private def AwaitsNoMore (s s' : Site w) : Prop := ∀ key ∈ s'.wire.responseIdxMap, key ∈ s.wire.responseIdxMap

private instance : IsPreorder (Site w) AwaitsNoMore where
  refl _ _ h := h
  trans _ _ _ h h' key hk := h key (h' key hk)

private theorem onInterface_awaitsNoMore {α : Type} (x : Op (Error w) (Interface w) α) :
    (onInterface x).Within AwaitsNoMore := by
  have hx : x.Within fun _ _ => True := fun _ => trivial
  exact hx.zoom fun _ _ _ _ hk => hk

private theorem receiveResponse_awaitsNoMore (p : ProcedureIndex w) (c : CallIndex w) (t : Terminator)
    (bytes : List UInt8) : (receiveResponse p c t bytes).Within AwaitsNoMore := by
  have hidx : (onWire (Wire.getResponseIdx p c) : Op (Error w) (Site w) _).Within AwaitsNoMore :=
    (Wire.getResponseIdx_within (R := fun x x' => x' = x) p c).zoom fun s x hx => by
      rw [hx]
      exact refl_of AwaitsNoMore s
  refine hidx.bind fun r => (onInterface_awaitsNoMore _).bind fun _ => ?_
  split
  · refine (onInterface_awaitsNoMore _).bind fun _ => .bind ?_ fun _ => .pure _
    exact fun s key hk => (AList.mem_erase.1 hk).2
  · exact (onInterface_awaitsNoMore _).bind fun _ => .pure _
  · exact .pure _

/-- An action that asks for no index. -/
theorem Counted.stay (h : s.Counted n) (ha : a.allots? = .none) : (s.trafficStep checks a).Counted n := by
  cases a with
  | startCallWithPartialBytes p args =>
    have hargs : args.val = [] := by
      by_contra hne
      simp [CallTraffic.allots?, hne] at ha
    have hr : (startCallWithPartialBytes checks p args).run s = .error (.error .zeroLengthInNonTerminating) s := by
      rw [startCallWithPartialBytes, EStateM.run_bind_ok (checkCanCall_run h.canCall), hargs]
      rfl
    rw [trafficStep, hr]
    exact h
  | callWithBytes p args => cases ha
  | response p c t bytes =>
    have hframe := (receiveResponse_answering p c t bytes s).passive_of_answering
    have hcounter : ((receiveResponse p c t bytes).run s).state.wire.remoteCallCounter = s.wire.remoteCallCounter :=
      congrArg (fun y => y.2.2.1) hframe.2
    refine ⟨⟨hframe.terminated.trans h.canCall.running, hframe.fixed_of_passive.moduleStyle.trans h.canCall.hostStyle⟩,
      ?_, ?_, fun hmem => h.pending (receiveResponse_awaitsNoMore p c t bytes s _ hmem)⟩
    · exact hcounter ▸ h.none
    · exact hcounter ▸ h.last

/-! ### Runs -/

/-- From the counts `n` on, it goes well as long as no procedure has more calls than there are indices. -/
theorem Counted.soundly_iff (h : s.Counted n) (as : List (CallTraffic w)) :
    s.CountsSoundly checks as ↔ ∀ p, n p + as.countP (·.allots? = some p) ≤ 2 ^ w.bits := by
  induction as generalizing s n with
  | nil => exact iff_of_true trivial fun p => h.le p
  | cons a as ih =>
    cases ha : a.allots? with
    | none =>
      rw [CountsSoundly, ih (h.stay ha)]
      simp [ha]
    | some q =>
      have hcons (p : ProcedureIndex w) : n p + (a :: as).countP (·.allots? = some p) =
          Function.update n q (n q + 1) p + as.countP (·.allots? = some p) := by
        rw [List.countP_cons, ha, Function.update_apply]
        by_cases hpq : p = q
        · subst hpq; simp; omega
        · simp [hpq, Ne.symm hpq]
      simp only [hcons]
      rcases Nat.lt_or_eq_of_le (h.le q) with hlt | heq
      · rw [CountsSoundly, ih (h.step ha hlt)]
        refine and_iff_right fun p hp => ?_
        obtain rfl : q = p := Option.some.inj (ha.symm.trans hp)
        refine ⟨fun ho => hlt.ne (h.overflows_iff.1 ho), fun hmem => ?_⟩
        exact absurd (h.pending hmem) (by rw [h.nextIdx hlt]; exact Nat.lt_irrefl _)
      · refine iff_of_false (fun hs => (hs.1 q ha).1 (h.overflows_iff.2 heq)) fun hall => ?_
        have := hall q
        rw [Function.update_self] at this
        omega

theorem new_counted (i : Interface w) (id : WireId w) (max : IpfiInteger w) :
    Counted (fun _ => 0) ⟨i, .new id false max⟩ where
  canCall := ⟨rfl, rfl⟩
  none := iff_of_true rfl rfl
  last hl := by cases hl
  pending hmem := by cases hmem

/-- On a new wire, calls are counted well if and only if no procedure is called more often than there are indices. -/
theorem countsSoundly_iff (checks : Bool) (i : Interface w) (id : WireId w) (max : IpfiInteger w)
    (as : List (CallTraffic w)) :
    CountsSoundly checks ⟨i, .new id false max⟩ as ↔ ∀ p, as.countP (·.allots? = some p) ≤ 2 ^ w.bits := by
  simpa using (new_counted i id max).soundly_iff as

/-- One procedure is called 257 times with 8-bit indices. -/
theorem not_countsSoundly_narrow :
    ¬ ∀ as : List (CallTraffic .u8), CountsSoundly true ⟨.new, .new ⟨0⟩ false 4⟩ as := by
  intro h
  have hcount := ((new_counted .new ⟨0⟩ 4).soundly_iff _).1
    (h (List.replicate 257 (.callWithBytes ⟨1⟩ .empty))) ⟨1⟩
  rw [List.countP_replicate] at hcount
  exact absurd hcount (by decide)

end Site

end Ipfi
