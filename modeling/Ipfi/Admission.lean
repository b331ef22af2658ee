import Ipfi.BufferLookups
import Ipfi.CallBranch
import Mathlib.Logic.Function.Iterate

/-!
# The limit of ongoing procedures under concurrent readers

A reader that has a call at hand looks it up among the ongoing ones, reads their number, gets a buffer and only then
adds the call; each of these is an atomic step on what the clones of the wire share.  So the limit can be exceeded, but
by less than the number of calls that are being admitted at one time.
-/

namespace Ipfi

variable {w : IntFeature}

open EStateM (Within)

/-- A call as `receive_one` has read it. -/
structure ReceivedCall (w : IntFeature) where
  procedureIdx : ProcedureIndex w
  callIdx : CallIndex w
  terminator : Terminator
  bytes : List UInt8

/-- Where a thread is in the call branch of `receive_one`. -/
inductive ReadPlace (w : IntFeature)
  | begin
  /-- The call is not ongoing; before the number of ongoing ones is read. -/
  | unknown
  /-- In `get_call_buffer`; after it the call is added to the ongoing ones. -/
  | admitted (a : BufferPlace w)
  | sendMany (b : IpfiInteger w)
  | terminateMessage (b : IpfiInteger w)
  | callProcedure
  | respond (retBytes : Payload)
  /-- Before the call is taken off the ongoing ones. -/
  | finish
  | returned (b : Bool)
  | failed (e : Stop (Error w))

/-- Whether the call has been let through and is yet to be added. -/
def ReadPlace.entering : ReadPlace w → Bool
  | .admitted _ => true
  | _ => false

namespace ReceivedCall

def key (m : ReceivedCall w) : ProcedureIndex w × CallIndex w := (m.procedureIdx, m.callIdx)

/-- The next atomic step of a thread that has received the call. -/
def advance (m : ReceivedCall w) : ReadPlace w → Op (Error w) (Site w) (ReadPlace w)
  | .begin => do
    if m.key ∈ (← get).wire.ongoingProcedures then pure (.admitted .begin) else pure .unknown
  | .unknown => do
    let wire := (← get).wire
    if wire.maxOngoingProcedures.toNat ≤ wire.ongoingProcedures.size then pure (.returned false)
    else pure (.admitted .begin)
  | .admitted (.returned b) => do
    Site.onWire (modify fun x => { x with ongoingProcedures := x.ongoingProcedures.insert m.key () })
    pure (.sendMany b)
  | .admitted a => do
    let id := (← get).wire.id
    let a ← Site.onInterface (modifyGet (a.next (m.procedureIdx, m.callIdx, id)))
    pure (.admitted a)
  | .sendMany b => do
    Site.onInterface (Interface.sendMany m.bytes b)
    if m.terminator = .complete then pure (.terminateMessage b) else pure (.returned false)
  | .terminateMessage b => do
    Site.onInterface (Interface.terminateMessage b)
    pure .callProcedure
  | .callProcedure => do
    let id := (← get).wire.id
    let ret ← Site.callProcedure m.procedureIdx m.callIdx id (Wire.yielder m.procedureIdx m.callIdx)
    match ret with
    | some retBytes => pure (.respond retBytes)
    | none => pure (.returned true)
  | .respond retBytes => do
    Site.onWire (modify fun x => x.pushMessage (.response m.procedureIdx m.callIdx .complete retBytes))
    pure .finish
  | .finish => do
    Site.onWire (modify fun x => { x with ongoingProcedures := x.ongoingProcedures.erase m.key })
    pure (.returned true)
  | .returned b => pure (.returned b)
  | .failed e => pure (.failed e)

/-- The place and the site after the next step; an error ends the branch. -/
def next (m : ReceivedCall w) (a : ReadPlace w) (s : Site w) : ReadPlace w × Site w :=
  match (m.advance a).run s with
  | .ok a s => (a, s)
  | .error e s => (.failed e, s)

end ReceivedCall

/-! ### What adds no call -/

/-- No call is added to the ongoing ones, and their limit stays. -/
def Wire.Releases (x x' : Wire w) : Prop :=
  x'.maxOngoingProcedures = x.maxOngoingProcedures ∧ ∀ k ∈ x'.ongoingProcedures, k ∈ x.ongoingProcedures

instance : IsPreorder (Wire w) Wire.Releases where
  refl _ := ⟨rfl, fun _ hk => hk⟩
  trans _ _ _ h h' := ⟨h'.1.trans h.1, fun k hk => h.2 k (h'.2 k hk)⟩

def Site.Releases (s s' : Site w) : Prop := s.wire.Releases s'.wire

instance : IsPreorder (Site w) Site.Releases where
  refl s := refl_of Wire.Releases s.wire
  trans _ _ _ h h' := trans_of Wire.Releases h h'

theorem Wire.yielder_releases (p : ProcedureIndex w) (c : CallIndex w) (e : Nat) (bytes : Payload) (t : Terminator) :
    (yielder p c e bytes t).Within Wire.Releases :=
  yielder_within p c e bytes t (fun x _ => refl_of Wire.Releases x)
    (fun _ => ⟨rfl, fun _ hk => (AList.mem_erase.1 hk).2⟩) fun x => refl_of Wire.Releases x

namespace Site

theorem onInterface_releases {γ : Type} (x : Op (Error w) (Interface w) γ) : (onInterface x).Within Site.Releases := by
  intro s
  simp only [onInterface, EStateM.run_zoom]
  cases x.run s.interface <;> exact refl_of Site.Releases s

theorem onWire_releases {γ : Type} {x : Op (Error w) (Wire w) γ} (hx : x.Within Wire.Releases) :
    (onWire x).Within Site.Releases :=
  hx.zoom fun _ _ h => h

/-- Calling a procedure can end calls and adds none. -/
theorem callProcedure_releases (p : ProcedureIndex w) (c : CallIndex w) (id : WireId w) :
    (callProcedure p c id (Wire.yielder p c)).Within Site.Releases := by
  have hrecord (e : Execution w) :
      (onWire (modify fun x => x.recordExecution e) : Op (Error w) (Site w) _).Within Site.Releases :=
    onWire_releases (.modify fun x => refl_of Wire.Releases x)
  refine (onInterface_releases _).bind fun b => (onInterface_releases _).bind fun _ => .bind .get fun s => ?_
  split
  · exact .throw _
  · refine .bind .get fun s => ?_
    split
    · exact .throw _
    · refine .bind .get fun s => ?_
      split
      · exact .throw _
      · exact .throw _
      · refine (Within.unwrap _).bind fun args => ?_
        split
        · refine (hrecord _).bind fun _ => (onInterface_releases _).bind fun _ => ?_
          split
          · exact .pure _
          · exact .throw _
        · refine .bind .get fun s => (hrecord _).bind fun _ => ?_
          refine (onWire_releases (.modify fun x =>
            runYields_within (Wire.yielder_releases p c s.wire.executions.length) _ x)).bind fun _ => ?_
          split
          · exact (onInterface_releases _).bind fun _ => .pure _
          · have hfinish : (modify fun x => x.finishExecution s.wire.executions.length : Op (Error w) (Wire w) _).Within
                Wire.Releases := .modify fun x => refl_of Wire.Releases x
            exact (onWire_releases hfinish).bind fun _ => .throw _

end Site

/-! ### Every single step -/

namespace ReceivedCall

variable {m : ReceivedCall w} {a a' : ReadPlace w} {s s' : Site w} {e : Stop (Error w)}

/-- What one step does to the ongoing calls. -/
inductive Enters (m : ReceivedCall w) (s : Site w) : ReadPlace w → ReadPlace w → Site w → Prop
  | known : m.key ∈ s.wire.ongoingProcedures → Enters m s .begin (.admitted .begin) s
  | fits : s.wire.ongoingProcedures.size < s.wire.maxOngoingProcedures.toNat → Enters m s .unknown (.admitted .begin) s
  | proceeds (a a' : BufferPlace w) (s' : Site w) : s'.wire = s.wire → Enters m s (.admitted a) (.admitted a') s'
  | adds (b : IpfiInteger w) : Enters m s (.admitted (.returned b)) (.sendMany b)
      { s with wire := { s.wire with ongoingProcedures := s.wire.ongoingProcedures.insert m.key () } }
  | apart (a a' : ReadPlace w) (s' : Site w) : a.entering = false → a'.entering = false → s.Releases s' →
      Enters m s a a' s'

/-- A step that is no part of an admission. -/
private theorem Enters.of_releases (ha : a.entering = false) (hr : (m.advance a).Within Site.Releases)
    (ha' : ∀ a' s', (m.advance a).run s = .ok a' s' → a'.entering = false) :
    m.Enters s a (m.next a s).1 (m.next a s).2 := by
  have hrel := hr s
  unfold next
  cases h : (m.advance a).run s with
  | ok a' s' =>
    rw [h] at hrel
    exact .apart _ _ _ ha (ha' a' s' h) hrel
  | error e s' =>
    rw [h] at hrel
    exact .apart _ _ _ ha rfl hrel

private theorem run_bind_pure {σ α β : Type} {x : Op (Error w) σ α} {f : α → β} {t t' : σ} {b : β}
    (h : (do let a ← x; pure (f a) : Op (Error w) σ β).run t = .ok b t') : ∃ a, b = f a := by
  rw [EStateM.run_bind] at h
  cases hx : x.run t with
  | ok a t'' =>
    rw [hx] at h
    cases h
    exact ⟨a, rfl⟩
  | error e t'' => rw [hx] at h; cases h

theorem next_enters (m : ReceivedCall w) (a : ReadPlace w) (s : Site w) :
    m.Enters s a (m.next a s).1 (m.next a s).2 := by
  cases a with
  | begin =>
    by_cases hk : m.key ∈ s.wire.ongoingProcedures
    · have hn : m.next .begin s = (.admitted .begin, s) := by simp [next, advance, hk]
      rw [hn]
      exact .known hk
    · have hn : m.next .begin s = (.unknown, s) := by simp [next, advance, hk]
      rw [hn]
      exact .apart _ _ _ rfl rfl (refl_of Site.Releases s)
  | unknown =>
    by_cases hle : s.wire.maxOngoingProcedures.toNat ≤ s.wire.ongoingProcedures.size
    · have hn : m.next .unknown s = (.returned false, s) := by simp [next, advance, hle]
      rw [hn]
      exact .apart _ _ _ rfl rfl (refl_of Site.Releases s)
    · have hn : m.next .unknown s = (.admitted .begin, s) := by simp [next, advance, hle]
      rw [hn]
      exact .fits (Nat.lt_of_not_le hle)
  | admitted a =>
    cases a with
    | returned b => exact .adds b
    | begin => exact .proceeds _ _ _ rfl
    | pushBuffer => exact .proceeds _ _ _ rfl
    | mapBuffer b => exact .proceeds _ _ _ rfl
  | sendMany b =>
    refine .of_releases rfl ((Site.onInterface_releases _).bind fun _ => .ite (.pure _) (.pure _)) fun a' s' h => ?_
    simp only [advance] at h
    by_cases ht : m.terminator = .complete
    · simp only [ht, if_true] at h
      obtain ⟨_, rfl⟩ := run_bind_pure h
      rfl
    · simp only [ht, if_false] at h
      obtain ⟨_, rfl⟩ := run_bind_pure h
      rfl
  | terminateMessage b =>
    refine .of_releases rfl ((Site.onInterface_releases _).bind fun _ => .pure _) fun a' s' h => ?_
    obtain ⟨_, rfl⟩ := run_bind_pure (x := Site.onInterface (Interface.terminateMessage b)) h
    rfl
  | callProcedure =>
    refine .of_releases rfl (.bind .get fun s => ?_) fun a' s' h => ?_
    · refine (Site.callProcedure_releases m.procedureIdx m.callIdx s.wire.id).bind fun ret => ?_
      split <;> exact .pure _
    · simp only [advance, EStateM.run_bind, EStateM.run_get] at h
      split at h
      · split at h <;> cases h <;> rfl
      · cases h
  | respond retBytes =>
    have hpush : (modify fun x => x.pushMessage (.response m.procedureIdx m.callIdx .complete retBytes) :
        Op (Error w) (Wire w) _).Within Wire.Releases := .modify fun x => refl_of Wire.Releases x
    exact .of_releases rfl ((Site.onWire_releases hpush).bind fun _ => .pure _) fun a' s' h => by cases h; rfl
  | finish =>
    have herase : (modify fun x => { x with ongoingProcedures := x.ongoingProcedures.erase m.key } :
        Op (Error w) (Wire w) _).Within Wire.Releases := .modify fun _ => ⟨rfl, fun _ hk => (AList.mem_erase.1 hk).2⟩
    exact .of_releases rfl ((Site.onWire_releases herase).bind fun _ => .pure _) fun a' s' h => by cases h; rfl
  | returned b => exact .apart _ _ _ rfl rfl (refl_of Site.Releases s)
  | failed e => exact .apart _ _ _ rfl rfl (refl_of Site.Releases s)

/-! ### Taken together -/

/-- Steps that no other thread comes in between of. -/
def Leads (m : ReceivedCall w) (x y : ReadPlace w × Site w) : Prop :=
  ∃ n, (fun x => m.next x.1 x.2)^[n] x = y

theorem Leads.refl (m : ReceivedCall w) (x : ReadPlace w × Site w) : m.Leads x x := ⟨0, rfl⟩

theorem Leads.step {y : ReadPlace w × Site w} (a' : ReadPlace w) (s' : Site w) (h : m.Leads (a', s') y)
    (hn : m.next a s = (a', s')) : m.Leads (a, s) y := by
  obtain ⟨n, hn'⟩ := h
  refine ⟨n + 1, ?_⟩
  rw [Function.iterate_succ_apply]
  exact (congrArg _ hn).trans hn'

/-- Where the branch ends with the given result. -/
def ended : EStateM.Result (Stop (Error w)) (Site w) (Option Bool) → ReadPlace w × Site w
  | .ok b s => (.returned (b.getD false), s)
  | .error e s => (.failed e, s)

private theorem leads_admitted (m : ReceivedCall w) (s : Site w) :
    m.Leads (.admitted .begin, s)
      (.sendMany (s.bufferOf m.procedureIdx m.callIdx), s.admitCall m.procedureIdx m.callIdx) := by
  cases hl : s.interface.callToBufferMap.lookup (m.procedureIdx, m.callIdx, s.wire.id) with
  | some b =>
    have hbuf : s.interface.getCallBuffer (m.procedureIdx, m.callIdx, s.wire.id) = (b, s.interface) := by
      simp [Interface.getCallBuffer, hl]
    refine .step (.admitted (.returned b)) s (.step _ _ (.refl m _) ?_) ?_
    · simp [next, advance, Site.onWire, Site.bufferOf, Site.admitCall, hbuf, key]
    · simp [next, advance, Site.onInterface, BufferPlace.next, hl]
  | none =>
    refine .step (.admitted .pushBuffer) s (.step _ _ (.step _ _ (.step _ _ (.refl m _) ?_) rfl) rfl) ?_
    · simp [next, advance, Site.onWire, Site.bufferOf, Site.admitCall, Interface.getCallBuffer, hl, key,
        Site.onInterface, BufferPlace.next]
    · simp [next, advance, Site.onInterface, BufferPlace.next, hl]

private theorem leads_callProcedure (m : ReceivedCall w) (s : Site w) :
    m.Leads (.callProcedure, s) (ended ((do
      let ret ← Site.callProcedure m.procedureIdx m.callIdx s.wire.id (Wire.yielder m.procedureIdx m.callIdx)
      match ret with
      | some retBytes =>
        Site.onWire (modify fun x => x.pushMessage (.response m.procedureIdx m.callIdx .complete retBytes))
        Site.onWire (modify fun x => { x with ongoingProcedures := x.ongoingProcedures.erase m.key })
      | none => pure ()
      pure (some true) : Op (Error w) (Site w) (Option Bool)).run s)) := by
  rw [EStateM.run_bind]
  cases hr : (Site.callProcedure m.procedureIdx m.callIdx s.wire.id (Wire.yielder m.procedureIdx m.callIdx)).run s with
  | error e s' => exact .step _ _ (.refl m _) (by simp [next, advance, hr])
  | ok ret s' =>
    cases ret with
    | none => exact .step _ _ (.refl m _) (by simp [next, advance, hr])
    | some retBytes =>
      refine .step (.respond retBytes) s' (.step _ _ (.step _ _ (.refl m _) rfl) rfl) ?_
      simp [next, advance, hr]

private theorem leads_acceptCall (m : ReceivedCall w) (b : IpfiInteger w) (s : Site w) :
    m.Leads (.sendMany b, s)
      (ended ((Site.acceptCall m.procedureIdx m.callIdx m.terminator m.bytes b).run s)) := by
  cases hs : (Interface.sendMany m.bytes b).run s.interface with
  | error e i => exact .step _ _ (.refl m _) (by simp [next, advance, Site.acceptCall, Site.onInterface, hs])
  | ok _ i =>
    by_cases ht : m.terminator = .complete
    · cases hterm : (Interface.terminateMessage b).run i with
      | error e i' =>
        refine .step (.terminateMessage b) { s with interface := i } (.step _ _ (.refl m _) ?_) ?_
        · simp [next, advance, Site.acceptCall, Site.onInterface, hs, ht, hterm]
        · simp [next, advance, Site.onInterface, hs, ht]
      | ok _ i' =>
        refine .step (.terminateMessage b) { s with interface := i }
          (.step .callProcedure { s with interface := i' } ?_ ?_) ?_
        · have hlast := leads_callProcedure m { s with interface := i' }
          simp only [Site.acceptCall, Site.onInterface, EStateM.run_bind, EStateM.run_zoom,
            EStateM.Result.mapState_ok, hs, hterm, ht, if_true, EStateM.run_get] at hlast ⊢
          exact hlast
        · simp [next, advance, Site.onInterface, hterm]
        · simp [next, advance, Site.onInterface, hs, ht]
    · exact .step _ _ (.refl m _) (by simp [next, advance, Site.acceptCall, Site.onInterface, hs, ht])

theorem Leads.trans {x y z : ReadPlace w × Site w} (h : m.Leads x y) (h' : m.Leads y z) : m.Leads x z := by
  obtain ⟨n, rfl⟩ := h
  obtain ⟨n', rfl⟩ := h'
  exact ⟨n' + n, Function.iterate_add_apply ..⟩

/-- A reader that no other thread comes in between of is `receiveCall`. -/
theorem leads_receiveCall (m : ReceivedCall w) (s : Site w) :
    m.Leads (.begin, s) (ended ((Site.receiveCall m.procedureIdx m.callIdx m.terminator m.bytes).run s)) := by
  rw [Site.receiveCall_run]
  have haccept := (leads_admitted m s).trans (leads_acceptCall m _ _)
  by_cases hk : m.key ∈ s.wire.ongoingProcedures
  · rw [if_neg fun hrej => hrej.1 hk]
    exact .step _ _ haccept (by simp [next, advance, hk])
  · refine .step .unknown s ?_ (by simp [next, advance, hk])
    by_cases hle : s.wire.maxOngoingProcedures.toNat ≤ s.wire.ongoingProcedures.size
    · rw [if_pos ⟨hk, hle⟩]
      exact .step _ _ (.refl m _) (by simp [next, advance, hle])
    · rw [if_neg fun hrej => hle hrej.2]
      exact .step _ _ haccept (by simp [next, advance, hle])

end ReceivedCall

/-! ### Any number of readers -/

/-- Threads that have received calls on the clones of one wire. -/
abbrev Readers (ι : Type) (w : IntFeature) : Type := Threads ι (Site w) (ReadPlace w)

/-- A step of a reader, or anything else that ends in the given site. -/
inductive ReaderAction (ι : Type) (w : IntFeature)
  | read (t : ι)
  | other (s : Site w)

namespace Readers

variable {ι : Type} {calls : ι → ReceivedCall w} {x : Readers ι w} {t : ι} {n max : Nat}

/-- All readers before their first steps. -/
def start (s : Site w) : Readers ι w := ⟨s, fun _ => .begin⟩

/-- The calls of the readers of `P` have been let through and are yet to be added. -/
def Entering (x : Readers ι w) (P : Finset ι) : Prop := ∀ t ∈ P, (x.place t).entering = true

/-- The ongoing calls, with those that are being added. -/
def claimed (calls : ι → ReceivedCall w) (x : Readers ι w) (P : Finset ι) :
    Finset (ProcedureIndex w × CallIndex w) :=
  x.shared.wire.ongoingProcedures.keySet ∪ P.image fun t => (calls t).key

/-- The limit has been exceeded by less than `n`, also once all calls that are being added have been. -/
structure Bounded (max n : Nat) (calls : ι → ReceivedCall w) (x : Readers ι w) : Prop where
  limit : x.shared.wire.maxOngoingProcedures.toNat = max
  card_le : ∀ P, x.Entering P → (x.claimed calls P).card ≤ max + (n - 1)

theorem start_bounded {s : Site w} (n : Nat) (calls : ι → ReceivedCall w)
    (hs : s.wire.ongoingProcedures.size ≤ s.wire.maxOngoingProcedures.toNat) :
    (start s).Bounded s.wire.maxOngoingProcedures.toNat n calls where
  limit := rfl
  card_le P hP := by
    have hempty : P = ∅ := Finset.eq_empty_of_forall_notMem fun t ht => nomatch hP t ht
    rw [hempty, claimed, Finset.image_empty, Finset.union_empty, AList.card_keySet]
    exact hs.trans (Nat.le_add_right ..)

theorem ongoing_mem_claimed {k : ProcedureIndex w × CallIndex w} (P : Finset ι)
    (hk : k ∈ x.shared.wire.ongoingProcedures) : k ∈ x.claimed calls P :=
  Finset.mem_union_left _ (AList.mem_keySet.2 hk)

theorem key_mem_claimed {P : Finset ι} (ht : t ∈ P) : (calls t).key ∈ x.claimed calls P :=
  Finset.mem_union_right _ (Finset.mem_image_of_mem _ ht)

theorem claimed_subset {y : Readers ι w} {P P' : Finset ι}
    (hongoing : ∀ k ∈ y.shared.wire.ongoingProcedures, k ∈ x.claimed calls P')
    (hP : ∀ t ∈ P, (calls t).key ∈ x.claimed calls P') : y.claimed calls P ⊆ x.claimed calls P' := by
  refine Finset.union_subset (fun k hk => hongoing k (AList.mem_keySet.1 hk)) fun k hk => ?_
  obtain ⟨t, ht, rfl⟩ := Finset.mem_image.1 hk
  exact hP t ht

variable [DecidableEq ι]

def step (calls : ι → ReceivedCall w) (x : Readers ι w) : ReaderAction ι w → Readers ι w
  | .read t => Threads.step (fun t a s => (calls t).next a s) x t
  | .other s => { x with shared := s }

/-- Nothing but readers adds calls, and after the step at most `n` of them are admitting one. -/
def Allowed (n : Nat) (calls : ι → ReceivedCall w) (x : Readers ι w) (a : ReaderAction ι w) : Prop :=
  (∀ s, a = .other s → x.shared.Releases s) ∧ ∀ P, (x.step calls a).Entering P → P.card ≤ n

theorem step_place_of_ne {t' : ι} (h : t' ≠ t) : (x.step calls (.read t)).place t' = x.place t' :=
  Function.update_of_ne h ..

theorem step_enters (calls : ι → ReceivedCall w) (x : Readers ι w) (t : ι) :
    (calls t).Enters x.shared (x.place t) ((x.step calls (.read t)).place t) (x.step calls (.read t)).shared := by
  have hself : (x.step calls (.read t)).place t = ((calls t).next (x.place t) x.shared).1 := Function.update_self ..
  rw [hself]
  exact ReceivedCall.next_enters ..

theorem Bounded.read (h : x.Bounded max n calls) (hn : ∀ P, (x.step calls (.read t)).Entering P → P.card ≤ n) :
    (x.step calls (.read t)).Bounded max n calls := by
  have henters := step_enters calls x t
  have hothers : ∀ t' ≠ t, (x.step calls (.read t)).place t' = x.place t' := fun t' ht' => step_place_of_ne ht'
  generalize x.step calls (.read t) = y at *
  -- the others of those that are admitting a call did so before
  have hbefore : ∀ {P}, y.Entering P → x.Entering (P.erase t) := fun hP t' ht' =>
    hothers t' (Finset.ne_of_mem_erase ht') ▸ hP t' (Finset.mem_of_mem_erase ht')
  have hout : ∀ {P}, y.Entering P → (y.place t).entering = false → P.erase t = P := fun hP hno =>
    Finset.erase_eq_of_notMem fun ht => Bool.false_ne_true (hno.symm.trans (hP t ht))
  generalize hx : x.place t = a at henters
  generalize hy : y.place t = a' at henters hout
  generalize hs : y.shared = s' at henters
  cases henters with
  | known hk =>
    refine ⟨hs ▸ h.limit, fun P hP => (Finset.card_le_card ?_).trans (h.card_le _ (hbefore hP))⟩
    refine claimed_subset (hs ▸ fun _ => ongoing_mem_claimed _) fun t' ht' => ?_
    by_cases he : t' = t
    · rw [he]
      exact ongoing_mem_claimed _ hk
    · exact key_mem_claimed (Finset.mem_erase.2 ⟨he, ht'⟩)
  | fits hlt =>
    refine ⟨hs ▸ h.limit, fun P hP => ?_⟩
    by_cases ht : t ∈ P
    · -- there was room for one, and at most `n` are admitting a call
      have hcard : (y.claimed calls P).card ≤ x.shared.wire.ongoingProcedures.size + P.card := by
        refine (Finset.card_union_le ..).trans (Nat.add_le_add ?_ Finset.card_image_le)
        rw [AList.card_keySet, hs]
      have hpos := Finset.card_pos.2 ⟨t, ht⟩
      have hle := hn P hP
      rw [h.limit] at hlt
      omega
    · refine (Finset.card_le_card ?_).trans (h.card_le _ (hbefore hP))
      rw [Finset.erase_eq_of_notMem ht]
      exact claimed_subset (hs ▸ fun _ => ongoing_mem_claimed _) fun t' => key_mem_claimed
  | proceeds a a' s' hwire =>
    have hP' : ∀ {P}, y.Entering P → x.Entering P := by
      intro P hP t' ht'
      by_cases he : t' = t
      · rw [he, hx]; rfl
      · exact hothers t' he ▸ hP t' ht'
    refine ⟨by rw [hs, hwire]; exact h.limit, fun P hP => (Finset.card_le_card ?_).trans (h.card_le P (hP' hP))⟩
    refine claimed_subset ?_ fun t' => key_mem_claimed
    rw [hs, hwire]
    exact fun _ => ongoing_mem_claimed P
  | adds b =>
    refine ⟨hs ▸ h.limit, fun P hP => ?_⟩
    -- the call was claimed before it was added
    have hP' : x.Entering (insert t P) := by
      intro t' ht'
      by_cases he : t' = t
      · rw [he, hx]; rfl
      · exact hothers t' he ▸ hP t' (Finset.mem_of_mem_insert_of_ne ht' he)
    refine (Finset.card_le_card ?_).trans (h.card_le _ hP')
    refine claimed_subset ?_ fun t' ht' => key_mem_claimed (Finset.mem_insert_of_mem ht')
    rw [hs]
    intro k hk
    rcases (AList.mem_insert _).1 hk with rfl | hk
    · exact key_mem_claimed (Finset.mem_insert_self ..)
    · exact ongoing_mem_claimed _ hk
  | apart a a' s' ha ha' hrel =>
    refine ⟨by rw [hs, hrel.1]; exact h.limit, fun P hP => (Finset.card_le_card ?_).trans (h.card_le _ (hbefore hP))⟩
    rw [hout hP ha']
    exact claimed_subset (hs ▸ fun k hk => ongoing_mem_claimed P (hrel.2 k hk)) fun t' => key_mem_claimed

theorem Bounded.step (h : x.Bounded max n calls) {a : ReaderAction ι w} (ha : Allowed n calls x a) :
    (x.step calls a).Bounded max n calls := by
  cases a with
  | read t => exact h.read ha.2
  | other s =>
    have hrel := ha.1 s rfl
    refine ⟨(congrArg _ hrel.1).trans h.limit, fun P hP => (Finset.card_le_card ?_).trans (h.card_le P hP)⟩
    exact claimed_subset (fun k hk => ongoing_mem_claimed P (hrel.2 k hk)) fun t' => key_mem_claimed

/-! ### Runs of some of the readers -/

variable {ts : List ι} {s : Site w} {y z : Readers ι w}

/-- Steps of readers in `ts` lead from `x` to `y`. -/
def ReadBy (calls : ι → ReceivedCall w) (ts : List ι) (x y : Readers ι w) : Prop :=
  Reaches (step calls) (fun _ a => ∃ t ∈ ts, a = .read t) x y

theorem ReadBy.mono {ts' : List ι} (h : ReadBy calls ts x y) (hsub : ∀ t ∈ ts, t ∈ ts') : ReadBy calls ts' x y :=
  Reaches.mono h fun _ _ ⟨t, ht, he⟩ => ⟨t, hsub t ht, he⟩

/-- Steps of one reader in a row. -/
theorem readBy_leads {a : ReadPlace w} {s' : Site w} (ht : t ∈ ts)
    (h : (calls t).Leads (x.place t, x.shared) (a, s')) : ReadBy calls ts x ⟨s', Function.update x.place t a⟩ := by
  obtain ⟨k, hk⟩ := h
  induction k generalizing x with
  | zero =>
    obtain ⟨rfl, rfl⟩ := Prod.mk.inj hk
    rw [Function.update_eq_self]
    exact .start
  | succ k ih =>
    rw [Function.iterate_succ_apply] at hk
    have hstep : ReadBy calls ts x (x.step calls (.read t)) := .next .start ⟨t, ht, rfl⟩
    have hrest := ih (x := x.step calls (.read t)) (by simpa [step, Threads.step] using hk)
    simp only [step, Threads.step, Function.update_idem] at hrest
    exact Reaches.trans hstep hrest

/-- The other readers stay where they are. -/
theorem ReadBy.place_eq (h : ReadBy calls ts x y) (ht : t ∉ ts) : y.place t = x.place t := by
  induction h with
  | start => rfl
  | next _ ha ih =>
    obtain ⟨t', ht', rfl⟩ := ha
    exact (step_place_of_ne fun he => ht (by rwa [he])).trans ih

/-- Steps of as many readers are allowed. -/
theorem ReadBy.reaches (h : ReadBy calls ts (start s) x) :
    Reaches (step calls) (Allowed ts.length calls) (start s) x := by
  induction h with
  | start => exact .start
  | next hr ha ih =>
    refine .next ih ⟨fun _ he => ?_, fun P hP => ?_⟩
    · obtain ⟨t, -, rfl⟩ := ha
      cases he
    · -- only readers of the list are under way
      have hsub : P ⊆ ts.toFinset := fun t ht => by
        by_contra hno
        have hentering := hP t ht
        rw [place_eq (.next hr ha) fun hmem => hno (List.mem_toFinset.2 hmem)] at hentering
        exact Bool.false_ne_true hentering
      exact (Finset.card_le_card hsub).trans (List.toFinset_card_le ts)

/-- As long as one more call would be let through, any number of them are. -/
theorem readBy_let_through (hlt : x.shared.wire.ongoingProcedures.size < x.shared.wire.maxOngoingProcedures.toNat)
    (hts : ts.Nodup) (hplace : ∀ t ∈ ts, x.place t = .begin)
    (hkey : ∀ t ∈ ts, (calls t).key ∉ x.shared.wire.ongoingProcedures) :
    ∃ y, ReadBy calls ts x y ∧ y.shared = x.shared ∧ ∀ t ∈ ts, y.place t = .admitted .begin := by
  induction ts generalizing x with
  | nil => exact ⟨x, .start, rfl, nofun⟩
  | cons t ts ih =>
    obtain ⟨ht, hts⟩ := List.nodup_cons.1 hts
    have hleads : (calls t).Leads (.begin, x.shared) (.admitted .begin, x.shared) := by
      have hk := hkey t List.mem_cons_self
      refine .step .unknown x.shared (.step _ _ (.refl _ _) ?_) ?_
      · simp [ReceivedCall.next, ReceivedCall.advance, Nat.not_le_of_lt hlt]
      · simp [ReceivedCall.next, ReceivedCall.advance, hk]
    rw [← hplace t List.mem_cons_self] at hleads
    have hfirst := readBy_leads (List.mem_cons_self (l := ts)) hleads
    have hne : ∀ t' ∈ ts, t' ≠ t := fun t' ht' he => ht (he ▸ ht')
    obtain ⟨y, hy, hshared, hadmitted⟩ := ih (x := ⟨x.shared, Function.update x.place t (.admitted .begin)⟩) hlt hts
      (fun t' ht' => (Function.update_of_ne (hne t' ht') ..).trans (hplace t' (List.mem_cons_of_mem _ ht')))
      fun t' ht' => hkey t' (List.mem_cons_of_mem _ ht')
    refine ⟨y, Reaches.trans hfirst (hy.mono fun _ => List.mem_cons_of_mem _), hshared, fun t' ht' => ?_⟩
    rcases List.mem_cons.1 ht' with rfl | ht'
    · exact (hy.place_eq ht).trans (Function.update_self ..)
    · exact hadmitted t' ht'

/-- Calls that have been let through are added one after the other. -/
theorem readBy_add (hts : (ts.map fun t => (calls t).key).Nodup) (hplace : ∀ t ∈ ts, x.place t = .admitted .begin)
    (hkey : ∀ t ∈ ts, (calls t).key ∉ x.shared.wire.ongoingProcedures) :
    ∃ y, ReadBy calls ts x y ∧
      y.shared.wire.ongoingProcedures.size = x.shared.wire.ongoingProcedures.size + ts.length := by
  induction ts generalizing x with
  | nil => exact ⟨x, .start, rfl⟩
  | cons t ts ih =>
    obtain ⟨ht, hts⟩ := List.nodup_cons.1 hts
    have hne : ∀ t' ∈ ts, (calls t').key ≠ (calls t).key := fun t' ht' he => ht (List.mem_map.2 ⟨t', ht', he⟩)
    have hleads := (calls t).leads_admitted x.shared
    rw [← hplace t List.mem_cons_self] at hleads
    have hfirst := readBy_leads (List.mem_cons_self (l := ts)) hleads
    have hadd : ∀ k, k ∈ (x.shared.admitCall (calls t).procedureIdx (calls t).callIdx).wire.ongoingProcedures ↔
        k = (calls t).key ∨ k ∈ x.shared.wire.ongoingProcedures := fun k => AList.mem_insert _
    obtain ⟨y, hy, hsize⟩ := ih (x := ⟨_, Function.update x.place t _⟩) hts
      (fun t' ht' => (Function.update_of_ne (fun he => hne t' ht' (by rw [he])) ..).trans
        (hplace t' (List.mem_cons_of_mem _ ht')))
      fun t' ht' hmem => ((hadd _).1 hmem).elim (hne t' ht') (hkey t' (List.mem_cons_of_mem _ ht'))
    refine ⟨y, Reaches.trans hfirst (hy.mono fun _ => List.mem_cons_of_mem _), hsize.trans ?_⟩
    rw [List.length_cons]
    have hinsert : (x.shared.wire.ongoingProcedures.insert (calls t).key ()).size =
      x.shared.wire.ongoingProcedures.size + 1 := AList.size_insert_of_notMem (hkey t List.mem_cons_self)
    show (x.shared.wire.ongoingProcedures.insert (calls t).key ()).size + ts.length = _
    omega

/-- However many readers there are, the limit is exceeded by less than the number of calls that are being admitted at
one time; and from every state in which one more call fits, as many readers can exceed it by that much. -/
theorem ongoing_le_limit (hs : s.wire.ongoingProcedures.size ≤ s.wire.maxOngoingProcedures.toNat) :
    (∀ x, Reaches (step calls) (Allowed n calls) (start s) x →
      x.shared.wire.ongoingProcedures.size ≤ s.wire.maxOngoingProcedures.toNat + (n - 1)) ∧
    ∀ ts : List ι, ts.length = n → (ts.map fun t => (calls t).key).Nodup →
      (∀ t ∈ ts, (calls t).key ∉ s.wire.ongoingProcedures) →
      s.wire.ongoingProcedures.size + 1 = s.wire.maxOngoingProcedures.toNat →
      ∃ x, Reaches (step calls) (Allowed n calls) (start s) x ∧
        x.shared.wire.ongoingProcedures.size + 1 = s.wire.maxOngoingProcedures.toNat + n := by
  refine ⟨fun x hx => ?_, fun ts hlen hts hkey hroom => ?_⟩
  · have h : x.Bounded _ n calls := hx.invariant (start_bounded n calls hs) fun _ _ h ha => h.step ha
    have hcard := h.card_le ∅ nofun
    rwa [claimed, Finset.image_empty, Finset.union_empty, AList.card_keySet] at hcard
  · subst hlen
    obtain ⟨y, hy, hshared, hadmitted⟩ := readBy_let_through (x := start s)
      (hroom ▸ Nat.lt_succ_self _) (List.Nodup.of_map _ hts) (fun _ _ => rfl) hkey
    obtain ⟨z, hz, hsize⟩ := readBy_add hts hadmitted (by rwa [hshared])
    refine ⟨z, ReadBy.reaches (Reaches.trans hy hz), ?_⟩
    rw [hsize, hshared, ← hroom]
    show s.wire.ongoingProcedures.size + _ + 1 = _
    omega

/-- Two calls of one procedure on a wire for one ongoing procedure. -/
private def twoCalls (t : Fin 2) : ReceivedCall .u8 := ⟨⟨5⟩, ⟨t.val⟩, .none, [91]⟩

theorem ongoing_le_limit_two :
    ∃ x, Reaches (step twoCalls) (Allowed 2 twoCalls) (start ⟨.new, .new ⟨0⟩ false 1⟩) x ∧
      x.shared.wire.ongoingProcedures.size + 1 = 1 + 2 :=
  (ongoing_le_limit (Nat.zero_le _)).2 [0, 1] rfl (by decide) (by simp [Wire.new]) rfl

end Readers

end Ipfi
