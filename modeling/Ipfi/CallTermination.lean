import Ipfi.CallSteps
import Ipfi.Lib.Reach

/-!
# A call next to the end of its wire

`mark_terminated` sets the flag, drops the argument buffers and poisons the handles that are registered by then.  A call
checks the flag before it looks up its response buffer and registers its handle in the step after that; the handle is
poisoned unless the termination's sweep falls between these two steps and finds no other handle on the response.
-/

namespace Ipfi

variable {w : IntFeature}

/-- Where a thread is in `mark_terminated`. -/
inductive TerminationPlace
  | setFlag | dropArgs | poisonHandles | finished
  deriving DecidableEq

namespace TerminationPlace

/-- The place and the site after the next atomic step. -/
def next (a : TerminationPlace) (s : Site w) : TerminationPlace × Site w :=
  match a with
  | .setFlag => (.dropArgs, { s with wire := { s.wire with terminated := true } })
  | .dropArgs => (.poisonHandles, { s with
      interface := s.wire.ongoingProcedures.keys.foldl
        (fun i pc => i.dropAssociatedCallMessage (pc.1, pc.2, s.wire.id)) s.interface })
  | .poisonHandles => (.finished, s.poisonIdleCallHandles)
  | .finished => (.finished, s)

/-- Without other threads the steps are `mark_terminated`. -/
theorem next_alone (s : Site w) :
    (fun y : TerminationPlace × Site w => y.1.next y.2)^[3] (.setFlag, s) = (.finished, s.markTerminated) := rfl

end TerminationPlace

/-- A thread in a calling method and a thread in `mark_terminated` on clones of one wire. -/
structure ClosingCall (w : IntFeature) where
  site : Site w
  call : CallPlace w
  termination : TerminationPlace

namespace ClosingCall

inductive Actor
  | caller | terminator

def start (s : Site w) : ClosingCall w := ⟨s, .begin, .setFlag⟩

def step (checks : Bool) (m : CallMethod w) (x : ClosingCall w) : Actor → ClosingCall w
  | .caller => { x with
      call := (m.next checks x.call x.site).1
      site := (m.next checks x.call x.site).2 }
  | .terminator => { x with
      termination := (x.termination.next x.site).1
      site := (x.termination.next x.site).2 }

/-- The handles are not poisoned while the call has found its response buffer and has yet to register its handle, unless
the response needs no poison or gets it through another handle. -/
def SweepsApart (x : ClosingCall w) : Actor → Prop
  | .caller => True
  | .terminator => x.termination = .poisonHandles → ∀ c b, x.call = .register c b →
      ∀ l, x.site.interface.getCompleteLock b = some l →
        l ∈ x.site.wire.idleCallHandles.values ∨ x.site.interface.locks l ≠ .incomplete

/-- A handle is registered or its lock is no longer incomplete. -/
structure Covered (x : ClosingCall w) : Prop where
  flag : x.termination ≠ .setFlag → x.site.wire.terminated = true
  registering : ∀ {c b l}, x.call = .register c b → x.termination = .finished →
    x.site.interface.getCompleteLock b = some l → x.site.interface.locks l ≠ .incomplete
  registered : ∀ {c h}, x.call = .returned c (some h) → x.termination ≠ .finished →
    h.completeLock ∈ x.site.wire.idleCallHandles.values
  ended : ∀ {c h}, x.call = .returned c (some h) → x.termination = .finished →
    x.site.interface.locks h.completeLock ≠ .incomplete

variable {checks : Bool} {m : CallMethod w} {x : ClosingCall w}

private theorem Covered.caller (h : x.Covered) : (x.step checks m .caller).Covered := by
  have hmoves := CallMethod.next_moves checks m x.call x.site
  rcases x with ⟨s, a, d⟩
  simp only [step] at hmoves ⊢
  generalize (m.next checks a s).1 = a' at *
  generalize (m.next checks a s).2 = s' at *
  cases hmoves with
  | fails => exact ⟨h.flag, nofun, nofun, nofun⟩
  | begins => exact ⟨h.flag, by cases m <;> nofun, by cases m <;> nofun, by cases m <;> nofun⟩
  | queued => exact ⟨h.flag, by cases m <;> nofun, by cases m <;> nofun, by cases m <;> nofun⟩
  | found | missed | inserted | pushed | mapped => exact ⟨h.flag, nofun, nofun, nofun⟩
  | located hrun =>
    refine ⟨h.flag, fun _ hd _ => ?_, nofun, nofun⟩
    -- the flag is not yet set, so the termination has yet to poison the handles
    have := h.flag (by rw [hd]; nofun)
    rw [hrun] at this
    cases this
  | @registered c b l hl =>
    refine ⟨h.flag, nofun, fun hc _ => ?_, fun hc hd => ?_⟩
    · cases hc
      exact AList.mem_values.2 ⟨b, AList.lookup_insert _⟩
    · cases hc
      exact h.registering rfl hd hl
  | returned => exact h
  | failed => exact h

private theorem Covered.terminator (h : x.Covered) (ha : x.SweepsApart .terminator) :
    (x.step checks m .terminator).Covered := by
  rcases x with ⟨s, a, d⟩
  cases d with
  | setFlag => exact ⟨fun _ => rfl, nofun, fun hc _ => h.registered hc nofun, nofun⟩
  | dropArgs => exact ⟨fun _ => h.flag nofun, nofun, fun hc _ => h.registered hc nofun, nofun⟩
  | poisonHandles =>
    have hpoisons := fun l => Interface.foldl_poison_ne_incomplete (l := l) s.wire.idleCallHandles.values s.interface
    obtain ⟨locks, heq⟩ := Interface.foldl_poison_eq s.wire.idleCallHandles.values s.interface
    refine ⟨fun _ => h.flag nofun, fun {c b l} hc _ hl => hpoisons l (ha rfl c b hc l ?_), fun _ hd => absurd rfl hd,
      fun hc _ => hpoisons _ (.inl (h.registered hc nofun))⟩
    -- the sweep leaves the buffers alone
    rw [← hl]
    show _ = (s.wire.idleCallHandles.values.foldl Interface.poison s.interface).getCompleteLock b
    rw [heq]
    rfl
  | finished => exact h

/-- Once the termination has finished, no handle of the call is left incomplete. -/
theorem not_incomplete (s : Site w) (hx : Reaches (step checks m) SweepsApart (start s) x) {c : CallIndex w}
    {h : CallHandle w} (hcall : x.call = .returned c (some h)) (hd : x.termination = .finished) :
    x.site.interface.locks h.completeLock ≠ .incomplete := by
  have hstart : (start s).Covered := ⟨nofun, nofun, nofun, nofun⟩
  have hcovered : x.Covered := by
    refine hx.invariant hstart fun x a h ha => ?_
    cases a with
    | caller => exact h.caller
    | terminator => exact h.terminator ha
  exact hcovered.ended hcall hd

private def newWire : Site .u16 := ⟨.new, .new ⟨0⟩ false 4⟩

private def newCall : CallMethod .u16 := .callWithBytes ⟨1⟩ .empty

/-- The call and then the termination. -/
private def callFirst : ClosingCall .u16 :=
  [Actor.terminator, .terminator, .terminator].foldl (step true newCall)
    ((List.replicate 8 Actor.caller).foldl (step true newCall) (start newWire))

private theorem callFirst_reaches : Reaches (step true newCall) SweepsApart (start newWire) callFirst := by
  have hcall : Reaches (step true newCall) SweepsApart (start newWire)
      ((List.replicate 8 Actor.caller).foldl (step true newCall) (start newWire)) :=
    Reaches.start.foldl _ fun a ha s => by
      rw [List.eq_of_mem_replicate ha]
      trivial
  have hapart {x : ClosingCall .u16} {c h} (hx : x.call = .returned c h) : x.SweepsApart .terminator :=
    fun _ _ _ hr => by cases hx.symm.trans hr
  exact .next (.next (.next hcall (hapart rfl)) (hapart rfl)) (hapart rfl)

theorem not_incomplete_callFirst : callFirst.site.interface.locks 0 ≠ .incomplete :=
  not_incomplete newWire callFirst_reaches (c := ⟨0⟩) (h := ⟨0, 0⟩) rfl rfl

/-- The termination falls between the last two steps of the call. -/
theorem not_not_incomplete_between :
    ¬ ∀ x : ClosingCall .u16, Reaches (step true newCall) (fun _ _ => True) (start newWire) x →
      ∀ c h, x.call = .returned c (some h) → x.termination = .finished →
        x.site.interface.locks h.completeLock ≠ .incomplete := by
  intro h
  have hrun := (Reaches.start : Reaches (step true newCall) (fun _ _ => True) (start newWire) _).foldl
    (List.replicate 7 Actor.caller ++ [Actor.terminator, .terminator, .terminator, .caller]) fun _ _ _ => trivial
  exact h _ hrun ⟨0⟩ ⟨0, 0⟩ rfl rfl rfl

end ClosingCall

end Ipfi
