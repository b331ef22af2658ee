import Ipfi.Executions
import Ipfi.Lib.Reach

/-!
# One wire serving its peer

The system that a peer drives through one wire: it sends bytes, and the streaming executions it has started yield.  One
`receive_one` or one yield is one step.
-/

namespace Ipfi

variable {w : IntFeature}

namespace Site

inductive ServeAction (w : IntFeature)
  /-- `receive_one` on a reader with the given bytes. -/
  | receiveOne (reader : List UInt8)
  /-- One round of the loop in `fill`. -/
  | fillStep (reader : List UInt8)
  /-- The streaming execution `e` yields. -/
  | yield (e : Nat) (bytes : Payload) (t : Terminator)

def serveStep (s : Site w) : ServeAction w → Site w
  | .receiveOne reader => (Receiver.receiveOne.run ⟨s, reader⟩).state.site
  | .fillStep reader => (Receiver.fillStep.run ⟨s, reader⟩).state.site
  | .yield e bytes t =>
    match s.wire.executions[e]? with
    | some ⟨p, c, _, true, _⟩ => { s with wire := ((Wire.yielder p c e bytes t).run s.wire).state }
    | _ => s

/-- The message that an action makes the wire receive. -/
def ServeAction.message? (s : Site w) : ServeAction w → Option (Incoming w)
  | .receiveOne reader | .fillStep reader =>
    if s.wire.terminated then none
    else
      match (readMessage s.wire.moduleStyle : Op (Error w) _ _).run reader with
      | .ok m _ => some m
      | .error _ _ => none
  | .yield _ _ _ => none

theorem ServeAction.running_of_message? {s : Site w} {a : ServeAction w} {m : Incoming w} (h : a.message? s = some m) :
    s.wire.terminated = false := by
  by_contra ht
  cases a <;> simp [message?, ht] at h

/-- A wire that runs reads the message that stands first. -/
theorem ServeAction.message?_toBytes {s : Site w} {a : ServeAction w} (h : s.wire.terminated = false) {m : Message w}
    (hm : ∀ p c t b, m ≠ .response p c t b) (rest : List UInt8)
    (ha : a = .receiveOne (m.toBytes ++ rest) ∨ a = .fillStep (m.toBytes ++ rest)) : a.message? s = some m.incoming := by
  have hread := readMessage_toBytes s.wire.moduleStyle m rest fun _ => hm
  rcases ha with rfl | rfl <;> simp only [message?, h, hread, Bool.false_eq_true, if_false]

theorem receiveOne_site (s : Site w) (reader : List UInt8) :
    (Receiver.receiveOne.run ⟨s, reader⟩).state.site =
      match (ServeAction.receiveOne reader).message? s with
      | some m => ((receive m).run s).state
      | none => s := by
  cases ht : s.wire.terminated with
  | true => simp [Receiver.receiveOne, ServeAction.message?, ht]
  | false =>
    rw [Receiver.receiveOne_run s reader ht]
    simp only [ServeAction.message?, ht, Bool.false_eq_true, if_false]
    cases (readMessage s.wire.moduleStyle : Op (Error w) _ _).run reader with
    | error e reader' => rfl
    | ok m reader' => exact congrArg Receiver.site (EStateM.Result.state_mapState _ _)

/-- A round of `fill` receives the same message, and may terminate the wire then. -/
theorem fillStep_site (s : Site w) (reader : List UInt8) :
    let t := (Receiver.receiveOne.run ⟨s, reader⟩).state.site
    (Receiver.fillStep.run ⟨s, reader⟩).state.site = t ∨
      (Receiver.fillStep.run ⟨s, reader⟩).state.site = t.markTerminated := by
  rw [Receiver.fillStep_run]
  rcases Receiver.receiveOne.run ⟨s, reader⟩ with ⟨b, t⟩ | ⟨e, t⟩
  · exact .inl rfl
  · rw [Receiver.atEof_error]
    split
    · exact .inr rfl
    · exact .inl rfl

/-- What every call and response received, every termination and every yield establishes or keeps, every step does. -/
theorem serveStep_invariant {I : Site w → Prop} {s : Site w} {a : ServeAction w}
    (h : (∀ p c t bytes, a.message? s ≠ some (.call p c t bytes)) → I s)
    (hcall : ∀ p c t bytes, a.message? s = some (.call p c t bytes) → I ((receiveCall p c t bytes).run s).state)
    (hresponse : ∀ p c t bytes, a.message? s = some (.response p c t bytes) →
      I ((receiveResponse p c t bytes).run s).state)
    (hterm : ∀ s, I s → I s.markTerminated)
    (hyield : ∀ e p c args f bytes t, a = .yield e bytes t → s.wire.executions[e]? = some ⟨p, c, args, true, f⟩ →
      I { s with wire := ((Wire.yielder p c e bytes t).run s.wire).state }) : I (s.serveStep a) := by
  have hone : ∀ reader, a.message? s = (ServeAction.receiveOne reader).message? s →
      I (Receiver.receiveOne.run ⟨s, reader⟩).state.site := by
    intro reader ha
    rw [receiveOne_site, ← ha]
    cases hm : a.message? s with
    | none => exact h (by simp [hm])
    | some m =>
      cases m with
      | call p c t bytes => exact hcall p c t bytes hm
      | response p c t bytes => exact hresponse p c t bytes hm
      | endOfInput => exact h (by simp [hm])
      | termination => exact hterm s (h (by simp [hm]))
      | ignored => exact h (by simp [hm])
  cases a with
  | receiveOne reader => exact hone reader rfl
  | fillStep reader =>
    show I (Receiver.fillStep.run ⟨s, reader⟩).state.site
    rcases fillStep_site s reader with he | he
    · rw [he]; exact hone reader rfl
    · rw [he]; exact hterm _ (hone reader rfl)
  | yield e bytes t =>
    simp only [serveStep]
    split
    · exact hyield e _ _ _ _ bytes t rfl ‹_›
    · exact h (by simp [ServeAction.message?])

/-- What a step does with the message it receives, if any, before the wire may be terminated. -/
inductive Received (s : Site w) (a : ServeAction w) : Site w → Prop
  | nothing : (∀ p c t bytes, a.message? s ≠ some (.response p c t bytes)) → Received s a s
  | call (p : ProcedureIndex w) (c : CallIndex w) (t : Terminator) (bytes : List UInt8) :
      a.message? s = some (.call p c t bytes) → Received s a ((receiveCall p c t bytes).run s).state
  | response (p : ProcedureIndex w) (c : CallIndex w) (t : Terminator) (bytes : List UInt8) :
      a.message? s = some (.response p c t bytes) → Received s a ((receiveResponse p c t bytes).run s).state
  | yields (p : ProcedureIndex w) (c : CallIndex w) (e : Nat) (bytes : Payload) (t : Terminator) : a.message? s = none →
      Received s a { s with wire := ((Wire.yielder p c e bytes t).run s.wire).state }

private theorem receiveOne_received (s : Site w) (a : ServeAction w) (reader : List UInt8)
    (ha : a.message? s = (ServeAction.receiveOne reader).message? s) :
    (a.message? s = some .termination ∧ (Receiver.receiveOne.run ⟨s, reader⟩).state.site = s.markTerminated) ∨
      Received s a (Receiver.receiveOne.run ⟨s, reader⟩).state.site := by
  rw [receiveOne_site, ← ha]
  cases hm : a.message? s with
  | none => exact .inr (.nothing (by simp [hm]))
  | some m =>
    cases m with
    | call p c t bytes => exact .inr (.call p c t bytes hm)
    | response p c t bytes => exact .inr (.response p c t bytes hm)
    | endOfInput => exact .inr (.nothing (by simp [hm]))
    | termination => exact .inl ⟨rfl, rfl⟩
    | ignored => exact .inr (.nothing (by simp [hm]))

theorem serveStep_received (s : Site w) (a : ServeAction w) :
    ∃ t, Received s a t ∧ (s.serveStep a = t ∨ s.serveStep a = t.markTerminated) := by
  have hterm : a.message? s = some .termination → Received s a s := fun hm => .nothing (by simp [hm])
  cases a with
  | receiveOne reader =>
    rcases receiveOne_received s (.receiveOne reader) reader rfl with ⟨hm, he⟩ | hr
    · exact ⟨s, hterm hm, .inr he⟩
    · exact ⟨_, hr, .inl rfl⟩
  | fillStep reader =>
    rcases receiveOne_received s (.fillStep reader) reader rfl with ⟨hm, he⟩ | hr
    · -- a termination is received without an error
      refine ⟨s, hterm hm, .inr ?_⟩
      have hrun := ServeAction.running_of_message? hm
      simp only [ServeAction.message?, hrun, Bool.false_eq_true, if_false] at hm
      split at hm
      · rename_i hread
        obtain rfl := Option.some.inj hm
        show (Receiver.fillStep.run ⟨s, reader⟩).state.site = _
        rw [Receiver.fillStep_run, Receiver.receiveOne_run s reader hrun, hread]
        rfl
      · cases hm
    · exact ⟨_, hr, fillStep_site s reader⟩
  | yield e bytes t =>
    simp only [serveStep]
    split
    · exact ⟨_, .yields _ _ e bytes t rfl, .inl rfl⟩
    · exact ⟨s, .nothing (by simp [ServeAction.message?]), .inl rfl⟩

/-- Whether a round of `fill` ends the wire or not, the executions are those after the message. -/
theorem serveStep_executions {s : Site w} {a : ServeAction w} {p : ProcedureIndex w} {c : CallIndex w}
    {t : Terminator} {bytes : List UInt8} (hm : a.message? s = some (.call p c t bytes)) :
    (s.serveStep a).wire.executions = ((Site.receiveCall p c t bytes).run s).state.wire.executions := by
  have hone : ∀ reader, (ServeAction.receiveOne reader).message? s = some (.call p c t bytes) →
      (Receiver.receiveOne.run ⟨s, reader⟩).state.site.wire.executions =
        ((Site.receiveCall p c t bytes).run s).state.wire.executions := by
    intro reader hr
    rw [receiveOne_site, hr]
    rfl
  cases a with
  | receiveOne reader => exact hone reader hm
  | fillStep reader =>
    show (Receiver.fillStep.run ⟨s, reader⟩).state.site.wire.executions = _
    rcases fillStep_site s reader with he | he <;> rw [he]
    · exact hone reader hm
    · exact hone reader hm
  | yield e bytes t => cases hm

/-- A terminated wire does nothing. -/
theorem serveStep_of_terminated {s : Site w} (h : s.wire.terminated = true) (a : ServeAction w) :
    s.serveStep a = s := by
  cases a with
  | receiveOne reader => simp [serveStep, Receiver.receiveOne, h]
  | fillStep reader =>
    simp only [serveStep, Receiver.fillStep_run]
    simp [Receiver.receiveOne, Receiver.atEof, h]
  | yield e bytes t =>
    simp only [serveStep]
    split
    · simp [Wire.yielder, h]
    · rfl

theorem serveStep_follows {R : Interface w → Interface w → Prop} [IsPreorder _ R] (hR : Interface.Operates R)
    (s : Site w) (a : ServeAction w) : Follows R Wire.fixed s (s.serveStep a) := by
  refine serveStep_invariant (fun _ => refl_of (Follows R Wire.fixed) s)
    (fun p c t bytes _ => receive_follows hR (.call p c t bytes) s)
    (fun p c t bytes _ => receive_follows hR (.response p c t bytes) s)
    (fun s' hs' => trans_of (Follows R Wire.fixed) hs' (markTerminated_follows hR s'))
    fun e p c args f bytes t _ _ => ?_
  exact ⟨refl_of R _, congrArg (fun x => x.1.1) (yielder_calling p c e bytes t s.wire)⟩

theorem serveStep_fixed (s : Site w) (a : ServeAction w) : Follows Interface.Later Wire.fixed s (s.serveStep a) :=
  serveStep_follows Interface.later_serves.operates s a

end Site

end Ipfi
