import Ipfi.CallBranch

/-!
# Responses on a module-style wire

A module-style wire passes over the type byte of a response and takes the next byte for a type byte.  So a response is
ignored as a whole exactly when its body consists of bytes that are not the type byte of a message.
-/

namespace Ipfi

variable {w : IntFeature}

/-- A byte at which a module-style wire finds no message. -/
abbrev PassedOver (b : UInt8) : Prop := b ≠ 0 ∧ b ≠ 1 ∧ b ≠ 3

def Message.isResponse : Message w → Bool
  | response _ _ _ _ => true
  | _ => false

/-- Of the messages that `fill` gets to, every response has a body of bytes that are passed over.  On a wire that has
been terminated it gets to none. -/
def ResponsesPassedOver : List (Message w) → Site w → Prop
  | [], _ => True
  | .response p c t b :: ms, s =>
    (s.wire.terminated = false → ∀ x ∈ Message.body p c t b, PassedOver x) ∧ ResponsesPassedOver ms s
  | m :: ms, s => ∀ r s', (Site.receive m.incoming).run s = .ok (some r) s' → ResponsesPassedOver ms s'

namespace Receiver

/-- What reading an input does to a wire and its interface, and what it returns. -/
def effect {α : Type} (r : EStateM.Result (Stop (Error w)) (Receiver w) α) :
    EStateM.Result (Stop (Error w)) (Site w) α :=
  r.mapState site

/-! ### Passing over bytes -/

theorem readMessage_passedOver {b : UInt8} (hb : PassedOver b) (rest : List UInt8) :
    (readMessage true : Op (Error w) _ _).run (b :: rest) = .ok .ignored rest := by
  obtain ⟨h0, h1, h3⟩ := hb
  rw [readMessage, EStateM.run_bind_ok (readExact_cons b rest)]
  simp only [List.headD_cons]
  split <;> first | contradiction | rfl

theorem rounds_passedOver {t : Site w} (hm : t.wire.moduleStyle = true) (ht : t.wire.terminated = false)
    {bytes : List UInt8} (hb : ∀ b ∈ bytes, PassedOver b) (rest : List UInt8) :
    rounds ⟨t, bytes ++ rest⟩ = rounds ⟨t, rest⟩ := by
  induction bytes with
  | nil => rfl
  | cons b bytes ih =>
    have hstep : fillStep.run ⟨t, b :: (bytes ++ rest)⟩ = .ok (some false) ⟨t, bytes ++ rest⟩ := by
      rw [fillStep_run, receiveOne_run t _ ht, hm, readMessage_passedOver (hb b (by simp))]
      rfl
    rw [List.cons_append, rounds_eq, hstep]
    exact ih fun b' hb' => hb b' (by simp [hb'])

theorem rounds_response {t : Site w} (hm : t.wire.moduleStyle = true) (ht : t.wire.terminated = false)
    {p : ProcedureIndex w} {c : CallIndex w} {tm : Terminator} {b : Payload}
    (hb : ∀ x ∈ Message.body p c tm b, PassedOver x) (rest : List UInt8) :
    rounds ⟨t, (Message.response p c tm b).toBytes ++ rest⟩ = rounds ⟨t, rest⟩ := by
  refine rounds_passedOver hm ht (fun x hx => ?_) rest
  rcases List.mem_cons.1 hx with rfl | hx
  · decide
  · exact hb x hx

/-! ### Sequences of messages -/

/-- Rounds on a message that is received in full, for two inputs that go on with the same effect. -/
theorem effect_rounds_message {t : Site w} (ht : t.wire.terminated = false)
    {m : Message w} (hr : m.isResponse = false) {rest rest' : List UInt8}
    (hrest : ∀ b t', (Site.receive m.incoming).run t = .ok (some b) t' →
      effect (rounds ⟨t', rest⟩) = effect (rounds ⟨t', rest'⟩)) :
    effect (rounds ⟨t, m.toBytes ++ rest⟩) = effect (rounds ⟨t, m.toBytes ++ rest'⟩) := by
  have hne : t.wire.moduleStyle = true → ∀ p c tm b, m ≠ .response p c tm b := by
    rintro - p c tm b rfl; cases hr
  rw [rounds_eq, rounds_eq, fillStep_message t m rest ht hne, fillStep_message t m rest' ht hne]
  rcases hres : (Site.receive m.incoming).run t with ⟨_ | b, t'⟩ | ⟨e, t'⟩
  · rfl
  · exact hrest b t' hres
  · simp only [EStateM.Result.mapState_error, atEof_error, effect]

/-- The messages of a sequence that are not responses. -/
def dropResponses (ms : List (Message w)) : List (Message w) := ms.filter fun m => !m.isResponse

theorem effect_rounds {t : Site w} (hm : t.wire.moduleStyle = true) (ht : t.wire.terminated = false)
    {ms : List (Message w)} (h : ResponsesPassedOver ms t) :
    effect (rounds ⟨t, encode ms⟩) = effect (rounds ⟨t, encode (dropResponses ms)⟩) := by
  induction ms generalizing t with
  | nil => rfl
  | cons m ms ih =>
    cases hr : m.isResponse with
    | true =>
      obtain ⟨p, c, tm, b, rfl⟩ : ∃ p c tm b, m = .response p c tm b := by
        cases m <;> simp [Message.isResponse] at hr ⊢
      rw [show dropResponses (.response p c tm b :: ms) = dropResponses ms from rfl, encode_cons,
        rounds_response hm ht (h.1 ht)]
      exact ih hm ht h.2
    | false =>
      have hd : dropResponses (m :: ms) = m :: dropResponses ms := by simp [dropResponses, hr]
      rw [hd, encode_cons, encode_cons]
      refine effect_rounds_message ht hr fun b t' hres => ?_
      have hp := Site.receive_passive hres
      apply ih (hp.fixed_of_passive.moduleStyle.trans hm) (hp.terminated.trans ht)
      cases m with
      | response => cases hr
      | call p c tm args => exact h b t' hres
      | endOfInput => exact h b t' hres
      | termination => exact h b t' hres

theorem effect_fill {t : Site w} (hm : t.wire.moduleStyle = true) {ms : List (Message w)}
    (h : ResponsesPassedOver ms t) :
    effect (fill.run ⟨t, encode ms⟩) = effect (fill.run ⟨t, encode (dropResponses ms)⟩) := by
  cases ht : t.wire.terminated with
  | true => simp [fill, ht, effect]
  | false => rw [fill_run _ ht, fill_run _ ht, effect_rounds hm ht h]

/-! ### Bodies that are not passed over -/

/-- A wire made by `new_module` on an interface of its own. -/
def moduleSite : Site w := ⟨.new, .new ⟨0⟩ true 1⟩

private theorem exists_first {bytes : List UInt8} (h : ¬ ∀ b ∈ bytes, PassedOver b) :
    ∃ pre b post, bytes = pre ++ b :: post ∧ (∀ x ∈ pre, PassedOver x) ∧ (b = 0 ∨ b = 1 ∨ b = 3) := by
  induction bytes with
  | nil => simp at h
  | cons b bytes ih =>
    by_cases hb : PassedOver b
    · obtain ⟨pre, b', post, rfl, hpre, hb'⟩ := ih fun hall => h (by simpa using ⟨hb, hall⟩)
      exact ⟨b :: pre, b', post, rfl, by simpa using ⟨hb, hpre⟩, hb'⟩
    · refine ⟨[], b, bytes, rfl, by simp, ?_⟩
      simp only [PassedOver] at hb
      tauto

/-- A call that is admitted allocates a message, whose lock stays. -/
private theorem receiveCall_lockCount (p : ProcedureIndex w) (c : CallIndex w) (tm : Terminator) (bytes : List UInt8) :
    0 < ((Site.receiveCall p c tm bytes).run moduleSite).state.interface.lockCount := by
  have hmax : ¬ (moduleSite : Site w).Rejects p c := by
    rintro ⟨-, h⟩
    revert h
    cases w <;> decide
  have hadmitted : ((moduleSite : Site w).admitCall p c).interface.lockCount = 1 := rfl
  rw [Site.receiveCall_run, if_neg hmax]
  have := (Site.acceptCall_follows Interface.later_serves.operates p c tm bytes (moduleSite.bufferOf p c)
    (moduleSite.admitCall p c)).1.lockCount
  omega

private theorem rounds_call_ne {reader reader' : List UInt8} {p : ProcedureIndex w} {c : CallIndex w} {tm : Terminator}
    {bytes : List UInt8} (hr : (readMessage true).run reader = .ok (.call p c tm bytes) reader') :
    effect (rounds ⟨(moduleSite : Site w), reader⟩) ≠ .ok () moduleSite := by
  intro he
  have hl := receiveCall_lockCount p c tm bytes
  have hstep : fillStep.run ⟨moduleSite, reader⟩ =
      atEof (((Site.receiveCall p c tm bytes).run moduleSite).mapState fun t => ⟨t, reader'⟩) := by
    rw [fillStep_run, receiveOne_run moduleSite reader rfl, show moduleSite.wire.moduleStyle = true from rfl, hr]
    rfl
  rw [rounds_eq, hstep] at he
  rcases hres : (Site.receiveCall p c tm bytes).run moduleSite with ⟨_ | b, t'⟩ | ⟨e, t'⟩
  · rw [hres] at he hl
    cases he
    exact absurd hl (Nat.lt_irrefl 0)
  · rw [hres] at he hl
    have hlater : (⟨t', reader'⟩ : Receiver w).Advances ((fillLoop (reader'.length + 1)).run ⟨t', reader'⟩).state :=
      fillLoop_advances (reader'.length + 1) _
    simp only [EStateM.Result.mapState_ok, atEof_ok, effect] at he
    have hs := congrArg EStateM.Result.state he
    simp only [EStateM.Result.state_mapState, EStateM.Result.state_ok] at hs
    have hlt := lt_of_lt_of_le hl hlater.1.lockCount
    rw [show (fillLoop (reader'.length + 1)).run _ = rounds ⟨t', reader'⟩ from rfl, hs] at hlt
    exact absurd hlt (Nat.lt_irrefl 0)
  · rw [hres] at he
    simp [effect, atEof_error] at he

private theorem rounds_one_ne (rest : List UInt8) :
    effect (rounds ⟨(moduleSite : Site w), 1 :: rest⟩) ≠ .ok () moduleSite := by
  rcases hb : (readBody : Op (Error w) _ _).run rest with ⟨⟨p, c, t, bytes⟩, rest'⟩ | ⟨e, rest'⟩
  · have hr : (readMessage true : Op (Error w) _ _).run (1 :: rest) = .ok (.call p c t bytes) rest' := by
      simp [readMessage, readExact_cons, hb]
    exact rounds_call_ne hr
  · have hr : (readMessage true : Op (Error w) _ _).run (1 :: rest) = .error e rest' := by
      simp [readMessage, readExact_cons, hb]
    rw [rounds_eq, fillStep_run, receiveOne_run moduleSite _ rfl, show moduleSite.wire.moduleStyle = true from rfl, hr]
    simp [atEof_error, effect]

/-- A body with a byte that is not passed over is told apart from nothing by what follows it. -/
theorem exists_effect_ne {bytes : List UInt8} (h : ¬ ∀ b ∈ bytes, PassedOver b) :
    ∃ rest, effect (rounds ⟨(moduleSite : Site w), bytes ++ rest⟩) ≠ effect (rounds ⟨moduleSite, rest⟩) := by
  have hend (rest : List UInt8) : effect (rounds ⟨(moduleSite : Site w), 3 :: rest⟩) = .ok () moduleSite := by
    rw [rounds_endOfInput rfl]; rfl
  obtain ⟨pre, b, post, rfl, hpre, rfl | rfl | rfl⟩ := exists_first h
  · refine ⟨[3], ?_⟩
    rw [List.append_assoc, rounds_passedOver rfl rfl hpre, List.cons_append, rounds_termination rfl, hend]
    intro he
    have : true = false := congrArg (fun r => r.state.wire.terminated) he
    cases this
  · refine ⟨[3], ?_⟩
    rw [List.append_assoc, rounds_passedOver rfl rfl hpre, List.cons_append, hend]
    exact rounds_one_ne _
  · refine ⟨[], ?_⟩
    rw [List.append_assoc, rounds_passedOver rfl rfl hpre, List.cons_append, hend, rounds_nil rfl]
    simp [effect]

/-- A response can stand before any input unnoticed exactly if its body is passed over. -/
theorem fill_response_iff (p : ProcedureIndex w) (c : CallIndex w) (tm : Terminator) (b : Payload) :
    (∀ (t : Site w) rest, t.wire.moduleStyle = true →
      effect (fill.run ⟨t, (Message.response p c tm b).toBytes ++ rest⟩) = effect (fill.run ⟨t, rest⟩)) ↔
    ∀ x ∈ Message.body p c tm b, PassedOver x := by
  constructor
  · intro h
    by_contra hb
    obtain ⟨rest, hne⟩ := exists_effect_ne (w := w) hb
    apply hne
    have := h moduleSite rest rfl
    rw [fill_run _ rfl, fill_run _ rfl, show (Message.response p c tm b).toBytes ++ rest =
      [2] ++ (Message.body p c tm b ++ rest) from rfl, rounds_passedOver rfl rfl (by simp [PassedOver])] at this
    exact this
  · intro hb t rest hm
    cases ht : t.wire.terminated with
    | true => simp [fill, ht, effect]
    | false => rw [fill_run _ ht, fill_run _ ht, rounds_response hm ht hb]

/-- Reading a sequence of messages on a module-style wire has the effect of reading it without its responses if the
bodies of the responses are passed over, and a response with any other body is noticed before some input. -/
theorem fill_module :
    (∀ (t : Site w) (ms : List (Message w)), t.wire.moduleStyle = true → ResponsesPassedOver ms t →
      effect (fill.run ⟨t, encode ms⟩) = effect (fill.run ⟨t, encode (dropResponses ms)⟩)) ∧
    ∀ (p : ProcedureIndex w) (c : CallIndex w) (tm : Terminator) (b : Payload),
      (∀ (t : Site w) rest, t.wire.moduleStyle = true →
        effect (fill.run ⟨t, (Message.response p c tm b).toBytes ++ rest⟩) = effect (fill.run ⟨t, rest⟩)) ↔
      ∀ x ∈ Message.body p c tm b, PassedOver x :=
  ⟨fun _ _ hm h => effect_fill hm h, fill_response_iff⟩

/-- A response of seven bytes that are all passed over. -/
theorem fill_module_passedOver :
    let ms : List (Message .u32) := [.response ⟨5⟩ ⟨6⟩ .complete ⟨[7, 8], by decide⟩, .endOfInput]
    effect (fill.run ⟨(moduleSite : Site .u32), encode ms⟩) =
      effect (fill.run ⟨(moduleSite : Site .u32), encode (dropResponses ms)⟩) :=
  fill_module.1 moduleSite _ rfl ⟨fun _ => by decide +kernel, fun _ _ _ => trivial⟩

/-- The multiflag of a partial response with small indices is a zero byte, which terminates the wire. -/
theorem fill_module_terminated :
    ¬ ∀ ms : List (Message .u32),
      effect (fill.run ⟨(moduleSite : Site .u32), encode ms⟩) =
      effect (fill.run ⟨(moduleSite : Site .u32), encode (dropResponses ms)⟩) := by
  intro h
  have := congrArg (fun r => r.state.wire.terminated) (h [.response ⟨5⟩ ⟨5⟩ .none ⟨[7], by decide⟩, .endOfInput])
  exact absurd this (by decide +kernel)

end Receiver

end Ipfi
