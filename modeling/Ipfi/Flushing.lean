import Ipfi.Framing

/-!
# Flushing into a writer that fails

`flush_partial` takes a message off the queue before it writes it.  A message that the writer refuses is on neither side
afterwards, and the next flush goes on behind it.
-/

namespace Ipfi

variable {w : IntFeature}

/-- An output stream, with the bytes it has accepted so far. -/
structure Writer (w : IntFeature) where
  State : Type
  writeAll : List UInt8 → Op (Error w) State Unit
  flush : Op (Error w) State Unit
  accepted : State → List UInt8
  /-- What is written without an error is accepted as a whole. -/
  writeAll_ok : ∀ {bytes s s'}, (writeAll bytes).run s = .ok () s' → accepted s' = accepted s ++ bytes
  flush_accepted : ∀ s, accepted (flush.run s).state = accepted s

namespace Writer

variable {W W' : Writer w}

/-- Writing the messages fails at one of them, of which nothing is accepted. -/
inductive Refuses (W : Writer w) : List (List UInt8) → W.State → Error w → W.State → Prop
  | here {msgBytes : List UInt8} {rest : List (List UInt8)} {s s' : W.State} {e : Error w} :
      (W.writeAll msgBytes).run s = .error (.error e) s' → W.accepted s' = W.accepted s →
      Refuses W (msgBytes :: rest) s e s'
  | later {msgBytes : List UInt8} {rest : List (List UInt8)} {s s' s'' : W.State} {e : Error w} :
      (W.writeAll msgBytes).run s = .ok () s' → Refuses W rest s' e s'' → Refuses W (msgBytes :: rest) s e s''

end Writer

namespace Wire

open Writer (Refuses)

variable {W W' : Writer w} {x x' : Wire w} {queue : List (List UInt8)}

theorem flushLoop_cons (writeAll : List UInt8 → Op (Error w) W.State Unit) (msgBytes : List UInt8)
    (rest : List (List UInt8)) (x : Wire w) (s : W.State) :
    (flushLoop writeAll (msgBytes :: rest)).run (x, s) = match (writeAll msgBytes).run s with
      | .ok _ s' => (flushLoop writeAll rest).run ({ x with queue := rest }, s')
      | .error e s' => .error e ({ x with queue := rest }, s') := by
  simp only [flushLoop, EStateM.run_bind, EStateM.run_modify, EStateM.run_zoom]
  cases (writeAll msgBytes).run s <;> rfl

/-- The refused message is on neither side. -/
theorem flushLoop_refused {s s' : W.State} {e : Error w} (h : W.Refuses queue s e s') (x : Wire w) :
    ∃ pre msgBytes post, queue = pre ++ msgBytes :: post ∧
      (flushLoop W.writeAll queue).run (x, s) = .error (.error e) ({ x with queue := post }, s') ∧
      W.accepted s' = W.accepted s ++ pre.flatten := by
  induction h generalizing x with
  | @here msgBytes rest s s' e hr ha =>
    refine ⟨[], msgBytes, rest, rfl, ?_, by simpa using ha⟩
    rw [flushLoop_cons, hr]
  | @later msgBytes rest s s' s'' e hr _ ih =>
    obtain ⟨pre, b, post, rfl, hrun, ha⟩ := ih { x with queue := rest }
    refine ⟨msgBytes :: pre, b, post, rfl, ?_, ?_⟩
    · rw [flushLoop_cons, hr]
      exact hrun
    · rw [ha, W.writeAll_ok hr, List.flatten_cons, List.append_assoc]

theorem flushLoop_ok {s : W.State} {t : Wire w × W.State}
    (h : (flushLoop W.writeAll queue).run (x, s) = .ok () t) : W.accepted t.2 = W.accepted s ++ queue.flatten := by
  induction queue generalizing x s with
  | nil => cases h; simp
  | cons msgBytes rest ih =>
    rw [flushLoop_cons] at h
    cases hr : (W.writeAll msgBytes).run s with
    | error e s' => rw [hr] at h; cases h
    | ok u s' =>
      rw [hr] at h
      rw [ih h, W.writeAll_ok hr, List.flatten_cons, List.append_assoc]

theorem flushPartial_refused {s s' : W.State} {e : Error w} (hrun : x.terminated = false)
    (h : W.Refuses x.queue s e s') :
    ∃ pre msgBytes post, x.queue = pre ++ msgBytes :: post ∧
      (flushPartial W.writeAll W.flush).run (x, s) = .error (.error e) ({ x with queue := post }, s') ∧
      W.accepted s' = W.accepted s ++ pre.flatten := by
  obtain ⟨pre, msgBytes, post, hqueue, hloop, ha⟩ := flushLoop_refused h x
  refine ⟨pre, msgBytes, post, hqueue, ?_, ha⟩
  rw [flushPartial]
  simp [hrun, hloop]

theorem flushPartial_ok {s : W.State} {t : Wire w × W.State}
    (h : (flushPartial W.writeAll W.flush).run (x, s) = .ok () t) :
    W.accepted t.2 = W.accepted s ++ x.queue.flatten := by
  have hrun : x.terminated = false := by
    by_contra hterm
    simp [flushPartial, Bool.of_not_eq_false hterm] at h
  cases hloop : (flushLoop W.writeAll x.queue).run (x, s) with
  | error e t' => simp [flushPartial, hrun, hloop] at h
  | ok u t' =>
    have hflush := W.flush_accepted t'.2
    cases hf : W.flush.run t'.2 with
    | error e s' => simp [flushPartial, hrun, hloop, hf] at h
    | ok u' s' =>
      simp [flushPartial, hrun, hloop, hf] at h
      rw [hf] at hflush
      rw [← h]
      exact hflush.trans (flushLoop_ok hloop)

/-- Whatever a later flush writes without an error, a message of the queue is missing from what the two have written. -/
theorem flushPartial_retry {ms : List (Message w)} (hq : x.queue = ms.map Message.toBytes) (hrun : x.terminated = false)
    {s s' : W.State} {e : Error w} (h : W.Refuses x.queue s e s') :
    ∃ x', (flushPartial W.writeAll W.flush).run (x, s) = .error (.error e) (x', s') ∧
      ∀ (W' : Writer w) t t', (flushPartial W'.writeAll W'.flush).run (x', t) = .ok () t' →
        ∀ out out', W.accepted s' = W.accepted s ++ out → W'.accepted t'.2 = W'.accepted t ++ out' →
          out ++ out' ≠ encode ms := by
  obtain ⟨pre, msgBytes, post, hqueue, hr, ha⟩ := flushPartial_refused hrun h
  refine ⟨_, hr, fun W' t t' hr' out out' hout hout' heq => ?_⟩
  have hpre : out = pre.flatten := List.append_cancel_left (hout.symm.trans ha)
  have hpost : out' = post.flatten := List.append_cancel_left (hout'.symm.trans (flushPartial_ok hr'))
  have hne : msgBytes ≠ [] := by
    have hmem : msgBytes ∈ ms.map Message.toBytes := by rw [← hq, hqueue]; simp
    obtain ⟨m, -, rfl⟩ := List.mem_map.1 hmem
    exact m.toBytes_ne_nil
  rw [encode, ← hq, hqueue, hpre, hpost, List.flatten_append, List.flatten_cons, List.append_cancel_left_eq] at heq
  exact hne (List.append_left_eq_self.1 heq.symm)

/-! ### A writer that would block -/

/-- A writer that takes everything once it is ready, and would block before. -/
private def readied : Writer .u32 where
  State := Bool × List UInt8
  writeAll bytes := do
    if (← get).1 then modify fun s => (s.1, s.2 ++ bytes) else throw (.error (.ioError .other))
  flush := pure ()
  accepted := Prod.snd
  writeAll_ok := by
    rintro bytes ⟨_ | _, out⟩ s' h
    · cases h
    · cases h; rfl
  flush_accepted _ := rfl

private def endQueued : Wire .u32 := (Wire.new ⟨0⟩ false 10).pushMessage .endOfInput

private theorem endQueued_refused : readied.Refuses endQueued.queue (false, []) (.ioError .other) (false, []) :=
  .here rfl rfl

theorem flushPartial_retry_endOfInput :
    (flushPartial readied.writeAll readied.flush).run (endQueued, (false, [])) =
        .error (.error (.ioError .other)) ({ endQueued with queue := [] }, (false, [])) ∧
      [] ++ [] ≠ encode [(.endOfInput : Message .u32)] := by
  have hqueue : endQueued.queue = [(.endOfInput : Message .u32)].map Message.toBytes := rfl
  obtain ⟨x', hr, hlost⟩ := flushPartial_retry hqueue rfl endQueued_refused
  cases hr
  exact ⟨rfl, hlost readied (true, []) _ rfl [] [] rfl rfl⟩

/-- The end of input is lost when the writer is not ready for it. -/
theorem not_flushPartial_retry :
    ¬ ∀ (W : Writer .u32) (x x' : Wire .u32) (s s' : W.State) (e : Error .u32), W.Refuses x.queue s e s' →
      (flushPartial W.writeAll W.flush).run (x, s) = .error (.error e) (x', s') →
      ∀ t t', (flushPartial W.writeAll W.flush).run (x', t) = .ok () t' →
      ∀ out out', W.accepted s' = W.accepted s ++ out → W.accepted t'.2 = W.accepted t ++ out' →
        out ++ out' = x.queue.flatten := by
  intro h
  have hlost := h readied endQueued { endQueued with queue := [] } (false, []) (false, []) _ endQueued_refused rfl
    (true, []) _ rfl [] [] rfl rfl
  cases hlost

end Wire

end Ipfi
