import Ipfi.Flushing
import Ipfi.Lib.Threads
import Mathlib.Logic.Relation

/-!
# Flushing next to other threads

The clones of a wire share one queue.  Any number of threads put messages on it while any number of others flush it,
each into an output stream of its own.  A message is written as a whole by the one thread that has taken it, so the
messages in one stream never mix, whatever the threads do.
-/

namespace Ipfi

variable {w : IntFeature}

/-- An output stream that has accepted a first part of what it fails to take. -/
structure Stream (w : IntFeature) extends Writer w where
  writeAll_error : ∀ {bytes : List UInt8} {s s' : State} {e : Stop (Error w)}, (writeAll bytes).run s = .error e s' →
    ∃ n, accepted s' = accepted s ++ bytes.take n

namespace Stream

/-- A stream that grows with what is written. -/
def vec : Stream w where
  State := List UInt8
  writeAll bytes := modify (· ++ bytes)
  flush := pure ()
  accepted out := out
  writeAll_ok h := by cases h; rfl
  flush_accepted _ := rfl
  writeAll_error h := by cases h

/-- A stream with room for `n` bytes, which is filled up by the write that fails. -/
def slice (n : Nat) : Stream w where
  State := List UInt8
  writeAll bytes := do
    let out ← get
    set (out ++ bytes.take (n - out.length))
    if n < out.length + bytes.length then throw (.error (.ioError .other))
  flush := pure ()
  accepted out := out
  writeAll_ok := by
    intro bytes out out' h
    by_cases hroom : n < out.length + bytes.length
    · simp [hroom] at h
    · have htake : bytes.take (n - out.length) = bytes := List.take_of_length_le (by omega)
      simp only [EStateM.run_bind, EStateM.run_get, EStateM.run_set, hroom, if_false, htake] at h
      cases h
      rfl
  flush_accepted _ := rfl
  writeAll_error := by
    intro bytes out out' e h
    refine ⟨n - out.length, ?_⟩
    by_cases hroom : n < out.length + bytes.length
    · simp only [EStateM.run_bind, EStateM.run_get, EStateM.run_set, hroom, if_true] at h
      cases h
      rfl
    · simp [hroom] at h

/-- No write and no flush fails. -/
structure Willing (W : Stream w) : Prop where
  writes : ∀ bytes out, ∃ out', (W.writeAll bytes).run out = .ok () out'
  flushes : ∀ out, ∃ out', W.flush.run out = .ok () out'

theorem vec_willing : (vec : Stream w).Willing where
  writes bytes out := ⟨List.append out bytes, rfl⟩
  flushes out := ⟨out, rfl⟩

end Stream

/-- What a thread does with the queue of a wire. -/
inductive QueueRole (w : IntFeature)
  /-- The step of a method or of a yielder that queues its message. -/
  | push (m : Message w)
  /-- Calls `flush_partial` again and again for as long as it succeeds. -/
  | flush
  /-- The step of a termination that sets the flag. -/
  | terminate

/-- Where a thread is, with its output stream. -/
inductive FlushPlace (σ : Type)
  /-- At the start of `flush_partial`, or of a thread that does not flush. -/
  | check (out : σ)
  | pop (out : σ)
  /-- The message has been taken off the queue and is yet to be written. -/
  | write (out : σ) (msgBytes : List UInt8)
  /-- The queue was empty; before the stream is flushed. -/
  | flush (out : σ)
  | ended (out : σ)

namespace FlushPlace

variable {σ : Type}

/-- The output stream of the thread. -/
def out : FlushPlace σ → σ
  | check out | pop out | write out _ | flush out | ended out => out

/-- The steps after which a thread that flushes comes to take a message off the queue. -/
def toPop : FlushPlace σ → Nat
  | check _ | write _ _ => 1
  | flush _ => 2
  | pop _ | ended _ => 0

def Running : FlushPlace σ → Prop
  | ended _ => False
  | _ => True

/-- The thread has a message in hand. -/
def Writes : FlushPlace σ → Prop
  | write _ _ => True
  | _ => False

theorem toPop_le (a : FlushPlace σ) : a.toPop ≤ 2 := by
  cases a <;> simp [toPop]

theorem Writes.toPop {a : FlushPlace σ} (h : a.Writes) : a.toPop = 1 := by
  cases a with
  | write out msgBytes => rfl
  | _ => exact h.elim

end FlushPlace

/-- A wire, with an account of the messages that have been queued, of those that threads have taken off the queue and of
those that are still on it. -/
structure Outgoing (ι : Type) (w : IntFeature) where
  wire : Wire w
  pushed : List (Message w)
  popped : List (ι × Message w)
  queued : List (Message w)

namespace Outgoing

variable {ι : Type}

def push (x : Outgoing ι w) (m : Message w) : Outgoing ι w :=
  { x with wire := x.wire.pushMessage m, pushed := x.pushed ++ [m], queued := x.queued ++ [m] }

/-- The thread takes the first message off the queue. -/
def pop (x : Outgoing ι w) (t : ι) (rest : List (List UInt8)) : Outgoing ι w :=
  { x with
    wire := { x.wire with queue := rest }
    popped := x.popped ++ x.queued.head?.toList.map (t, ·)
    queued := x.queued.tail }

def terminate (x : Outgoing ι w) : Outgoing ι w := { x with wire := { x.wire with terminated := true } }

/-- The messages that the thread has taken, in order. -/
def taken [DecidableEq ι] (x : Outgoing ι w) (t : ι) : List (Message w) :=
  (x.popped.filter fun y => y.1 = t).map Prod.snd

end Outgoing

namespace QueueRole

variable {ι : Type} {W : Stream w}

/-- The next atomic step of the thread. -/
def next (W : Stream w) (t : ι) (role : QueueRole w) (a : FlushPlace W.State) (x : Outgoing ι w) :
    FlushPlace W.State × Outgoing ι w :=
  match role, a with
  | push m, .check out => (.ended out, x.push m)
  | terminate, .check out => (.ended out, x.terminate)
  | flush, .check out => if x.wire.terminated then (.ended out, x) else (.pop out, x)
  | flush, .pop out =>
    match x.wire.queue with
    | msgBytes :: rest => (.write out msgBytes, x.pop t rest)
    | [] => (.flush out, x)
  | flush, .write out msgBytes =>
    match (W.writeAll msgBytes).run out with
    | .ok _ out' => (.pop out', x)
    | .error _ out' => (.ended out', x)
  | flush, .flush out =>
    match W.flush.run out with
    | .ok _ out' => (.check out', x)
    | .error _ out' => (.ended out', x)
  | _, a => (a, x)

variable {role : QueueRole w} {t : ι} {a a' : FlushPlace W.State} {x : Outgoing ι w} {out : W.State}

/-! ### Without other threads -/

/-- The steps of a thread that flushes, with nothing in between. -/
def Leads (W : Stream w) (t : ι) : FlushPlace W.State × Outgoing ι w → FlushPlace W.State × Outgoing ι w → Prop :=
  Relation.ReflTransGen fun y z => flush.next W t y.1 y.2 = z

/-- The steps end as the operation does, with the same wire and the same stream. -/
def Ends (W : Stream w) (t : ι) (y : FlushPlace W.State × Outgoing ι w)
    (after : W.State → FlushPlace W.State) : EStateM.Result (Stop (Error w)) (Wire w × W.State) Unit → Prop
  | .ok _ z => ∃ x, Leads W t y (after z.2, x) ∧ x.wire = z.1
  | .error _ z => ∃ x, Leads W t y (.ended z.2, x) ∧ x.wire = z.1

private theorem Ends.of_leads {y y' : FlushPlace W.State × Outgoing ι w} {after : W.State → FlushPlace W.State}
    {r : EStateM.Result (Stop (Error w)) (Wire w × W.State) Unit} (h : Leads W t y y') (hr : Ends W t y' after r) :
    Ends W t y after r := by
  cases r <;> exact hr.imp fun _ hx => ⟨h.trans hx.1, hx.2⟩

private theorem flushLoop_ends {queue : List (List UInt8)} (hq : x.wire.queue = queue) (out : W.State) :
    Ends W t (.pop out, x) .flush ((Wire.flushLoop W.writeAll queue).run (x.wire, out)) := by
  induction queue generalizing x out with
  | nil => exact ⟨x, .single (by simp only [next, hq]), rfl⟩
  | cons msgBytes rest ih =>
    have hpop : Leads W t (.pop out, x) (.write out msgBytes, x.pop t rest) := .single (by simp only [next, hq])
    rw [Wire.flushLoop_cons]
    refine .of_leads hpop ?_
    cases hw : (W.writeAll msgBytes).run out with
    | ok u out' =>
      have hwrite : Leads W t (.write out msgBytes, x.pop t rest) (.pop out', x.pop t rest) :=
        .single (by simp only [next, hw])
      exact .of_leads hwrite (ih rfl out')
    | error e out' => exact ⟨x.pop t rest, .single (by simp only [next, hw]), rfl⟩

/-- Without other threads the steps are `flush_partial`, and then the next call of it. -/
theorem flushPartial_ends (W : Stream w) (t : ι) (x : Outgoing ι w) (out : W.State) :
    Ends W t (.check out, x) .check ((Wire.flushPartial W.writeAll W.flush).run (x.wire, out)) := by
  cases ht : x.wire.terminated with
  | true =>
    rw [show (Wire.flushPartial W.writeAll W.flush).run (x.wire, out) =
      .error (.error .wireTerminated) (x.wire, out) by simp [Wire.flushPartial, ht]]
    exact ⟨x, .single (by simp [next, ht]), rfl⟩
  | false =>
    have hcheck : Leads W t (.check out, x) (.pop out, x) := .single (by simp [next, ht])
    refine .of_leads hcheck ?_
    have hloop := flushLoop_ends (t := t) (x := x) rfl out
    simp only [Wire.flushPartial, EStateM.run_bind, EStateM.run_get, ht, Bool.false_eq_true, if_false]
    cases hl : (Wire.flushLoop W.writeAll x.wire.queue).run (x.wire, out) with
    | error e z => rw [hl] at hloop; exact hloop
    | ok u z =>
      rw [hl] at hloop
      obtain ⟨y, hlead, hwire⟩ := hloop
      simp only [EStateM.run_zoom]
      refine .of_leads hlead ?_
      cases hf : W.flush.run z.2 with
      | ok u' out' => exact ⟨y, .single (by simp only [next, hf]), hwire⟩
      | error e out' => exact ⟨y, .single (by simp only [next, hf]), hwire⟩

/-! ### Every single step -/

inductive Moves (W : Stream w) (t : ι) (role : QueueRole w) (x : Outgoing ι w) :
    FlushPlace W.State → FlushPlace W.State → Outgoing ι w → Prop
  | pushed (m : Message w) (out : W.State) : Moves W t role x (.check out) (.ended out) (x.push m)
  | terminated (out : W.State) : Moves W t role x (.check out) (.ended out) x.terminate
  | refused (out : W.State) : Moves W t role x (.check out) (.ended out) x
  | checked (out : W.State) : Moves W t role x (.check out) (.pop out) x
  | popped (out : W.State) {msgBytes : List UInt8} {rest : List (List UInt8)} (hr : role = flush)
      (h : x.wire.queue = msgBytes :: rest) : Moves W t role x (.pop out) (.write out msgBytes) (x.pop t rest)
  | emptied (out : W.State) : Moves W t role x (.pop out) (.flush out) x
  | wrote {out out' : W.State} {msgBytes : List UInt8} (h : W.accepted out' = W.accepted out ++ msgBytes) :
      Moves W t role x (.write out msgBytes) (.pop out') x
  | failed {out out' : W.State} {msgBytes : List UInt8} (n : Nat)
      (h : W.accepted out' = W.accepted out ++ msgBytes.take n) : Moves W t role x (.write out msgBytes) (.ended out') x
  | flushed {out out' : W.State} (h : W.accepted out' = W.accepted out) : Moves W t role x (.flush out) (.check out') x
  | unflushed {out out' : W.State} (h : W.accepted out' = W.accepted out) :
      Moves W t role x (.flush out) (.ended out') x
  | stays (a : FlushPlace W.State) : Moves W t role x a a x

theorem next_moves (W : Stream w) (t : ι) (role : QueueRole w) (a : FlushPlace W.State) (x : Outgoing ι w) :
    Moves W t role x a (role.next W t a x).1 (role.next W t a x).2 := by
  cases role with
  | push m => cases a <;> first | exact .pushed m _ | exact .stays _
  | terminate => cases a <;> first | exact .terminated _ | exact .stays _
  | flush =>
    cases a with
    | check out =>
      simp only [next]
      split
      · exact .refused out
      · exact .checked out
    | pop out =>
      simp only [next]
      split
      · rename_i hq
        exact .popped out rfl hq
      · exact .emptied out
    | write out msgBytes =>
      simp only [next]
      split
      · rename_i hw
        exact .wrote (W.writeAll_ok hw)
      · rename_i hw
        obtain ⟨n, hn⟩ := W.writeAll_error hw
        exact .failed n hn
    | flush out =>
      have hf := W.flush_accepted out
      simp only [next]
      split
      · rename_i hr
        rw [hr] at hf
        exact .flushed hf
      · rename_i hr
        rw [hr] at hf
        exact .unflushed hf
    | ended out => exact .stays _

namespace Moves

variable {x' : Outgoing ι w}

private theorem of_running (h : Moves W t role x a a' x') (hrun : x'.wire.terminated = false) :
    x.wire.terminated = false := by
  cases h with
  | terminated out => cases hrun
  | _ => exact hrun

private theorem popped_le (h : Moves W t role x a a' x') : x.popped.length ≤ x'.popped.length := by
  cases h with
  | popped out hr hq => simp [Outgoing.pop]
  | _ => exact Nat.le_refl _

private theorem pushed_grows (h : Moves W t role x a a' x') : x.pushed <+: x'.pushed := by
  cases h with
  | pushed m out => exact List.prefix_append _ _
  | _ => exact List.prefix_rfl

/-- A thread has a message in hand only if it has just taken it, or had it before. -/
private theorem writes (h : Moves W t role x a a' x') (hqueue : x.wire.queue = x.queued.map Message.toBytes)
    (ha' : a'.Writes) : x'.popped.length = x.popped.length + 1 ∨ a.Writes ∧ x'.popped = x.popped := by
  cases h with
  | popped out hr hq =>
    rw [hq] at hqueue
    cases hms : x.queued with
    | nil => rw [hms] at hqueue; cases hqueue
    | cons m ms => simp [Outgoing.pop, hms]
  | stays => exact .inr ⟨ha', rfl⟩
  | _ => exact ha'.elim

end Moves

/-- What the step of a thread does whose stream takes everything, while the wire runs. -/
private theorem next_advances (hw : W.Willing) (t : ι) (hrun : x.wire.terminated = false) (ha : a.Running) :
    (flush.next W t a x).1.Running ∧
      ((flush.next W t a x).2 = x ∧ (flush.next W t a x).1.toPop + 1 = a.toPop ∨
        ¬ a.Writes ∧ a.toPop = 0 ∧ (x.wire.queue = [] ∨ (flush.next W t a x).1.toPop = 1 ∧
          ∃ rest, (flush.next W t a x).2 = x.pop t rest)) := by
  cases a with
  | check out =>
    have hnext : flush.next W t (.check out) x = (.pop out, x) := by simp [next, hrun]
    rw [hnext]
    exact ⟨trivial, .inl ⟨rfl, rfl⟩⟩
  | pop out =>
    cases hq : x.wire.queue with
    | nil =>
      have hnext : flush.next W t (.pop out) x = (.flush out, x) := by simp only [next, hq]
      rw [hnext]
      exact ⟨trivial, .inr ⟨False.elim, rfl, .inl rfl⟩⟩
    | cons msgBytes rest =>
      have hnext : flush.next W t (.pop out) x = (.write out msgBytes, x.pop t rest) := by simp only [next, hq]
      rw [hnext]
      exact ⟨trivial, .inr ⟨False.elim, rfl, .inr ⟨rfl, rest, rfl⟩⟩⟩
  | write out msgBytes =>
    obtain ⟨out', hwrite⟩ := hw.writes msgBytes out
    have hnext : flush.next W t (.write out msgBytes) x = (.pop out', x) := by simp only [next, hwrite]
    rw [hnext]
    exact ⟨trivial, .inl ⟨rfl, rfl⟩⟩
  | flush out =>
    obtain ⟨out', hflush⟩ := hw.flushes out
    have hnext : flush.next W t (.flush out) x = (.check out', x) := by simp only [next, hflush]
    rw [hnext]
    exact ⟨trivial, .inl ⟨rfl, rfl⟩⟩
  | ended out => exact ha.elim

end QueueRole

/-- Threads on the queue of one wire. -/
abbrev Flushers (ι : Type) (W : Stream w) : Type := Threads ι (Outgoing ι w) (FlushPlace W.State)

namespace Flushers

variable {ι : Type} [DecidableEq ι] {W : Stream w} {roles : ι → QueueRole w} {x : Flushers ι W} {t : ι}

/-- A wire on whose queue there are messages, and all threads before their first steps, each with an output stream. -/
def start (W : Stream w) (wire : Wire w) (queued : List (Message w)) (outs : ι → W.State) : Flushers ι W where
  shared :=
    { wire := { wire with queue := queued.map Message.toBytes }, pushed := queued, popped := [], queued := queued }
  place t := .check (outs t)

def step (roles : ι → QueueRole w) (x : Flushers ι W) (t : ι) : Flushers ι W :=
  Threads.step (fun t a s => (roles t).next W t a s) x t

/-- The step of a thread is one of those of its role. -/
private theorem step_moves (roles : ι → QueueRole w) (x : Flushers ι W) (t : ι) :
    QueueRole.Moves W t (roles t) x.shared (x.place t) ((x.step roles t).place t) (x.step roles t).shared := by
  have h := QueueRole.next_moves W t (roles t) (x.place t) x.shared
  rwa [← Threads.step_place_self (fun t a s => (roles t).next W t a s) x t] at h

private theorem step_place_of_ne {t' : ι} (h : t' ≠ t) : (x.step roles t).place t' = x.place t' :=
  Threads.step_place_of_ne h

/-- What a thread has written of the messages it has taken: all of them as a whole, but for the last one as long as it
has it in hand, or when its stream has failed on it. -/
inductive Written (W : Stream w) (out₀ : W.State) : List (Message w) → FlushPlace W.State → Prop
  | whole {ms : List (Message w)} {a : FlushPlace W.State} {out : W.State}
      (ha : a = .check out ∨ a = .pop out ∨ a = .flush out ∨ a = .ended out)
      (h : W.accepted out = W.accepted out₀ ++ encode ms) : Written W out₀ ms a
  | inHand {ms : List (Message w)} {m : Message w} {out : W.State} (h : W.accepted out = W.accepted out₀ ++ encode ms) :
      Written W out₀ (ms ++ [m]) (.write out m.toBytes)
  | cut {ms : List (Message w)} {m : Message w} {out : W.State} (n : Nat)
      (h : W.accepted out = W.accepted out₀ ++ encode ms ++ m.toBytes.take n) : Written W out₀ (ms ++ [m]) (.ended out)

/-- Nothing that was queued is lost or taken twice, and each thread has written what it has taken. -/
structure Conserved (x : Flushers ι W) (roles : ι → QueueRole w) (outs : ι → W.State) : Prop where
  pushed : x.shared.pushed = x.shared.popped.map Prod.snd ++ x.shared.queued
  poppers : ∀ {t m}, (t, m) ∈ x.shared.popped → roles t = .flush
  queue : x.shared.wire.queue = x.shared.queued.map Message.toBytes
  written : ∀ t, Written W (outs t) (x.shared.taken t) (x.place t)

theorem start_conserved (W : Stream w) (roles : ι → QueueRole w) (wire : Wire w) (queued : List (Message w))
    (outs : ι → W.State) : (start W wire queued outs).Conserved roles outs where
  pushed := rfl
  poppers h := by cases h
  queue := rfl
  written _ := .whole (.inl rfl) (List.append_nil _).symm

namespace Written

variable {out₀ out : W.State} {ms : List (Message w)} {a : FlushPlace W.State} {msgBytes : List UInt8}

private theorem accepted (h : Written W out₀ ms a) (ha : a = .check out ∨ a = .pop out ∨ a = .flush out) :
    W.accepted out = W.accepted out₀ ++ encode ms := by
  cases h with
  | whole ha' h =>
    rcases ha with rfl | rfl | rfl <;> rcases ha' with ha' | ha' | ha' | ha' <;> cases ha' <;> exact h
  | inHand h => rcases ha with ha | ha | ha <;> cases ha
  | cut n h => rcases ha with ha | ha | ha <;> cases ha

private theorem of_write (h : Written W out₀ ms (.write out msgBytes)) :
    ∃ ms' m, ms = ms' ++ [m] ∧ msgBytes = m.toBytes ∧ W.accepted out = W.accepted out₀ ++ encode ms' := by
  cases h with
  | whole ha h => rcases ha with ha | ha | ha | ha <;> cases ha
  | inHand h => exact ⟨_, _, rfl, rfl, h⟩

end Written

section

variable {y : Flushers ι W} {outs : ι → W.State}

/-- A step that takes no message off the queue. -/
private theorem Conserved.keep (h : x.Conserved roles outs) (hother : ∀ t' ≠ t, y.place t' = x.place t')
    (hpopped : y.shared.popped = x.shared.popped)
    (hpushed : y.shared.pushed = x.shared.popped.map Prod.snd ++ y.shared.queued)
    (hqueue : y.shared.wire.queue = y.shared.queued.map Message.toBytes)
    (hself : Written W (outs t) (x.shared.taken t) (y.place t)) : y.Conserved roles outs := by
  have htaken : ∀ t', y.shared.taken t' = x.shared.taken t' := fun t' => by rw [Outgoing.taken, hpopped, Outgoing.taken]
  refine ⟨by rw [hpopped, hpushed], fun hmem => h.poppers (hpopped ▸ hmem), hqueue, fun t' => ?_⟩
  rw [htaken]
  by_cases ht : t' = t
  · subst ht
    exact hself
  · rw [hother t' ht]
    exact h.written t'

/-- A step that leaves the queue alone. -/
private theorem Conserved.stay (h : x.Conserved roles outs) (hother : ∀ t' ≠ t, y.place t' = x.place t')
    (hs : y.shared = x.shared) (hself : Written W (outs t) (x.shared.taken t) (y.place t)) : y.Conserved roles outs :=
  h.keep hother (by rw [hs]) (by rw [hs]; exact h.pushed) (by rw [hs]; exact h.queue) hself

private theorem Conserved.pop (h : x.Conserved roles outs) (hother : ∀ t' ≠ t, y.place t' = x.place t') {out : W.State}
    {msgBytes : List UInt8} {rest : List (List UInt8)} (hq : x.shared.wire.queue = msgBytes :: rest)
    (hs : y.shared = x.shared.pop t rest) (hr : roles t = .flush) (hx : x.place t = .pop out)
    (hy : y.place t = .write out msgBytes) : y.Conserved roles outs := by
  have hqueue := h.queue
  have hpushed := h.pushed
  rw [hq] at hqueue
  cases hms : x.shared.queued with
  | nil => rw [hms] at hqueue; cases hqueue
  | cons m ms =>
    rw [hms] at hqueue hpushed
    obtain ⟨rfl, rfl⟩ := List.cons.inj hqueue
    have hpopped : y.shared.popped = x.shared.popped ++ [(t, m)] := by rw [hs, Outgoing.pop, hms]; rfl
    refine ⟨?_, fun {t' m'} hmem => ?_, ?_, fun t' => ?_⟩
    · rw [hpopped, hs, Outgoing.pop, hms, hpushed]
      simp
    · rw [hpopped] at hmem
      rcases List.mem_append.1 hmem with hmem | hmem
      · exact h.poppers hmem
      · cases List.mem_singleton.1 hmem
        exact hr
    · rw [hs, Outgoing.pop, hms]
      rfl
    · by_cases ht : t' = t
      · subst ht
        have htaken : y.shared.taken t' = x.shared.taken t' ++ [m] := by simp [Outgoing.taken, hpopped]
        rw [htaken, hy]
        exact .inHand ((h.written t').accepted (.inr (.inl hx)))
      · have htaken : y.shared.taken t' = x.shared.taken t' := by simp [Outgoing.taken, hpopped, Ne.symm ht]
        rw [htaken, hother t' ht]
        exact h.written t'

end

theorem Conserved.step {outs : ι → W.State} (h : x.Conserved roles outs) : (x.step roles t).Conserved roles outs := by
  have hother : ∀ t' ≠ t, (x.step roles t).place t' = x.place t' := fun t' ht' => step_place_of_ne ht'
  have hmoves := step_moves roles x t
  have hwritten := h.written t
  generalize x.step roles t = y at *
  generalize hx : x.place t = a at hmoves hwritten
  generalize hy : y.place t = a' at hmoves
  generalize hs : y.shared = s at hmoves
  cases hmoves with
  | pushed m out =>
    refine h.keep hother (by rw [hs]; rfl) ?_ ?_ (hy ▸ .whole (by simp) (hwritten.accepted (.inl rfl)))
    · rw [hs]
      show x.shared.pushed ++ [m] = _ ++ (x.shared.queued ++ [m])
      rw [h.pushed, List.append_assoc]
    · rw [hs]
      show x.shared.wire.queue ++ [m.toBytes] = (x.shared.queued ++ [m]).map Message.toBytes
      rw [h.queue, List.map_append]
      rfl
  | terminated out =>
    exact h.keep hother (by rw [hs]; rfl) (hs ▸ h.pushed) (hs ▸ h.queue)
      (hy ▸ .whole (by simp) (hwritten.accepted (.inl rfl)))
  | refused out => exact h.stay hother hs (hy ▸ .whole (by simp) (hwritten.accepted (.inl rfl)))
  | checked out => exact h.stay hother hs (hy ▸ .whole (by simp) (hwritten.accepted (.inl rfl)))
  | popped out hr hq => exact h.pop hother hq hs hr hx hy
  | emptied out => exact h.stay hother hs (hy ▸ .whole (by simp) (hwritten.accepted (.inr (.inl rfl))))
  -- the message in hand is written as a whole, or up to where the stream has failed
  | wrote hw =>
    obtain ⟨ms, m, hms, rfl, ha⟩ := hwritten.of_write
    refine h.stay hother hs ?_
    rw [hy, hms]
    exact .whole (.inr (.inl rfl)) (by rw [hw, ha]; simp)
  | failed n hw =>
    obtain ⟨ms, m, hms, rfl, ha⟩ := hwritten.of_write
    refine h.stay hother hs ?_
    rw [hy, hms]
    exact .cut n (by rw [hw, ha])
  | flushed hf =>
    exact h.stay hother hs (hy ▸ .whole (by simp) (hf.trans (hwritten.accepted (.inr (.inr rfl)))))
  | unflushed hf =>
    exact h.stay hother hs (hy ▸ .whole (by simp) (hf.trans (hwritten.accepted (.inr (.inr rfl)))))
  | stays a => exact h.stay hother hs (hy ▸ hwritten)

theorem Conserved.run {outs : ι → W.State} (h : x.Conserved roles outs) (ts : List ι) :
    (ts.foldl (Flushers.step roles) x).Conserved roles outs := by
  induction ts generalizing x with
  | nil => exact h
  | cons t ts ih => exact ih h.step

/-! ### A thread that is given its steps -/

/-- The steps of its own after which a thread that flushes has met the end of the first `n` messages. -/
def ahead (n : Nat) (x : Flushers ι W) (t : ι) : Nat := 2 * (n - x.shared.popped.length) + (x.place t).toPop

/-- The first `n` messages are off the queue, and the thread has no last one of them in hand. -/
def Through (n : Nat) (x : Flushers ι W) (t : ι) : Prop :=
  n ≤ x.shared.popped.length ∧ ((x.place t).Writes → n < x.shared.popped.length)

section

variable {outs : ι → W.State} {n : Nat} {u : ι}

private theorem running_of_run (us : List ι) (h : (us.foldl (step roles) x).shared.wire.terminated = false) :
    x.shared.wire.terminated = false := by
  induction us generalizing x with
  | nil => exact h
  | cons u us ih => exact (step_moves roles x u).of_running (ih h)

private theorem run_pushed_grows (x : Flushers ι W) (us : List ι) :
    x.shared.pushed <+: (us.foldl (step roles) x).shared.pushed := by
  induction us generalizing x with
  | nil => exact List.prefix_rfl
  | cons u us ih => exact (step_moves roles x u).pushed_grows.trans (ih (x.step roles u))

private theorem step_running (hw : W.Willing) (hrole : roles t = .flush) (hrun : x.shared.wire.terminated = false)
    (h : (x.place t).Running) : ((x.step roles u).place t).Running := by
  by_cases hu : u = t
  · subst hu
    have hplace : (x.step roles u).place u = (QueueRole.flush.next W u (x.place u) x.shared).1 :=
      (Threads.step_place_self ..).trans (by rw [hrole])
    rw [hplace]
    exact (QueueRole.next_advances hw u hrun h).1
  · rw [step_place_of_ne (Ne.symm hu)]
    exact h

private theorem run_running (hw : W.Willing) (hrole : roles t = .flush) (us : List ι)
    (hrun : (us.foldl (step roles) x).shared.wire.terminated = false) (h : (x.place t).Running) :
    ((us.foldl (step roles) x).place t).Running := by
  induction us generalizing x with
  | nil => exact h
  | cons u us ih => exact ih hrun (step_running hw hrole (running_of_run (u :: us) hrun) h)

private theorem Through.step (h : x.Through n t) (hc : x.Conserved roles outs) (u : ι) :
    (x.step roles u).Through n t := by
  have hmoves := step_moves roles x u
  refine ⟨h.1.trans hmoves.popped_le, fun hwrites => ?_⟩
  by_cases hu : u = t
  · subst hu
    rcases hmoves.writes hc.queue hwrites with hpopped | ⟨hbefore, hpopped⟩
    · rw [hpopped]
      exact Nat.lt_succ_of_le h.1
    · rw [hpopped]
      exact h.2 hbefore
  · rw [step_place_of_ne (Ne.symm hu)] at hwrites
    exact (h.2 hwrites).trans_le hmoves.popped_le

private theorem Through.run (h : x.Through n t) (hc : x.Conserved roles outs) (us : List ι) :
    (us.foldl (Flushers.step roles) x).Through n t := by
  induction us generalizing x with
  | nil => exact h
  | cons u us ih => exact ih (h.step hc u) hc.step

private theorem step_ahead_le (hu : u ≠ t) : (x.step roles u).ahead n t ≤ x.ahead n t := by
  have hpopped := (step_moves roles x u).popped_le
  rw [ahead, ahead, step_place_of_ne (Ne.symm hu)]
  omega

/-- A step of the thread itself brings it closer to the end of the messages. -/
private theorem step_ahead_lt (hc : x.Conserved roles outs) (hw : W.Willing) (hrole : roles t = .flush)
    (hrun : x.shared.wire.terminated = false) (ha : (x.place t).Running) (hn : n ≤ x.shared.pushed.length)
    (hnot : ¬ x.Through n t) : (x.step roles t).ahead n t < x.ahead n t := by
  have hplace : (x.step roles t).place t = (QueueRole.flush.next W t (x.place t) x.shared).1 :=
    (Threads.step_place_self ..).trans (by rw [hrole])
  have hshared : (x.step roles t).shared = (QueueRole.flush.next W t (x.place t) x.shared).2 := by
    show ((roles t).next W t (x.place t) x.shared).2 = _
    rw [hrole]
  have hlength : x.shared.pushed.length = x.shared.popped.length + x.shared.queued.length := by
    rw [hc.pushed, List.length_append, List.length_map]
  rw [ahead, ahead, hplace, hshared]
  rcases (QueueRole.next_advances hw t hrun ha).2 with ⟨hs, hcloser⟩ | ⟨hwrites, htoPop, hempty | ⟨hwrite, rest, hpop⟩⟩
  · rw [hs]
    omega
  -- with the queue empty, and with the messages off it, there is nothing ahead
  · have hqueued : x.shared.queued = [] := List.map_eq_nil_iff.1 (hc.queue.symm.trans hempty)
    rw [hqueued] at hlength
    exact absurd ⟨by rw [List.length_nil] at hlength; omega, fun h => absurd h hwrites⟩ hnot
  · have hfew : x.shared.popped.length < n := Nat.lt_of_not_le fun hle => hnot ⟨hle, fun h => absurd h hwrites⟩
    have hpopped : (x.shared.pop t rest).popped.length = x.shared.popped.length + 1 := by
      cases hms : x.shared.queued with
      | nil => rw [hms, List.length_nil] at hlength; omega
      | cons m ms => simp [Outgoing.pop, hms]
    rw [hpop, hpopped]
    omega

/-- Whatever the other threads do in between. -/
private theorem Conserved.through (hc : x.Conserved roles outs) (hw : W.Willing) (hrole : roles t = .flush)
    (us : List ι) (hrun : (us.foldl (Flushers.step roles) x).shared.wire.terminated = false)
    (ha : (x.place t).Running) (hn : n ≤ x.shared.pushed.length) (hcount : x.ahead n t ≤ us.count t) :
    (us.foldl (Flushers.step roles) x).Through n t := by
  induction us generalizing x with
  | nil =>
    rw [List.count_nil, ahead] at hcount
    refine ⟨by show n ≤ x.shared.popped.length; omega, fun hwrites => ?_⟩
    have htoPop : (x.place t).toPop = 1 := hwrites.toPop
    omega
  | cons u us ih =>
    by_cases hthrough : x.Through n t
    · exact hthrough.run hc (u :: us)
    · have hbefore := running_of_run (u :: us) hrun
      refine ih hc.step hrun (step_running hw hrole hbefore ha)
        (hn.trans (step_moves roles x u).pushed_grows.length_le) ?_
      by_cases hu : u = t
      · subst hu
        have hlt := step_ahead_lt hc hw hrole hbefore ha hn hthrough
        rw [List.count_cons_self] at hcount
        omega
      · rw [List.count_cons_of_ne hu] at hcount
        exact (step_ahead_le hu).trans hcount

private theorem Conserved.taken_of_alone (hc : x.Conserved roles outs) (halone : ∀ t', roles t' = .flush → t' = t) :
    x.shared.taken t = x.shared.popped.map Prod.snd := by
  rw [Outgoing.taken, List.filter_eq_self.2]
  rintro ⟨t', m⟩ hmem
  exact decide_eq_true (halone t' (hc.poppers hmem))

private theorem Written.accepts {out₀ : W.State} {ps ms : List (Message w)} {a : FlushPlace W.State}
    (h : Written W out₀ ms a) (ha : a.Running) (hp : ps <+: ms) (hl : a.Writes → ps.length < ms.length) :
    W.accepted out₀ ++ encode ps <+: W.accepted a.out := by
  have hencode : ∀ {ms' : List (Message w)}, ps <+: ms' →
      W.accepted out₀ ++ encode ps <+: W.accepted out₀ ++ encode ms' := by
    rintro _ ⟨rest, rfl⟩
    exact ⟨encode rest, by rw [encode_append, List.append_assoc]⟩
  cases h with
  | whole hplace h =>
    have hout : W.accepted a.out = W.accepted out₀ ++ encode ms := by
      rcases hplace with rfl | rfl | rfl | rfl <;> exact h
    rw [hout]
    exact hencode hp
  | @inHand ms m out h =>
    have hshort := hl trivial
    rw [List.length_append, List.length_singleton] at hshort
    show _ <+: W.accepted out
    rw [h]
    exact hencode (List.prefix_of_prefix_length_le hp (List.prefix_append ms [m]) (Nat.le_of_lt_succ hshort))
  | cut n h => exact ha.elim

end

/-- Whatever the threads do, the messages that were queued are those that threads have taken, in order, and those that
are still on the queue; and what each thread has written are the encodings of the messages it has taken, one after the
other. A thread that is the only one to flush takes them all.  As long as the wire runs, a thread whose stream takes
everything is through with all messages that are queued once it has been given two steps for each of them and two
more. -/
theorem flushed_whole (roles : ι → QueueRole w) (wire : Wire w) (queued : List (Message w)) (outs : ι → W.State)
    (ts : List ι) :
    let x := ts.foldl (step roles) (start W wire queued outs)
    x.shared.pushed = x.shared.popped.map Prod.snd ++ x.shared.queued ∧
      x.shared.wire.queue = x.shared.queued.map Message.toBytes ∧
      ∀ t, (x.shared.taken t).Sublist x.shared.pushed ∧ Written W (outs t) (x.shared.taken t) (x.place t) ∧
        ((∀ t', roles t' = .flush → t' = t) → x.shared.taken t ++ x.shared.queued = x.shared.pushed) ∧
        (roles t = .flush → W.Willing → ∀ us : List ι, 2 * x.shared.queued.length + 2 ≤ us.count t →
          let y := us.foldl (step roles) x
          y.shared.wire.terminated = false → x.shared.pushed <+: y.shared.popped.map Prod.snd ∧
            ((∀ t', roles t' = .flush → t' = t) →
              W.accepted (outs t) ++ encode x.shared.pushed <+: W.accepted (y.place t).out)) := by
  intro x
  have hc : x.Conserved roles outs := (start_conserved W roles wire queued outs).run ts
  refine ⟨hc.pushed, hc.queue, fun t => ⟨?_, hc.written t, fun halone => ?_, fun hrole hw us hcount => ?_⟩⟩
  · rw [hc.pushed]
    exact (List.filter_sublist.map _).trans (List.sublist_append_left _ _)
  · rw [hc.taken_of_alone halone, hc.pushed]
  intro y hrun
  have hcy : y.Conserved roles outs := hc.run us
  have hplace : (x.place t).Running := run_running hw hrole ts (running_of_run us hrun) trivial
  have hlength : x.shared.pushed.length = x.shared.popped.length + x.shared.queued.length := by
    rw [hc.pushed, List.length_append, List.length_map]
  have hthrough : y.Through x.shared.pushed.length t := by
    refine hc.through hw hrole us hrun hplace (Nat.le_refl _) (Nat.le_trans ?_ hcount)
    have htoPop := (x.place t).toPop_le
    rw [ahead]
    omega
  have hgrown : x.shared.pushed <+: y.shared.popped.map Prod.snd := by
    refine List.prefix_of_prefix_length_le (run_pushed_grows x us) ⟨_, hcy.pushed.symm⟩ ?_
    rw [List.length_map]
    exact hthrough.1
  refine ⟨hgrown, fun halone => ?_⟩
  have hwritten := hcy.written t
  rw [hcy.taken_of_alone halone] at hwritten
  refine hwritten.accepts (run_running hw hrole us hrun hplace) hgrown fun hwrites => ?_
  rw [List.length_map]
  exact hthrough.2 hwrites

private def flusher : Bool → QueueRole .u8
  | true => .flush
  | false => .push .endOfInput

/-- Into a stream that takes everything goes what is queued before and after the first step.  A stream with room for one
byte fails on the second message. -/
theorem flushed_whole_streams :
    (let x := [false].foldl (step flusher) (start .vec (.new ⟨0⟩ false 3) [.termination] fun _ => []);
      let y := (List.replicate 6 true).foldl (step flusher) x;
      encode ([.termination, .endOfInput] : List (Message .u8)) <+: Stream.vec.accepted (y.place true).out) ∧
    (let y := (List.replicate 4 true).foldl (step flusher)
        (start (.slice 1) (.new ⟨0⟩ false 3) [.endOfInput, .termination] fun _ => []);
      Written (.slice 1) [] [.endOfInput, .termination] (y.place true)) := by
  have halone : ∀ t, flusher t = .flush → t = true := fun t ht => by cases t <;> first | rfl | cases ht
  refine ⟨?_, ?_⟩
  · have h := (flushed_whole (W := Stream.vec) flusher (.new ⟨0⟩ false 3) [.termination] (fun _ => []) [false]).2.2 true
    exact (h.2.2.2 rfl Stream.vec_willing (List.replicate 6 true) (by decide) rfl).2 halone
  · exact ((flushed_whole (W := .slice 1) flusher (.new ⟨0⟩ false 3) [.endOfInput, .termination] (fun _ => [])
      (List.replicate 4 true)).2.2 true).2.1

end Flushers

end Ipfi
