import Ipfi.Relays
import Ipfi.Lib.Fair
import Mathlib.Logic.Relation

/-!
# Autonomous wires

`start` gives a wire a thread that fills it again and again and one that flushes it again and again, each until the
first error.  Both own a clone of the wire and one end of the connection, and drop them when they end.  Two such wires
are connected by a line in each direction, which holds any number of bytes and may break at any time.
-/

namespace Ipfi

variable {w : IntFeature}

/-- One direction of a connection. -/
structure Line where
  /-- What has been written and not been read yet. -/
  bytes : List UInt8
  /-- The writing end has been dropped. -/
  closed : Bool
  /-- How many more bytes a write gets through before it fails, once the line has broken or its reading end has been
  dropped. -/
  fault : Option Nat

namespace Line

def empty : Line := ⟨[], false, none⟩

/-- The message that the reader finds next. -/
def message? (i : Line) (moduleStyle : Bool) : Option (Incoming w) :=
  match (readMessage moduleStyle : Op (Error w) _ _).run i.bytes with
  | .ok m _ => some m
  | .error _ _ => none

/-- The next message has not come in as a whole, and more may come. -/
def awaits (w : IntFeature) (i : Line) (moduleStyle : Bool) : Bool :=
  match (readMessage moduleStyle : Op (Error w) _ _).run i.bytes with
  | .error (.error (.ioError .unexpectedEof)) _ => !i.closed
  | _ => false

end Line

/-! ### The two threads -/

/-- Where the thread is that fills. -/
inductive ReaderPlace
  /-- At the start of `fill`. -/
  | fill
  /-- At the start of `receive_one`, in the loop of `fill`. -/
  | receive
  /-- In `receive_one`, after the check. -/
  | read
  /-- After an error.  The thread is yet to drop its clone of the wire and its end of the line. -/
  | leave
  | ended
  deriving DecidableEq

/-- Where the thread is that flushes. -/
inductive WriterPlace
  /-- At the start of `flush_partial`. -/
  | check
  | pop
  /-- The message has been taken off the queue and is yet to be written. -/
  | write (msgBytes : List UInt8)
  /-- The queue was empty; before the line is flushed. -/
  | flush
  /-- After an error.  The thread is yet to drop its clone of the wire and its end of the line. -/
  | leave
  | ended

/-- What a round of `fill` does once the flag has been checked. -/
def Receiver.receiveChecked : Op (Error w) (Receiver w) (Option Bool) := fun s =>
  atEof ((do
    let message ← onReader (readMessage s.site.wire.moduleStyle)
    onSite (Site.receive message) : Op (Error w) (Receiver w) (Option Bool)).run s)

/-- The drop of one clone of the wire. -/
def Site.dropClone (t : Site w) : Site w :=
  { t.markTerminated with interface := t.markTerminated.interface.relinquishId t.wire.id }

/-- The next step of the thread that fills the wire from the line. -/
def ReaderPlace.next (a : ReaderPlace) (t : Site w) (i : Line) : ReaderPlace × Site w × Line :=
  match a with
  | fill => (if t.wire.terminated then leave else receive, t, i)
  | receive => (if t.wire.terminated then leave else read, t, i)
  | read =>
    if i.awaits w t.wire.moduleStyle then
      -- the read blocks, and fails on a broken line
      (if i.fault.isSome then leave else read, t, i)
    else
      match Receiver.receiveChecked.run ⟨t, i.bytes⟩ with
      | .ok none x => (fill, x.site, { i with bytes := x.reader })
      | .ok (some _) x => (receive, x.site, { i with bytes := x.reader })
      | .error _ x => (leave, x.site, { i with bytes := x.reader })
  | leave => (ended, t.dropClone, { i with fault := some 0 })
  | ended => (ended, t, i)

/-- The next step of the thread that flushes the wire to the line. -/
def WriterPlace.next (a : WriterPlace) (t : Site w) (o : Line) : WriterPlace × Site w × Line :=
  match a with
  | check => (if t.wire.terminated then leave else pop, t, o)
  | pop =>
    match t.wire.queue with
    | msgBytes :: rest => (write msgBytes, { t with wire := { t.wire with queue := rest } }, o)
    | [] => (flush, t, o)
  | write msgBytes =>
    match o.fault with
    | none => (pop, t, { o with bytes := o.bytes ++ msgBytes })
    | some n =>
      if msgBytes.length ≤ n then
        (pop, t, { o with bytes := o.bytes ++ msgBytes, fault := some (n - msgBytes.length) })
      else (leave, t, { o with bytes := o.bytes ++ msgBytes.take n, fault := some 0 })
  | flush => (if o.fault = some 0 then leave else check, t, o)
  | leave => (ended, t.dropClone, { o with closed := true })
  | ended => (ended, t, o)

/-! ### Without other threads -/

theorem Receiver.fillStep_eq {s : Receiver w} (h : s.site.wire.terminated = false) :
    fillStep.run s = receiveChecked.run s := by
  rw [fillStep_run]
  simp only [receiveOne, EStateM.run_bind, EStateM.run_get, h, Bool.false_eq_true, if_false]
  rfl

namespace ReaderPlace

/-- The steps of the thread, with nothing in between. -/
def Leads : ReaderPlace × Site w × Line → ReaderPlace × Site w × Line → Prop :=
  Relation.ReflTransGen fun x y => x.1.next x.2.1 x.2.2 = y

/-- Where a `fill` that ends like this leaves the thread. -/
def after (i : Line) : EStateM.Result (Stop (Error w)) (Receiver w) Unit → ReaderPlace × Site w × Line
  | .ok _ x => (fill, x.site, { i with bytes := x.reader })
  | .error _ x => (leave, x.site, { i with bytes := x.reader })

private theorem rounds_leads (n : Nat) (t : Site w) (i : Line) (hn : i.bytes.length < n) (hc : i.closed = true) :
    Leads (receive, t, i) (after i (Receiver.rounds ⟨t, i.bytes⟩)) := by
  induction n generalizing t i with
  | zero => omega
  | succ n ih =>
    rw [Receiver.rounds_eq]
    cases ht : t.wire.terminated with
    | true =>
      rw [show Receiver.fillStep.run ⟨t, i.bytes⟩ = .error (.error .wireTerminated) ⟨t, i.bytes⟩ by
        simp [Receiver.fillStep_run, Receiver.receiveOne, Receiver.atEof, ht]]
      exact .single (by simp [next, after, ht])
    | false =>
      have hcheck : Leads (receive, t, i) (read, t, i) := .single (by simp [next, ht])
      refine hcheck.trans ?_
      have hawaits : i.awaits w t.wire.moduleStyle = false := by
        unfold Line.awaits
        split <;> simp [hc]
      have hround := Receiver.fillStep_eq (s := ⟨t, i.bytes⟩) ht
      rcases hr : Receiver.receiveChecked.run ⟨t, i.bytes⟩ with ⟨_ | b, x⟩ | ⟨e, x⟩ <;> rw [hr] at hround <;>
        rw [hround]
      · exact .single (by simp [next, after, hawaits, hr])
      · have hread : Leads (read, t, i) (receive, x.site, { i with bytes := x.reader }) :=
          .single (by simp [next, hawaits, hr])
        have hlt : x.reader.length < i.bytes.length := Receiver.fillStep_lt hround
        exact hread.trans (ih x.site { i with bytes := x.reader } (by show x.reader.length < n; omega) hc)
      · exact .single (by simp [next, after, hawaits, hr])

/-- On a line to which nothing more is written, the steps are `fill`, and then the next call of it. -/
theorem fill_leads (t : Site w) (i : Line) (hc : i.closed = true) :
    Leads (fill, t, i) (after i (Receiver.fill.run ⟨t, i.bytes⟩)) := by
  cases ht : t.wire.terminated with
  | true =>
    rw [show Receiver.fill.run ⟨t, i.bytes⟩ = .error (.error .wireTerminated) ⟨t, i.bytes⟩ by simp [Receiver.fill, ht]]
    exact .single (by simp [next, after, ht])
  | false =>
    rw [Receiver.fill_run _ ht]
    have hcheck : Leads (fill, t, i) (receive, t, i) := .single (by simp [next, ht])
    exact hcheck.trans (rounds_leads _ t i (Nat.lt_succ_self _) hc)

end ReaderPlace

namespace WriterPlace

/-- The steps of the thread, with nothing in between. -/
def Leads : WriterPlace × Site w × Line → WriterPlace × Site w × Line → Prop :=
  Relation.ReflTransGen fun x y => x.1.next x.2.1 x.2.2 = y

private theorem flushLoop_leads (t : Site w) (o : Line) (hf : o.fault = none) {queue : List (List UInt8)}
    (hq : t.wire.queue = queue) :
    Leads (pop, t, o)
      (check, { t with wire := { t.wire with queue := [] } }, { o with bytes := o.bytes ++ queue.flatten }) := by
  induction queue generalizing t o with
  | nil =>
    have hpop : Leads (pop, t, o) (flush, t, o) := .single (by simp only [next, hq])
    have hflush : Leads (flush, t, o) (check, t, o) := .single (by simp [next, hf])
    have ht : ({ t with wire := { t.wire with queue := [] } } : Site w) = t := by rw [← hq]
    rw [ht, List.flatten_nil, List.append_nil]
    exact hpop.trans hflush
  | cons msgBytes rest ih =>
    have hpop : Leads (pop, t, o) (write msgBytes, { t with wire := { t.wire with queue := rest } }, o) :=
      .single (by simp only [next, hq])
    refine hpop.trans ?_
    have hwrite : Leads (write msgBytes, { t with wire := { t.wire with queue := rest } }, o)
        (pop, { t with wire := { t.wire with queue := rest } }, { o with bytes := o.bytes ++ msgBytes }) :=
      .single (by simp only [next, hf])
    refine hwrite.trans ?_
    have hrest := ih { t with wire := { t.wire with queue := rest } } { o with bytes := o.bytes ++ msgBytes } hf rfl
    rwa [show o.bytes ++ msgBytes ++ rest.flatten = o.bytes ++ (msgBytes :: rest).flatten by simp] at hrest

/-- On a line that is in order, the steps are `flush_partial`, and then the next call of it. -/
theorem flushPartial_leads (t : Site w) (o : Line) (hf : o.fault = none) :
    Leads (check, t, o)
      (match Wire.flushTo.run (t.wire, o.bytes) with
        | .ok _ x => (check, { t with wire := x.1 }, { o with bytes := x.2 })
        | .error _ x => (leave, { t with wire := x.1 }, { o with bytes := x.2 })) := by
  cases ht : t.wire.terminated with
  | true =>
    rw [show Wire.flushTo.run (t.wire, o.bytes) = .error (.error .wireTerminated) (t.wire, o.bytes) by
      simp [Wire.flushTo, Wire.flushPartial, ht]]
    exact .single (by simp [next, ht])
  | false =>
    rw [Wire.flushTo_run ht]
    have hcheck : Leads (check, t, o) (pop, t, o) := .single (by simp [next, ht])
    exact hcheck.trans (flushLoop_leads t o hf rfl)

end WriterPlace

/-! ### The system -/

/-- A wire with its two threads. -/
structure Autonomous (w : IntFeature) where
  site : Site w
  reader : ReaderPlace
  writer : WriterPlace
  /-- A history variable: everything that has been put on the queue, oldest first. -/
  sent : List (List UInt8)
  /-- A history variable: the messages that the first thread has handled, oldest first. -/
  handled : List (Incoming w)
  /-- A history variable: those of them that it handled when the wire had been terminated. -/
  late : List (Incoming w)

/-- What the program does on its side, next to the two threads. -/
inductive LocalAction (w : IntFeature)
  | startCall (p : ProcedureIndex w) (args : Payload)
  | continueCall (p : ProcedureIndex w) (c : CallIndex w) (args : Payload)
  | endCall (p : ProcedureIndex w) (c : CallIndex w)
  | callWithBytes (p : ProcedureIndex w) (args : Payload)
  | signalEndOfInput
  | signalTermination
  /-- The streaming execution `e` of the wire yields. -/
  | yield (e : Nat) (bytes : Payload) (t : Terminator)
  /-- Drops a clone of the wire. -/
  | drop
  /-- A handle of the wire has been waited for. -/
  | strike (id : IpfiInteger w)
  /-- Whatever other wires, handles and local code do to the interface. -/
  | others (i : Interface w)

def LocalAction.run (checks : Bool) (a : LocalAction w) (t : Site w) : Site w :=
  match a with
  | startCall p args => ((Site.startCallWithPartialBytes checks p args).run t).state
  | continueCall p c args => ((Site.continueGivenCallWithBytes p c args).run t).state
  | endCall p c => ((Site.endGivenCall p c).run t).state
  | callWithBytes p args => ((Site.callWithBytes checks p args).run t).state
  | signalEndOfInput => ((Site.onWire Wire.signalEndOfInput).run t).state
  | signalTermination => { t with wire := t.wire.signalTermination }
  | yield e bytes tm => t.serveStep (.yield e bytes tm)
  | drop => t.dropClone
  | strike id => ((CallHandle.strike id).run t).state
  | others i => { t with interface := i }

namespace Autonomous

/-- An operation that may have put messages on the queue. -/
def moveTo (x : Autonomous w) (t : Site w) : Autonomous w :=
  { x with site := t, sent := x.sent ++ t.wire.queue.drop x.site.wire.queue.length }

/-- What the first thread handles in its next step. -/
def found (x : Autonomous w) (i : Line) : List (Incoming w) :=
  if x.reader = .read then (i.message? x.site.wire.moduleStyle).toList else []

def stepReader (x : Autonomous w) (i : Line) : Autonomous w :=
  { x.moveTo (x.reader.next x.site i).2.1 with
    reader := (x.reader.next x.site i).1
    handled := x.handled ++ x.found i
    late := x.late ++ if x.site.wire.terminated then x.found i else [] }

def stepWriter (x : Autonomous w) (o : Line) : Autonomous w :=
  { x with site := (x.writer.next x.site o).2.1, writer := (x.writer.next x.site o).1 }

end Autonomous

inductive Party
  | alice
  | bob
  deriving DecidableEq

namespace Party

def other : Party → Party
  | alice => bob
  | bob => alice

@[simp] theorem other_other (p : Party) : p.other.other = p := by cases p <;> rfl

@[simp] theorem other_ne (p : Party) : p.other ≠ p := by cases p <;> decide

@[simp] theorem ne_other (p : Party) : p ≠ p.other := (other_ne p).symm

theorem eq_or_eq_other (p q : Party) : q = p ∨ q = p.other := by cases p <;> cases q <;> simp [other]

end Party

/-- Two autonomous wires, and the lines that they write to. -/
structure Duplex (w : IntFeature) where
  side : Party → Autonomous w
  line : Party → Line

inductive DuplexAction (w : IntFeature)
  | reader (p : Party)
  | writer (p : Party)
  | onSide (p : Party) (a : LocalAction w)
  /-- The line breaks, and lets so many more bytes through. -/
  | break (p : Party) (n : Nat)

namespace Duplex

def setSide (s : Duplex w) (p : Party) (x : Autonomous w) : Duplex w := { s with side := Function.update s.side p x }

def setLine (s : Duplex w) (p : Party) (i : Line) : Duplex w := { s with line := Function.update s.line p i }

def step (checks : Bool) (s : Duplex w) : DuplexAction w → Duplex w
  | .reader p =>
    (s.setSide p ((s.side p).stepReader (s.line p.other))).setLine p.other
      ((s.side p).reader.next (s.side p).site (s.line p.other)).2.2
  | .writer p =>
    (s.setSide p ((s.side p).stepWriter (s.line p))).setLine p
      ((s.side p).writer.next (s.side p).site (s.line p)).2.2
  | .onSide p a => s.setSide p ((s.side p).moveTo (a.run checks (s.side p).site))
  | .break p n => s.setLine p { s.line p with fault := (s.line p).fault.or (some n) }

section

variable (checks : Bool) (s : Duplex w) (p : Party)

@[simp] theorem reader_side : (s.step checks (.reader p)).side p = (s.side p).stepReader (s.line p.other) :=
  Function.update_self ..

@[simp] theorem reader_side_other : (s.step checks (.reader p)).side p.other = s.side p.other :=
  Function.update_of_ne p.other_ne ..

@[simp] theorem reader_line : (s.step checks (.reader p)).line p = s.line p := Function.update_of_ne p.ne_other ..

@[simp] theorem reader_line_other : (s.step checks (.reader p)).line p.other =
    ((s.side p).reader.next (s.side p).site (s.line p.other)).2.2 := Function.update_self ..

@[simp] theorem writer_side : (s.step checks (.writer p)).side p = (s.side p).stepWriter (s.line p) :=
  Function.update_self ..

@[simp] theorem writer_side_other : (s.step checks (.writer p)).side p.other = s.side p.other :=
  Function.update_of_ne p.other_ne ..

@[simp] theorem writer_line : (s.step checks (.writer p)).line p =
    ((s.side p).writer.next (s.side p).site (s.line p)).2.2 := Function.update_self ..

@[simp] theorem writer_line_other : (s.step checks (.writer p)).line p.other = s.line p.other :=
  Function.update_of_ne p.other_ne ..

@[simp] theorem onSide_side (a : LocalAction w) : (s.step checks (.onSide p a)).side p =
    (s.side p).moveTo (a.run checks (s.side p).site) := Function.update_self ..

@[simp] theorem onSide_side_other (a : LocalAction w) : (s.step checks (.onSide p a)).side p.other = s.side p.other :=
  Function.update_of_ne p.other_ne ..

@[simp] theorem onSide_line (a : LocalAction w) : (s.step checks (.onSide p a)).line = s.line := rfl

@[simp] theorem break_side (n : Nat) : (s.step checks (.break p n)).side = s.side := rfl

@[simp] theorem break_line (n : Nat) : (s.step checks (.break p n)).line p =
    { s.line p with fault := (s.line p).fault.or (some n) } := Function.update_self ..

@[simp] theorem break_line_other (n : Nat) : (s.step checks (.break p n)).line p.other = s.line p.other :=
  Function.update_of_ne p.other_ne ..

end

end Duplex

end Ipfi
