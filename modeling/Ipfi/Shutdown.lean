import Ipfi.Conveying

/-!
# The end of two autonomous wires

Once one of two connected autonomous wires is terminated, or has signalled its termination, the other one is terminated
as well, and then all four threads end, whatever state they are in and in whichever order they go on.
-/

namespace Ipfi

variable {w : IntFeature}

/-- A step of one of the four threads. -/
def DuplexAction.IsThread : DuplexAction w → Prop
  | reader _ | writer _ => True
  | _ => False

/-- Anything but a signal of termination. -/
def DuplexAction.IsQuiet : DuplexAction w → Prop
  | onSide _ .signalTermination => False
  | _ => True

namespace Duplex

open DuplexAction (IsThread IsQuiet)

variable {s s' : Duplex w} {p : Party} {arrived flying ahead before : List (Message w)} {cut : List UInt8}
  {checks : Bool} {a : DuplexAction w}

/-! ### What each side sees of a step -/

/-- A step does nothing to the thread that flushes but its own steps, and adds to the queue at most. -/
inductive WriterSees (checks : Bool) (s : Duplex w) (p : Party) (a : DuplexAction w) : Prop
  | own (ha : a = .writer p)
  | adds (ha : a ≠ .writer p) (ms : List (List UInt8))
      (hqueue : ((s.step checks a).side p).site.wire.queue = (s.side p).site.wire.queue ++ ms)
      (hwriter : ((s.step checks a).side p).writer = (s.side p).writer)
      (hbusy : s.terminated p = true → a.IsQuiet →
        ms.length + (if ((s.step checks a).side p).reader = .read then 1 else 0) ≤
          if (s.side p).reader = .read then 1 else 0)

/-- On a terminated wire a thread that reads queues one more message at most. -/
theorem Reads.busy {b : ReaderPlace} {t : Site w} {i : Line} {found : List (Incoming w)}
    {ms : List (Message w)} (h : Reads s p flying cut b t i found) (hc : s.Carries p.other arrived flying ahead cut)
    (ht : s.terminated p = true) (hputs : Wire.Puts ms (s.side p).site.wire t.wire) :
    ms.length + (if b = .read then 1 else 0) ≤ if (s.side p).reader = .read then 1 else 0 := by
  have hnil : t.wire.queue = (s.side p).site.wire.queue → ms.length = 0 := by
    intro hq
    have hlen := congrArg List.length (hputs.queue.symm.trans hq)
    simpa using hlen
  obtain ⟨ms', hputs', -, hlen'⟩ := h.puts hc
  have hlen : ms.length ≤ 1 := by
    have heq := congrArg List.length (hputs.queue.symm.trans hputs'.queue)
    have := hlen' ht
    simp at heq
    omega
  cases h with
  | fills _ ht' | receives _ ht' => rw [ht] at ht'; cases ht'
  | waits hr => simp [hr, hnil rfl]
  | message hr _ ha =>
    rw [if_pos hr]
    rcases ha with rfl | rfl | rfl <;> simpa using hlen
  | _ => simp [hnil rfl]

theorem Sound.writerSees (h : s.Sound) (checks : Bool) (p : Party) (a : DuplexAction w) :
    WriterSees checks s p a := by
  -- nothing happens to this side
  have hother : a ≠ .writer p → (s.step checks a).side p = s.side p → WriterSees checks s p a := fun ha hs =>
    .adds ha [] (by rw [hs, List.append_nil]) (by rw [hs]) (by rw [hs]; simp)
  cases a with
  | reader q =>
    rcases p.eq_or_eq_other q with rfl | rfl
    · obtain ⟨arrived, flying, ahead, cut, hc⟩ := h.carries q.other
      obtain ⟨ms, hputs, -, -⟩ := hc.reads.puts hc
      have hside := (step_reader checks s q).side
      refine .adds (by simp) (ms.map Message.toBytes) ?_ (by rw [hside]; rfl) fun ht _ => ?_
      · rw [hside]
        exact hputs.queue
      · rw [List.length_map, hside]
        exact hc.reads.busy hc ht hputs
    · refine hother (by simp) ?_
      have hs := reader_side_other checks s p.other
      rwa [Party.other_other] at hs
  | writer q =>
    rcases p.eq_or_eq_other q with rfl | rfl
    · exact .own rfl
    · refine hother (by simp) ?_
      have hs := writer_side_other checks s p.other
      rwa [Party.other_other] at hs
  | onSide q b =>
    rcases p.eq_or_eq_other q with rfl | rfl
    · obtain ⟨-, ms, hputs, -, hnil⟩ := b.run_puts checks (s.side q).site
      have hside := onSide_side checks s q b
      refine .adds (by simp) (ms.map Message.toBytes) ?_ (by rw [hside]; rfl) fun ht hquiet => ?_
      · rw [hside]
        exact hputs.queue
      · rw [hnil ht (by rintro rfl; exact hquiet), hside]
        exact Nat.le_of_eq (Nat.zero_add _)
    · refine hother (by simp) ?_
      have hs := onSide_side_other checks s p.other b
      rwa [Party.other_other] at hs
  | «break» q n => exact hother (by simp) rfl

/-! ### A terminated wire closes its line -/

theorem Sound.closed_lasts (h : s.Sound) (hc : (s.line p).closed = true) (checks : Bool) (a : DuplexAction w) :
    ((s.step checks a).line p).closed = true := by
  have hw := (h.closed p).1 hc
  refine ((h.step checks a).closed p).2 ?_
  cases h.writerSees checks p a with
  | own ha =>
    subst ha
    rw [(step_writer checks s p).side, hw]
    rfl
  | adds ha ms hqueue hwriter hbusy => exact hwriter.trans hw

/-- How far the thread is from its end on a terminated wire, with a bound on what is still queued. -/
def writerRank (n : Nat) : WriterPlace → Nat
  | .leave | .ended => 0
  | .check => 1
  | .flush => 2
  | .pop => 3 + 2 * n
  | .write _ => 4 + 2 * n

theorem writerRank_mono {n n' : Nat} (h : n ≤ n') (b : WriterPlace) : writerRank n b ≤ writerRank n' b := by
  cases b <;> simp only [writerRank] <;> omega

/-- What is still queued, with a message that may be added to it. -/
def backlog (s : Duplex w) (p : Party) : Nat :=
  (s.side p).site.wire.queue.length + if (s.side p).reader = .read then 1 else 0

private theorem Sound.writer_ends (h : s.Sound) (checks : Bool) (ht : s.terminated p = true) :
    ((s.step checks (.writer p)).line p).closed = true ∨
      writerRank ((s.step checks (.writer p)).backlog p) ((s.step checks (.writer p)).side p).writer <
        writerRank (s.backlog p) (s.side p).writer := by
  have hstep := step_writer checks s p
  have hwrites := s.writes p
  generalize s.step checks (.writer p) = s' at hstep ⊢
  generalize (s.side p).writer.next (s.side p).site (s.line p) = r at hstep hwrites
  obtain ⟨b, t, o⟩ := r
  simp only at hstep hwrites
  have hbacklog : s'.backlog p = t.wire.queue.length + if (s.side p).reader = .read then 1 else 0 := by
    rw [backlog, hstep.side]
  rw [hstep.output, hbacklog, hstep.side, backlog]
  cases hwrites with
  | checks hw ht' => rw [ht] at ht'; cases ht'
  | refused hw => exact .inr (by simp [hw, writerRank])
  | takes hw hq => exact .inr (by simp only [hw, hq, writerRank, List.length_cons]; omega)
  | empties hw => exact .inr (by simp only [hw, writerRank]; omega)
  | writes hw => exact .inr (by simp only [hw, writerRank]; omega)
  | fails hw => exact .inr (by simp only [hw, writerRank]; omega)
  | flushes hw => exact .inr (by simp [hw, writerRank])
  | breaks hw => exact .inr (by simp [hw, writerRank])
  | drops => exact .inl rfl
  | stays hw => exact .inl ((h.closed p).2 hw)

theorem terminated_leadsTo (checks : Bool) (p : Party) : LeadsTo (step checks) IsQuiet IsThread
    (fun s : Duplex w => s.Sound ∧ s.terminated p = true) fun s => s.Sound ∧ (s.line p).closed = true := by
  have hrank : LeadsTo (step checks) IsQuiet IsThread
      (fun s : Duplex w => ∃ n, (s.Sound ∧ s.terminated p = true) ∧ writerRank (s.backlog p) (s.side p).writer = n)
      fun s => s.Sound ∧ (s.line p).closed = true := by
    refine .of_rank (fun _ => .writer p) (fun _ => trivial) ?_
    rintro n s a ⟨⟨hs, ht⟩, rfl⟩ ha
    have hs' := hs.step checks a
    have ht' := (hs.lasts checks a).terminated p ht
    cases hs.writerSees checks p a with
    | own ha =>
      subst ha
      rcases hs.writer_ends checks ht with hc | hlt
      · exact .inl ⟨hs', hc⟩
      · exact .inr ⟨_, hlt.le, ⟨⟨hs', ht'⟩, rfl⟩, fun _ => hlt⟩
    | adds hne ms hqueue hwriter hbusy =>
      refine .inr ⟨_, ?_, ⟨⟨hs', ht'⟩, rfl⟩, fun h => absurd h hne⟩
      rw [hwriter]
      refine writerRank_mono ?_ _
      rw [backlog, backlog, hqueue, List.length_append]
      have := hbusy ht ha
      omega
  exact hrank.mono (fun s hs => ⟨_, hs, rfl⟩) fun _ h => h

/-! ### A line that ends terminates the other wire -/

/-- Behind these messages there is a termination on the line, or the end of the line. -/
structure Ends (s : Duplex w) (p : Party) (before : List (Message w)) : Prop where
  proper : ∀ m ∈ before, s.Proper p m
  line : ∃ post, (s.line p).bytes = encode before ++ post ∧
    ((∃ rest, post = (Message.termination : Message w).toBytes ++ rest) ∨
    (s.line p).closed = true ∧ (readMessage (s.moduleStyle p.other) : Op (Error w) _ _).run post = .error eof [])

theorem Sound.ends_of_closed (h : s.Sound) (hc : (s.line p).closed = true) : ∃ before, s.Ends p before := by
  obtain ⟨arrived, flying, ahead, cut, hcarries⟩ := h.carries p
  exact ⟨flying, fun m hm => hcarries.proper m (by simp [hm]), cut, hcarries.line,
    .inr ⟨hc, hcarries.severed.readMessage⟩⟩

/-- Nothing more is written to a line that is closed. -/
theorem Writes.bytes {b : WriterPlace} {t : Site w} {o : Line} (h : Writes s p b t o) (hs : s.Sound) :
    ∃ more, o.bytes = (s.line p).bytes ++ more ∧ ((s.line p).closed = true → o.closed = true ∧ more = []) := by
  have hended : ∀ {msgBytes more : List UInt8}, (s.side p).writer = .write msgBytes → (s.line p).closed = true →
      (s.line p).closed = true ∧ more = [] := by
    intro msgBytes more hw hc
    cases hw.symm.trans ((hs.closed p).1 hc)
  cases h with
  | writes hw fault => exact ⟨_, rfl, hended hw⟩
  | fails hw hn => exact ⟨_, rfl, hended hw⟩
  | drops => exact ⟨[], (List.append_nil _).symm, fun _ => ⟨rfl, rfl⟩⟩
  | _ => exact ⟨[], (List.append_nil _).symm, fun hc => ⟨hc, rfl⟩⟩

/-- A step does nothing to the reading end of a line but what the thread there does, and adds to the line at most. -/
inductive ReaderSees (checks : Bool) (s : Duplex w) (p : Party) (a : DuplexAction w) : Prop
  | own (ha : a = .reader p.other)
  | adds (ha : a ≠ .reader p.other) (more : List UInt8)
      (hbytes : ((s.step checks a).line p).bytes = (s.line p).bytes ++ more)
      (hclosed : (s.line p).closed = true → ((s.step checks a).line p).closed = true ∧ more = [])
      (hreader : ((s.step checks a).side p.other).reader = (s.side p.other).reader)

theorem Sound.readerSees (h : s.Sound) (checks : Bool) (p : Party) (a : DuplexAction w) :
    ReaderSees checks s p a := by
  -- nothing happens to the line
  have hsame : a ≠ .reader p.other → ((s.step checks a).line p).bytes = (s.line p).bytes →
      ((s.step checks a).line p).closed = (s.line p).closed →
      ((s.step checks a).side p.other).reader = (s.side p.other).reader → ReaderSees checks s p a :=
    fun ha hb hc hr => .adds ha [] (by rw [hb, List.append_nil]) (fun hcl => ⟨hc.trans hcl, rfl⟩) hr
  cases a with
  | reader q =>
    rcases p.eq_or_eq_other q with rfl | rfl
    · exact hsame (by simp) (by rw [reader_line]) (by rw [reader_line]) (by rw [reader_side_other])
    · exact .own rfl
  | writer q =>
    rcases p.eq_or_eq_other q with rfl | rfl
    · have hstep := step_writer checks s q
      obtain ⟨more, hbytes, hclosed⟩ := (s.writes q).bytes h
      exact .adds (by simp) more (hstep.output ▸ hbytes) (hstep.output ▸ hclosed) (by rw [hstep.other])
    · have hline := writer_line_other checks s p.other
      rw [Party.other_other] at hline
      exact hsame (by simp) (by rw [hline]) (by rw [hline]) (by rw [(step_writer checks s p.other).side])
  | onSide q b =>
    refine hsame (by simp) rfl rfl ?_
    rcases p.eq_or_eq_other q with rfl | rfl
    · rw [onSide_side_other]
    · rw [onSide_side]
      rfl
  | «break» q n =>
    rcases p.eq_or_eq_other q with rfl | rfl
    · exact hsame (by simp) (by rw [break_line]) (by rw [break_line]) rfl
    · have hline := break_line_other checks s p.other n
      rw [Party.other_other] at hline
      exact hsame (by simp) (by rw [hline]) (by rw [hline]) rfl

/-- How many steps the thread takes before it reads. -/
def readerRank : ReaderPlace → Nat
  | .leave | .ended => 0
  | .read => 1
  | .receive => 2
  | .fill => 3

/-- The thread comes closer to the end of the line with each step. -/
private theorem Sound.reader_ends (h : s.Sound) (checks : Bool) (he : s.Ends p before)
    (ht : s.terminated p.other = false) :
    (s.step checks (.reader p.other)).terminated p.other = true ∨ ∃ before',
      (s.step checks (.reader p.other)).Ends p before' ∧
        4 * before'.length + readerRank ((s.step checks (.reader p.other)).side p.other).reader <
          4 * before.length + readerRank (s.side p.other).reader := by
  have hstep := step_reader checks s p.other
  have hl := h.lasts checks (.reader p.other)
  generalize s.step checks (.reader p.other) = s' at hstep hl ⊢
  rw [Party.other_other] at hstep
  have hinput := hstep.input
  rw [Party.other_other] at hinput
  obtain ⟨post, hbytes, hend⟩ := he.line
  have hreader := congrArg Autonomous.reader hstep.side
  have hsite : (s'.side p.other).site = ((s.side p.other).reader.next (s.side p.other).site (s.line p)).2.1 := by
    rw [hstep.side]
    rfl
  have hterm : ((s.side p.other).reader.next (s.side p.other).site (s.line p)).2.1.wire.terminated = true →
      s'.terminated p.other = true := fun h => (congrArg (fun t => t.wire.terminated) hsite).trans h
  -- nothing is taken off the line
  have hsame : s'.line p = s.line p → s'.Ends p before := fun hi =>
    ⟨fun m hm => hl.proper (he.proper m hm), post, by rw [hi, hbytes], by rw [hi, hl.style]; exact hend⟩
  cases hplace : (s.side p.other).reader with
  | fill =>
    rw [hplace] at hreader hinput
    simp only [ReaderPlace.next, show (s.side p.other).site.wire.terminated = false from ht] at hreader hinput
    exact .inr ⟨before, hsame hinput, by rw [hreader]; simp [readerRank]⟩
  | receive =>
    rw [hplace] at hreader hinput
    simp only [ReaderPlace.next, show (s.side p.other).site.wire.terminated = false from ht] at hreader hinput
    exact .inr ⟨before, hsame hinput, by rw [hreader]; simp [readerRank]⟩
  | read =>
    rw [hplace] at hreader hinput hterm
    cases before with
    | nil =>
      rcases hend with ⟨rest, rfl⟩ | ⟨hc, hread⟩
      · obtain ⟨b, t, hnext, -, hhandles, -⟩ := ReaderPlace.next_message (t := (s.side p.other).site)
          (m := .termination) (fun _ h => h) hbytes
        exact .inl (hterm (by rw [hnext]; exact hhandles.ends rfl))
      · rw [encode_nil, List.nil_append] at hbytes
        rw [← hbytes] at hread
        exact .inl (hterm (by rw [ReaderPlace.next_eof (t := (s.side p.other).site) hread hc]; rfl))
    | cons m before =>
      have hstyle : s.moduleStyle p.other = true → ¬ m.IsResponse := fun hs hr => by
        rw [(he.proper m (by simp)).2 hr] at hs
        cases hs
      rw [encode_cons, List.append_assoc] at hbytes
      obtain ⟨b, t, hnext, hb, -, -⟩ := ReaderPlace.next_message (t := (s.side p.other).site) hstyle hbytes
      rw [hnext] at hreader hinput
      refine .inr ⟨before, ⟨fun m' hm' => hl.proper (he.proper m' (by simp [hm'])), post, by rw [hinput], ?_⟩, ?_⟩
      · rw [hinput, hl.style]
        exact hend
      · rw [hreader, List.length_cons]
        rcases hb with rfl | rfl | rfl <;> simp [readerRank] <;> omega
  | leave => exact .inl (hterm (by rw [hplace]; rfl))
  | ended => exact absurd (h.ended p.other (.inl hplace)) (by simp [ht])

theorem ends_leadsTo (checks : Bool) (p : Party) : LeadsTo (step checks) IsQuiet IsThread
    (fun s : Duplex w => s.Sound ∧ ∃ before, s.Ends p before) fun s => s.Sound ∧ s.terminated p.other = true := by
  have hrank : LeadsTo (step checks) IsQuiet IsThread
      (fun s : Duplex w => ∃ n, s.Sound ∧ ∃ before, s.Ends p before ∧
        4 * before.length + readerRank (s.side p.other).reader = n)
      fun s => s.Sound ∧ s.terminated p.other = true := by
    refine .of_rank (fun _ => .reader p.other) (fun _ => trivial) ?_
    rintro n s a ⟨hs, before, he, rfl⟩ -
    have hs' := hs.step checks a
    have hl := hs.lasts checks a
    cases ht : s.terminated p.other with
    | true => exact .inl ⟨hs', hl.terminated _ ht⟩
    | false =>
      cases hs.readerSees checks p a with
      | own ha =>
        subst ha
        rcases hs.reader_ends checks he ht with ht' | ⟨before', he', hlt⟩
        · exact .inl ⟨hs', ht'⟩
        · exact .inr ⟨_, hlt.le, ⟨hs', before', he', rfl⟩, fun _ => hlt⟩
      | adds hne more hbytes hclosed hreader =>
        obtain ⟨post, hpost, hend⟩ := he.line
        refine .inr ⟨_, le_rfl, ⟨hs', before, ⟨fun m hm => hl.proper (he.proper m hm), post ++ more, ?_, ?_⟩, ?_⟩,
          fun h => absurd h hne⟩
        · rw [hbytes, hpost, List.append_assoc]
        · rcases hend with ⟨rest, rfl⟩ | ⟨hc, hread⟩
          · exact .inl ⟨rest ++ more, List.append_assoc ..⟩
          · obtain ⟨hc', rfl⟩ := hclosed hc
            exact .inr ⟨hc', by rw [List.append_nil, hl.style, hread]⟩
        · rw [hreader]
  exact hrank.mono (fun s hs => ⟨_, hs.1, hs.2.choose, hs.2.choose_spec, rfl⟩) fun _ h => h

/-! ### A signal of termination ends the line -/

/-- How many steps the thread takes before it takes a message off the queue. -/
def popRank : WriterPlace → Nat
  | .leave | .ended | .write _ => 0
  | .pop => 1
  | .check => 2
  | .flush => 3

/-- The thread that flushes has come upon an error, or a termination is behind so many messages that it is yet to
write. -/
inductive Announces (s : Duplex w) (p : Party) : Nat → Prop
  | leaves (h : (s.side p).writer = .leave) : Announces s p 0
  | runs (before after : List (List UInt8)) (h : (s.side p).writer.Runs)
      (hpending : (s.side p).pending = before ++ (Message.termination : Message w).toBytes :: after) :
      Announces s p (4 * before.length + popRank (s.side p).writer + 1)

private theorem Sound.announces_writer (h : s.Sound) (checks : Bool) {n : Nat} (ha : s.Announces p n) :
    (∃ before, (s.step checks (.writer p)).Ends p before) ∨ ∃ n' < n, (s.step checks (.writer p)).Announces p n' := by
  have hs' := h.step checks (.writer p)
  have hl := h.lasts checks (.writer p)
  have hstep := step_writer checks s p
  have hwrites := s.writes p
  generalize s.step checks (.writer p) = s' at hs' hl hstep ⊢
  generalize (s.side p).writer.next (s.side p).site (s.line p) = r at hstep hwrites
  obtain ⟨b, t, o⟩ := r
  simp only at hstep hwrites
  have hwriter : (s'.side p).writer = b := by rw [hstep.side]
  have hpending' : (s'.side p).pending = b.inHand ++ t.wire.queue := by rw [Autonomous.pending, hstep.side]
  cases ha with
  | leaves hw =>
    refine .inl (hs'.ends_of_closed ?_)
    rw [hstep.output]
    cases hwrites with
    | drops => rfl
    | stays hw' => cases hw.symm.trans hw'
    | checks hw' | refused hw' | takes hw' | empties hw' | writes hw' | fails hw' | flushes hw' | breaks hw' =>
      cases hw.symm.trans hw'
  | runs before after hruns hpending =>
    have hleave : b = .leave → ∃ n' < 4 * before.length + popRank (s.side p).writer + 1, s'.Announces p n' :=
      fun hb => ⟨0, Nat.succ_pos _, .leaves (hwriter.trans hb)⟩
    -- the thread comes closer to taking the first of the messages
    have hcloser : b.Runs → b.inHand ++ t.wire.queue = (s.side p).pending → popRank b < popRank (s.side p).writer →
        ∃ n' < 4 * before.length + popRank (s.side p).writer + 1, s'.Announces p n' := fun hb hq hlt =>
      ⟨_, by rw [hwriter]; omega, .runs before after (hwriter ▸ hb) (hpending'.trans (hq.trans hpending))⟩
    cases hwrites with
    | checks hw => exact .inr (hcloser trivial (by rw [Autonomous.pending, hw]; rfl) (by simp [hw, popRank]))
    | takes hw hq => exact .inr (hcloser trivial (by rw [Autonomous.pending, hw, hq]; rfl) (by simp [hw, popRank]))
    | flushes hw => exact .inr (hcloser trivial (by rw [Autonomous.pending, hw]; rfl) (by simp [hw, popRank]))
    | empties hw hq => rw [Autonomous.pending, hw, hq] at hpending; simp [WriterPlace.inHand] at hpending
    | @writes msgBytes hw fault =>
      rw [Autonomous.pending, hw] at hpending
      cases before with
      | nil =>
        obtain ⟨rfl, -⟩ := List.cons.inj hpending
        obtain ⟨arrived, flying, ahead, cut, hc⟩ := h.carries p
        obtain ⟨rfl, -⟩ := hc.pending hruns
        refine .inl ⟨flying, fun m hm => ?_, (Message.termination : Message w).toBytes, ?_, .inl ⟨[], rfl⟩⟩
        · exact hl.proper (hc.proper m (by simp [hm]))
        · rw [hstep.output, hc.line, List.append_nil]
      | cons bytes before =>
        obtain ⟨-, hqueue⟩ := List.cons.inj hpending
        refine .inr ⟨_, ?_, .runs before after (hwriter ▸ trivial) (hpending'.trans hqueue)⟩
        rw [hwriter, hw]
        simp [popRank]
        omega
    | refused | fails | breaks => exact .inr (hleave rfl)
    | drops hw => rw [hw] at hruns; cases hruns
    | stays hw => rw [hw] at hruns; cases hruns

theorem announces_leadsTo (checks : Bool) (p : Party) : LeadsTo (step checks) IsQuiet IsThread
    (fun s : Duplex w => ∃ n, s.Sound ∧ s.Announces p n) fun s => s.Sound ∧ ∃ before, s.Ends p before := by
  refine .of_rank (fun _ => .writer p) (fun _ => trivial) ?_
  rintro n s a ⟨hs, ha⟩ -
  have hs' := hs.step checks a
  cases hs.writerSees checks p a with
  | own heq =>
    subst heq
    rcases hs.announces_writer checks ha with he | ⟨n', hlt, ha'⟩
    · exact .inl ⟨hs', he⟩
    · exact .inr ⟨n', hlt.le, ⟨hs', ha'⟩, fun _ => hlt⟩
  | adds hne ms hqueue hwriter hbusy =>
    refine .inr ⟨n, le_rfl, ⟨hs', ?_⟩, fun h => absurd h hne⟩
    cases ha with
    | leaves hw => exact .leaves (hwriter.trans hw)
    | runs before after hruns hpending =>
      rw [← hwriter]
      refine .runs before (after ++ ms) (hwriter ▸ hruns) ?_
      have happ : ((s.step checks a).side p).pending = (s.side p).pending ++ ms := by
        rw [Autonomous.pending, Autonomous.pending, hwriter, hqueue, List.append_assoc]
      rw [happ, hpending, List.append_assoc, List.cons_append]

/-! ### A terminated wire stops reading a closed line -/

/-- How many steps the thread takes before it leaves. -/
def leaveRank : ReaderPlace → Nat
  | .leave | .ended => 0
  | .fill | .receive => 1
  | .read => 2

private theorem Sound.reader_leaves (h : s.Sound) (checks : Bool) (ht : s.terminated p = true)
    (hc : (s.line p.other).closed = true) :
    ((s.step checks (.reader p)).side p).reader = .ended ∨
      leaveRank ((s.step checks (.reader p)).side p).reader < leaveRank (s.side p).reader := by
  obtain ⟨arrived, flying, ahead, cut, hcarries⟩ := h.carries p.other
  have hreads := hcarries.reads
  have hstep := step_reader checks s p
  generalize s.step checks (.reader p) = s' at hstep ⊢
  generalize (s.side p).reader.next (s.side p).site (s.line p.other) = r at hstep hreads
  generalize (s.side p).found (s.line p.other) = found at hstep hreads
  obtain ⟨b, t, i⟩ := r
  simp only at hstep hreads
  have hreader : (s'.side p).reader = b := by rw [hstep.side]
  rw [hreader]
  cases hreads with
  | fills hr ht' | receives hr ht' => rw [ht] at ht'; cases ht'
  | refused hr => rcases hr with hr | hr <;> simp [hr, leaveRank]
  | waits hr hf hc' => rw [hc] at hc'; cases hc'
  | message hr hf ha =>
    rw [hr]
    rcases ha with rfl | rfl | rfl <;> simp [leaveRank]
  | breaks hr | eof hr => simp [hr, leaveRank]
  | drops hr | stays hr => exact .inl rfl

theorem Sound.reader_stays (h : s.Sound) (hne : a ≠ .reader p) :
    ((s.step checks a).side p).reader = (s.side p).reader := by
  have hsees := h.readerSees checks p.other a
  cases hsees with
  | own ha => exact absurd (ha.trans (by rw [Party.other_other])) hne
  | adds _ more hbytes hclosed hreader => rwa [Party.other_other] at hreader

theorem leaves_leadsTo (checks : Bool) (p : Party) : LeadsTo (step checks) IsQuiet IsThread
    (fun s : Duplex w => (s.Sound ∧ s.terminated p = true) ∧ (s.line p.other).closed = true)
    fun s => s.Sound ∧ (s.side p).reader = .ended := by
  have hrank : LeadsTo (step checks) IsQuiet IsThread
      (fun s : Duplex w => ∃ n, ((s.Sound ∧ s.terminated p = true) ∧ (s.line p.other).closed = true) ∧
        leaveRank (s.side p).reader = n)
      fun s => s.Sound ∧ (s.side p).reader = .ended := by
    refine .of_rank (fun _ => .reader p) (fun _ => trivial) ?_
    rintro n s a ⟨⟨⟨hs, ht⟩, hc⟩, rfl⟩ -
    have hs' := hs.step checks a
    have hkept := (⟨⟨hs', (hs.lasts checks a).terminated p ht⟩, hs.closed_lasts hc checks a⟩ :
      ((s.step checks a).Sound ∧ _) ∧ _)
    by_cases ha : a = .reader p
    · subst ha
      rcases hs.reader_leaves checks ht hc with he | hlt
      · exact .inl ⟨hs', he⟩
      · exact .inr ⟨_, hlt.le, ⟨hkept, rfl⟩, fun _ => hlt⟩
    · exact .inr ⟨_, le_rfl, ⟨hkept, by rw [hs.reader_stays ha]⟩, fun h => absurd h ha⟩
  exact hrank.mono (fun s hs => ⟨_, hs, rfl⟩) fun _ h => h

/-! ### The whole shutdown -/

theorem stable_terminated (checks : Bool) (p : Party) (ok : DuplexAction w → Prop) :
    Stable (step checks) ok fun s : Duplex w => s.Sound ∧ s.terminated p = true :=
  fun _ a hs _ => ⟨hs.1.step checks a, (hs.1.lasts checks a).terminated p hs.2⟩

theorem stable_closed (checks : Bool) (p : Party) (ok : DuplexAction w → Prop) :
    Stable (step checks) ok fun s : Duplex w => s.Sound ∧ (s.line p).closed = true :=
  fun _ a hs _ => ⟨hs.1.step checks a, hs.1.closed_lasts hs.2 checks a⟩

theorem stable_reader (checks : Bool) (p : Party) (ok : DuplexAction w → Prop) :
    Stable (step checks) ok fun s : Duplex w => s.Sound ∧ (s.side p).reader = .ended := by
  refine fun s a hs _ => ⟨hs.1.step checks a, ?_⟩
  by_cases ha : a = .reader p
  · rw [ha, (step_reader checks s p).side, hs.2]
    rfl
  · exact (hs.1.reader_stays ha).trans hs.2

/-- Both threads of a side have ended, and its wire is terminated. -/
def Over (s : Duplex w) (p : Party) : Prop :=
  s.terminated p = true ∧ (s.side p).reader = .ended ∧ (s.side p).writer = .ended

theorem over_leadsTo (checks : Bool) (p : Party) : LeadsTo (step checks) IsQuiet IsThread
    (fun s : Duplex w => s.Sound ∧ s.terminated p = true) fun s => s.Sound ∧ ∀ q, s.Over q := by
  have hends : ∀ q, LeadsTo (step checks) IsQuiet IsThread
      (fun s : Duplex w => s.Sound ∧ (s.line q).closed = true) fun s => s.Sound ∧ s.terminated q.other = true :=
    fun q => (ends_leadsTo checks q).mono (fun _ hs => ⟨hs.1, hs.1.ends_of_closed hs.2⟩) fun _ h => h
  have hterm := fun q => stable_terminated (w := w) checks q IsQuiet
  have hclosed := fun q => stable_closed (w := w) checks q IsQuiet
  -- the wire closes its line, which terminates the other one, which closes its own
  have hlines : LeadsTo (step checks) IsQuiet IsThread (fun s : Duplex w => s.Sound ∧ s.terminated p = true)
      fun s => (s.Sound ∧ (s.line p.other).closed = true) ∧ (s.Sound ∧ s.terminated p.other = true) ∧
        (s.Sound ∧ (s.line p).closed = true) ∧ s.Sound ∧ s.terminated p = true := by
    have h₁ := ((terminated_leadsTo checks p).and_stable (hterm p)).mono (fun _ h => ⟨h, h⟩) fun _ h => h
    have h₂ := ((hends p).and_stable ((hclosed p).and (hterm p))).mono (fun _ h => ⟨h.1, h⟩) fun _ h => h
    have h₃ := ((terminated_leadsTo checks p.other).and_stable ((hterm p.other).and ((hclosed p).and (hterm p)))).mono
      (fun _ h => ⟨h.1, h⟩) fun _ h => h
    exact h₁.trans (h₂.trans h₃)
  -- and then both threads that read leave
  have hkept := (hclosed p.other).and ((hterm p.other).and ((hclosed p).and (hterm p)))
  have hleave := ((leaves_leadsTo checks p).and_stable hkept).mono (fun _ h => ⟨⟨h.2.2.2, h.1.2⟩, h⟩) fun _ h => h
  have hleave' := ((leaves_leadsTo checks p.other).and_stable ((stable_reader checks p IsQuiet).and hkept)).mono
    (fun _ h => ⟨⟨h.2.2.1, by rw [Party.other_other]; exact h.2.2.2.1.2⟩, h⟩) fun _ h => h
  refine (hlines.trans (hleave.trans hleave')).mono (fun _ h => h) ?_
  rintro s ⟨hreader', hreader, hclosed', hterm', hclosed, hterm⟩
  refine ⟨hterm.1, forall_party p ?_ ?_⟩
  · exact ⟨hterm.2, hreader.2, (hterm.1.closed p).1 hclosed.2⟩
  · exact ⟨hterm'.2, hreader'.2, (hterm.1.closed p.other).1 hclosed'.2⟩

theorem stable_over (checks : Bool) (ok : DuplexAction w → Prop) :
    Stable (step checks) ok fun s : Duplex w => s.Sound ∧ ∀ q, s.Over q := by
  refine fun s a hs ha => ⟨hs.1.step checks a, fun q => ⟨?_, ?_, ?_⟩⟩
  · exact (hs.1.lasts checks a).terminated q (hs.2 q).1
  · exact (stable_reader checks q ok s a ⟨hs.1, (hs.2 q).2.1⟩ ha).2
  · have hclosed := hs.1.closed_lasts ((hs.1.closed q).2 (hs.2 q).2.2) checks a
    exact ((hs.1.step checks a).closed q).1 hclosed

theorem sent_lasts (checks : Bool) (s : Duplex w) (a : DuplexAction w) :
    ∀ p, (s.side p).sent <+: ((s.step checks a).side p).sent := by
  cases a with
  | reader q =>
    refine forall_party q ?_ ?_
    · rw [reader_side]
      exact List.prefix_append _ _
    · rw [reader_side_other]
  | writer q =>
    refine forall_party q ?_ ?_
    · rw [writer_side]
      exact List.prefix_rfl
    · rw [writer_side_other]
  | onSide q b =>
    refine forall_party q ?_ ?_
    · rw [onSide_side]
      exact List.prefix_append _ _
    · rw [onSide_side_other]
  | «break» q n => exact fun _ => List.prefix_rfl

/-- A wire is terminated, or its termination has been signalled. -/
def Stopping (s : Duplex w) : Prop :=
  ∃ p, s.terminated p = true ∨ (Message.termination : Message w).toBytes ∈ (s.side p).sent

theorem stable_stopping (checks : Bool) (ok : DuplexAction w → Prop) :
    Stable (step checks) ok fun s : Duplex w => s.Sound ∧ s.Stopping := by
  rintro s a ⟨hs, p, hp⟩ -
  refine ⟨hs.step checks a, p, hp.imp ((hs.lasts checks a).terminated p) fun hmem => ?_⟩
  exact (sent_lasts checks s a p).subset hmem

theorem stopping_leadsTo (checks : Bool) : LeadsTo (step checks) IsQuiet IsThread
    (fun s : Duplex w => s.Sound ∧ s.Stopping) fun s => s.Sound ∧ ∀ q, s.Over q := by
  rintro u s ⟨hs, p, ht | hmem⟩
  · exact over_leadsTo checks p u s ⟨hs, ht⟩
  · have hends : (∃ before, s.Ends p before) →
        ∃ n, (u.run (step checks) s n).Sound ∧ ∀ q, (u.run (step checks) s n).Over q :=
      fun he => (ends_leadsTo checks p).trans (over_leadsTo checks p.other) u s ⟨hs, he⟩
    have hannounces : ∀ n, s.Announces p n →
        ∃ n, (u.run (step checks) s n).Sound ∧ ∀ q, (u.run (step checks) s n).Over q :=
      fun n ha => (announces_leadsTo checks p).trans ((ends_leadsTo checks p).trans (over_leadsTo checks p.other)) u s
        ⟨n, hs, ha⟩
    obtain ⟨arrived, flying, ahead, cut, hc⟩ := hs.carries p
    rw [hc.sent] at hmem
    obtain ⟨m, hm, heq⟩ := List.mem_map.1 hmem
    obtain rfl : m = .termination := (Message.toBytes_append_inj (congrArg (· ++ []) heq)).1
    rcases List.mem_append.1 hm with hm | hm
    · rcases List.mem_append.1 hm with hm | hm
      · exact over_leadsTo checks p.other u s ⟨hs, hc.stop hm⟩
      · obtain ⟨before, after, rfl⟩ := List.append_of_mem hm
        refine hends ⟨before, fun m hm => hc.proper m (by simp [hm]), encode (.termination :: after) ++ cut, ?_,
          .inl ⟨encode after ++ cut, ?_⟩⟩
        · rw [hc.line, encode_append, List.append_assoc]
        · rw [encode_cons, List.append_assoc]
    · cases hw : (s.side p).writer with
      | leave => exact hannounces 0 (.leaves hw)
      | ended => exact hends (hs.ends_of_closed ((hs.closed p).2 hw))
      | check | pop | write | flush =>
        have hruns : (s.side p).writer.Runs := by rw [hw]; trivial
        obtain ⟨before, after, rfl⟩ := List.append_of_mem hm
        refine hannounces _ (.runs (before.map Message.toBytes) (after.map Message.toBytes) hruns ?_)
        rw [(hc.pending hruns).2, List.map_append, List.map_cons]

/-- Two autonomous wires of which one is terminated, or has signalled its termination, come to their end in every fair
schedule of their threads, whatever the programs around them do meanwhile, if they do not signal terminations for ever:
then both wires are terminated, all threads have ended, and that is how they stay. -/
theorem shuts_down {t : Party → Site w} (ht : Connects t)
    (h : Reaches (step checks) (fun _ _ => True) (start t) s) (hstop : s.Stopping)
    (u : Schedule (fun _ => True) IsThread) (hu : ∃ n, ∀ m, n ≤ m → (u.move m).IsQuiet) :
    ∃ n, ∀ m, n ≤ m → ∀ p, (u.run (step checks) s m).Over p := by
  have hs : s.Sound := h.invariant (start_sound ht) fun s a hs _ => hs.step checks a
  obtain ⟨n, hn⟩ := hu
  have hstopping := (stable_stopping checks _).run u ⟨hs, hstop⟩ n
  obtain ⟨k, hk⟩ := stopping_leadsTo checks (u.drop n fun m => hn _ (Nat.le_add_right n m)) _ hstopping
  rw [Schedule.run_drop] at hk
  exact ⟨n + k, fun m hm => ((stable_over checks _).run_le u hm hk).2⟩

/-- The four threads in turn. -/
private def roundRobin : Schedule (fun _ : DuplexAction .u8 => True) IsThread where
  move n :=
    match n % 4 with
    | 0 => .reader .alice
    | 1 => .writer .alice
    | 2 => .reader .bob
    | _ => .writer .bob
  ok _ := trivial
  fair a ha n := by
    have hturn : ∀ k < 4, n ≤ 4 * n + k ∧ (4 * n + k) % 4 = k := fun k hk => by omega
    cases a with
    | reader p =>
      cases p with
      | alice => exact ⟨4 * n + 0, (hturn 0 (by decide)).1, by simp only [(hturn 0 (by decide)).2]⟩
      | bob => exact ⟨4 * n + 2, (hturn 2 (by decide)).1, by simp only [(hturn 2 (by decide)).2]⟩
    | writer p =>
      cases p with
      | alice => exact ⟨4 * n + 1, (hturn 1 (by decide)).1, by simp only [(hturn 1 (by decide)).2]⟩
      | bob => exact ⟨4 * n + 3, (hturn 3 (by decide)).1, by simp only [(hturn 3 (by decide)).2]⟩
    | onSide p b => exact absurd ha id
    | «break» p n => exact absurd ha id

private theorem roundRobin_isQuiet (m : Nat) : (roundRobin.move m).IsQuiet := by
  show (match m % 4 with
    | 0 => DuplexAction.reader Party.alice
    | 1 => .writer .alice
    | 2 => .reader .bob
    | _ => .writer .bob : DuplexAction .u8).IsQuiet
  split <;> trivial

private def newWires (p : Party) : Site .u8 := ⟨.new, .new ⟨0⟩ (decide (p = .bob)) 4⟩

private theorem newWires_connect : Connects newWires where
  queue p := ⟨[], rfl, by simp⟩
  started p h := absurd rfl h

/-- One side signals its termination, and then only the threads go on. -/
private def signalledEnd : Duplex .u8 := (start newWires).step true (.onSide .alice .signalTermination)

theorem shuts_down_roundRobin :
    ∃ n, ∀ m, n ≤ m → ∀ p, (roundRobin.run (step true) signalledEnd m).Over p :=
  shuts_down newWires_connect (.next .start trivial) ⟨.alice, .inr (List.mem_singleton.2 rfl)⟩ roundRobin
    ⟨0, fun m _ => roundRobin_isQuiet m⟩

end Duplex

end Ipfi
