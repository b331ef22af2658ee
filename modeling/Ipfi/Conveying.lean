import Ipfi.Handling

/-!
# Messages between autonomous wires

Whatever the four threads of two connected autonomous wires and the programs around them do, one step at a time and in
any order, the messages that one side has put on its queue are handled by the other in that order, and none of them
twice or in part.
-/

namespace Ipfi

variable {w : IntFeature}

/-! ### What the thread that fills does -/

namespace ReaderPlace

variable {t : Site w} {i : Line} {m : Message w} {rest : List UInt8}

/-- The thread has a whole message before it. -/
theorem next_message (hm : t.wire.moduleStyle = true → ¬ m.IsResponse) (hi : i.bytes = m.toBytes ++ rest) :
    ∃ a t', read.next t i = (a, t', { i with bytes := rest }) ∧ (a = fill ∨ a = receive ∨ a = leave) ∧
      Wire.Handles m t.wire t'.wire ∧ i.message? t.wire.moduleStyle = some m.incoming := by
  have hread := readMessage_toBytes t.wire.moduleStyle m rest (by rintro hs p c tm b rfl; exact hm hs trivial)
  obtain ⟨hrest, hhandles⟩ := Receiver.receiveChecked_handles m t rest hm
  have hawaits : i.awaits w t.wire.moduleStyle = false := by rw [Line.awaits, hi, hread]
  have hfound : i.message? t.wire.moduleStyle = some m.incoming := by rw [Line.message?, hi, hread]
  simp only [next, hawaits, Bool.false_eq_true, if_false, hi]
  generalize Receiver.receiveChecked.run ⟨t, m.toBytes ++ rest⟩ = r at hrest hhandles ⊢
  rcases r with ⟨_ | b, x⟩ | ⟨e, x⟩ <;>
    simp only [EStateM.Result.state_ok, EStateM.Result.state_error] at hrest hhandles <;> subst hrest
  · exact ⟨fill, _, rfl, .inl rfl, hhandles, hfound⟩
  · exact ⟨receive, _, rfl, .inr (.inl rfl), hhandles, hfound⟩
  · exact ⟨leave, _, rfl, .inr (.inr rfl), hhandles, hfound⟩

/-- The thread has come to the end of the line. -/
theorem next_eof (hi : (readMessage t.wire.moduleStyle : Op (Error w) _ _).run i.bytes = .error eof [])
    (hc : i.closed = true) : read.next t i = (leave, t.markTerminated, { i with bytes := [] }) := by
  have hawaits : i.awaits w t.wire.moduleStyle = false := by simp [Line.awaits, hi, hc]
  have hrun : Receiver.receiveChecked.run ⟨t, i.bytes⟩ = .error eof ⟨t.markTerminated, []⟩ := by
    show Receiver.atEof ((Receiver.onReader (readMessage t.wire.moduleStyle) >>= fun m =>
      Receiver.onSite (Site.receive m)).run _) = _
    rw [EStateM.run_bind, Receiver.onReader, EStateM.run_zoom, hi]
    rfl
  simp only [next, hawaits, Bool.false_eq_true, if_false, hrun]

/-- The thread waits for more to come in. -/
theorem next_awaits (hi : (readMessage t.wire.moduleStyle : Op (Error w) _ _).run i.bytes = .error eof [])
    (hc : i.closed = false) : read.next t i = (if i.fault.isSome then leave else read, t, i) := by
  have hawaits : i.awaits w t.wire.moduleStyle = true := by simp [Line.awaits, hi, hc]
  simp only [next, hawaits, if_true]

end ReaderPlace

/-! ### What is on its way -/

/-- The message that the thread has taken off the queue and not written yet. -/
def WriterPlace.inHand : WriterPlace → List (List UInt8)
  | write msgBytes => [msgBytes]
  | _ => []

/-- What the thread that flushes is yet to write. -/
def Autonomous.pending (x : Autonomous w) : List (List UInt8) := x.writer.inHand ++ x.site.wire.queue

/-- The thread has not come upon an error. -/
def WriterPlace.Runs : WriterPlace → Prop
  | leave | ended => False
  | _ => True

namespace Duplex

def moduleStyle (s : Duplex w) (p : Party) : Bool := (s.side p).site.wire.moduleStyle

def terminated (s : Duplex w) (p : Party) : Bool := (s.side p).site.wire.terminated

/-- Calls are made by a wire that can call, and what answers them goes back to it. -/
def Proper (s : Duplex w) (p : Party) (m : Message w) : Prop :=
  (m.IsCall → s.moduleStyle p = false) ∧ (m.IsResponse → s.moduleStyle p.other = false)

/-- A message of which a part was written before the line failed. -/
def Severed (s : Duplex w) (p : Party) (cut : List UInt8) : Prop :=
  ∃ m : Message w, s.Proper p m ∧ ∃ n < m.toBytes.length, cut = m.toBytes.take n

/-- Of the messages of one side some have been handled by the other side, some are on the line, and some are yet to be
written, unless the line has failed. -/
structure Carries (s : Duplex w) (p : Party) (arrived flying ahead : List (Message w)) (cut : List UInt8) : Prop where
  sent : (s.side p).sent = (arrived ++ flying ++ ahead).map Message.toBytes
  handled : (s.side p.other).handled = arrived.map Message.incoming
  line : (s.line p).bytes = encode flying ++ cut
  pending : (s.side p).writer.Runs → cut = [] ∧ (s.side p).pending = ahead.map Message.toBytes
  severed : s.Severed p cut
  proper : ∀ m ∈ arrived ++ flying ++ ahead, s.Proper p m
  stop : Message.termination ∈ arrived → s.terminated p.other = true

structure Sound (s : Duplex w) : Prop where
  carries : ∀ p, ∃ arrived flying ahead cut, s.Carries p arrived flying ahead cut
  closed : ∀ p, (s.line p).closed = true ↔ (s.side p).writer = .ended
  ended : ∀ p, (s.side p).reader = .ended ∨ (s.side p).writer = .ended → s.terminated p = true
  started : ∀ p, (s.side p).site.wire.started ≠ [] → s.moduleStyle p.other = false
  late : ∀ p, (s.side p).late.length ≤ 1 ∧
    ((s.side p).late ≠ [] → s.terminated p = true ∧ (s.side p).reader ≠ .read)

variable {s s' : Duplex w} {p : Party} {arrived flying ahead ms : List (Message w)} {cut : List UInt8} {m : Message w}

theorem forall_party (p : Party) {P : Party → Prop} (h : P p) (h' : P p.other) : ∀ q, P q := fun q =>
  (p.eq_or_eq_other q).elim (fun hq => hq ▸ h) fun hq => hq ▸ h'

/-- No wire changes its style, and none is running again once it is terminated. -/
structure Lasts (s s' : Duplex w) : Prop where
  style : ∀ q, s'.moduleStyle q = s.moduleStyle q
  terminated : ∀ q, s.terminated q = true → s'.terminated q = true

/-- Only one side does anything. -/
theorem Lasts.of_side (hstyle : (s'.side p).site.wire.moduleStyle = s.moduleStyle p)
    (hterm : s.terminated p = true → (s'.side p).site.wire.terminated = true)
    (hother : s'.side p.other = s.side p.other) :
    s.Lasts s' where
  style := forall_party p hstyle (by rw [moduleStyle, hother]; rfl)
  terminated := forall_party p hterm (by rw [Duplex.terminated, Duplex.terminated, hother]; exact fun h => h)

theorem Lasts.proper (hl : s.Lasts s') (h : s.Proper p m) : s'.Proper p m :=
  ⟨fun hm => (hl.style p).trans (h.1 hm), fun hm => (hl.style p.other).trans (h.2 hm)⟩

theorem Lasts.severed (hl : s.Lasts s') (h : s.Severed p cut) : s'.Severed p cut :=
  let ⟨m, hm, hcut⟩ := h
  ⟨m, hl.proper hm, hcut⟩

theorem severed_nil (s : Duplex w) (p : Party) : s.Severed p [] :=
  ⟨.termination, ⟨fun h => absurd h id, fun h => absurd h id⟩, 0, Nat.one_pos, rfl⟩

/-- What is left of a message stays incomplete. -/
theorem Severed.readMessage (h : s.Severed p cut) :
    (Ipfi.readMessage (s.moduleStyle p.other) : Op (Error w) _ _).run cut = .error eof [] := by
  obtain ⟨m, hm, n, hn, rfl⟩ := h
  have hread := readMessage_toBytes (s.moduleStyle p.other) m []
    (by rintro hs p' c tm b rfl; exact absurd hs (by simp [hm.2 trivial]))
  have hmore : m.toBytes.drop n ≠ [] := by simp; omega
  refine (readMessage_incremental _).truncated hmore ?_
  rw [List.take_append_drop, ← List.append_nil m.toBytes, hread]
  rfl

/-- One side puts messages on its queue, and otherwise nothing happens to what it sends. -/
theorem Carries.grow (h : s.Carries p arrived flying ahead cut)
    (hsent : (s'.side p).sent = (s.side p).sent ++ ms.map Message.toBytes)
    (hhandled : (s'.side p.other).handled = (s.side p.other).handled) (hline : (s'.line p).bytes = (s.line p).bytes)
    (hpending : (s'.side p).writer.Runs →
      (s.side p).writer.Runs ∧ (s'.side p).pending = (s.side p).pending ++ ms.map Message.toBytes)
    (hms : ∀ m ∈ ms, s.Proper p m) (hl : s.Lasts s') : s'.Carries p arrived flying (ahead ++ ms) cut where
  sent := by rw [hsent, h.sent, ← List.map_append, List.append_assoc]
  handled := hhandled.trans h.handled
  line := hline.trans h.line
  pending hr := by
    obtain ⟨hr', hp⟩ := hpending hr
    obtain ⟨hcut, hp'⟩ := h.pending hr'
    exact ⟨hcut, by rw [hp, hp', List.map_append]⟩
  severed := hl.severed h.severed
  proper m hm := by
    rw [← List.append_assoc] at hm
    exact hl.proper ((List.mem_append.1 hm).elim (h.proper m) (hms m))
  stop ha := hl.terminated _ (h.stop ha)

/-- Nothing happens to what one side sends. -/
theorem Carries.keep (h : s.Carries p arrived flying ahead cut) (hsent : (s'.side p).sent = (s.side p).sent)
    (hhandled : (s'.side p.other).handled = (s.side p.other).handled) (hline : (s'.line p).bytes = (s.line p).bytes)
    (hpending : (s'.side p).writer.Runs → (s.side p).writer.Runs ∧ (s'.side p).pending = (s.side p).pending)
    (hl : s.Lasts s') : s'.Carries p arrived flying ahead cut := by
  have hgrow : s'.Carries p arrived flying (ahead ++ []) cut :=
    h.grow (by rw [hsent, List.map_nil, List.append_nil]) hhandled hline
      (fun hr => by rw [List.map_nil, List.append_nil]; exact hpending hr) (by simp) hl
  rwa [List.append_nil] at hgrow

/-! ### Steps of the thread that fills -/

/-- What the thread does next when these messages, and a part of another, are on its line. -/
inductive Reads (s : Duplex w) (p : Party) (flying : List (Message w)) (cut : List UInt8) :
    ReaderPlace → Site w → Line → List (Incoming w) → Prop
  | fills (h : (s.side p).reader = .fill) (ht : s.terminated p = false) :
      Reads s p flying cut .receive (s.side p).site (s.line p.other) []
  | receives (h : (s.side p).reader = .receive) (ht : s.terminated p = false) :
      Reads s p flying cut .read (s.side p).site (s.line p.other) []
  | refused (h : (s.side p).reader = .fill ∨ (s.side p).reader = .receive) (ht : s.terminated p = true) :
      Reads s p flying cut .leave (s.side p).site (s.line p.other) []
  | waits (h : (s.side p).reader = .read) (hf : flying = []) (hc : (s.line p.other).closed = false) :
      Reads s p flying cut .read (s.side p).site (s.line p.other) []
  | breaks (h : (s.side p).reader = .read) :
      Reads s p flying cut .leave (s.side p).site (s.line p.other) []
  | message (h : (s.side p).reader = .read) {m : Message w} {rest : List (Message w)} (hf : flying = m :: rest)
      {a : ReaderPlace} (ha : a = .fill ∨ a = .receive ∨ a = .leave) {t : Site w}
      (ht : Wire.Handles m (s.side p).site.wire t.wire) :
      Reads s p flying cut a t { s.line p.other with bytes := encode rest ++ cut } [m.incoming]
  | eof (h : (s.side p).reader = .read) (hf : flying = []) :
      Reads s p flying cut .leave (s.side p).site.markTerminated { s.line p.other with bytes := [] } []
  | drops (h : (s.side p).reader = .leave) :
      Reads s p flying cut .ended (s.side p).site.dropClone { s.line p.other with fault := some 0 } []
  | stays (h : (s.side p).reader = .ended) : Reads s p flying cut .ended (s.side p).site (s.line p.other) []

theorem Carries.reads (h : s.Carries p.other arrived flying ahead cut) :
    Reads s p flying cut ((s.side p).reader.next (s.side p).site (s.line p.other)).1
      ((s.side p).reader.next (s.side p).site (s.line p.other)).2.1
      ((s.side p).reader.next (s.side p).site (s.line p.other)).2.2 ((s.side p).found (s.line p.other)) := by
  have hfound : (s.side p).reader ≠ .read → (s.side p).found (s.line p.other) = [] := fun hr => if_neg hr
  cases hreader : (s.side p).reader with
  | fill =>
    rw [hfound (by simp [hreader])]
    simp only [ReaderPlace.next]
    split
    · exact .refused (.inl hreader) ‹_›
    · exact .fills hreader (Bool.eq_false_iff.2 ‹_›)
  | receive =>
    rw [hfound (by simp [hreader])]
    simp only [ReaderPlace.next]
    split
    · exact .refused (.inr hreader) ‹_›
    · exact .receives hreader (Bool.eq_false_iff.2 ‹_›)
  | read =>
    have hfind : (s.side p).found (s.line p.other) = ((s.line p.other).message? (s.moduleStyle p)).toList :=
      if_pos hreader
    rw [hfind]
    cases hflying : flying with
    | cons m rest =>
      have hbytes : (s.line p.other).bytes = m.toBytes ++ (encode rest ++ cut) := by
        rw [h.line, hflying, encode_cons, List.append_assoc]
      have hproper := h.proper m (by simp [hflying])
      have hstyle : s.moduleStyle p = true → ¬ m.IsResponse := by
        intro hs hr
        have hp := hproper.2 hr
        rw [Party.other_other, hs] at hp
        cases hp
      obtain ⟨a, t, hnext, ha, hhandles, hmessage⟩ := ReaderPlace.next_message (t := (s.side p).site) hstyle hbytes
      rw [hnext, show (s.line p.other).message? (s.moduleStyle p) = some m.incoming from hmessage]
      exact .message hreader rfl ha hhandles
    | nil =>
      have hread := h.severed.readMessage
      rw [Party.other_other] at hread
      have hbytes : (s.line p.other).bytes = cut := by rw [h.line, hflying, encode_nil, List.nil_append]
      rw [← hbytes] at hread
      rw [show (s.line p.other).message? (s.moduleStyle p) = (none : Option (Incoming w)) by rw [Line.message?, hread]]
      cases hc : (s.line p.other).closed with
      | true =>
        rw [ReaderPlace.next_eof hread hc]
        exact .eof hreader rfl
      | false =>
        rw [ReaderPlace.next_awaits hread hc]
        split
        · exact .breaks hreader
        · exact .waits hreader rfl hc
  | leave =>
    rw [hfound (by simp [hreader])]
    exact .drops hreader
  | ended =>
    rw [hfound (by simp [hreader])]
    exact .stays hreader

namespace Reads

variable {a : ReaderPlace} {t : Site w} {i : Line} {found : List (Incoming w)}

theorem puts (h : Reads s p flying cut a t i found) (hc : s.Carries p.other arrived flying ahead cut) :
    ∃ ms, Wire.Puts ms (s.side p).site.wire t.wire ∧ (∀ m ∈ ms, s.Proper p m) ∧
      (s.terminated p = true → ms.length ≤ 1) := by
  have hnothing : ∀ {x : Wire w}, x.queue = (s.side p).site.wire.queue → x.moduleStyle = s.moduleStyle p →
      (s.terminated p = true → x.terminated = true) →
      ∃ ms, Wire.Puts ms (s.side p).site.wire x ∧ (∀ m ∈ ms, s.Proper p m) ∧ (s.terminated p = true → ms.length ≤ 1) :=
    fun hq hs ht => ⟨[], .nothing hq hs ht, by simp, by simp⟩
  cases h with
  | @message _ m rest hf a ha t ht =>
    obtain ⟨ms, hputs, hms, hlen, hcall⟩ := ht.puts
    refine ⟨ms, hputs, fun m' hm' => ⟨fun hm => ?_, fun _ => ?_⟩, hlen⟩
    · have hr := hms m' hm'
      cases m' <;> first | exact absurd hm id | exact absurd hr id
    · -- only a call is answered, and the other side has made it
      have hm : m.IsCall := by
        by_contra hm
        rw [hcall hm] at hm'
        cases hm'
      exact (hc.proper m (by simp [hf])).1 hm
  | fills | receives | refused | waits | breaks | stays => exact hnothing rfl rfl fun h => h
  | eof | drops => exact hnothing rfl rfl fun _ => rfl

theorem closed (h : Reads s p flying cut a t i found) : i.closed = (s.line p.other).closed := by
  cases h <;> rfl

theorem ended (h : Reads s p flying cut a t i found) (hs : s.Sound) (ha : a = .ended) : t.wire.terminated = true := by
  cases h with
  | drops => rfl
  | stays h => exact hs.ended p (.inl h)
  | message _ _ ha' => rcases ha' with rfl | rfl | rfl <;> cases ha
  | _ => cases ha

end Reads

/-- What a step of the thread that fills changes. -/
structure ReaderStep (s s' : Duplex w) (p : Party) (a : ReaderPlace) (t : Site w) (i : Line)
    (found : List (Incoming w)) : Prop where
  side : s'.side p = { (s.side p).moveTo t with
    reader := a
    handled := (s.side p).handled ++ found
    late := (s.side p).late ++ if s.terminated p then found else [] }
  other : s'.side p.other = s.side p.other
  line : s'.line p = s.line p
  input : s'.line p.other = i

theorem step_reader (checks : Bool) (s : Duplex w) (p : Party) :
    ReaderStep s (s.step checks (.reader p)) p ((s.side p).reader.next (s.side p).site (s.line p.other)).1
      ((s.side p).reader.next (s.side p).site (s.line p.other)).2.1
      ((s.side p).reader.next (s.side p).site (s.line p.other)).2.2 ((s.side p).found (s.line p.other)) where
  side := reader_side checks s p
  other := reader_side_other checks s p
  line := reader_line checks s p
  input := reader_line_other checks s p

theorem moveTo_sent {x : Autonomous w} {t : Site w} (h : Wire.Puts ms x.site.wire t.wire) :
    (x.moveTo t).sent = x.sent ++ ms.map Message.toBytes := by
  rw [Autonomous.moveTo, h.queue, List.drop_left]

theorem pending_puts {x x' : Autonomous w} (h : Wire.Puts ms x.site.wire x'.site.wire) (hw : x'.writer = x.writer) :
    x'.pending = x.pending ++ ms.map Message.toBytes := by
  rw [Autonomous.pending, Autonomous.pending, hw, h.queue, List.append_assoc]

section

variable {a : ReaderPlace} {t : Site w} {i : Line} {found : List (Incoming w)}

theorem ReaderStep.lasts (hstep : ReaderStep s s' p a t i found) (hc : s.Carries p.other arrived flying ahead cut)
    (hreads : Reads s p flying cut a t i found) : s.Lasts s' := by
  obtain ⟨ms, hputs, -, -⟩ := hreads.puts hc
  have hsite : (s'.side p).site = t := by rw [hstep.side]; rfl
  refine .of_side ?_ ?_ hstep.other
  · rw [hsite]
    exact hputs.style
  · rw [hsite]
    exact hputs.terminated

/-- What comes off the line has been handled. -/
private theorem ReaderStep.carries (hstep : ReaderStep s s' p a t i found)
    (hc : s.Carries p.other arrived flying ahead cut) (hreads : Reads s p flying cut a t i found) :
    ∃ arrived flying ahead cut, s'.Carries p.other arrived flying ahead cut := by
  have hl := hstep.lasts hc hreads
  have hhandled : (s'.side p.other.other).handled = (s.side p.other.other).handled ++ found := by
    rw [Party.other_other, hstep.side]
  have hterm : (t.wire.terminated = true) → s'.terminated p.other.other = true := by
    intro ht
    rw [Party.other_other, terminated, hstep.side]
    exact ht
  have hpending : (s'.side p.other).writer.Runs →
      (s.side p.other).writer.Runs ∧ (s'.side p.other).pending = (s.side p.other).pending := by
    rw [hstep.other]
    exact fun hr => ⟨hr, rfl⟩
  have hkeep : found = [] → i.bytes = (s.line p.other).bytes → s'.Carries p.other arrived flying ahead cut := by
    rintro rfl hi
    exact hc.keep (by rw [hstep.other]) (by rw [hhandled, List.append_nil]) (by rw [hstep.input, hi]) hpending hl
  cases hreads with
  | @message _ m rest hf a ha t ht =>
    subst hf
    refine ⟨arrived ++ [m], rest, ahead, cut, ?_, ?_, by rw [hstep.input], ?_, hl.severed hc.severed, ?_, fun hm => ?_⟩
    · rw [hstep.other, hc.sent]
      simp
    · rw [hhandled, hc.handled, List.map_append]
      rfl
    · exact fun hr => (hpending hr).2 ▸ hc.pending (hpending hr).1
    · exact fun m' hm' => hl.proper (hc.proper m' (by simpa using hm'))
    · rcases List.mem_append.1 hm with hm | hm
      · exact hl.terminated _ (hc.stop hm)
      · exact hterm (ht.ends (List.mem_singleton.1 hm).symm)
  | eof hr hf =>
    subst hf
    refine ⟨arrived, [], ahead, [], ?_, ?_, by rw [hstep.input]; rfl, fun hr => ⟨rfl, ?_⟩, s'.severed_nil _, ?_,
      fun hm => hl.terminated _ (hc.stop hm)⟩
    · rw [hstep.other, hc.sent]
    · rw [hhandled, hc.handled, List.append_nil]
    · rw [(hpending hr).2, (hc.pending (hpending hr).1).2]
    · exact fun m' hm' => hl.proper (hc.proper m' hm')
  | _ => exact ⟨_, _, _, _, hkeep rfl rfl⟩

/-- Only a call starts an execution, and the other side has made it. -/
private theorem Reads.started (hreads : Reads s p flying cut a t i found) (h : s.Sound)
    (hc : s.Carries p.other arrived flying ahead cut) (hne : t.wire.started ≠ []) : s.moduleStyle p.other = false := by
  cases hreads with
  | @message _ m rest hf a ha t ht =>
    by_cases hm : m.IsCall
    · exact (hc.proper m (by simp [hf])).1 hm
    · exact h.started p (ht.started hm ▸ hne)
  | _ => exact h.started p hne

/-- A thread that has read on a terminated wire does not read again. -/
private theorem Reads.late (hreads : Reads s p flying cut a t i found) (h : s.Sound)
    (hterm : s.terminated p = true → t.wire.terminated = true) :
    ((s.side p).late ++ if s.terminated p then found else []).length ≤ 1 ∧
      (((s.side p).late ++ if s.terminated p then found else []) ≠ [] → t.wire.terminated = true ∧ a ≠ .read) := by
  obtain ⟨hlen, hlate⟩ := h.late p
  have hkeep : found = [] → ((s.side p).late ≠ [] → a ≠ .read) →
      ((s.side p).late ++ if s.terminated p then found else []).length ≤ 1 ∧
        (((s.side p).late ++ if s.terminated p then found else []) ≠ [] → t.wire.terminated = true ∧ a ≠ .read) := by
    rintro rfl ha
    rw [ite_self, List.append_nil]
    exact ⟨hlen, fun hne => ⟨hterm (hlate hne).1, ha hne⟩⟩
  cases hreads with
  | receives hr ht => exact hkeep rfl fun hne => by rw [(hlate hne).1] at ht; cases ht
  | waits hr hf hcl => exact hkeep rfl fun hne => absurd hr (hlate hne).2
  | @message hr m rest hf a ha t ht =>
    have hnil : (s.side p).late = [] := by
      by_contra hne
      exact (hlate hne).2 hr
    rw [hnil, List.nil_append]
    split
    · refine ⟨Nat.le_refl 1, fun _ => ⟨hterm ‹_›, ?_⟩⟩
      rcases ha with rfl | rfl | rfl <;> decide
    · exact ⟨Nat.zero_le 1, fun hne => absurd rfl hne⟩
  | _ => exact hkeep rfl fun _ => by decide

theorem ReaderStep.sound (hstep : ReaderStep s s' p a t i found) (h : s.Sound)
    (hc : s.Carries p.other arrived flying ahead cut) (hreads : Reads s p flying cut a t i found) : s'.Sound := by
  obtain ⟨ms, hputs, hms, hlen⟩ := hreads.puts hc
  have hsite : (s'.side p).site = t := by rw [hstep.side]; rfl
  have hwriter : (s'.side p).writer = (s.side p).writer := by rw [hstep.side]; rfl
  have hreader : (s'.side p).reader = a := by rw [hstep.side]
  have hl := hstep.lasts hc hreads
  have hwire : Wire.Puts ms (s.side p).site.wire (s'.side p).site.wire := hsite.symm ▸ hputs
  refine ⟨forall_party p ?_ ?_, forall_party p ?_ ?_, forall_party p ?_ ?_, forall_party p ?_ ?_, forall_party p ?_ ?_⟩
  · obtain ⟨arrived', flying', ahead', cut', hout⟩ := h.carries p
    refine ⟨arrived', flying', ahead' ++ ms, cut', hout.grow ?_ (by rw [hstep.other]) (by rw [hstep.line])
      (fun hr => ?_)
      hms hl⟩
    · rw [hstep.side]
      exact moveTo_sent hputs
    · exact ⟨hwriter ▸ hr, pending_puts hwire hwriter⟩
  · exact hstep.carries hc hreads
  · rw [hstep.line, hwriter]
    exact h.closed p
  · rw [hstep.input, hstep.other, hreads.closed]
    exact h.closed p.other
  · rw [hreader, hwriter]
    rintro (hr | hr)
    · exact (congrArg (fun x => x.wire.terminated) hsite).trans (hreads.ended h hr)
    · exact hl.terminated p (h.ended p (.inr hr))
  · rw [hstep.other]
    exact fun hr => hl.terminated p.other (h.ended p.other hr)
  · rw [hl.style, hsite]
    exact hreads.started h hc
  · rw [hstep.other, hl.style]
    exact h.started p.other
  · rw [terminated, hsite, hreader, hstep.side]
    exact hreads.late h hputs.terminated
  · rw [hstep.other]
    exact ⟨(h.late p.other).1, fun hne => ⟨hl.terminated p.other ((h.late p.other).2 hne).1,
      ((h.late p.other).2 hne).2⟩⟩

end

/-! ### Steps of the thread that flushes -/

inductive Writes (s : Duplex w) (p : Party) : WriterPlace → Site w → Line → Prop
  | checks (h : (s.side p).writer = .check) (ht : s.terminated p = false) : Writes s p .pop (s.side p).site (s.line p)
  | refused (h : (s.side p).writer = .check) (ht : s.terminated p = true) : Writes s p .leave (s.side p).site (s.line p)
  | takes (h : (s.side p).writer = .pop) {msgBytes : List UInt8} {rest : List (List UInt8)}
      (hq : (s.side p).site.wire.queue = msgBytes :: rest) :
      Writes s p (.write msgBytes) { (s.side p).site with wire := { (s.side p).site.wire with queue := rest } }
        (s.line p)
  | empties (h : (s.side p).writer = .pop) (hq : (s.side p).site.wire.queue = []) :
      Writes s p .flush (s.side p).site (s.line p)
  | writes {msgBytes : List UInt8} (h : (s.side p).writer = .write msgBytes) (fault : Option Nat) :
      Writes s p .pop (s.side p).site { s.line p with bytes := (s.line p).bytes ++ msgBytes, fault }
  | fails {msgBytes : List UInt8} (h : (s.side p).writer = .write msgBytes) {n : Nat} (hn : n < msgBytes.length) :
      Writes s p .leave (s.side p).site
        { s.line p with bytes := (s.line p).bytes ++ msgBytes.take n, fault := some 0 }
  | flushes (h : (s.side p).writer = .flush) : Writes s p .check (s.side p).site (s.line p)
  | breaks (h : (s.side p).writer = .flush) : Writes s p .leave (s.side p).site (s.line p)
  | drops (h : (s.side p).writer = .leave) :
      Writes s p .ended (s.side p).site.dropClone { s.line p with closed := true }
  | stays (h : (s.side p).writer = .ended) : Writes s p .ended (s.side p).site (s.line p)

theorem writes (s : Duplex w) (p : Party) : Writes s p ((s.side p).writer.next (s.side p).site (s.line p)).1
    ((s.side p).writer.next (s.side p).site (s.line p)).2.1
    ((s.side p).writer.next (s.side p).site (s.line p)).2.2 := by
  cases hwriter : (s.side p).writer with
  | check =>
    simp only [WriterPlace.next]
    split
    · exact .refused hwriter ‹_›
    · exact .checks hwriter (Bool.eq_false_iff.2 ‹_›)
  | pop =>
    simp only [WriterPlace.next]
    split
    · exact .takes hwriter ‹_›
    · exact .empties hwriter ‹_›
  | write msgBytes =>
    simp only [WriterPlace.next]
    split
    · rename_i hf
      have hw := Writes.writes hwriter none
      rwa [← hf] at hw
    · split
      · exact .writes hwriter _
      · exact .fails hwriter (by omega)
  | flush =>
    simp only [WriterPlace.next]
    split
    · exact .breaks hwriter
    · exact .flushes hwriter
  | leave => exact .drops hwriter
  | ended => exact .stays hwriter

/-- What a step of the thread that flushes changes. -/
structure WriterStep (s s' : Duplex w) (p : Party) (a : WriterPlace) (t : Site w) (o : Line) : Prop where
  side : s'.side p = { s.side p with site := t, writer := a }
  other : s'.side p.other = s.side p.other
  output : s'.line p = o
  line : s'.line p.other = s.line p.other

theorem step_writer (checks : Bool) (s : Duplex w) (p : Party) :
    WriterStep s (s.step checks (.writer p)) p ((s.side p).writer.next (s.side p).site (s.line p)).1
      ((s.side p).writer.next (s.side p).site (s.line p)).2.1
      ((s.side p).writer.next (s.side p).site (s.line p)).2.2 where
  side := writer_side checks s p
  other := writer_side_other checks s p
  output := writer_line checks s p
  line := writer_line_other checks s p

section

variable {a : WriterPlace} {t : Site w} {o : Line}

theorem Writes.style (h : Writes s p a t o) : t.wire.moduleStyle = s.moduleStyle p := by
  cases h <;> rfl

theorem Writes.started (h : Writes s p a t o) : t.wire.started = (s.side p).site.wire.started := by
  cases h <;> rfl

theorem Writes.terminated (h : Writes s p a t o) (ht : s.terminated p = true) : t.wire.terminated = true := by
  cases h with
  | drops => rfl
  | _ => exact ht

theorem Writes.ended (h : Writes s p a t o) (hs : s.Sound) (ha : a = .ended) : t.wire.terminated = true := by
  cases h with
  | drops => rfl
  | stays h => exact hs.ended p (.inr h)
  | _ => cases ha

theorem Writes.closed (h : Writes s p a t o) (hs : s.Sound) : o.closed = true ↔ a = .ended := by
  have hc := hs.closed p
  cases h with
  | drops => simp
  | stays h => simpa [h] using hc
  | checks h | refused h | takes h | empties h | writes h | fails h | flushes h | breaks h => simpa [h] using hc

theorem WriterStep.lasts (hstep : WriterStep s s' p a t o) (hwrites : Writes s p a t o) : s.Lasts s' := by
  have hsite : (s'.side p).site = t := by rw [hstep.side]
  refine .of_side ?_ ?_ hstep.other
  · rw [hsite, hwrites.style]
  · rw [hsite]
    exact hwrites.terminated

/-- What has been written is on the line. -/
private theorem WriterStep.carries (hstep : WriterStep s s' p a t o) (hc : s.Carries p arrived flying ahead cut)
    (hwrites : Writes s p a t o) : ∃ flying ahead cut, s'.Carries p arrived flying ahead cut := by
  have hl := hstep.lasts hwrites
  have hsent : (s'.side p).sent = (s.side p).sent := by rw [hstep.side]
  have hpending : (s'.side p).pending = a.inHand ++ t.wire.queue := by rw [Autonomous.pending, hstep.side]
  have hkeep : o.bytes = (s.line p).bytes →
      (a.Runs → (s.side p).writer.Runs ∧ (s'.side p).pending = (s.side p).pending) →
      s'.Carries p arrived flying ahead cut := fun ho hp =>
    hc.keep hsent (by rw [hstep.other]) (by rw [hstep.output, ho]) (fun hr => hp (by rwa [hstep.side] at hr)) hl
  have hproper : ∀ {m}, m ∈ arrived ++ flying ++ ahead → s'.Proper p m := fun hm => hl.proper (hc.proper _ hm)
  -- the message that the thread has in hand
  have hhand : ∀ {msgBytes}, (s.side p).writer = .write msgBytes → cut = [] ∧ ∃ m rest, ahead = m :: rest ∧
      msgBytes = m.toBytes ∧ (s.side p).site.wire.queue = rest.map Message.toBytes := by
    intro msgBytes hw
    obtain ⟨hcut, hp⟩ := hc.pending (by rw [hw]; trivial)
    rw [Autonomous.pending, hw] at hp
    cases ahead with
    | nil => cases hp
    | cons m rest =>
      obtain ⟨hm, hrest⟩ := List.cons.inj hp
      exact ⟨hcut, m, rest, rfl, hm, hrest⟩
  have hsame : ∀ {b : WriterPlace}, (s.side p).writer = b → b.Runs → o.bytes = (s.line p).bytes →
      a.inHand ++ t.wire.queue = b.inHand ++ (s.side p).site.wire.queue →
      ∃ flying ahead cut, s'.Carries p arrived flying ahead cut := fun hb hr ho hq =>
    ⟨flying, ahead, cut, hkeep ho fun _ => ⟨hb ▸ hr, by rw [hpending, Autonomous.pending, hb, hq]⟩⟩
  cases hwrites with
  | checks h | empties h | flushes h => exact hsame h trivial rfl rfl
  | takes h hq => exact hsame h trivial rfl (by rw [hq]; rfl)
  | writes h fault =>
    obtain ⟨rfl, m, rest, rfl, rfl, hq⟩ := hhand h
    refine ⟨flying ++ [m], rest, [], ?_, by rw [hstep.other, hc.handled], ?_, fun _ => ⟨rfl, ?_⟩, s'.severed_nil p,
      fun m' hm' => hproper (by simpa using hm'), fun hm => hl.terminated _ (hc.stop hm)⟩
    · rw [hsent, hc.sent]
      simp
    · rw [hstep.output, hc.line]
      simp
    · rw [hpending]
      exact hq
  | @fails msgBytes h n hn =>
    obtain ⟨rfl, m, rest, rfl, rfl, hq⟩ := hhand h
    refine ⟨flying, m :: rest, m.toBytes.take n, ?_, by rw [hstep.other, hc.handled], ?_, fun hr => ?_,
      ⟨m, hproper (by simp), n, hn, rfl⟩, fun m' hm' => hproper hm', fun hm => hl.terminated _ (hc.stop hm)⟩
    · rw [hsent, hc.sent]
    · rw [hstep.output, hc.line, List.append_nil]
    · rw [hstep.side] at hr
      exact absurd hr id
  | refused | breaks | drops | stays => exact ⟨_, _, _, hkeep rfl fun hr => absurd hr id⟩

theorem WriterStep.sound (hstep : WriterStep s s' p a t o) (h : s.Sound) (hwrites : Writes s p a t o) : s'.Sound := by
  have hsite : (s'.side p).site = t := by rw [hstep.side]
  have hwriter : (s'.side p).writer = a := by rw [hstep.side]
  have hreader : (s'.side p).reader = (s.side p).reader := by rw [hstep.side]
  have hlate : (s'.side p).late = (s.side p).late := by rw [hstep.side]
  have hhandled : (s'.side p).handled = (s.side p).handled := by rw [hstep.side]
  have hl := hstep.lasts hwrites
  refine ⟨forall_party p ?_ ?_, forall_party p ?_ ?_, forall_party p ?_ ?_, forall_party p ?_ ?_, forall_party p ?_ ?_⟩
  · obtain ⟨arrived, flying, ahead, cut, hc⟩ := h.carries p
    exact ⟨arrived, hstep.carries hc hwrites⟩
  · obtain ⟨arrived, flying, ahead, cut, hc⟩ := h.carries p.other
    refine ⟨arrived, flying, ahead, cut, hc.keep (by rw [hstep.other]) ?_ (by rw [hstep.line]) ?_ hl⟩
    · rw [Party.other_other, hhandled]
    · rw [hstep.other]
      exact fun hr => ⟨hr, rfl⟩
  · rw [hstep.output, hwriter]
    exact hwrites.closed h
  · rw [hstep.line, hstep.other]
    exact h.closed p.other
  · rw [hreader, hwriter]
    rintro (hr | hr)
    · exact hl.terminated p (h.ended p (.inl hr))
    · exact (congrArg (fun x => x.wire.terminated) hsite).trans (hwrites.ended h hr)
  · rw [hstep.other]
    exact fun hr => hl.terminated p.other (h.ended p.other hr)
  · rw [hl.style, hsite, hwrites.started]
    exact h.started p
  · rw [hstep.other, hl.style]
    exact h.started p.other
  · rw [hlate, hreader]
    exact ⟨(h.late p).1, fun hne => ⟨hl.terminated p ((h.late p).2 hne).1, ((h.late p).2 hne).2⟩⟩
  · rw [hstep.other]
    exact ⟨(h.late p.other).1, fun hne => ⟨hl.terminated p.other ((h.late p.other).2 hne).1,
      ((h.late p.other).2 hne).2⟩⟩

end

/-! ### All steps -/

theorem onSide_lasts (s : Duplex w) (checks : Bool) (p : Party) (a : LocalAction w) :
    s.Lasts (s.step checks (.onSide p a)) := by
  obtain ⟨-, ms, hputs, -⟩ := a.run_puts checks (s.side p).site
  refine .of_side ?_ ?_ (onSide_side_other checks s p a)
  · rw [onSide_side]
    exact hputs.style
  · rw [onSide_side]
    exact hputs.terminated

/-- What the program does on one side. -/
theorem Sound.onSide (h : s.Sound) (checks : Bool) (p : Party) (a : LocalAction w) :
    (s.step checks (.onSide p a)).Sound := by
  obtain ⟨hstarted, ms, hputs, hms, -⟩ := a.run_puts checks (s.side p).site
  have hl := s.onSide_lasts checks p a
  have hother := onSide_side_other checks s p a
  have hside := onSide_side checks s p a
  have hline := onSide_line checks s p a
  generalize s.step checks (.onSide p a) = s' at hl hother hside hline
  have hwire : Wire.Puts ms (s.side p).site.wire (s'.side p).site.wire := by rw [hside]; exact hputs
  have hplaces : ∀ q, (s'.side q).reader = (s.side q).reader ∧ (s'.side q).writer = (s.side q).writer := by
    refine forall_party p ?_ ?_
    · rw [hside]
      exact ⟨rfl, rfl⟩
    · rw [hother]
      exact ⟨rfl, rfl⟩
  have hproper : ∀ m ∈ ms, s.Proper p m := fun m hm => ⟨(hms m hm).1, fun hr => h.started p ((hms m hm).2 hr)⟩
  refine ⟨forall_party p ?_ ?_, fun q => ?_, fun q hq => ?_, forall_party p ?_ ?_, forall_party p ?_ ?_⟩
  · obtain ⟨arrived, flying, ahead, cut, hc⟩ := h.carries p
    refine ⟨arrived, flying, ahead ++ ms, cut, hc.grow ?_ (by rw [hother]) (by rw [hline]) (fun hr => ?_) hproper hl⟩
    · rw [hside]
      exact moveTo_sent hputs
    · rw [hside] at hr
      exact ⟨hr, pending_puts hwire (by rw [hside]; rfl)⟩
  · obtain ⟨arrived, flying, ahead, cut, hc⟩ := h.carries p.other
    refine ⟨arrived, flying, ahead, cut, hc.keep (by rw [hother]) ?_ (by rw [hline]) ?_ hl⟩
    · rw [Party.other_other, hside]
      rfl
    · rw [hother]
      exact fun hr => ⟨hr, rfl⟩
  · rw [hline, (hplaces q).2]
    exact h.closed q
  · rw [(hplaces q).1, (hplaces q).2] at hq
    exact hl.terminated q (h.ended q hq)
  · rw [hside, hl.style]
    exact fun hne => h.started p fun hnil => hne (hstarted.trans hnil)
  · rw [hother, hl.style]
    exact h.started p.other
  · rw [hside]
    exact ⟨(h.late p).1, fun hne => ⟨hl.terminated p ((h.late p).2 hne).1, ((h.late p).2 hne).2⟩⟩
  · rw [hother]
    exact ⟨(h.late p.other).1, fun hne => ⟨hl.terminated p.other ((h.late p.other).2 hne).1,
      ((h.late p.other).2 hne).2⟩⟩

/-- A line breaks. -/
theorem Sound.break (h : s.Sound) (checks : Bool) (p : Party) (n : Nat) : (s.step checks (.break p n)).Sound := by
  have hline : ∀ q, ((s.step checks (.break p n)).line q).bytes = (s.line q).bytes ∧
      ((s.step checks (.break p n)).line q).closed = (s.line q).closed := by
    refine forall_party p ?_ ?_
    · rw [break_line]
      exact ⟨rfl, rfl⟩
    · rw [break_line_other]
      exact ⟨rfl, rfl⟩
  refine ⟨fun q => ?_, fun q => ?_, h.ended, h.started, h.late⟩
  · obtain ⟨arrived, flying, ahead, cut, hc⟩ := h.carries q
    exact ⟨arrived, flying, ahead, cut, hc.keep rfl rfl (hline q).1 (fun hr => ⟨hr, rfl⟩)
      ⟨fun _ => rfl, fun _ h => h⟩⟩
  · rw [(hline q).2]
    exact h.closed q

theorem Sound.lasts (h : s.Sound) (checks : Bool) (a : DuplexAction w) : s.Lasts (s.step checks a) := by
  cases a with
  | reader p =>
    obtain ⟨arrived, flying, ahead, cut, hc⟩ := h.carries p.other
    exact (step_reader checks s p).lasts hc hc.reads
  | writer p => exact (step_writer checks s p).lasts (s.writes p)
  | onSide p a => exact s.onSide_lasts checks p a
  | «break» p n => exact ⟨fun _ => rfl, fun _ h => h⟩

theorem Sound.step (h : s.Sound) (checks : Bool) (a : DuplexAction w) : (s.step checks a).Sound := by
  cases a with
  | reader p =>
    obtain ⟨arrived, flying, ahead, cut, hc⟩ := h.carries p.other
    exact (step_reader checks s p).sound h hc hc.reads
  | writer p => exact (step_writer checks s p).sound h (s.writes p)
  | onSide p a => exact h.onSide checks p a
  | «break» p n => exact h.break checks p n

/-! ### Runs -/

/-- Two wires that may be connected: neither holds messages that the other could not have been sent. -/
structure Connects (t : Party → Site w) : Prop where
  queue : ∀ p, ∃ ms : List (Message w), (t p).wire.queue = ms.map Message.toBytes ∧ ∀ m ∈ ms,
    (m.IsCall → (t p).wire.moduleStyle = false) ∧ (m.IsResponse → (t p.other).wire.moduleStyle = false)
  started : ∀ p, (t p).wire.started ≠ [] → (t p.other).wire.moduleStyle = false

/-- The two wires when they are started. -/
def start (t : Party → Site w) : Duplex w where
  side p := { site := t p, reader := .fill, writer := .check, sent := (t p).wire.queue, handled := [], late := [] }
  line _ := .empty

theorem start_sound {t : Party → Site w} (h : Connects t) : (start t).Sound where
  carries p := by
    obtain ⟨ms, hq, hms⟩ := h.queue p
    exact ⟨[], [], ms, [], hq, rfl, rfl, fun _ => ⟨rfl, hq⟩, severed_nil _ p, hms, fun hm => by cases hm⟩
  closed p := iff_of_false Bool.false_ne_true fun h => by cases h
  ended p hr := by rcases hr with hr | hr <;> cases hr
  started p := h.started p
  late p := ⟨Nat.zero_le 1, fun hne => absurd rfl hne⟩

/-- Whatever happens around two autonomous wires, the messages of each side are handled by the other in order, those
that have not been handled are on the line or yet to be written, a thread only ends when its wire is terminated, and
at most one message is handled after that. -/
theorem conveyed {t : Party → Site w} (ht : Connects t) {checks : Bool}
    (h : Reaches (step checks) (fun _ _ => True) (start t) s) :
    (∀ p, ∃ arrived flying ahead cut, s.Carries p arrived flying ahead cut) ∧
      (∀ p, (s.side p).reader = .ended ∨ (s.side p).writer = .ended → s.terminated p = true) ∧
      ∀ p, (s.side p).late.length ≤ 1 := by
  have hs : s.Sound := h.invariant (start_sound ht) fun s a hs _ => hs.step checks a
  exact ⟨hs.carries, hs.ended, fun p => (hs.late p).1⟩

/-- A wire that calls and one that serves, on interfaces of their own. -/
private def hostAndModule (p : Party) : Site .u8 := ⟨.new, .new ⟨0⟩ (decide (p = .bob)) 3⟩

private theorem hostAndModule_connects : Connects hostAndModule where
  queue p := ⟨[], rfl, by simp⟩
  started p h := absurd rfl h

/-- An end of input goes to the other side. -/
private def signalled : Duplex .u8 :=
  [.onSide .alice .signalEndOfInput, .writer .alice, .writer .alice, .writer .alice, .reader .bob, .reader .bob,
    .reader .bob].foldl (step true) (start hostAndModule)

theorem conveyed_endOfInput :
    (signalled.side .bob).handled = [.endOfInput] ∧
      (∀ p, ∃ arrived flying ahead cut, signalled.Carries p arrived flying ahead cut) ∧
      (∀ p, (signalled.side p).reader = .ended ∨ (signalled.side p).writer = .ended → signalled.terminated p = true) ∧
      ∀ p, (signalled.side p).late.length ≤ 1 :=
  ⟨rfl, conveyed hostAndModule_connects (Reaches.start.foldl _ fun _ _ _ => trivial)⟩

end Duplex

end Ipfi
