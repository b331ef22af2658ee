import Ipfi.Format
import Ipfi.Frames
import Ipfi.Lib.Input

/-!
# Where the input ends and where errors leave it

Reading never looks beyond the message it reads, so an input that was cut off inside a message has the effect of the
messages before it, and an error in processing a message leaves the input where the next message starts.
-/

namespace Ipfi

variable {ws wr w : IntFeature}

open EStateM (Incremental)

/-- Whether the error is an I/O error. -/
def Error.isIo : Error w → Bool
  | .ioError _ => true
  | _ => false

/-! ### Reading is incremental -/

/-- Reading fails with this error where the input ends too soon. -/
abbrev eof : Stop (Error w) := .error (.ioError .unexpectedEof)

theorem readExact_incremental (n : Nat) : Incremental eof (readExact n : Op (Error w) _ _) := by
  intro input more
  by_cases hn : n ≤ input.length
  · right
    have hn' : n ≤ input.length + more.length := by omega
    simp [readExact, EStateM.run, hn, hn', List.take_append_of_le_length, List.drop_append_of_le_length,
      EStateM.Result.mapState]
  · left
    simp [readExact, EStateM.run, hn]

theorem populateFromReader_incremental (i : Integer) : Incremental eof (i.populateFromReader : Op (Error w) _ _) := by
  cases i <;> exact (readExact_incremental _).bind fun _ => .pure _

theorem orError_incremental {α : Type} (e : Error w) (o : Option α) :
    Incremental eof (orError e o : Op (Error w) (List UInt8) α) := by
  cases o with
  | none => exact .throw _
  | some a => exact .pure a

theorem orThrow_incremental {α : Type} (r : Except (Error w) α) :
    Incremental eof (orThrow r : Op (Error w) (List UInt8) α) := by
  cases r with
  | error e => exact .throw _
  | ok a => exact .pure a

theorem readBody_incremental : Incremental eof (readBody : Op (Error w) _ _) := by
  refine (readExact_incremental 1).bind fun multiflagBuf => (orThrow_incremental _).bind fun t => ?_
  refine (populateFromReader_incremental _).bind fun p => (orError_incremental _ _).bind fun p' => ?_
  refine (populateFromReader_incremental _).bind fun c => (orError_incremental _ _).bind fun c' => ?_
  refine (populateFromReader_incremental _).bind fun n => (orError_incremental _ _).bind fun n' => ?_
  have hlast {α : Type} (f : List UInt8 → α) :
      Incremental eof ((readExact n' >>= fun bytes => pure (f bytes)) : Op (Error w) _ _) :=
    (readExact_incremental n').bind fun _ => .pure _
  exact .ite (.bind (.throw _) fun _ => hlast _) (hlast _)

theorem readMessage_incremental (moduleStyle : Bool) :
    Incremental eof (readMessage moduleStyle : Op (Error w) _ _) := by
  have hbody := readBody_incremental (w := w)
  refine (readExact_incremental 1).bind fun tyBuf => ?_
  split
  · exact .pure _
  · exact hbody.bind fun _ => .pure _
  · exact .ite (.pure _) (hbody.bind fun _ => .pure _)
  · exact .pure _
  · exact .pure _

/-- What was sent determines what is found. -/
theorem FoundAs.unique {m : Message ws} {found found' : Incoming wr} (h : FoundAs m found) (h' : FoundAs m found') :
    found = found' := by
  have hidx {n n' : IpfiInteger wr} {v : Nat} (hn : n.toNat = v) (hn' : n'.toNat = v) : n = n' :=
    BitVec.toNat_inj.1 (hn.trans hn'.symm)
  cases h with
  | termination => cases h'; rfl
  | @call p c p' c' t args hp hc =>
    cases h' with
    | @call _ _ p'' c'' _ _ hp' hc' =>
      rw [show p' = p'' from congrArg ProcedureIndex.mk (hidx hp hp'),
        show c' = c'' from congrArg CallIndex.mk (hidx hc hc')]
  | @response p c p' c' t m hp hc =>
    cases h' with
    | @response _ _ p'' c'' _ _ hp' hc' =>
      rw [show p' = p'' from congrArg ProcedureIndex.mk (hidx hp hp'),
        show c' = c'' from congrArg CallIndex.mk (hidx hc hc')]
  | endOfInput => cases h'; rfl

/-! ### Inputs that are cut off -/

theorem Message.fits_self (m : Message w) : m.Fits w := by
  cases m with
  | termination => trivial
  | call p c t args => exact ⟨p.idx.isLt, c.idx.isLt⟩
  | response p c t m => exact ⟨p.idx.isLt, c.idx.isLt⟩
  | endOfInput => trivial

/-- What is left of an encoded message that was cut off has no effect. -/
theorem readMessage_truncated {m : Message w} {cut bytes : List UInt8} (hm : m.Encodes bytes) (hcut : cut <+: bytes)
    (hne : cut ≠ bytes) : (readMessage false : Op (Error w) _ _).run cut = .error eof [] := by
  obtain ⟨more, rfl⟩ := hcut
  have hmore : more ≠ [] := by
    rintro rfl
    exact hne (List.append_nil cut).symm
  obtain ⟨found, hr, -⟩ := readMessage_encodes hm m.fits_self []
  rw [List.append_nil] at hr
  exact (readMessage_incremental false).truncated hmore (by rw [hr]; rfl)

namespace Receiver

/-- Each of the messages, on its own, is received without an error, and none of them ends the input. -/
inductive Processes : List (Message w) → List UInt8 → Site w → Site w → Prop
  | nil {s : Site w} : Processes [] [] s s
  | cons {m : Message w} {ms : List (Message w)} {bytes rest : List UInt8} {s s' s'' : Site w} {b : Bool}
      (hm : m.Encodes bytes) (hr : receiveOne.run ⟨s, bytes⟩ = .ok (some b) ⟨s', []⟩) (hms : Processes ms rest s' s'') :
      Processes (m :: ms) (bytes ++ rest) s s''

variable {s s' : Site w} {ms : List (Message w)} {m : Message w} {bytes cut last : List UInt8}

/-- What is received of a message alone is received with more input behind it. -/
private theorem receiveOne_more {b : Bool} (hrun : s.wire.terminated = false)
    (hr : receiveOne.run ⟨s, bytes⟩ = .ok (some b) ⟨s', []⟩) (rest : List UInt8) :
    ∃ m, (Site.receive m).run s = .ok (some b) s' ∧ receiveOne.run ⟨s, bytes ++ rest⟩ = .ok (some b) ⟨s', rest⟩ := by
  rw [receiveOne_run s bytes hrun] at hr
  cases hread : (readMessage s.wire.moduleStyle).run bytes with
  | error e reader => rw [hread] at hr; cases hr
  | ok m reader =>
    simp only [hread] at hr
    cases hrec : (Site.receive m).run s with
    | error e t => rw [hrec] at hr; cases hr
    | ok b' t =>
      rw [hrec] at hr
      cases hr
      refine ⟨m, hrec, ?_⟩
      rw [receiveOne_run s _ hrun, (readMessage_incremental _).ok hread rest]
      simp [hrec]

theorem rounds_processes (h : Processes ms bytes s s') (hrun : s.wire.terminated = false) (rest : List UInt8) :
    rounds ⟨s, bytes ++ rest⟩ = rounds ⟨s', rest⟩ ∧ s'.wire.terminated = false ∧
      s'.wire.moduleStyle = s.wire.moduleStyle := by
  induction h with
  | nil => exact ⟨rfl, hrun, rfl⟩
  | @cons m ms bytes rest' s s' s'' b hm hr hms ih =>
    obtain ⟨found, hrec, hmore⟩ := receiveOne_more hrun hr (rest' ++ rest)
    have hp := Site.receive_passive hrec
    obtain ⟨hrounds, hrun'', hstyle⟩ := ih (hp.terminated.trans hrun)
    refine ⟨?_, hrun'', hstyle.trans hp.fixed_of_passive.moduleStyle⟩
    rw [List.append_assoc, rounds_eq, fillStep_run, hmore]
    exact hrounds

theorem receiveOne_unread {reader reader' : List UInt8} {e : Stop (Error w)} (hrun : s.wire.terminated = false)
    (hr : (readMessage s.wire.moduleStyle).run reader = .error e reader') :
    receiveOne.run ⟨s, reader⟩ = .error e ⟨s, reader'⟩ := by
  rw [receiveOne_run s reader hrun, hr]

/-- Filling a host-style wire from an input that ends inside a message, or between two, has the effect of the messages
before, marks the wire terminated and returns the error; and a message that cannot be read has no effect. -/
theorem fill_truncated (hstyle : s.wire.moduleStyle = false) (hrun : s.wire.terminated = false)
    (hms : Processes ms bytes s s') (hm : m.Encodes last) (hcut : cut <+: last) (hne : cut ≠ last) :
    fill.run ⟨s, bytes ++ cut⟩ = .error (.error (.ioError .unexpectedEof)) ⟨s'.markTerminated, []⟩ ∧
    ∀ (t : Site w) (reader reader' : List UInt8) (e : Error w), t.wire.terminated = false →
      (readMessage t.wire.moduleStyle).run reader = .error (.error e) reader' →
      receiveOne.run ⟨t, reader⟩ = .error (.error e) ⟨t, reader'⟩ := by
  refine ⟨?_, fun t reader reader' e ht hr => receiveOne_unread ht hr⟩
  obtain ⟨hrounds, hrun', hstyle'⟩ := rounds_processes hms hrun cut
  have hread : (readMessage s'.wire.moduleStyle : Op (Error w) _ _).run cut = .error eof [] := by
    rw [hstyle', hstyle]
    exact readMessage_truncated hm hcut hne
  rw [fill_run _ hrun, hrounds, rounds_eq, fillStep_run, receiveOne_unread hrun' hread]
  rfl

/-- A wire on an interface of its own. -/
private def freshSite : Site .u32 := ⟨.new, .new ⟨0⟩ false 10⟩

/-- The first piece of a call. -/
private def firstPiece : Message .u32 := .call ⟨4⟩ ⟨0⟩ .none ⟨[21], by decide⟩

theorem fill_truncated_piece :
    ((fill.run ⟨freshSite, firstPiece.toBytes ++ [1]⟩).state.site.wire.terminated) = true := by
  have hr : receiveOne.run ⟨freshSite, firstPiece.toBytes⟩ =
      .ok (some false) ⟨((Site.receive firstPiece.incoming).run freshSite).state, []⟩ := rfl
  have hcut : [1] <+: firstPiece.toBytes := ⟨firstPiece.toBytes.tail, rfl⟩
  have h :=
    (fill_truncated rfl rfl (.cons firstPiece.encodes_toBytes hr .nil) firstPiece.encodes_toBytes hcut (by decide)).1
  simp only [List.append_nil] at h
  rw [h]
  rfl

/-! ### Filling again after an error -/

/-- What a round makes of a message that it can read. -/
theorem receiveOne_encodes {t : Site wr} (hstyle : t.wire.moduleStyle = false) (hrun : t.wire.terminated = false)
    {m : Message ws} (hm : m.Encodes bytes) (hfits : m.Fits wr) (rest : List UInt8) :
    ∃ found, FoundAs m found ∧
      receiveOne.run ⟨t, bytes ++ rest⟩ = ((Site.receive found).run t).mapState fun t' => ⟨t', rest⟩ := by
  obtain ⟨found, hread, hfound⟩ := readMessage_encodes hm hfits rest
  refine ⟨found, hfound, ?_⟩
  rw [receiveOne_run t _ hrun, hstyle, hread]

/-- The errors of receiving a message that are not I/O errors leave the input behind the message. -/
def StopsAtBoundary (t : Site wr) (bytes : List UInt8) : Prop :=
  ∀ (rest : List UInt8) (e : Error wr) (y : Receiver wr),
    receiveOne.run ⟨t, bytes ++ rest⟩ = .error (.error e) y → e.isIo = false → y.reader = rest

theorem stopsAtBoundary_iff {t : Site wr} (hstyle : t.wire.moduleStyle = false) (hrun : t.wire.terminated = false)
    {m : Message ws} (hm : m.Encodes bytes) : StopsAtBoundary t bytes ↔ m.Fits wr := by
  constructor
  · intro hstops
    by_contra hfits
    obtain ⟨left, hne, hread⟩ := readMessage_idxTooBig hm hfits []
    have hr : receiveOne.run ⟨t, bytes ++ []⟩ = .error (.error .idxTooBig) ⟨t, left ++ []⟩ :=
      receiveOne_unread hrun (hstyle ▸ hread)
    exact hne (by simpa using hstops [] _ _ hr rfl)
  · intro hfits rest e y hr hio
    obtain ⟨found, -, hround⟩ := receiveOne_encodes hstyle hrun hm hfits rest
    rw [hround] at hr
    cases hrec : (Site.receive found).run t with
    | ok b t' => rw [hrec] at hr; cases hr
    | error e' t' => rw [hrec] at hr; cases hr; rfl

/-- Calls `fill` again after every error that is not an I/O error, at most the given number of times. -/
def refill : Nat → Op (Error w) (Receiver w) Unit
  | 0 => fill
  | n + 1 => fun y => match fill.run y with
    | .error (.error e) y' => if e.isIo then .error (.error e) y' else (refill n).run y'
    | r => r

/-- Each of the messages in turn is received, with a result or with an error that is not an I/O error; the number is
that of the errors. -/
inductive Handles : List (Message ws) → List UInt8 → Nat → Site wr → Site wr → Prop
  | nil {s : Site wr} : Handles [] [] 0 s s
  | ok {m : Message ws} {ms : List (Message ws)} {bytes rest : List UInt8} {k : Nat} {s s' s'' : Site wr} {b : Bool}
      {found : Incoming wr} (hm : m.Encodes bytes) (hf : FoundAs m found)
      (hr : (Site.receive found).run s = .ok (some b) s') (hms : Handles ms rest k s' s'') :
      Handles (m :: ms) (bytes ++ rest) k s s''
  | error {m : Message ws} {ms : List (Message ws)} {bytes rest : List UInt8} {k : Nat}
    {s s' s'' : Site wr} {e : Error wr} {found : Incoming wr} (hm : m.Encodes bytes) (hf : FoundAs m found)
    (hr : (Site.receive found).run s = .error (.error e) s') (hio : e.isIo = false) (hms : Handles ms rest k s' s'') :
    Handles (m :: ms) (bytes ++ rest) (k + 1) s s''

theorem refill_congr {y y' : Receiver w} (h : fill.run y = fill.run y') (n : Nat) :
    (refill n).run y = (refill n).run y' := by
  cases n with
  | zero => exact h
  | succ n =>
    simp only [EStateM.run] at h
    simp only [refill, EStateM.run, h]

theorem refill_error {y y' : Receiver w} {e : Error w} (h : fill.run y = .error (.error e) y') (hio : e.isIo = false)
    (n : Nat) : (refill (n + 1)).run y = (refill n).run y' := by
  simp only [EStateM.run] at h
  simp [refill, EStateM.run, h, hio]

theorem refill_handles {t t' : Site wr} {ms : List (Message ws)} {k : Nat} (hstyle : t.wire.moduleStyle = false)
    (hrun : t.wire.terminated = false) (h : Handles ms bytes k t t') (hfits : ∀ m ∈ ms, m.Fits wr) (n : Nat)
    (rest : List UInt8) : (refill (n + k)).run ⟨t, bytes ++ rest⟩ = (refill n).run ⟨t', rest⟩ := by
  induction h with
  | nil => rfl
  | @ok m ms bytes rest' k s s' s'' b found hm hf hr hms ih =>
    obtain ⟨found', hf', hround⟩ := receiveOne_encodes hstyle hrun hm (hfits m (by simp)) (rest' ++ rest)
    obtain rfl := hf.unique hf'
    have hp := Site.receive_passive hr
    have hrun' := hp.terminated.trans hrun
    rw [hr] at hround
    rw [← ih (hp.fixed_of_passive.moduleStyle.trans hstyle) hrun' fun m hm => hfits m (by simp [hm])]
    refine refill_congr ?_ _
    rw [List.append_assoc, fill_run _ hrun, fill_run _ hrun', rounds_eq, fillStep_run, hround]
    rfl
  | @error m ms bytes rest' k s s' s'' e found hm hf hr hio hms ih =>
    obtain ⟨found', hf', hround⟩ := receiveOne_encodes hstyle hrun hm (hfits m (by simp)) (rest' ++ rest)
    obtain rfl := hf.unique hf'
    have hp := Site.receive_error_passive hr
    rw [hr] at hround
    rw [← ih (hp.fixed_of_passive.moduleStyle.trans hstyle) (hp.terminated.trans hrun) fun m hm =>
      hfits m (by simp [hm])]
    refine refill_error ?_ hio _
    have hne : (.error e : Stop (Error wr)) ≠ .error (.ioError .unexpectedEof) := by
      rintro he
      cases he
      cases hio
    rw [List.append_assoc, fill_run _ hrun, rounds_eq, fillStep_run, hround, EStateM.Result.mapState_error, atEof_error,
      if_neg hne]

/-- On a running host-style wire, the errors that a message leads to leave the input at the next one if and only if its
indices fit the integers of the wire; and where those of all messages do, filling the wire again after each error has
every message received. -/
theorem receiveOne_boundary {t : Site wr} (hstyle : t.wire.moduleStyle = false) (hrun : t.wire.terminated = false) :
    (∀ (m : Message ws) (bytes : List UInt8), m.Encodes bytes → (StopsAtBoundary t bytes ↔ m.Fits wr)) ∧
    ∀ (ms : List (Message ws)) (bytes : List UInt8) (k : Nat) (t' : Site wr), Handles ms bytes k t t' →
      (∀ m ∈ ms, m.Fits wr) → ∀ (n : Nat) (rest : List UInt8),
        (refill (n + k)).run ⟨t, bytes ++ rest⟩ = (refill n).run ⟨t', rest⟩ :=
  ⟨fun _ _ hm => stopsAtBoundary_iff hstyle hrun hm, fun _ _ _ _ h hfits n rest => refill_handles
    hstyle hrun h hfits n rest⟩

/-- A call of a procedure that is not there. -/
private def unknownCall : Message .u32 := .call ⟨4⟩ ⟨0⟩ .complete .empty

theorem receiveOne_boundary_unknownCall :
    (refill 1).run ⟨freshSite, unknownCall.toBytes ++ [3]⟩ =
      (refill 0).run ⟨((Site.receive unknownCall.incoming).run freshSite).state, [3]⟩ := by
  have hr : (Site.receive unknownCall.incoming).run freshSite =
      .error (.error (.noSuchProcedure 4)) ((Site.receive unknownCall.incoming).run freshSite).state := rfl
  have hfound : FoundAs unknownCall (unknownCall.incoming) := .call .complete .empty rfl rfl
  have hhandles := Handles.error unknownCall.encodes_toBytes hfound hr rfl .nil
  have h := (receiveOne_boundary rfl rfl).2 _ _ _ _ hhandles (by simp [Message.fits_self]) 0 [3]
  rwa [List.append_nil] at h

/-- A call with a 16-bit index, sent to a wire with 8-bit indices. -/
theorem not_receiveOne_boundary :
    ¬ ∀ (t : Site .u8) (m : Message .u16), t.wire.moduleStyle = false → t.wire.terminated = false →
      StopsAtBoundary t m.toBytes := by
  intro h
  have hstops := h ⟨.new, .new ⟨0⟩ false 10⟩ (.call ⟨256⟩ ⟨0⟩ .complete .empty) rfl rfl
  have hfits := (stopsAtBoundary_iff rfl rfl (Message.encodes_toBytes _)).1 hstops
  exact absurd hfits.1 (by decide)

end Receiver

end Ipfi
