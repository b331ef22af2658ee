import Ipfi.Framing
import Mathlib.Data.List.Forall2

/-!
# The format across integer features

The header fields of a message may be sent in any size that holds their values, and the two sides of a wire may be
compiled with different `int-*` features.  Reading gives back what was sent, message after message, unless an index does
not fit the reader's `IpfiInteger` or the terminator bits stand for no terminator.
-/

namespace Ipfi

variable {ws wr w : IntFeature}

/-! ### Encodings of a message -/

/-- The bytes encode the message, in header fields of any sizes that hold the values. -/
inductive Message.Encodes : Message ws → List UInt8 → Prop
  | termination : Encodes .termination [0]
  | call (p : ProcedureIndex ws) (c : CallIndex ws) (t : Terminator) (args : Payload) (pi ci ni : Integer)
      (hp : pi.toNat = p.idx.toNat) (hc : ci.toNat = c.idx.toNat) (hn : ni.toNat = args.val.length) :
      Encodes (.call p c t args) (1 :: fields pi ci ni t args.val)
  | response (p : ProcedureIndex ws) (c : CallIndex ws) (t : Terminator) (m : Payload) (pi ci ni : Integer)
      (hp : pi.toNat = p.idx.toNat) (hc : ci.toNat = c.idx.toNat) (hn : ni.toNat = m.val.length) :
      Encodes (.response p c t m) (2 :: fields pi ci ni t m.val)
  | endOfInput : Encodes .endOfInput [3]

/-- The encoding in the smallest sizes is one of them. -/
theorem Message.encodes_toBytes (m : Message ws) : m.Encodes m.toBytes := by
  cases m with
  | termination => exact .termination
  | call p c t args =>
    exact .call p c t args _ _ _ (toNat_getAsSmallestInt _) (toNat_getAsSmallestInt _)
      (toNat_getAsSmallestIntFromUsize_payload args)
  | response p c t m =>
    exact .response p c t m _ _ _ (toNat_getAsSmallestInt _) (toNat_getAsSmallestInt _)
      (toNat_getAsSmallestIntFromUsize_payload m)
  | endOfInput => exact .endOfInput

/-- The bytes are encodings of the messages, one after the other. -/
inductive EncodesAll : List (Message ws) → List UInt8 → Prop
  | nil : EncodesAll [] []
  | cons {m : Message ws} {ms : List (Message ws)} {bytes rest : List UInt8} (hm : m.Encodes bytes)
      (hms : EncodesAll ms rest) : EncodesAll (m :: ms) (bytes ++ rest)

/-! ### Reading a message -/

/-- The indices of the message fit the integers of the feature. -/
def Message.Fits (wr : IntFeature) : Message ws → Prop
  | .call p c _ _ | .response p c _ _ => p.idx.toNat < 2 ^ wr.bits ∧ c.idx.toNat < 2 ^ wr.bits
  | _ => True

/-- The message is found as what it is, with the same values of its indices. -/
inductive FoundAs : Message ws → Incoming wr → Prop
  | termination : FoundAs .termination .termination
  | call {p : ProcedureIndex ws} {c : CallIndex ws} {p' : ProcedureIndex wr} {c' : CallIndex wr} (t : Terminator)
      (args : Payload) (hp : p'.idx.toNat = p.idx.toNat) (hc : c'.idx.toNat = c.idx.toNat) :
      FoundAs (.call p c t args) (.call p' c' t args.val)
  | response {p : ProcedureIndex ws} {c : CallIndex ws} {p' : ProcedureIndex wr} {c' : CallIndex wr} (t : Terminator)
      (m : Payload) (hp : p'.idx.toNat = p.idx.toNat) (hc : c'.idx.toNat = c.idx.toNat) :
      FoundAs (.response p c t m) (.response p' c' t m.val)
  | endOfInput : FoundAs .endOfInput .endOfInput

/-- Reads the given number of messages off the input. -/
def readMessages (moduleStyle : Bool) : Nat → Op (Error w) (List UInt8) (List (Incoming w))
  | 0 => pure []
  | n + 1 => do
    let m ← readMessage moduleStyle
    let ms ← readMessages moduleStyle n
    pure (m :: ms)

/-- An index that is too big is found out before the whole message has been read. -/
theorem readBody_idxTooBig {pi ci : Integer} (h : pi.intoInt w = none ∨ ci.intoInt w = none) (ni : Integer)
    (t : Terminator) (m rest : List UInt8) :
    ∃ left, left ≠ [] ∧ readBody.run (fields pi ci ni t m ++ rest) = .error (.error (.idxTooBig : Error w))
      (left ++ rest) := by
  cases hp : pi.intoInt w with
  | none =>
    refine ⟨ci.toLeBytes ++ ni.toLeBytes ++ m, by simp [ci.toLeBytes_ne_nil], ?_⟩
    simp [fields, readBody, readExact_cons, makeMultiflag, u8ToBoolArray_boolArrayToU8,
      Integer.populateFromReader_toLeBytes, hp, orError]
  | some p =>
    have hc : ci.intoInt w = none := by simpa [hp] using h
    refine ⟨ni.toLeBytes ++ m, by simp [ni.toLeBytes_ne_nil], ?_⟩
    simp [fields, readBody, readExact_cons, makeMultiflag, u8ToBoolArray_boolArrayToU8,
      Integer.populateFromReader_toLeBytes, hp, hc, orError]

/-- An integer that fits is read with the same value. -/
theorem Integer.exists_intoInt {i : Integer} {v : Nat} (hi : i.toNat = v) (hv : v < 2 ^ w.bits) :
    ∃ n, i.intoInt w = some n ∧ n.toNat = v := by
  subst hi
  exact ⟨_, by rw [Integer.intoInt_eq, if_pos hv], by rw [BitVec.toNat_ofNat, Nat.mod_eq_of_lt hv]⟩

theorem Integer.intoInt_eq_none {i : Integer} {v : Nat} (hi : i.toNat = v) (hv : ¬ v < 2 ^ w.bits) :
    i.intoInt w = none := by
  subst hi
  rw [Integer.intoInt_eq, if_neg hv]

theorem readMessage_encodes {m : Message ws} {bytes : List UInt8} (h : m.Encodes bytes) (hm : m.Fits wr)
    (rest : List UInt8) :
    ∃ found, (readMessage false : Op (Error wr) _ _).run (bytes ++ rest) = .ok found rest ∧ FoundAs m found := by
  cases h with
  | termination => exact ⟨.termination, by simp [readMessage, readExact_cons], .termination⟩
  | call p c t args pi ci ni hp hc hn =>
    obtain ⟨p', hpi, hp'⟩ := Integer.exists_intoInt hp hm.1
    obtain ⟨c', hci, hc'⟩ := Integer.exists_intoInt hc hm.2
    exact ⟨.call ⟨p'⟩ ⟨c'⟩ t args.val, by simp [readMessage, readExact_cons, readBody_fields hpi hci t args hn],
      .call t args hp' hc'⟩
  | response p c t m pi ci ni hp hc hn =>
    obtain ⟨p', hpi, hp'⟩ := Integer.exists_intoInt hp hm.1
    obtain ⟨c', hci, hc'⟩ := Integer.exists_intoInt hc hm.2
    exact ⟨.response ⟨p'⟩ ⟨c'⟩ t m.val, by simp [readMessage, readExact_cons, readBody_fields hpi hci t m hn],
      .response t m hp' hc'⟩
  | endOfInput => exact ⟨.endOfInput, by simp [readMessage, readExact_cons], .endOfInput⟩

theorem readMessage_idxTooBig {m : Message ws} {bytes : List UInt8} (h : m.Encodes bytes) (hm : ¬ m.Fits wr)
    (rest : List UInt8) :
    ∃ left, left ≠ [] ∧
      (readMessage false : Op (Error wr) _ _).run (bytes ++ rest) = .error (.error .idxTooBig) (left ++ rest) := by
  have hnone : ∀ {p c : IpfiInteger ws} {pi ci : Integer}, pi.toNat = p.toNat → ci.toNat = c.toNat →
      ¬ (p.toNat < 2 ^ wr.bits ∧ c.toNat < 2 ^ wr.bits) → pi.intoInt wr = none ∨ ci.intoInt wr = none := by
    intro p c pi ci hp hc hfits
    rcases not_and_or.1 hfits with hp' | hc'
    · exact .inl (Integer.intoInt_eq_none hp hp')
    · exact .inr (Integer.intoInt_eq_none hc hc')
  cases h with
  | termination => exact absurd trivial hm
  | call p c t args pi ci ni hp hc hn =>
    obtain ⟨left, hne, hr⟩ := readBody_idxTooBig (hnone hp hc hm) ni t args.val rest
    exact ⟨left, hne, by simp [readMessage, readExact_cons, hr]⟩
  | response p c t m pi ci ni hp hc hn =>
    obtain ⟨left, hne, hr⟩ := readBody_idxTooBig (hnone hp hc hm) ni t m.val rest
    exact ⟨left, hne, by simp [readMessage, readExact_cons, hr]⟩
  | endOfInput => exact absurd trivial hm

/-- The bits of the multiflag that stand for no terminator. -/
theorem readMessage_invalidTerminator {ty flag : UInt8} (hty : ty = 1 ∨ ty = 2)
    (h₆ : (u8ToBoolArray flag).get 6 = false) (h₇ : (u8ToBoolArray flag).get 7 = true) (rest : List UInt8) :
    (readMessage false : Op (Error w) _ _).run (ty :: flag :: rest) = .error (.error .invalidTerminator) rest := by
  have hflag : Terminator.fromFlag ((u8ToBoolArray flag)[6], (u8ToBoolArray flag)[7]) =
      (.error .invalidTerminator : Except (Error w) _) := by
    rw [show (u8ToBoolArray flag)[6] = false from h₆, show (u8ToBoolArray flag)[7] = true from h₇]
    rfl
  rcases hty with rfl | rfl <;> simp [readMessage, readExact_cons, readBody, hflag, orThrow]

/-! ### Reading a sequence of messages -/

theorem readMessages_append {ms : List (Message ws)} {bytes : List UInt8} (h : EncodesAll ms bytes)
    (hms : ∀ m ∈ ms, m.Fits wr) (n : Nat) (rest : List UInt8) :
    ∃ found, List.Forall₂ FoundAs ms found ∧
      (readMessages false (ms.length + n) : Op (Error wr) _ _).run (bytes ++ rest) =
        match (readMessages false n : Op (Error wr) _ _).run rest with
        | .ok found' rest' => .ok (found ++ found') rest'
        | .error e rest' => .error e rest' := by
  induction h with
  | nil =>
    refine ⟨[], .nil, ?_⟩
    simp only [List.length_nil, Nat.zero_add, List.nil_append]
    cases (readMessages false n : Op (Error wr) _ _).run rest <;> rfl
  | @cons m ms bytes rest' hm _ ih =>
    obtain ⟨found, hr, hf⟩ := readMessage_encodes hm (hms m (by simp)) (rest' ++ rest)
    obtain ⟨founds, hfs, hrs⟩ := ih fun m hm => hms m (by simp [hm])
    refine ⟨found :: founds, .cons hf hfs, ?_⟩
    rw [List.length_cons, Nat.add_right_comm, List.append_assoc, readMessages, EStateM.run_bind_ok hr,
      EStateM.run_bind, hrs]
    cases (readMessages false n : Op (Error wr) _ _).run rest <;> rfl

theorem readMessages_one (moduleStyle : Bool) {reader rest : List UInt8} {e : Stop (Error w)}
    (h : (readMessage moduleStyle).run reader = .error e rest) :
    (readMessages moduleStyle 1).run reader = .error e rest :=
  EStateM.run_bind_error h

/-- Reading on a host-style wire gives back the messages that were sent, takes off exactly their bytes, and fails with
the right error at an index that does not fit or a wrong terminator. -/
theorem readMessages_encodesAll {ms : List (Message ws)} {bytes : List UInt8} (h : EncodesAll ms bytes)
    (hms : ∀ m ∈ ms, m.Fits wr) (rest : List UInt8) :
    (∀ m : Message ws, m.Encodes m.toBytes) ∧
    (∃ found, (readMessages false ms.length : Op (Error wr) _ _).run (bytes ++ rest) = .ok found rest ∧
      List.Forall₂ FoundAs ms found) ∧
    (∀ (m : Message ws) (last : List UInt8), m.Encodes last → ¬ m.Fits wr →
      ∃ rest', (readMessages false (ms.length + 1) : Op (Error wr) _ _).run (bytes ++ (last ++ rest)) =
        .error (.error .idxTooBig) rest') ∧
    ∀ ty flag : UInt8, ty = 1 ∨ ty = 2 → (u8ToBoolArray flag).get 6 = false → (u8ToBoolArray flag).get 7 = true →
      (readMessages false (ms.length + 1) : Op (Error wr) _ _).run (bytes ++ ty :: flag :: rest) =
        .error (.error .invalidTerminator) rest := by
  refine ⟨Message.encodes_toBytes, ?_, fun m last hm hfits => ?_, fun ty flag hty h₆ h₇ => ?_⟩
  · obtain ⟨found, hf, hr⟩ := readMessages_append h hms 0 rest
    exact ⟨found, by simpa [readMessages] using hr, hf⟩
  · obtain ⟨left, -, herr⟩ := readMessage_idxTooBig hm hfits rest
    obtain ⟨found, -, hr⟩ := readMessages_append h hms 1 (last ++ rest)
    rw [readMessages_one false herr] at hr
    exact ⟨left ++ rest, hr⟩
  · obtain ⟨found, -, hr⟩ := readMessages_append h hms 1 (ty :: flag :: rest)
    rw [readMessages_one false (readMessage_invalidTerminator hty h₆ h₇ rest)] at hr
    exact hr

/-- The end of input and a chunk, from a sender with 16-bit indices. -/
private def sent : List (Message .u16) := [.endOfInput, .call ⟨200⟩ ⟨3⟩ .chunk ⟨[13], by decide⟩]

/-- The sender uses wider fields than it must. -/
private theorem sent_encodes : EncodesAll sent (3 :: 1 :: fields (.U32 200) (.U16 3) (.U64 1) .chunk [13]) :=
  .cons .endOfInput (.cons (.call _ _ _ _ (.U32 200) (.U16 3) (.U64 1) rfl rfl rfl) .nil)

/-- A receiver with 8-bit indices. -/
theorem readMessages_encodesAll_narrow :
    ∃ found, (readMessages false 2 : Op (Error .u8) _ _).run
        (3 :: 1 :: fields (.U32 200) (.U16 3) (.U64 1) .chunk [13]) = .ok found [] ∧
      List.Forall₂ FoundAs [.endOfInput, (.call ⟨200⟩ ⟨3⟩ .chunk ⟨[13], by decide⟩ : Message .u16)] found :=
  (readMessages_encodesAll sent_encodes (by simp [sent, Message.Fits, IntFeature.bits]) []).2.1

end Ipfi
