import Ipfi.Wire

/-!
# Framing

What `read_message` finds where an encoded message stands, and how `fill` goes through an input: each round takes at
least one byte off it, so the number of rounds it is given does not matter once it exceeds the length of the input.
-/

namespace Ipfi

variable {w : IntFeature}

/-! ### Reading back a message -/

/-- What is found where the message stands. -/
def Message.incoming : Message w → Incoming w
  | termination => .termination
  | call procedureIdx callIdx terminator args => .call procedureIdx callIdx terminator args.val
  | response procedureIdx callIdx terminator message => .response procedureIdx callIdx terminator message.val
  | endOfInput => .endOfInput

/-- The bytes of a sequence of messages. -/
def encode (ms : List (Message w)) : List UInt8 := (ms.map Message.toBytes).flatten

@[simp] theorem encode_nil : encode ([] : List (Message w)) = [] := rfl

@[simp] theorem encode_cons (m : Message w) (ms : List (Message w)) : encode (m :: ms) = m.toBytes ++ encode ms := rfl

@[simp] theorem encode_append (ms ms' : List (Message w)) : encode (ms ++ ms') = encode ms ++ encode ms' := by
  simp [encode]

theorem intoInt_getAsSmallestInt (v : IpfiInteger w) : (getAsSmallestInt v).intoInt w = some v := by
  rw [Integer.intoInt_eq, toNat_getAsSmallestInt, if_pos v.isLt, BitVec.ofNat_toNat, BitVec.setWidth_eq]

theorem toNat_getAsSmallestIntFromUsize_payload (m : Payload) :
    (getAsSmallestIntFromUsize m.val.length).toNat = m.val.length :=
  toNat_getAsSmallestIntFromUsize (lt_of_le_of_lt m.property (by decide))

theorem readExact_cons (b : UInt8) (rest : List UInt8) :
    (readExact 1 : Op (Error w) _ _).run (b :: rest) = .ok [b] rest := readExact_append [b] rest

@[simp] theorem orError_some {α σ : Type} (e : Error w) (a : α) : (orError e (some a) : Op (Error w) σ α) = pure a :=
    rfl

@[simp] theorem orThrow_ok {α σ : Type} (a : α) : (orThrow (.ok a) : Op (Error w) σ α) = pure a := rfl

/-- What follows the type byte of a call or a response whose header fields are sent as the given integers. -/
def fields (procedureIdx callIdx numBytes : Integer) (terminator : Terminator) (message : List UInt8) : List UInt8 :=
  makeMultiflag procedureIdx callIdx numBytes terminator ::
    procedureIdx.toLeBytes ++ callIdx.toLeBytes ++ numBytes.toLeBytes ++ message

theorem readBody_fields {pi ci ni : Integer} {p c : IpfiInteger w} (hp : pi.intoInt w = some p)
    (hc : ci.intoInt w = some c) (t : Terminator) (m : Payload) (hn : ni.toNat = m.val.length) (rest : List UInt8) :
    readBody.run (fields pi ci ni t m.val ++ rest) = .ok (⟨p⟩, ⟨c⟩, t, m.val) rest := by
  have hlen : ¬ isizeMax < m.val.length := Nat.not_lt.2 m.property
  simp [fields, readBody, readExact_cons, makeMultiflag, u8ToBoolArray_boolArrayToU8,
    Integer.populateFromReader_toLeBytes, hp, hc, Integer.intoUsize, hn, hlen, readExact_append]

theorem readBody_body (p : ProcedureIndex w) (c : CallIndex w) (t : Terminator) (m : Payload) (rest : List UInt8) :
    readBody.run (Message.body p c t m ++ rest) = .ok (p, c, t, m.val) rest :=
  readBody_fields (intoInt_getAsSmallestInt p.idx) (intoInt_getAsSmallestInt c.idx) t m
    (toNat_getAsSmallestIntFromUsize_payload m) rest

/-- A message is found as it was written, except that a module-style wire takes a response for its type byte. -/
theorem readMessage_toBytes (moduleStyle : Bool) (m : Message w) (rest : List UInt8)
    (hm : moduleStyle = true → ∀ p c t b, m ≠ .response p c t b) :
    (readMessage moduleStyle).run (m.toBytes ++ rest) = .ok m.incoming rest := by
  cases m with
  | termination => simp [readMessage, Message.toBytes, readExact_cons, Message.incoming]
  | call p c t args =>
    simp [readMessage, Message.toBytes, readExact_cons, Message.incoming, readBody_body]
  | response p c t b =>
    have hs : moduleStyle = false := by
      cases moduleStyle with
      | false => rfl
      | true => exact absurd rfl (hm rfl p c t b)
    simp [readMessage, Message.toBytes, readExact_cons, Message.incoming, readBody_body, hs]
  | endOfInput => simp [readMessage, Message.toBytes, readExact_cons, Message.incoming]

/-! ### Rounds -/

/-- Reading takes bytes off the input, or leaves it as it is. -/
def Shortens (reader reader' : List UInt8) : Prop := reader'.length ≤ reader.length

instance : IsPreorder (List UInt8) Shortens where
  refl _ := Nat.le_refl _
  trans _ _ _ h h' := Nat.le_trans h' h

theorem readExact_shortens (n : Nat) : (readExact n : Op (Error w) _ _).Within Shortens := by
  intro reader
  simp only [readExact, EStateM.run]
  split
  · simp [Shortens]
  · exact Nat.zero_le _

theorem populateFromReader_shortens (i : Integer) :
    (i.populateFromReader : Op (Error w) _ _).Within Shortens := by
  cases i <;> exact (readExact_shortens _).bind fun _ => .pure _

theorem orError_within {α σ : Type} {R : σ → σ → Prop} [IsPreorder σ R] (e : Error w) (o : Option α) :
    (orError e o : Op (Error w) σ α).Within R := by
  cases o with
  | none => exact .throw _
  | some a => exact .pure a

theorem orThrow_within {α σ : Type} {R : σ → σ → Prop} [IsPreorder σ R] (r : Except (Error w) α) :
    (orThrow r : Op (Error w) σ α).Within R := by
  cases r with
  | error e => exact .throw _
  | ok a => exact .pure a

theorem readBody_shortens (granted : Allocator) : (readBody granted : Op (Error w) _ _).Within Shortens := by
  refine (readExact_shortens 1).bind fun multiflagBuf => (orThrow_within _).bind fun t => ?_
  refine (populateFromReader_shortens _).bind fun p => (orError_within _ _).bind fun p' => ?_
  refine (populateFromReader_shortens _).bind fun c => (orError_within _ _).bind fun c' => ?_
  refine (populateFromReader_shortens _).bind fun n => (orError_within _ _).bind fun n' => ?_
  have hlast {α : Type} (f : List UInt8 → α) :
      ((readExact n' >>= fun bytes => pure (f bytes)) : Op (Error w) _ _).Within Shortens :=
    (readExact_shortens n').bind fun _ => .pure _
  have hgranted : ((do
      if granted (← get) n' = false then throw .panicked
      let bytes ← readExact n'
      pure (⟨p'⟩, ⟨c'⟩, t, bytes)) : Op (Error w) (List UInt8)
        (ProcedureIndex w × CallIndex w × Terminator × List UInt8)).Within Shortens :=
    .bind .get fun _ => .ite (.bind (.throw _) fun _ => hlast _) (hlast _)
  exact .ite (.bind (.throw _) fun _ => hgranted) hgranted

/-- A message that was read took at least its type byte. -/
theorem readMessage_lt {moduleStyle : Bool} {granted : Allocator} {reader reader' : List UInt8} {m : Incoming w}
    (h : (readMessage moduleStyle granted).run reader = .ok m reader') : reader'.length < reader.length := by
  cases reader with
  | nil => simp [readMessage, readExact, EStateM.run, bind, EStateM.bind] at h
  | cons b rest =>
    suffices hw : ∀ x : Op (Error w) (List UInt8) (Incoming w), x.Within Shortens → x.run rest = .ok m reader' →
        reader'.length ≤ rest.length by
      rw [readMessage, EStateM.run_bind_ok (readExact_cons b rest)] at h
      refine Nat.lt_succ_of_le (hw _ ?_ h)
      have hb := readBody_shortens (w := w) granted
      split
      · exact .pure _
      · exact hb.bind fun _ => .pure _
      · exact .ite (.pure _) (hb.bind fun _ => .pure _)
      · exact .pure _
      · exact .pure _
    intro x hx hr
    have := hx rest
    rwa [hr] at this

namespace Receiver

variable {granted : Allocator}

theorem receiveOne_run (t : Site w) (reader : List UInt8) (ht : t.wire.terminated = false) :
    (receiveOne granted).run ⟨t, reader⟩ = match (readMessage t.wire.moduleStyle granted).run reader with
      | .ok m reader' => ((Site.receive m).run t).mapState fun t' => ⟨t', reader'⟩
      | .error e reader' => .error e ⟨t, reader'⟩ := by
  simp only [receiveOne, EStateM.run_bind, EStateM.run_get, ht, Bool.false_eq_true, if_false, onReader,
    onSite, EStateM.run_zoom]
  cases (readMessage t.wire.moduleStyle granted).run reader <;> rfl

theorem fillStep_run (s : Receiver w) : (fillStep granted).run s = atEof ((receiveOne granted).run s) := rfl

@[simp] theorem atEof_ok {α : Type} (a : α) (s : Receiver w) : atEof (.ok a s) = .ok a s := rfl

theorem atEof_error {α : Type} (e : Stop (Error w)) (s : Receiver w) :
    (atEof (.error e s) : EStateM.Result _ _ α) = .error e
      { s with site := if e = .error (.ioError .unexpectedEof) then s.site.markTerminated else s.site } := by
  unfold atEof
  split
  · rename_i h; cases h; rfl
  · rename_i h
    rw [if_neg fun he => h s (by rw [he])]

theorem atEof_eq_ok {α : Type} {r : EStateM.Result (Stop (Error w)) (Receiver w) α} {a : α} {s : Receiver w} :
    atEof r = .ok a s ↔ r = .ok a s := by
  unfold atEof
  split <;> simp

/-- A round that goes on has taken a byte off the input. -/
theorem fillStep_lt {s s' : Receiver w} {b : Option Bool} (h : (fillStep granted).run s = .ok b s') :
    s'.reader.length < s.reader.length := by
  have h' : (receiveOne granted).run s = .ok b s' := atEof_eq_ok.1 h
  by_cases ht : s.site.wire.terminated
  · simp [receiveOne, ht] at h'
  · rw [receiveOne_run s.site s.reader (by simpa using ht)] at h'
    cases hm : (readMessage s.site.wire.moduleStyle granted).run s.reader with
    | error e reader' => rw [hm] at h'; cases h'
    | ok m reader' =>
      simp only [hm] at h'
      cases hr : (Site.receive m).run s.site with
      | error e t' => rw [hr] at h'; cases h'
      | ok b t' => rw [hr] at h'; cases h'; exact readMessage_lt hm

theorem fillLoop_succ (n : Nat) (s : Receiver w) :
    (fillLoop (n + 1) granted).run s = match (fillStep granted).run s with
      | .ok none s' => .ok () s'
      | .ok (some _) s' => (fillLoop n granted).run s'
      | .error e s' => .error e s' := by
  simp only [fillLoop, EStateM.run_bind]
  rcases (fillStep granted).run s with ⟨_ | b, s'⟩ | ⟨e, s'⟩ <;> rfl

/-- Rounds beyond the length of the input change nothing. -/
theorem fillLoop_congr {n n' : Nat} {s : Receiver w} (hn : s.reader.length < n) (hn' : s.reader.length < n') :
    (fillLoop n granted).run s = (fillLoop n' granted).run s := by
  induction n generalizing n' s with
  | zero => omega
  | succ n ih =>
    obtain ⟨n', rfl⟩ : ∃ k, n' = k + 1 := ⟨n' - 1, by omega⟩
    rw [fillLoop_succ, fillLoop_succ]
    rcases hs : (fillStep granted).run s with ⟨_ | b, s'⟩ | ⟨e, s'⟩
    · rfl
    · have hlt := fillStep_lt hs
      exact ih (by omega) (by omega)
    · rfl

/-- The loop in `fill` with enough rounds. -/
def rounds (s : Receiver w) (granted : Allocator := .unlimited) :
    EStateM.Result (Stop (Error w)) (Receiver w) Unit :=
  (fillLoop (s.reader.length + 1) granted).run s

theorem rounds_eq (s : Receiver w) :
    s.rounds granted = match (fillStep granted).run s with
      | .ok none s' => .ok () s'
      | .ok (some _) s' => s'.rounds granted
      | .error e s' => .error e s' := by
  rw [rounds, fillLoop_succ]
  rcases hs : (fillStep granted).run s with ⟨_ | b, s'⟩ | ⟨e, s'⟩
  · rfl
  · exact fillLoop_congr (fillStep_lt hs) (Nat.lt_succ_self _)
  · rfl

theorem fill_run (s : Receiver w) (ht : s.site.wire.terminated = false) :
    (fill granted).run s = s.rounds granted := by
  simp [fill, ht, rounds]

/-- A round on an encoded message receives that message. -/
theorem fillStep_message (t : Site w) (m : Message w) (rest : List UInt8) (ht : t.wire.terminated = false)
    (hm : t.wire.moduleStyle = true → ∀ p c tm b, m ≠ .response p c tm b) :
    fillStep.run ⟨t, m.toBytes ++ rest⟩ =
      atEof (((Site.receive m.incoming).run t).mapState fun t' => ⟨t', rest⟩) := by
  rw [fillStep_run, receiveOne_run t _ ht, readMessage_toBytes _ _ _ hm]

theorem rounds_termination {t : Site w} (ht : t.wire.terminated = false) (rest : List UInt8) :
    rounds ⟨t, 0 :: rest⟩ = .ok () ⟨t.markTerminated, rest⟩ := by
  have h := fillStep_message t .termination rest ht (by simp)
  rw [rounds_eq, show 0 :: rest = Message.toBytes (.termination : Message w) ++ rest from rfl, h]
  rfl

theorem rounds_endOfInput {t : Site w} (ht : t.wire.terminated = false) (rest : List UInt8) :
    rounds ⟨t, 3 :: rest⟩ = .ok () ⟨t, rest⟩ := by
  have h := fillStep_message t .endOfInput rest ht (by simp)
  rw [rounds_eq, show 3 :: rest = Message.toBytes (.endOfInput : Message w) ++ rest from rfl, h]
  rfl

theorem rounds_nil {t : Site w} (ht : t.wire.terminated = false) :
    rounds ⟨t, []⟩ = .error (.error (.ioError .unexpectedEof)) ⟨t.markTerminated, []⟩ := by
  rw [rounds_eq, fillStep_run, receiveOne_run t [] ht]
  rfl

end Receiver

/-! ### Writing -/

/-- A writer that never fails empties the queue into what it writes to. -/
theorem Wire.flushLoop_run {ω : Type} {writeAll : List UInt8 → Op (Error w) ω Unit} {f : ω → List UInt8 → ω}
    (hw : ∀ bytes o, (writeAll bytes).run o = .ok () (f o bytes)) (x : Wire w) (queue : List (List UInt8)) (o : ω) :
    (Wire.flushLoop writeAll queue).run ({ x with queue }, o) = .ok () ({ x with queue := [] }, queue.foldl f o) := by
  induction queue generalizing o with
  | nil => rfl
  | cons bytes queue ih =>
    simp only [Wire.flushLoop, EStateM.run_bind, EStateM.run_modify, EStateM.run_zoom, hw, EStateM.Result.mapState_ok]
    exact ih (f o bytes)

theorem Wire.flushPartial_run {ω : Type} {writeAll : List UInt8 → Op (Error w) ω Unit} {f : ω → List UInt8 → ω}
    (hw : ∀ bytes o, (writeAll bytes).run o = .ok () (f o bytes)) {x : Wire w} (hx : x.terminated = false) (o : ω) :
    (Wire.flushPartial writeAll (pure ())).run (x, o) = .ok () ({ x with queue := [] }, x.queue.foldl f o) := by
  have hrun : ¬ x.terminated = true := by simp [hx]
  simp only [Wire.flushPartial, EStateM.run_bind, EStateM.run_get, if_neg hrun]
  rw [show (x, o) = ({ x with queue := x.queue }, o) from rfl, flushLoop_run hw x x.queue o]
  rfl

end Ipfi
