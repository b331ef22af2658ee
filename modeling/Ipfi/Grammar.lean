import Ipfi.Boundaries
import Ipfi.Capacity

/-!
# What the reader accepts

A host-style reader takes bytes for a message exactly if they are an encoding of it, in header fields of any sizes that
hold the values.  Of all these encodings the one that is sent is the shortest.
-/

namespace Ipfi

variable {w : IntFeature}

open EStateM (Meets)

/-- The bytes stand for what is found: they encode a message, or they are a type byte that the format does not know. -/
inductive Incoming.Accepts : Incoming w → List UInt8 → Prop
  | sent {m : Message w} {bytes : List UInt8} (h : m.Encodes bytes) : Accepts m.incoming bytes
  | unknown {ty : UInt8} (h : 3 < ty) : Accepts .ignored [ty]

/-- The bytes stand for what is found, one after the other. -/
inductive AcceptsAll : List (Incoming w) → List UInt8 → Prop
  | nil : AcceptsAll [] []
  | cons {found : Incoming w} {founds : List (Incoming w)} {bytes rest : List UInt8} (h : found.Accepts bytes)
      (hs : AcceptsAll founds rest) : AcceptsAll (found :: founds) (bytes ++ rest)

/-! ### What is accepted is read -/

theorem foundAs_incoming (m : Message w) : FoundAs m m.incoming := by
  cases m with
  | termination => exact .termination
  | call p c t args => exact .call t args rfl rfl
  | response p c t m => exact .response t m rfl rfl
  | endOfInput => exact .endOfInput

theorem Incoming.Accepts.read {found : Incoming w} {bytes : List UInt8} (h : found.Accepts bytes) (rest : List UInt8) :
    (readMessage false).run (bytes ++ rest) = .ok found rest := by
  cases h with
  | @sent m bytes h =>
    obtain ⟨found, hr, hf⟩ := readMessage_encodes h m.fits_self rest
    rw [hr, hf.unique (foundAs_incoming m)]
  | @unknown ty h =>
    have h₀ : ty ≠ 0 := by rintro rfl; exact absurd h (by decide)
    have h₁ : ty ≠ 1 := by rintro rfl; exact absurd h (by decide)
    have h₂ : ty ≠ 2 := by rintro rfl; exact absurd h (by decide)
    have h₃ : ty ≠ 3 := by rintro rfl; exact absurd h (by decide)
    rw [readMessage, List.singleton_append, EStateM.run_bind_ok (readExact_cons ty rest)]
    simp only [List.headD_cons]
    rfl

/-! ### What is read is accepted -/

private theorem reads {α : Type} {x : Op (Error w) (List UInt8) α} {P : List UInt8 → Prop} {Q : α → List UInt8 → Prop}
    (h : Meets P x Q ReadFails) : Meets P x Q fun _ _ => True :=
  h.mono (fun _ => id) (fun _ _ => id) fun _ _ _ => trivial

theorem Integer.toNat_of_intoInt {i : Integer} {n : IpfiInteger w} (h : i.intoInt w = some n) : i.toNat = n.toNat := by
  rw [Integer.intoInt_eq] at h
  split at h
  · rename_i hlt
    cases h
    rw [BitVec.toNat_ofNat, Nat.mod_eq_of_lt hlt]
  · cases h

/-- Reading the header and the bytes of a message takes the fields of the message off the input. -/
private theorem readBody_accepts (reader : List UInt8) :
    Meets (· = reader) (readBody : Op (Error w) _ _) (fun x rest => ∃ (pi ci ni : Integer) (m : Payload),
        pi.toNat = x.1.idx.toNat ∧ ci.toNat = x.2.1.idx.toNat ∧ ni.toNat = m.val.length ∧ x.2.2.2 = m.val ∧
          reader = fields pi ci ni x.2.2.1 m.val ++ rest) fun _ _ => True := by
  refine EStateM.Meets.mono (P := fun rest => reader = [] ++ rest) ?_ (fun rest h => h.symm)
    (fun _ _ => id) fun _ _ => id
  refine (reads (readExact_meets 1 reader [])).bind fun multiflagBuf => .of_and fun hbuf => ?_
  obtain ⟨flag, rfl⟩ := List.length_eq_one_iff.1 hbuf
  refine (reads (orThrow_meets _ _)).bind fun t => .of_and fun ht => ?_
  refine (reads (populateFromReader_meets _ reader _)).bind fun pi => .of_and fun hpi => ?_
  refine (reads (orError_meets _ _ _)).bind fun p => .of_and fun hp => ?_
  refine (reads (populateFromReader_meets _ reader _)).bind fun ci => .of_and fun hci => ?_
  refine (reads (orError_meets _ _ _)).bind fun c => .of_and fun hc => ?_
  refine (reads (populateFromReader_meets _ reader _)).bind fun ni => .of_and fun hni => ?_
  refine (reads (orError_meets _ _ _)).bind fun n => .of_and fun hn => ?_
  obtain rfl : ni.toNat = n := by simpa [Integer.intoUsize] using hn
  refine .ite (fun _ => .bind (Q := fun _ _ => False) (.throw fun _ _ => trivial) fun _ _ h => h.elim) fun hle => ?_
  refine (reads (readExact_meets ni.toNat reader _)).bind fun bytes => .of_and fun hbytes => .pure fun rest hrest => ?_
  have hflag := makeMultiflag_eq hpi hci hni (Terminator.toFlag_of_fromFlag ht)
  rw [boolArrayToU8_u8ToBoolArray] at hflag
  refine ⟨pi, ci, ni, ⟨bytes, hbytes ▸ Nat.not_lt.1 hle⟩, Integer.toNat_of_intoInt hp, Integer.toNat_of_intoInt hc,
    hbytes.symm, rfl, ?_⟩
  rw [fields, hflag]
  simpa using hrest

theorem accepts_of_readMessage {reader rest : List UInt8} {found : Incoming w}
    (h : (readMessage false).run reader = .ok found rest) : ∃ bytes, found.Accepts bytes ∧ reader = bytes ++ rest := by
  cases reader with
  | nil => simp [readMessage, readExact, EStateM.run, bind, EStateM.bind] at h
  | cons ty reader =>
    rw [readMessage, EStateM.run_bind_ok (readExact_cons ty reader)] at h
    simp only [List.headD_cons] at h
    -- the type byte decides on what follows it
    split at h
    · cases h
      exact ⟨[0], .sent (m := .termination) .termination, rfl⟩
    · cases hr : (readBody : Op (Error w) _ _).run reader with
      | error e reader' => rw [EStateM.run_bind_error hr] at h; cases h
      | ok x reader' =>
        rw [EStateM.run_bind_ok hr] at h
        cases h
        obtain ⟨pi, ci, ni, m, hp, hc, hn, hm, rfl⟩ := (readBody_accepts reader).ok rfl hr
        obtain ⟨p, c, t, bytes⟩ := x
        obtain rfl : bytes = m.val := hm
        exact ⟨_, .sent (m := .call p c t m) (.call p c t m pi ci ni hp hc hn), rfl⟩
    · simp only [Bool.false_eq_true, if_false] at h
      cases hr : (readBody : Op (Error w) _ _).run reader with
      | error e reader' => rw [EStateM.run_bind_error hr] at h; cases h
      | ok x reader' =>
        rw [EStateM.run_bind_ok hr] at h
        cases h
        obtain ⟨pi, ci, ni, m, hp, hc, hn, hm, rfl⟩ := (readBody_accepts reader).ok rfl hr
        obtain ⟨p, c, t, bytes⟩ := x
        obtain rfl : bytes = m.val := hm
        exact ⟨_, .sent (m := .response p c t m) (.response p c t m pi ci ni hp hc hn), rfl⟩
    · cases h
      exact ⟨[3], .sent (m := .endOfInput) .endOfInput, rfl⟩
    · rename_i h₀ h₁ h₂ h₃
      cases h
      refine ⟨[ty], .unknown ?_, rfl⟩
      have hne : ∀ n : UInt8, ty ≠ n → ty.toNat ≠ n.toNat := fun n hn he => hn (UInt8.toNat_inj.1 he)
      have := hne 0 h₀
      have := hne 1 h₁
      have := hne 2 h₂
      have := hne 3 h₃
      rw [UInt8.lt_iff_toNat_lt]
      simp only [UInt8.reduceToNat] at *
      omega

/-! ### Sequences of messages -/

theorem AcceptsAll.read {founds : List (Incoming w)} {bytes : List UInt8} (h : AcceptsAll founds bytes)
    (rest : List UInt8) : (readMessages false founds.length).run (bytes ++ rest) = .ok founds rest := by
  induction h with
  | nil => rfl
  | @cons found founds bytes rest' h _ ih =>
    rw [List.length_cons, readMessages, List.append_assoc, EStateM.run_bind_ok (h.read (rest' ++ rest)),
      EStateM.run_bind_ok ih]
    rfl

theorem acceptsAll_of_readMessages {n : Nat} {reader rest : List UInt8} {founds : List (Incoming w)}
    (h : (readMessages false n).run reader = .ok founds rest) :
    founds.length = n ∧ ∃ bytes, AcceptsAll founds bytes ∧ reader = bytes ++ rest := by
  induction n generalizing reader founds with
  | zero =>
    cases h
    exact ⟨rfl, [], .nil, rfl⟩
  | succ n ih =>
    rw [readMessages] at h
    cases hr : (readMessage false : Op (Error w) _ _).run reader with
    | error e reader' => rw [EStateM.run_bind_error hr] at h; cases h
    | ok found reader' =>
      rw [EStateM.run_bind_ok hr] at h
      cases hrs : (readMessages false n : Op (Error w) _ _).run reader' with
      | error e rest' => rw [EStateM.run_bind_error hrs] at h; cases h
      | ok founds' rest' =>
        rw [EStateM.run_bind_ok hrs] at h
        cases h
        obtain ⟨bytes, hacc, rfl⟩ := accepts_of_readMessage hr
        obtain ⟨hlen, bytes', hall, rfl⟩ := ih hrs
        exact ⟨congrArg Nat.succ hlen, bytes ++ bytes', .cons hacc hall, (List.append_assoc _ _ _).symm⟩

/-- Reading messages succeeds exactly where the input starts with bytes that stand for them. -/
theorem readMessages_eq_ok_iff {n : Nat} {reader rest : List UInt8} {founds : List (Incoming w)} :
    (readMessages false n).run reader = .ok founds rest ↔
      founds.length = n ∧ ∃ bytes, AcceptsAll founds bytes ∧ reader = bytes ++ rest := by
  constructor
  · exact acceptsAll_of_readMessages
  · rintro ⟨rfl, bytes, hall, rfl⟩
    exact hall.read rest

/-! ### The shortest encoding -/

namespace Integer

variable {i j : Integer}

theorem eq_of_toNat (hsize : i.size = j.size) (h : i.toNat = j.toNat) : i = j := by
  cases i <;> cases j <;> simp only [size] at hsize <;> first | omega | skip
  · exact congrArg U8 (UInt8.toNat_inj.1 h)
  · exact congrArg U16 (UInt16.toNat_inj.1 h)
  · exact congrArg U32 (UInt32.toNat_inj.1 h)
  · exact congrArg U64 (UInt64.toNat_inj.1 h)

/-- The size of the smallest type that holds the value. -/
def sizeFor (n : Nat) : Nat := if n ≤ 255 then 1 else if n ≤ 65535 then 2 else if n ≤ 4294967295 then 4 else 8

theorem sizeFor_le (i : Integer) : sizeFor i.toNat ≤ i.size := by
  have hlt := i.toNat_lt
  unfold sizeFor
  cases i <;> simp only [size] at hlt ⊢ <;> split_ifs <;> omega

theorem size_getAsSmallestInt (v : IpfiInteger w) : (getAsSmallestInt v).size = sizeFor v.toNat := by
  have hv := v.isLt
  revert hv
  cases w <;> simp only [getAsSmallestInt, sizeFor] <;> generalize v.toNat = n <;> intro hv <;>
    simp only [IntFeature.bits] at hv
  all_goals split_ifs
  all_goals simp only [size]
  all_goals omega

theorem size_getAsSmallestIntFromUsize (n : Nat) : (getAsSmallestIntFromUsize n).size = sizeFor n := by
  unfold sizeFor getAsSmallestIntFromUsize
  split_ifs <;> rfl

end Integer

private theorem length_fields (pi ci ni : Integer) (t : Terminator) (m : List UInt8) :
    (fields pi ci ni t m).length = 1 + pi.size + ci.size + ni.size + m.length := by
  simp only [fields, Integer.toLeBytes, List.length_cons, List.length_append, length_leBytes]
  omega

/-- The header fields of other sizes take more bytes. -/
private theorem fields_shortest {p : ProcedureIndex w} {c : CallIndex w} {m : Payload} {pi ci ni : Integer}
    (t : Terminator) (hp : pi.toNat = p.idx.toNat) (hc : ci.toNat = c.idx.toNat) (hn : ni.toNat = m.val.length) :
    (Message.body p c t m).length < (fields pi ci ni t m.val).length ∨
      fields pi ci ni t m.val = Message.body p c t m := by
  have hbody : Message.body p c t m = fields (getAsSmallestInt p.idx) (getAsSmallestInt c.idx)
    (getAsSmallestIntFromUsize m.val.length) t m.val := rfl
  have hpi : (getAsSmallestInt p.idx).size ≤ pi.size := by
    rw [Integer.size_getAsSmallestInt, ← hp]
    exact pi.sizeFor_le
  have hci : (getAsSmallestInt c.idx).size ≤ ci.size := by
    rw [Integer.size_getAsSmallestInt, ← hc]
    exact ci.sizeFor_le
  have hni : (getAsSmallestIntFromUsize m.val.length).size ≤ ni.size := by
    rw [Integer.size_getAsSmallestIntFromUsize, ← hn]
    exact ni.sizeFor_le
  rw [hbody, length_fields, length_fields]
  by_cases hsizes : (getAsSmallestInt p.idx).size = pi.size ∧ (getAsSmallestInt c.idx).size = ci.size ∧
      (getAsSmallestIntFromUsize m.val.length).size = ni.size
  · right
    rw [Integer.eq_of_toNat hsizes.1 ((toNat_getAsSmallestInt _).trans hp.symm),
      Integer.eq_of_toNat hsizes.2.1 ((toNat_getAsSmallestInt _).trans hc.symm),
      Integer.eq_of_toNat hsizes.2.2 ((toNat_getAsSmallestIntFromUsize_payload m).trans hn.symm)]
  · left
    omega

theorem Message.incoming_injective : Function.Injective (Message.incoming : Message w → Incoming w) := by
  intro m m' h
  cases m <;> cases m' <;> simp only [incoming, Incoming.call.injEq, Incoming.response.injEq, reduceCtorEq] at h
  · rfl
  · obtain ⟨rfl, rfl, rfl, hargs⟩ := h
    rw [Subtype.ext hargs]
  · obtain ⟨rfl, rfl, rfl, hm⟩ := h
    rw [Subtype.ext hm]
  · rfl

/-- What is sent for a message is read as the message, and whatever other bytes are read as it are more. -/
theorem Message.toBytes_shortest (m : Message w) :
    (readMessage false).run m.toBytes = .ok m.incoming [] ∧
      ∀ bytes, (readMessage false).run bytes = .ok m.incoming [] →
        m.toBytes.length < bytes.length ∨ bytes = m.toBytes := by
  have hread := readMessage_toBytes false m [] fun h => absurd h Bool.false_ne_true
  rw [List.append_nil] at hread
  refine ⟨hread, fun bytes h => ?_⟩
  obtain ⟨bytes, hacc, rfl⟩ := accepts_of_readMessage h
  rw [List.append_nil]
  generalize hm : m.incoming = found at hacc
  cases hacc with
  | unknown => cases m <;> cases hm
  | @sent m' _ henc =>
    obtain rfl := incoming_injective hm
    cases henc with
    | termination => exact .inr rfl
    | call p c t args pi ci ni hp hc hn =>
      rcases fields_shortest t hp hc hn with hlt | heq
      · exact .inl (Nat.succ_lt_succ hlt)
      · exact .inr (congrArg _ heq)
    | response p c t m pi ci ni hp hc hn =>
      rcases fields_shortest t hp hc hn with hlt | heq
      · exact .inl (Nat.succ_lt_succ hlt)
      · exact .inr (congrArg _ heq)
    | endOfInput => exact .inr rfl

/-- A response to the first call, sent in the widest fields. -/
theorem Message.toBytes_shortest_wide :
    (Message.response ⟨1⟩ ⟨0⟩ .none ⟨[71], by decide⟩ : Message .u64).toBytes.length <
        (2 :: fields (.U64 1) (.U64 0) (.U64 1) .none [71]).length ∨
      2 :: fields (.U64 1) (.U64 0) (.U64 1) .none [71] =
        (Message.response ⟨1⟩ ⟨0⟩ .none ⟨[71], by decide⟩ : Message .u64).toBytes :=
  (Message.toBytes_shortest _).2 _ rfl

end Ipfi
