import Ipfi.Soundness

/-!
# Announced lengths

The length in a header may be any 64-bit integer, and is not checked before a vector of that length is made: it may be
more than a vector can hold, or more than there is memory for.  In every state that can be reached, this is what
`receive_one` and `fill` fail to return on, and all they fail to return on.
-/

namespace Ipfi

variable {w : IntFeature} {granted : Allocator}

open EStateM (Meets)

/-! ### Reading, without knowing what was written -/

/-- Reading failed with an error of the program. -/
abbrev ReadFails : Stop (Error w) → List UInt8 → Prop := Fails fun _ => True

theorem readExact_meets (n : Nat) (reader pre : List UInt8) :
    Meets (fun rest => reader = pre ++ rest) (readExact n : Op (Error w) _ _)
      (fun buf rest => buf.length = n ∧ reader = pre ++ buf ++ rest) ReadFails := by
  intro rest hrest
  by_cases hn : n ≤ rest.length
  · rw [show (readExact n : Op (Error w) _ _).run rest = .ok (rest.take n) (rest.drop n) by
      simp [readExact, EStateM.run, hn]]
    exact ⟨List.length_take_of_le hn, by simpa using hrest⟩
  · rw [show (readExact n : Op (Error w) _ _).run rest = .error (.error (.ioError .unexpectedEof)) [] by
      simp [readExact, EStateM.run, hn]]
    exact ⟨trivial, _, rfl⟩

theorem populateFromReader_meets (flag : Bool × Bool) (reader pre : List UInt8) :
    Meets (fun rest => reader = pre ++ rest) ((Integer.fromFlag flag).populateFromReader : Op (Error w) _ _)
      (fun i rest => i.toFlag = flag ∧ reader = pre ++ i.toLeBytes ++ rest) ReadFails := by
  have hread : ∀ (n : Nat) (mk : Nat → Integer),
      (∀ v < 256 ^ n, (mk v).toFlag = flag ∧ (mk v).toLeBytes = leBytes n v) →
      Meets (fun rest => reader = pre ++ rest) (do let buf ← readExact n; pure (mk (ofLeBytes buf)) : Op (Error w) _ _)
        (fun i rest => i.toFlag = flag ∧ reader = pre ++ i.toLeBytes ++ rest) ReadFails := by
    intro n mk hmk
    refine (readExact_meets n reader pre).bind fun buf => .pure fun rest ⟨hlen, heq⟩ => ?_
    obtain ⟨hflag, hbytes⟩ := hmk (ofLeBytes buf) (hlen ▸ ofLeBytes_lt buf)
    subst hlen
    exact ⟨hflag, by rw [hbytes, leBytes_ofLeBytes, heq]⟩
  obtain ⟨_ | _, _ | _⟩ := flag
  · refine hread 1 (fun v => .U8 (.ofNat v)) fun v hv => ⟨rfl, congrArg (leBytes 1) ?_⟩
    exact UInt8.toNat_ofNat_of_lt' hv
  · refine hread 2 (fun v => .U16 (.ofNat v)) fun v hv => ⟨rfl, congrArg (leBytes 2) ?_⟩
    exact UInt16.toNat_ofNat_of_lt' hv
  · refine hread 4 (fun v => .U32 (.ofNat v)) fun v hv => ⟨rfl, congrArg (leBytes 4) ?_⟩
    exact UInt32.toNat_ofNat_of_lt' hv
  · refine hread 8 (fun v => .U64 (.ofNat v)) fun v hv => ⟨rfl, congrArg (leBytes 8) ?_⟩
    exact UInt64.toNat_ofNat_of_lt' hv

theorem orError_meets {α : Type} (e : Error w) (o : Option α) (P : List UInt8 → Prop) :
    Meets P (orError e o) (fun a rest => o = some a ∧ P rest) ReadFails := by
  cases o with
  | none => exact .throw fun _ _ => ⟨trivial, _, rfl⟩
  | some a => exact .pure fun _ h => ⟨rfl, h⟩

theorem orThrow_meets {α : Type} (r : Except (Error w) α) (P : List UInt8 → Prop) :
    Meets P (orThrow r) (fun a rest => r = .ok a ∧ P rest) ReadFails := by
  cases r with
  | error e => exact .throw fun _ _ => ⟨trivial, _, rfl⟩
  | ok a => exact .pure fun _ h => ⟨rfl, h⟩

/-! ### Lengths that are not granted -/

/-- A vector of so many bytes cannot be made when this is left of the input. -/
def Refused (granted : Allocator) (rest : List UInt8) (numBytes : Nat) : Prop :=
  isizeMax < numBytes ∨ granted rest numBytes = false

/-- At the head of the input stands a call, or a response on a wire that reads them, which announces more bytes than a
vector can hold or than there is memory for. -/
def Oversized (w : IntFeature) (granted : Allocator) (moduleStyle : Bool) (reader : List UInt8) : Prop :=
  ∃ ty procedureIdx callIdx numBytes terminator rest, (ty = 1 ∨ ty = 2 ∧ moduleStyle = false) ∧
    (procedureIdx.intoInt w).isSome ∧ (callIdx.intoInt w).isSome ∧ Refused granted rest numBytes.toNat ∧
    reader = ty :: fields procedureIdx callIdx numBytes terminator rest

/-- The same for what stands after the type byte. -/
private def OversizedBody (w : IntFeature) (granted : Allocator) (reader rest : List UInt8) : Prop :=
  ∃ procedureIdx callIdx numBytes terminator, (procedureIdx.intoInt w).isSome ∧ (callIdx.intoInt w).isSome ∧
    Refused granted rest numBytes.toNat ∧ reader = fields procedureIdx callIdx numBytes terminator rest

/-- How reading fails: with an error, or on a length that is too large. -/
private def BodyFails (granted : Allocator) (reader : List UInt8) (e : Stop (Error w)) (rest : List UInt8) : Prop :=
  ReadFails e rest ∨ e = .panicked ∧ OversizedBody w granted reader rest

theorem makeMultiflag_eq {pi ci ni : Integer} {t : Terminator} {bits : Vector Bool 8}
    (hp : pi.toFlag = (bits.get 0, bits.get 1)) (hc : ci.toFlag = (bits.get 2, bits.get 3))
    (hn : ni.toFlag = (bits.get 4, bits.get 5)) (ht : t.toFlag = (bits.get 6, bits.get 7)) :
    makeMultiflag pi ci ni t = boolArrayToU8 bits := by
  rw [makeMultiflag, hp, hc, hn, ht]
  congr 1
  ext i hi
  obtain _ | _ | _ | _ | _ | _ | _ | _ | i := i <;> first | rfl | omega

private theorem or_oversized {α : Type} {reader : List UInt8} {x : Op (Error w) (List UInt8) α}
    {P : List UInt8 → Prop} {Q : α → List UInt8 → Prop} (h : Meets P x Q ReadFails) :
    Meets P x Q (BodyFails granted reader) :=
  h.mono (fun _ => id) (fun _ _ => id) fun _ _ => .inl

private theorem readBody_meets (reader : List UInt8) :
    Meets (· = reader) (readBody granted : Op (Error w) _ _) (fun _ _ => True) (BodyFails granted reader) := by
  refine EStateM.Meets.mono (P := fun rest => reader = [] ++ rest) ?_ (fun rest h => h.symm)
    (fun _ _ => id) fun _ _ => id
  refine (or_oversized (readExact_meets 1 reader [])).bind fun multiflagBuf => .of_and fun hbuf => ?_
  obtain ⟨flag, rfl⟩ := List.length_eq_one_iff.1 hbuf
  refine (or_oversized (orThrow_meets _ _)).bind fun t => .of_and fun ht => ?_
  refine (or_oversized (populateFromReader_meets _ reader _)).bind fun pi => .of_and fun hpi => ?_
  refine (or_oversized (orError_meets _ _ _)).bind fun p => .of_and fun hp => ?_
  refine (or_oversized (populateFromReader_meets _ reader _)).bind fun ci => .of_and fun hci => ?_
  refine (or_oversized (orError_meets _ _ _)).bind fun c => .of_and fun hc => ?_
  refine (or_oversized (populateFromReader_meets _ reader _)).bind fun ni => .of_and fun hni => ?_
  refine (or_oversized (orError_meets _ _ _)).bind fun n => .of_and fun hn => ?_
  obtain rfl : ni.toNat = n := by simpa [Integer.intoUsize] using hn
  have hfails : ∀ rest, reader = [] ++ [flag] ++ pi.toLeBytes ++ ci.toLeBytes ++ ni.toLeBytes ++ rest →
      Refused granted rest ni.toNat → BodyFails (w := w) granted reader .panicked rest := by
    refine fun rest hrest hn => .inr ⟨rfl, pi, ci, ni, t, ?_, ?_, hn, ?_⟩
    · rw [hp]; rfl
    · rw [hc]; rfl
    · have hflag := makeMultiflag_eq hpi hci hni (Terminator.toFlag_of_fromFlag ht)
      rw [boolArrayToU8_u8ToBoolArray] at hflag
      rw [fields, hflag]
      simpa using hrest
  refine .ite (fun hlt => .bind (Q := fun _ _ => False) (.throw fun rest hrest => hfails rest hrest (.inl hlt))
    fun _ _ h => h.elim) fun _ => ?_
  refine .bind (Q := fun left rest => left = rest ∧
    reader = [] ++ [flag] ++ pi.toLeBytes ++ ci.toLeBytes ++ ni.toLeBytes ++ rest)
    (.get fun _ h => ⟨rfl, h⟩) fun left => ?_
  refine .ite (fun hno => .bind (Q := fun _ _ => False) (.throw fun rest hrest => ?_) fun _ _ h => h.elim) fun _ => ?_
  · exact hfails rest hrest.2 (.inr (hrest.1 ▸ hno))
  · exact ((or_oversized (readExact_meets ni.toNat reader _)).bind fun _ => .pure fun _ _ => trivial).mono
      (fun _ h => h.2) (fun _ _ => id) fun _ _ => id

private theorem readBody_panics {pi ci ni : Integer} (hp : (pi.intoInt w).isSome) (hc : (ci.intoInt w).isSome)
    {rest : List UInt8} (hn : Refused granted rest ni.toNat) (t : Terminator) :
    (readBody granted : Op (Error w) _ _).run (fields pi ci ni t rest) = .error .panicked rest := by
  obtain ⟨p, hp⟩ := Option.isSome_iff_exists.1 hp
  obtain ⟨c, hc⟩ := Option.isSome_iff_exists.1 hc
  by_cases hlt : isizeMax < ni.toNat
  · simp [fields, readBody, readExact_cons, makeMultiflag, u8ToBoolArray_boolArrayToU8,
      Integer.populateFromReader_toLeBytes, hp, hc, Integer.intoUsize, hlt]
  · simp [fields, readBody, readExact_cons, makeMultiflag, u8ToBoolArray_boolArrayToU8,
      Integer.populateFromReader_toLeBytes, hp, hc, Integer.intoUsize, hlt, hn.resolve_left hlt]

/-- Reading a message fails with an error at most, unless the length it announces is too large. -/
theorem readMessage_meets (moduleStyle : Bool) (reader : List UInt8) :
    Meets (· = reader) (readMessage moduleStyle granted : Op (Error w) _ _) (fun _ _ => True)
      fun e rest => ReadFails e rest ∨ e = .panicked ∧ Oversized w granted moduleStyle reader := by
  rintro reader rfl
  cases reader with
  | nil => exact .inl ⟨trivial, _, rfl⟩
  | cons ty rest =>
    rw [readMessage, EStateM.run_bind_ok (readExact_cons ty rest)]
    have hbody : ∀ (f : ProcedureIndex w × CallIndex w × Terminator × List UInt8 → Incoming w),
        (ty = 1 ∨ ty = 2 ∧ moduleStyle = false) →
        ((readBody granted >>= fun x => pure (f x)).run rest).Satisfies (fun _ _ => True)
          fun e rest' => ReadFails e rest' ∨ e = .panicked ∧ Oversized w granted moduleStyle (ty :: rest) := by
      refine fun f hty => EStateM.Meets.bind (P := (· = rest)) (Q := fun _ _ => True) ?_
        (fun _ => .pure fun _ _ => trivial) rest rfl
      refine (readBody_meets rest).mono (fun _ => id) (fun _ _ => id) fun e rest' he => he.imp_right fun he => ?_
      obtain ⟨he, pi, ci, ni, t, hp, hc, hn, heq⟩ := he
      exact ⟨he, ty, pi, ci, ni, t, rest', hty, hp, hc, hn, congrArg _ heq⟩
    simp only [List.headD_cons]
    split
    · trivial
    · exact hbody (fun x => .call x.1 x.2.1 x.2.2.1 x.2.2.2) (.inl rfl)
    · cases moduleStyle with
      | true => trivial
      | false => exact hbody (fun x => .response x.1 x.2.1 x.2.2.1 x.2.2.2) (.inr ⟨rfl, rfl⟩)
    · trivial
    · trivial

theorem readMessage_panics {moduleStyle : Bool} {reader : List UInt8} (h : Oversized w granted moduleStyle reader) :
    ∃ rest, (readMessage moduleStyle granted : Op (Error w) _ _).run reader = .error .panicked rest := by
  obtain ⟨ty, pi, ci, ni, t, rest, hty, hp, hc, hn, rfl⟩ := h
  refine ⟨rest, ?_⟩
  have hbody := readBody_panics hp hc hn t
  rw [readMessage, EStateM.run_bind_ok (readExact_cons _ _)]
  rcases hty with rfl | ⟨rfl, rfl⟩
  · exact EStateM.run_bind_error hbody
  · exact EStateM.run_bind_error hbody

/-! ### Receiving -/

/-- The method returned, with a result or with an error. -/
def Returns {σ α : Type} (r : EStateM.Result (Stop (Error w)) σ α) : Prop :=
  r.Satisfies (fun _ _ => True) (Fails fun _ => True)

private theorem not_returns_panicked {σ α : Type} (s : σ) :
    ¬ Returns (.error (.panicked : Stop (Error w)) s : EStateM.Result _ _ α) := by
  rintro ⟨-, e, he⟩
  cases he

namespace Receiver

/-- The wire goes on to read a message that announces too many bytes. -/
def AtOversized (granted : Allocator) (s : Receiver w) : Prop :=
  s.site.wire.terminated = false ∧ Oversized w granted s.site.wire.moduleStyle s.reader

/-- The states in which `fill` begins a round. -/
inductive Rounds (granted : Allocator) (s : Receiver w) : Receiver w → Prop
  | first : Rounds granted s s
  | next {s' s'' : Receiver w} {b : Bool} :
    Rounds granted s s' → (fillStep granted).run s' = .ok (some b) s'' → Rounds granted s s''

/-- `receive_one` returns unless the message is too large, and leaves a sound interface when it does. -/
theorem receiveOne_outcome {s : Receiver w} (h : s.site.Sound) :
    s.AtOversized granted ∧ (∃ s', (receiveOne granted).run s = .error .panicked s') ∨
      ¬ s.AtOversized granted ∧ ((receiveOne granted).run s).Satisfies (fun _ s' => s'.site.Sound)
        (Fails fun _ => True) := by
  obtain ⟨t, reader⟩ := s
  cases ht : t.wire.terminated with
  | true =>
    refine .inr ⟨fun hover => by simp [AtOversized, ht] at hover, ?_⟩
    rw [show (receiveOne granted).run ⟨t, reader⟩ = .error (.error .wireTerminated) ⟨t, reader⟩ by
      simp [receiveOne, ht]]
    exact ⟨trivial, _, rfl⟩
  | false =>
    rw [receiveOne_run t reader ht]
    by_cases hover : Oversized w granted t.wire.moduleStyle reader
    · obtain ⟨rest, hr⟩ := readMessage_panics hover
      rw [hr]
      exact .inl ⟨⟨ht, hover⟩, _, rfl⟩
    · refine .inr ⟨fun h => hover h.2, ?_⟩
      cases hr : (readMessage t.wire.moduleStyle granted : Op (Error w) _ _).run reader with
      | error e rest =>
        have he := ((readMessage_meets _ reader).error rfl hr).resolve_right fun he => hover he.2
        exact ⟨trivial, he.2⟩
      | ok m rest =>
        have hm := Site.receive_safe m t h
        show (((Site.receive m).run t).mapState _).Satisfies _ _
        cases hs : (Site.receive m).run t with
        | ok b t' => rw [hs] at hm; exact hm
        | error e t' => rw [hs] at hm; exact ⟨trivial, hm.2⟩

theorem receiveOne_returns_iff {s : Receiver w} (h : s.site.Sound) :
    Returns ((receiveOne granted).run s) ↔ ¬ s.AtOversized granted := by
  rcases receiveOne_outcome h with ⟨hover, s', hr⟩ | ⟨hover, hr⟩
  · refine iff_of_false (fun hret => ?_) (not_not_intro hover)
    rw [hr] at hret
    exact not_returns_panicked s' hret
  · refine iff_of_true ?_ hover
    cases hs : (receiveOne granted).run s with
    | ok b s' => trivial
    | error e s' => rw [hs] at hr; exact hr

theorem Rounds.head {s s' : Receiver w} (h : Rounds granted s s') :
    s' = s ∨ ∃ b s₁, (fillStep granted).run s = .ok (some b) s₁ ∧ Rounds granted s₁ s' := by
  induction h with
  | first => exact .inl rfl
  | next _ hr ih =>
    rcases ih with rfl | ⟨b, s₁, hs₁, h⟩
    · exact .inr ⟨_, _, hr, .first⟩
    · exact .inr ⟨b, s₁, hs₁, h.next hr⟩

theorem Rounds.cons {s s₁ s' : Receiver w} {b : Bool} (hr : (fillStep granted).run s = .ok (some b) s₁)
    (h : Rounds granted s₁ s') : Rounds granted s s' := by
  induction h with
  | first => exact .next .first hr
  | next _ hr' ih => exact ih.next hr'

theorem rounds_returns_iff {s : Receiver w} (h : s.site.Sound) :
    Returns (s.rounds granted) ↔ ∀ s', Rounds granted s s' → ¬ s'.AtOversized granted := by
  induction hn : s.reader.length using Nat.strong_induction_on generalizing s with
  | _ n ih =>
    subst hn
    have hstep : (fillStep granted).run s = _ := fillStep_run s
    rw [rounds_eq]
    rcases receiveOne_outcome h with ⟨hover, s', hr⟩ | ⟨hover, hr⟩
    · rw [hstep, hr, atEof_error]
      exact iff_of_false (not_returns_panicked _) fun hall => hall s .first hover
    · have hend : (∀ b s₁, (fillStep granted).run s ≠ .ok (some b) s₁) →
          ∀ s', Rounds granted s s' → ¬ s'.AtOversized granted := by
        intro hno s' hs'
        rcases hs'.head with rfl | ⟨b, s₁, hs₁, -⟩
        · exact hover
        · exact absurd hs₁ (hno b s₁)
      rcases hone : (receiveOne granted).run s with ⟨_ | b, s₁⟩ | ⟨e, s₁⟩
      · rw [hone, atEof_ok] at hstep
        rw [hstep]
        exact iff_of_true trivial (hend (by simp [hstep]))
      · rw [hone, atEof_ok] at hstep
        rw [hone] at hr
        rw [hstep]
        refine (ih _ (fillStep_lt hstep) hr rfl).trans
          ⟨fun hall s' hs' => ?_, fun hall s' hs' => hall s' (.cons hstep hs')⟩
        rcases hs'.head with rfl | ⟨b', s₂, hs₂, hrest⟩
        · exact hover
        · cases hstep.symm.trans hs₂
          exact hall s' hrest
      · rw [hone, atEof_error] at hstep
        rw [hone] at hr
        rw [hstep]
        exact iff_of_true hr (hend (by simp [hstep]))

theorem fill_returns_iff {s : Receiver w} (h : s.site.Sound) :
    Returns ((fill granted).run s) ↔ ∀ s', Rounds granted s s' → ¬ s'.AtOversized granted := by
  cases ht : s.site.wire.terminated with
  | false => rw [fill_run s ht, rounds_returns_iff h]
  | true =>
    have hfill : (fill granted).run s = .error (.error .wireTerminated) s := by simp [fill, ht]
    have hone : (receiveOne granted).run s = .error (.error .wireTerminated) s := by simp [receiveOne, ht]
    rw [← rounds_returns_iff h, rounds_eq, fillStep_run, hone, hfill]
    rfl

end Receiver

/-! ### What else changes where memory runs out -/

/-- The one operation does the same as the other, or ends where a vector is refused. -/
private def Curbs {σ α : Type} (x y : Op (Error w) σ α) : Prop :=
  ∀ s, x.run s = y.run s ∨ ∃ s', x.run s = .error .panicked s'

private theorem Curbs.bind {σ α β : Type} {x : Op (Error w) σ α} {f g : α → Op (Error w) σ β}
    (h : ∀ a, Curbs (f a) (g a)) : Curbs (x >>= f) (x >>= g) := by
  intro s
  rw [EStateM.run_bind, EStateM.run_bind]
  cases x.run s with
  | ok a s' => exact h a s'
  | error e s' => exact .inl rfl

private theorem Curbs.andThen {σ α β : Type} {x y : Op (Error w) σ α} (h : Curbs x y) (f : α → Op (Error w) σ β) :
    Curbs (x >>= f) (y >>= f) := by
  intro s
  rw [EStateM.run_bind, EStateM.run_bind]
  rcases h s with hs | ⟨s', hs⟩ <;> rw [hs]
  · exact .inl rfl
  · exact .inr ⟨s', rfl⟩

private theorem readBody_curbs : Curbs (readBody granted : Op (Error w) _ _) readBody := by
  unfold readBody
  refine .bind fun multiflagBuf => .bind fun t => .bind fun pi => .bind fun p => .bind fun ci => .bind fun c => ?_
  refine .bind fun ni => .bind fun n => ?_
  intro rest
  by_cases hlt : isizeMax < n
  · rw [if_pos hlt, if_pos hlt]
    exact .inl rfl
  · rw [if_neg hlt, if_neg hlt]
    by_cases hno : granted rest n = false
    · refine .inr ⟨rest, ?_⟩
      simp [hno]
    · refine .inl ?_
      simp [hno]

private theorem readMessage_curbs (moduleStyle : Bool) :
    Curbs (readMessage moduleStyle granted : Op (Error w) _ _) (readMessage moduleStyle) := by
  refine .bind fun tyBuf => ?_
  split
  · exact fun _ => .inl rfl
  · exact readBody_curbs.andThen _
  · split
    · exact fun _ => .inl rfl
    · exact readBody_curbs.andThen _
  · exact fun _ => .inl rfl
  · exact fun _ => .inl rfl

namespace Receiver

private theorem receiveOne_curbs : Curbs (receiveOne granted : Op (Error w) _ _) receiveOne := by
  intro s
  obtain ⟨t, reader⟩ := s
  cases ht : t.wire.terminated with
  | true => exact .inl (by simp [receiveOne, ht])
  | false =>
    rw [receiveOne_run t reader ht, receiveOne_run t reader ht]
    rcases readMessage_curbs t.wire.moduleStyle reader with hr | ⟨rest, hr⟩ <;> rw [hr]
    · exact .inl rfl
    · exact .inr ⟨_, rfl⟩

private theorem rounds_curbs (s : Receiver w) :
    s.rounds granted = s.rounds ∨ ∃ s', s.rounds granted = .error .panicked s' := by
  induction hn : s.reader.length using Nat.strong_induction_on generalizing s with
  | _ n ih =>
    subst hn
    rw [rounds_eq, rounds_eq s, fillStep_run, fillStep_run]
    rcases receiveOne_curbs s with hr | ⟨s', hr⟩ <;> rw [hr]
    · rcases hstep : receiveOne.run s with ⟨_ | b, s'⟩ | ⟨e, s'⟩
      · exact .inl rfl
      · have hround : fillStep.run s = .ok (some b) s' := atEof_eq_ok.2 hstep
        exact ih _ (fillStep_lt hround) s' rfl
      · rw [atEof_error]
        exact .inl rfl
    · exact .inr ⟨_, rfl⟩

/-- Where `receive_one` and `fill` return, it makes no difference what the allocator does not grant. -/
theorem receiveOne_eq_of_returns {s : Receiver w} (h : Returns ((receiveOne granted).run s)) :
    (receiveOne granted).run s = receiveOne.run s := by
  rcases receiveOne_curbs s with hr | ⟨s', hr⟩
  · exact hr
  · exact absurd (hr ▸ h) (not_returns_panicked s')

theorem fill_eq_of_returns {s : Receiver w} (h : Returns ((fill granted).run s)) :
    (fill granted).run s = fill.run s := by
  cases ht : s.site.wire.terminated with
  | true => simp [fill, ht]
  | false =>
    rw [fill_run s ht] at h
    rw [fill_run s ht, fill_run s ht]
    rcases s.rounds_curbs with hr | ⟨s', hr⟩
    · exact hr
    · exact absurd (hr ▸ h) (not_returns_panicked s')

end Receiver

/-! ### The input -/

/-- The parts of an input that begin where a message is read. -/
inductive Tails (w : IntFeature) (granted : Allocator) (moduleStyle : Bool) (reader : List UInt8) : List UInt8 → Prop
  | all : Tails w granted moduleStyle reader reader
  | next {tail rest : List UInt8} {m : Incoming w} : Tails w granted moduleStyle reader tail →
      (readMessage moduleStyle granted).run tail = .ok m rest → Tails w granted moduleStyle reader rest

namespace Receiver

theorem Rounds.tails {s s' : Receiver w} (h : Rounds granted s s') :
    s'.site.wire.moduleStyle = s.site.wire.moduleStyle ∧
      Tails w granted s.site.wire.moduleStyle s.reader s'.reader := by
  induction h with
  | first => exact ⟨rfl, .all⟩
  | @next s' s'' b _ hr ih =>
    have hfixed : s'.Advances ((fillStep granted).run s').state := fillStep_advances s'
    rw [hr] at hfixed
    refine ⟨(Site.Follows.moduleStyle hfixed).trans ih.1, ?_⟩
    have hone := atEof_eq_ok.1 hr
    obtain ⟨t, reader⟩ := s'
    cases ht : t.wire.terminated with
    | true => simp [receiveOne, ht] at hone
    | false =>
      rw [receiveOne_run t reader ht] at hone
      cases hm : (readMessage t.wire.moduleStyle granted : Op (Error w) _ _).run reader with
      | error e rest => rw [hm] at hone; cases hone
      | ok m rest =>
        simp only [hm] at hone
        cases hs : (Site.receive m).run t with
        | error e t' => rw [hs] at hone; cases hone
        | ok b' t' =>
          rw [hs] at hone
          cases hone
          exact ih.2.next (ih.1 ▸ hm)

/-- What decides is in the input: `fill` returns whenever none of its messages announces too much. -/
theorem fill_returns_of_tails {s : Receiver w} (h : s.site.Sound)
    (htails : ∀ tail, Tails w granted s.site.wire.moduleStyle s.reader tail →
      ¬ Oversized w granted s.site.wire.moduleStyle tail) : Returns ((fill granted).run s) := by
  refine (fill_returns_iff h).2 fun s' hs' hover => ?_
  obtain ⟨hstyle, htail⟩ := hs'.tails
  exact htails _ htail (hstyle ▸ hover.2)

end Receiver

/-! ### Every state -/

namespace World

/-- Whatever the allocator grants, and in every state that wires and local code can bring about, `receive_one` and
`fill` return with a result or an error, except where they come to read a message that announces more bytes than a
vector can hold, or than are granted. -/
theorem receiving_returns_iff {checks : Bool} {s : World w} (h : Reaches (stepAny checks) (fun _ _ => True) .new s)
    {k : Nat} {t : Site w} (ht : s.site? k = some t) (granted : Allocator) (reader : List UInt8) :
    (Returns ((Receiver.receiveOne granted).run ⟨t, reader⟩) ↔ ¬ Receiver.AtOversized granted ⟨t, reader⟩) ∧
      (Returns ((Receiver.fill granted).run ⟨t, reader⟩) ↔
        ∀ r, Receiver.Rounds granted ⟨t, reader⟩ r → ¬ r.AtOversized granted) := by
  have hsound : t.Sound := (congrArg Interface.Sound (wire?_of_site? ht).2).mpr (sound_of_reaches h)
  exact ⟨Receiver.receiveOne_returns_iff (s := ⟨t, reader⟩) hsound, Receiver.fill_returns_iff (s := ⟨t, reader⟩) hsound⟩

private def fresh : World .u8 := stepAny true .new (.inl (.newWire false 3))

private def freshSite : Site .u8 := ⟨fresh.interface, .new ⟨0⟩ false 3⟩

private theorem fresh_reaches : Reaches (stepAny true) (fun _ _ => True) .new fresh := .next .start trivial

/-- The first piece of a call with two bytes. -/
private def callOfTwo : List UInt8 := [1, 0, 0, 0, 2, 94, 95]

/-- The head of a call that announces `2 ^ 40` bytes. -/
private def callOfMany : List UInt8 := [1, 48, 0, 1, 0, 0, 0, 0, 0, 1, 0, 0]

/-- There is memory for less than that. -/
private def upToMegabyte : Allocator := fun _ n => decide (n ≤ 1048576)

private theorem callOfMany_oversized : Oversized .u8 upToMegabyte false callOfMany :=
  ⟨1, .U8 0, .U8 1, .U64 1099511627776, .none, [], .inl rfl, rfl, rfl, .inr (by decide +kernel), by decide +kernel⟩

theorem receiving_returns_iff_second :
    ¬ Receiver.AtOversized upToMegabyte ⟨freshSite, callOfTwo ++ callOfMany⟩ ∧
      ¬ Returns ((Receiver.fill upToMegabyte).run ⟨freshSite, callOfTwo ++ callOfMany⟩) := by
  obtain ⟨hone, hfill⟩ := receiving_returns_iff (k := 0) fresh_reaches rfl upToMegabyte (callOfTwo ++ callOfMany)
  refine ⟨hone.1 trivial, fun hreturns => ?_⟩
  exact hfill.1 hreturns _ (.next .first rfl) ⟨rfl, callOfMany_oversized⟩

/-- The head of a call that announces `2 ^ 63` bytes. -/
private def callOfHuge : List UInt8 := [1, 48, 0, 0, 0, 0, 0, 0, 0, 0, 0, 128]

private theorem callOfHuge_oversized : Oversized .u8 .unlimited false callOfHuge :=
  ⟨1, .U8 0, .U8 0, .U64 9223372036854775808, .none, [], .inl rfl, rfl, rfl, .inl (by decide +kernel),
    by decide +kernel⟩

theorem not_receiving_returns : ¬ ∀ (w : IntFeature) (checks : Bool) (s : World w),
    Reaches (stepAny checks) (fun _ _ => True) .new s → ∀ (k : Nat) (t : Site w), s.site? k = some t →
      ∀ reader, Returns (Receiver.receiveOne.run ⟨t, reader⟩) ∧ Returns (Receiver.fill.run ⟨t, reader⟩) := by
  intro h
  have hone := (h .u8 true fresh fresh_reaches 0 freshSite rfl callOfHuge).1
  exact (Receiver.receiveOne_returns_iff (s := ⟨freshSite, callOfHuge⟩) Interface.new_sound).1 hone
    ⟨rfl, callOfHuge_oversized⟩

end World

end Ipfi
