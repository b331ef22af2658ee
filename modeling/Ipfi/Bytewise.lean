import Ipfi.Soundness

/-!
# Writing a message byte by byte

`send` ends a message by marking its lock complete, and `terminate_message` also hands the last chunk to the receiver of
the chunks and deletes the message.  The two ways to write a message agree as long as nobody receives its chunks.
-/

namespace Ipfi

variable {w : IntFeature}

namespace Interface

variable {i : Interface w} {id : IpfiInteger w} {m : MessageBuffer} {cs : List (List UInt8)} {c bs : List UInt8}

/-- Sends the bytes one at a time, and then the end of the message. -/
def sendEach (id : IpfiInteger w) : List UInt8 → Op (Error w) (Interface w) Unit
  | [] => discard (send (-1) id)
  | b :: bs => do
    discard (send b.toInt8 id)
    sendEach id bs

/-- Sends all of the bytes, and then ends the message. -/
def sendWhole (id : IpfiInteger w) (bs : List UInt8) : Op (Error w) (Interface w) Unit := do
  sendMany bs id
  terminateMessage id

/-- The same result and the same observable outcome, from the interface `i`: chunks and locks, buffers and identifiers,
and the channels that somebody receives from. -/
structure Agree (i : Interface w) (r r' : EStateM.Result (Stop (Error w)) (Interface w) Unit) : Prop where
  result : r.mapState (fun _ => ()) = r'.mapState (fun _ => ())
  chunks : ∀ id, (r.state.messages.lookup id).map MessageBuffer.chunks =
    (r'.state.messages.lookup id).map MessageBuffer.chunks
  completeLock : ∀ id, r.state.getCompleteLock id = r'.state.getCompleteLock id
  locks : r.state.locks = r'.state.locks
  chans : ∀ ch, (i.chans ch).receiverAlive = true → r.state.chans ch = r'.state.chans ch
  ids : r.state.messageIdQueue = r'.state.messageIdQueue

/-- Somebody receives the chunks of the message, which is not complete. -/
def Streams (i : Interface w) (id : IpfiInteger w) : Prop :=
  ∃ m ch, i.messages.lookup id = some m ∧ i.locks m.completeLock ≠ .complete ∧ m.sender = some (some ch) ∧
    (i.chans ch).receiverAlive = true

/-! ### Messages that cannot be written to -/

private theorem sendEach_fails {e : Stop (Error w)} (h : (openMessage id).run i = .error e i) (bs : List UInt8) :
    (sendEach id bs).run i = .error e i := by
  cases bs with
  | nil => simp [sendEach, send_fails h]
  | cons b bs =>
    rw [sendEach]
    apply EStateM.run_bind_error
    simp [send_fails h]

private theorem sendWhole_fails {e : Stop (Error w)} (h : (openMessage id).run i = .error e i) (bs : List UInt8) :
    (sendWhole id bs).run i = .error e i := by
  rw [sendWhole, EStateM.run_bind_error (sendMany_fails h bs)]

/-! ### Byte by byte -/

private theorem toInt8_nonneg {b : UInt8} (hb : b < 128) : ¬ b.toInt8 < 0 := by
  have hlt : b.toNat < 128 := hb
  have hint : b.toInt8.toInt = b.toNat := by
    show b.toBitVec.toInt = _
    rw [BitVec.toInt_eq_toNat_of_lt]
    · rfl
    · show 2 * b.toNat < 2 ^ 8
      omega
  rw [Int8.lt_iff_toInt_lt, hint]
  simp

/-- The message has got the bytes and is complete, and nothing else has changed. -/
structure Sent (i i' : Interface w) (id : IpfiInteger w) (m : MessageBuffer) : Prop where
  lookup : ∀ id', i'.messages.lookup id' = if id' = id then some m else i.messages.lookup id'
  locks : i'.locks = (i.markComplete m.completeLock).locks
  chans : i'.chans = i.chans
  ids : i'.messageIdQueue = i.messageIdQueue

private theorem send_byte (hm : i.messages.lookup id = some m) (hl : i.locks m.completeLock ≠ .complete)
    (hc : m.chunks = cs ++ [c]) {b : UInt8} (hb : b < 128) :
    (send b.toInt8 id).run i = .ok true (i.setMessage id { m with chunks := cs ++ [c ++ [b]] }) := by
  rw [send, EStateM.run_bind_ok (openMessage_run hm hl), if_neg (toInt8_nonneg hb), hc, extendLast_concat]
  rfl

theorem sendEach_sent (hm : i.messages.lookup id = some m) (hl : i.locks m.completeLock ≠ .complete)
    (hc : m.chunks = cs ++ [c]) (hbs : ∀ b ∈ bs, b < 128) :
    ∃ i', (sendEach id bs).run i = .ok () i' ∧ Sent i i' id { m with chunks := cs ++ [c ++ bs] } := by
  induction bs generalizing i m c with
  | nil =>
    refine ⟨i.markComplete m.completeLock, ?_, ?_, rfl, rfl, rfl⟩
    · have hneg : (-1 : Int8) < 0 := by decide
      simp [sendEach, send, openMessage_run hm hl, hneg]
    · intro id'
      rw [List.append_nil, ← hc]
      split
      · subst_vars; exact hm
      · rfl
  | cons b bs ih =>
    have hset := (lookup_setMessage i id id { m with chunks := cs ++ [c ++ [b]] }).trans (if_pos rfl)
    obtain ⟨i', hr, hsent⟩ := ih hset hl rfl fun b' hb' => hbs b' (by simp [hb'])
    have hrun : (discard (send b.toInt8 id) : Op (Error w) (Interface w) _).run i =
        .ok ⟨⟩ (i.setMessage id { m with chunks := cs ++ [c ++ [b]] }) := by
      simp [send_byte hm hl hc (hbs b (by simp))]
    refine ⟨i', by rw [sendEach, EStateM.run_bind_ok hrun, hr], ?_, hsent.locks, hsent.chans, hsent.ids⟩
    intro id'
    rw [hsent.lookup, lookup_setMessage, List.append_assoc, List.singleton_append]
    split <;> rfl

/-! ### All at once -/

/-- Without a receiver the message is kept, and whatever becomes of its sender is not seen. -/
private theorem sendWhole_kept (hm : i.messages.lookup id = some m) (hl : i.locks m.completeLock ≠ .complete)
    (hc : m.chunks = cs ++ [c]) (hgone : m.sender ≠ some none)
    (hdead : ∀ ch, m.sender = some (some ch) → (i.chans ch).receiverAlive = false) (bs : List UInt8) :
    ∃ i' sender, (sendWhole id bs).run i = .ok () i' ∧
      (∀ id', i'.messages.lookup id' = if id' = id then
        some { m with chunks := cs ++ [c ++ bs], sender := sender } else i.messages.lookup id') ∧
      i'.locks = (i.markComplete m.completeLock).locks ∧ i'.messageIdQueue = i.messageIdQueue ∧
      ∀ ch, (i.chans ch).receiverAlive = true → i'.chans ch = i.chans ch := by
  have hset := (lookup_setMessage i id id { m with chunks := cs ++ [c ++ bs] }).trans (if_pos rfl)
  rw [sendWhole, EStateM.run_bind_ok (sendMany_run_concat hm hl hc bs)]
  have hsender : m.sender = none ∨ ∃ ch, m.sender = some (some ch) := by
    match hs : m.sender with
    | none => exact .inl rfl
    | some none => exact absurd hs hgone
    | some (some ch) => exact .inr ⟨ch, rfl⟩
  rcases hsender with hs | ⟨ch, hs⟩
  · refine ⟨_, m.sender, terminateMessage_run_none hset hl hs, fun id' => ?_, rfl, rfl, fun _ _ => rfl⟩
    exact lookup_setMessage i id id' _
  · refine ⟨_, some none, terminateMessage_run_dead hset hl hs (hdead ch hs) (by simp), fun id' => ?_, rfl, rfl, ?_⟩
    · refine (lookup_setMessage _ id id' _).trans ?_
      split
      · rfl
      · exact (lookup_setMessage i id id' _).trans (if_neg ‹_›)
    · intro ch' halive
      have hne : ch' ≠ ch := by
        rintro rfl
        rw [hdead _ hs] at halive
        cases halive
      show closeSender i.chans m.sender ch' = _
      rw [hs]
      exact Function.update_of_ne hne _ _

/-- A message that somebody receives the chunks of is gone once it has been sent as a whole. -/
private theorem sendWhole_streams (hm : i.messages.lookup id = some m) (hl : i.locks m.completeLock ≠ .complete)
    (hc : m.chunks = cs ++ [c]) {ch : ChanRef} (hs : m.sender = some (some ch)) (ha : (i.chans ch).receiverAlive = true)
    (bs : List UInt8) : ((sendWhole id bs).run i).state.messages.lookup id = none := by
  have hset := (lookup_setMessage i id id { m with chunks := cs ++ [c ++ bs] }).trans (if_pos rfl)
  rw [sendWhole, EStateM.run_bind_ok (sendMany_run_concat hm hl hc bs), terminateMessage_run_alive hset hl hs ha rfl]
  exact (lookup_pop _ id id).trans (if_pos rfl)

private theorem agree_of_fails {e : Stop (Error w)} (h : (openMessage id).run i = .error e i) (bs : List UInt8) :
    Agree i ((sendEach id bs).run i) ((sendWhole id bs).run i) := by
  rw [sendEach_fails h, sendWhole_fails h]
  exact ⟨rfl, fun _ => rfl, fun _ => rfl, rfl, fun _ _ => rfl, rfl⟩

/-- On a sound interface the two ways agree if and only if nobody receives the chunks of the message. -/
theorem Sound.agree_iff (h : i.Sound) (id : IpfiInteger w) (hbs : ∀ b ∈ bs, b < 128) :
    Agree i ((sendEach id bs).run i) ((sendWhole id bs).run i) ↔ ¬ i.Streams id := by
  by_cases hopen : ∀ m, i.messages.lookup id = some m → i.locks m.completeLock = .complete
  · obtain ⟨e, he⟩ := openMessage_fails hopen
    apply iff_of_true (agree_of_fails he bs)
    rintro ⟨m, _, hm, hl, -⟩
    exact hl (hopen m hm)
  · push Not at hopen
    obtain ⟨m, hm, hl⟩ := hopen
    have hsound := h id m hm
    have hc : m.chunks = m.chunks.dropLast ++ [m.chunks.getLast hsound.chunks_ne] :=
      (List.dropLast_append_getLast hsound.chunks_ne).symm
    have hgone : m.sender ≠ some none := fun hn => hl (hsound.sender_gone hn)
    obtain ⟨i₁, hr₁, hsent⟩ := sendEach_sent hm hl hc hbs
    constructor
    · rintro hagree ⟨m', ch, hm', -, hs, ha⟩
      cases hm.symm.trans hm'
      have hchunks := hagree.chunks id
      rw [hr₁, sendWhole_streams hm hl hc hs ha, EStateM.Result.state_ok, hsent.lookup, if_pos rfl] at hchunks
      cases hchunks
    · intro hstreams
      have hdead : ∀ ch, m.sender = some (some ch) → (i.chans ch).receiverAlive = false := by
        intro ch hs
        by_contra ha
        exact hstreams ⟨m, ch, hm, hl, hs, by simpa using ha⟩
      obtain ⟨i₂, sender, hr₂, hlook, hlocks, hids, hchans⟩ := sendWhole_kept hm hl hc hgone hdead bs
      rw [hr₁, hr₂]
      refine ⟨rfl, fun id' => ?_, fun id' => ?_, hsent.locks.trans hlocks.symm, fun ch ha => ?_,
        hsent.ids.trans hids.symm⟩
      · simp only [EStateM.Result.state_ok, hsent.lookup, hlook]
        split <;> rfl
      · simp only [EStateM.Result.state_ok, getCompleteLock, hsent.lookup, hlook]
        split <;> rfl
      · simp only [EStateM.Result.state_ok, hsent.chans]
        exact (hchans ch ha).symm

end Interface

namespace World

variable {s : World w} {checks : Bool}

/-- In every state that wires, handles and direct calls of the interface lead to, sending bytes one at a time and then
the end of the message does what sending all of them and ending the message does, if and only if nobody receives the
chunks of the message. -/
theorem sendEach_agree_iff (h : Reaches (stepAny checks) (fun _ _ => True) .new s) (id : IpfiInteger w)
    {bs : List UInt8} (hbs : ∀ b ∈ bs, b < 128) :
    Interface.Agree s.interface ((Interface.sendEach id bs).run s.interface)
      ((Interface.sendWhole id bs).run s.interface) ↔ ¬ s.interface.Streams id :=
  (sound_of_reaches h).agree_iff id hbs

/-- A new message, whose chunks nobody receives. -/
theorem sendEach_agree_pushed :
    Interface.Agree ((new : World .u32).stepAny true (.inr .push)).interface
      ((Interface.sendEach 0 [72, 105]).run ((new : World .u32).stepAny true (.inr .push)).interface)
      ((Interface.sendWhole 0 [72, 105]).run ((new : World .u32).stepAny true (.inr .push)).interface) := by
  have hbs : ∀ b ∈ [(72 : UInt8), 105], b < 128 :=
    List.forall_mem_cons.2 ⟨by decide, List.forall_mem_singleton.2 (by decide)⟩
  apply (sendEach_agree_iff (.next .start trivial) 0 hbs).2
  rintro ⟨m, ch, hm, -, hs, -⟩
  replace hm := (Interface.lookup_push (Interface.new : Interface .u32) (Interface.push .new).1).symm.trans hm
  rw [if_pos rfl] at hm
  cases hm
  cases hs

private def streamed : World .u32 :=
  ((new : World .u32).stepAny true (.inr .push)).stepAny true (.inr (.getChunkStream 0))

/-- A new message whose chunks are received. -/
theorem not_sendEach_agree :
    ¬ ∀ s : World .u32, Reaches (stepAny true) (fun _ _ => True) .new s → ∀ id bs, (∀ b ∈ bs, b < 128) →
      Interface.Agree s.interface ((Interface.sendEach id bs).run s.interface)
        ((Interface.sendWhole id bs).run s.interface) := by
  intro h
  have hreach : Reaches (stepAny true) (fun _ _ => True) .new streamed := .next (.next .start trivial) trivial
  have hagree := h streamed hreach 0 [] (by simp)
  exact ((sound_of_reaches hreach).agree_iff 0 (by simp)).1 hagree ⟨_, 0, rfl, by decide, rfl, rfl⟩

end World

end Ipfi
