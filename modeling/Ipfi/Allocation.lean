import Ipfi.Soundness
import Mathlib.Data.FinEnum

/-!
# Identifiers of message buffers

Whatever happens on an interface, its identifiers are those of the message buffers and those that wait for reuse, also
after the counter has come round.  So a new buffer gets an identifier that is not in use as long as there is one.
-/

namespace Ipfi

variable {w : IntFeature}

namespace Interface

variable {i i' : Interface w} {id : IpfiInteger w} {m : MessageBuffer}

/-- The identifiers drawn are those of the buffers and those that wait for reuse. -/
def Allocated (i : Interface w) : Prop := i.messageIdQueue.Drawn (· ∈ i.messages)

theorem new_allocated : (new : Interface w).Allocated := RoiQueue.new_drawn.congr fun _ => by simp [new]

theorem Allocated.of_eq (h : i.Allocated)
    (heq : (i'.messages, i'.messageIdQueue) = (i.messages, i.messageIdQueue)) : i'.Allocated := by
  obtain ⟨hm, hq⟩ := Prod.mk.inj heq
  rwa [Allocated, hm, hq]

theorem Allocated.setMessage (h : i.Allocated) (hid : id ∈ i.messages) (m : MessageBuffer) :
    (i.setMessage id m).Allocated := by
  refine RoiQueue.Drawn.congr h fun id' => ?_
  show _ ↔ id' ∈ i.messages.insert id m
  rw [AList.mem_insert]
  constructor
  · exact .inr
  · rintro (rfl | hmem)
    · exact hid
    · exact hmem

theorem Allocated.push (h : i.Allocated) : i.push.2.Allocated :=
  (RoiQueue.Drawn.get h).congr fun _ => (AList.mem_insert _).symm

theorem Allocated.pop (h : i.Allocated) (id : IpfiInteger w) : (i.pop id).2.Allocated := by
  cases hm : i.messages.lookup id with
  | none => rwa [pop_none hm]
  | some m =>
    rw [pop_eq hm]
    refine (RoiQueue.Drawn.relinquish h (AList.mem_of_lookup hm)).congr fun id' => ?_
    show _ ↔ id' ∈ i.messages.erase id
    rw [AList.mem_erase, and_comm]

theorem Allocated.getCallBuffer (h : i.Allocated) (key : CallKey w) : (i.getCallBuffer key).2.Allocated := by
  unfold Interface.getCallBuffer
  split
  · exact h
  · exact h.push

/-- A new buffer overwrites another one if and only if there is one under every identifier. -/
theorem Allocated.push_notMem_iff (h : i.Allocated) : i.push.1 ∉ i.messages ↔ i.messages.size < 2 ^ w.bits := by
  have hlive : i.push.1 ∈ i.messages ↔ ∀ id, id ∈ i.messages := RoiQueue.Drawn.get_live_iff h
  have hcard : Fintype.card (IpfiInteger w) = 2 ^ w.bits := by
    rw [← FinEnum.card_eq_fintypeCard, FinEnum.card_bitVec]
  rw [hlive, not_forall, AList.exists_notMem_iff, hcard]

/-! ### Operations -/

/-- A step keeps account of the identifiers. -/
def Allocates (i i' : Interface w) : Prop := i.Allocated → i'.Allocated

instance : IsPreorder (Interface w) Allocates where
  refl _ h := h
  trans _ _ _ h h' hi := h' (h hi)

theorem allocates_serves : Serves (Allocates : Interface w → Interface w → Prop) where
  setMessage _ _ m hid h := h.setMessage hid m
  markComplete _ _ h := h.of_eq rfl
  updateChan _ _ _ h := h.of_eq rfl
  dropSender _ _ h := h.of_eq rfl
  pop _ id h := h.pop id
  getCallBuffer _ key h := h.getCallBuffer key
  forget _ _ h := h.of_eq rfl
  poison _ _ h := h.of_eq rfl

theorem Waited.allocates (hw : Waited i i') : Allocates i i' := by
  intro h
  cases hw with
  | waiting locks => exact h.of_eq (Eq.refl _)
  | taken id m _ _ => exact h.pop id
  | streamed id m hm => exact Allocated.setMessage (i := i.openChan.2) (h.of_eq (Eq.refl _)) (AList.mem_of_lookup hm) _
  | received ch f => exact h.of_eq (Eq.refl _)

theorem allocates_calls : Calls (Allocates : Interface w → Interface w → Prop) where
  toOperates := allocates_serves.operates
  send := allocates_serves.toWrites.send
  push _ h := h.push
  waited _ _ hw := hw.allocates
  getId _ h := h.of_eq rfl
  relinquishId _ _ h := h.of_eq rfl

end Interface

namespace Site

variable {s s' : Site w} {checks : Bool}

theorem Waits.allocates (hw : Waits s s') : Interface.Allocates s.interface s'.interface := by
  induction hw with
  | start => exact refl_of Interface.Allocates _
  | wait _ hi ih => exact trans_of Interface.Allocates ih hi.allocates
  | strike b _ ih => exact ih

theorem Move.allocates {calls : Prop} (hm : Move checks calls s s') : Interface.Allocates s.interface s'.interface := by
  intro h
  cases hm with
  | startCall p args _ =>
    rcases startCallWithPartialBytes_cases checks s p args with ⟨-, hr⟩ | ⟨e, hr⟩ <;> rw [hr]
    · exact h.push
    · exact h
  | continueCall p c args =>
    rcases continueGivenCallWithBytes_cases s p c args with hr | ⟨e, hr⟩ <;> rw [hr] <;> exact h
  | endCall p c => exact (congrArg Interface.Allocated (endGivenCall_interface s p c)).mpr h
  | callWithBytes p args _ =>
    rcases callWithBytes_cases checks s p args with ⟨-, hr⟩ | ⟨e, hr⟩ <;> rw [hr]
    · exact h.push
    · exact h
  | queue queue => exact h
  | idle => exact h
  | waitBytes hd => exact (waitBytes_waits hd s).allocates h
  | wait decodes hd => exact (wait_waits hd decodes s).allocates h
  | waitChunks decodes hd => exact (waitChunks_waits hd decodes s).allocates h
  | waitChunkStream hd => exact (waitChunkStream_waits hd s).allocates h
  | intoResponseIdx hd => exact (intoResponseIdx_waits hd s).allocates h
  | recvRaw r => exact (recvRaw_waits r s).allocates h

end Site

/-! ### Everything that can happen -/

namespace World

variable {s : World w} {checks : Bool}

theorem step_allocated (h : s.interface.Allocated) (a : Action w) : (s.step checks a).interface.Allocated := by
  have hsite : ∀ {k t}, s.site? k = some t → t.interface.Allocated := fun ht =>
    (congrArg Interface.Allocated (wire?_of_site? ht).2).mpr h
  have hshape := step_shape checks s a
  generalize s.step checks a = s' at hshape
  cases hshape with
  | addProcedure p procedure => exact h.of_eq rfl
  | newWire moduleStyle max => exact h.of_eq rfl
  | cloneWire k hlive => exact h
  | dropWire k t hlive ht =>
    rw [dropWire_eq ht]
    exact (Site.markTerminated_follows Interface.allocates_serves.operates t).1 (hsite ht)
  | dropReceiver n rx handles => exact h.of_eq rfl
  | handles a handles _ => exact h
  | move a k t t' handles _ ht hm => exact hm.allocates (hsite ht)
  | serve a k b t _ ht _ => exact (Site.serveStep_follows Interface.allocates_serves.operates t b).1 (hsite ht)

theorem allocated_of_reaches (h : Reaches (stepAny checks) (fun _ _ => True) .new s) : s.interface.Allocated := by
  refine h.invariant (I := fun s => s.interface.Allocated) Interface.new_allocated fun s a hs _ => ?_
  cases a with
  | inl a => exact step_allocated hs a
  | inr f => exact Interface.allocates_calls.call _ f hs

/-- In every state that wires, handles and direct calls of the interface lead to, a new buffer gets an identifier that
is not in use, and leaves all buffers alone, if and only if there are fewer buffers than identifiers. -/
theorem push_fresh_iff (h : Reaches (stepAny checks) (fun _ _ => True) .new s) :
    (s.interface.push.1 ∉ s.interface.messages ∧ ∀ id, Interface.Same s.interface s.interface.push.2 id) ↔
      s.interface.messages.size < 2 ^ w.bits := by
  rw [← (allocated_of_reaches h).push_notMem_iff]
  refine ⟨And.left, fun hnew => ⟨hnew, fun id => ?_⟩⟩
  exact Interface.push_same_of_notMem hnew fun m hm => (sound_of_reaches h id m hm).lock_lt

/-- A second buffer on an interface with one. -/
theorem push_fresh_iff_second :
    ((new : World .u8).stepAny true (.inr .push)).interface.push.1 ∉
      ((new : World .u8).stepAny true (.inr .push)).interface.messages :=
  ((push_fresh_iff (.next .start trivial)).2 (by decide)).1

private def pushed : Nat → World .u8
  | 0 => new
  | n + 1 => (pushed n).stepAny true (.inr .push)

private theorem pushed_reaches (n : Nat) : Reaches (stepAny true) (fun _ _ => True) new (pushed n) := by
  induction n with
  | zero => exact .start
  | succ n ih => exact .next ih trivial

private theorem size_pushed {n : Nat} (hn : n ≤ 2 ^ 8) : (pushed n).interface.messages.size = n := by
  induction n with
  | zero => rfl
  | succ n ih =>
    have hsize := ih (by omega)
    have hnew := (allocated_of_reaches (pushed_reaches n)).push_notMem_iff.2 (hsize.trans_lt hn)
    exact (AList.size_insert_of_notMem hnew).trans (congrArg (· + 1) hsize)

/-- The buffer after the last free identifier of an interface with 8-bit ones. -/
theorem not_push_fresh :
    ¬ ∀ s : World .u8, Reaches (stepAny true) (fun _ _ => True) new s → s.interface.push.1 ∉ s.interface.messages := by
  intro h
  have hreach := pushed_reaches (2 ^ 8)
  have hlt := (allocated_of_reaches hreach).push_notMem_iff.1 (h _ hreach)
  rw [size_pushed (Nat.le_refl _)] at hlt
  exact Nat.lt_irrefl _ hlt

end World

end Ipfi
