import Ipfi.Interface
import Ipfi.Lib.Triple

/-!
# What the operations of an interface leave alone

Operations on messages are `Steady`: they keep the procedures, the identifiers of wires and the map of argument buffers,
and locks and channels at most become more.  Operations on argument buffers are `Later`: they may change that map too.
All of them `Recycle`: an identifier once handed out is in use or waits for reuse.
-/

namespace Ipfi

variable {w : IntFeature}

open EStateM (Within Meets)

namespace Interface

structure Later (i i' : Interface w) : Prop where
  wireIds : i'.wireIdQueue = i.wireIdQueue
  procedures : i'.procedures = i.procedures
  lockCount : i.lockCount ≤ i'.lockCount
  chanCount : i.chanCount ≤ i'.chanCount

structure Steady (i i' : Interface w) : Prop extends Later i i' where
  calls : i'.callToBufferMap = i.callToBufferMap

instance : IsPreorder (Interface w) Later where
  refl _ := ⟨rfl, rfl, Nat.le_refl _, Nat.le_refl _⟩
  trans _ _ _ h h' := ⟨h'.wireIds.trans h.wireIds, h'.procedures.trans h.procedures, h.lockCount.trans h'.lockCount,
    h.chanCount.trans h'.chanCount⟩

instance : IsPreorder (Interface w) Steady where
  refl i := ⟨refl_of Later i, rfl⟩
  trans _ _ _ h h' := ⟨trans_of Later h.toLater h'.toLater, h'.calls.trans h.calls⟩

/-- What the relations speak of, besides the map of argument buffers. -/
private def registry (i : Interface w) := (i.wireIdQueue, i.procedures, i.lockCount, i.chanCount)

theorem Later.of_eq {i i' : Interface w} (h : i'.registry = i.registry) : Later i i' := by
  simp only [registry, Prod.mk.injEq] at h
  exact ⟨h.1, h.2.1, h.2.2.1.ge, h.2.2.2.ge⟩

theorem Steady.of_eq {i i' : Interface w} (h : (i'.callToBufferMap, i'.registry) = (i.callToBufferMap, i.registry)) :
    Steady i i' :=
  ⟨.of_eq (congrArg Prod.snd h), congrArg Prod.fst h⟩

/-! ### Steps -/

theorem pop_steady (i : Interface w) (id : IpfiInteger w) : Steady i (i.pop id).2 := by
  unfold pop; split <;> exact .of_eq rfl

theorem push_steady (i : Interface w) : Steady i i.push.2 := ⟨⟨rfl, rfl, Nat.le_succ _, Nat.le_refl _⟩, rfl⟩

theorem poison_steady (i : Interface w) (l : LockRef) : Steady i (i.poison l) := .of_eq rfl

theorem lookup_dropAssociatedCallMessage (i : Interface w) (key key' : CallKey w) :
    (i.dropAssociatedCallMessage key).callToBufferMap.lookup key' =
      if key' = key then none else i.callToBufferMap.lookup key' := by
  unfold dropAssociatedCallMessage
  split
  · rw [(pop_steady _ _).calls]
    exact AList.lookup_erase_eq _ _ _
  · split
    · subst_vars; assumption
    · rfl

theorem getCallBuffer_later (i : Interface w) (key : CallKey w) : Later i (i.getCallBuffer key).2 := by
  unfold getCallBuffer
  split
  · exact refl_of Later i
  · exact ⟨rfl, rfl, Nat.le_succ _, Nat.le_refl _⟩

/-- An identifier that is in use, or has been and waits for reuse. -/
def Circulates (i : Interface w) (id : IpfiInteger w) : Prop := id ∈ i.messages ∨ id ∈ i.messageIdQueue.relinquished

def Recycles (i i' : Interface w) : Prop := ∀ id, i.Circulates id → i'.Circulates id

instance : IsPreorder (Interface w) Recycles where
  refl _ _ h := h
  trans _ _ _ h h' id hid := h' id (h id hid)

theorem Recycles.of_eq {i i' : Interface w} (h : (i'.messages, i'.messageIdQueue) = (i.messages, i.messageIdQueue)) :
    Recycles i i' := by
  obtain ⟨hm, hq⟩ := Prod.mk.inj h
  intro id hid
  rwa [Circulates, hm, hq]

theorem setMessage_recycles (i : Interface w) (id : IpfiInteger w) (m : MessageBuffer) :
    Recycles i (i.setMessage id m) :=
  fun _ => Or.imp_left fun h => (AList.mem_insert _).2 (.inr h)

theorem pop_recycles (i : Interface w) (id : IpfiInteger w) : Recycles i (i.pop id).2 := by
  intro id' hid
  unfold pop
  split
  · by_cases heq : id' = id
    · subst heq
      exact .inr (List.mem_append.2 (.inr (List.mem_singleton.2 rfl)))
    · exact hid.imp (fun h => AList.mem_erase.2 ⟨heq, h⟩) fun h => List.mem_append.2 (.inl h)
  · exact hid

theorem push_circulates (i : Interface w) : i.push.2.Circulates i.push.1 := .inl ((AList.mem_insert _).2 (.inl rfl))

theorem push_recycles (i : Interface w) : Recycles i i.push.2 := by
  rintro id (h | h)
  · exact .inl ((AList.mem_insert _).2 (.inr h))
  · show id ∈ i.messages.insert i.messageIdQueue.get.1 _ ∨ id ∈ i.messageIdQueue.get.2.relinquished
    cases hq : i.messageIdQueue.relinquished with
    | nil => rw [hq] at h; cases h
    | cons id' rest =>
      have hget : i.messageIdQueue.get = (id', { i.messageIdQueue with relinquished := rest }) :=
        by simp [RoiQueue.get, hq]
      rw [hget, AList.mem_insert]
      rw [hq] at h
      exact (List.mem_cons.1 h).imp .inl fun h => h

theorem getCallBuffer_recycles (i : Interface w) (key : CallKey w) : Recycles i (i.getCallBuffer key).2 := by
  unfold getCallBuffer
  split
  · exact refl_of Recycles i
  · exact push_recycles i

/-! ### Operations -/

/-- A relation along which everything that writes to a message moves. -/
structure Writes (R : Interface w → Interface w → Prop) : Prop where
  setMessage : ∀ i id m, id ∈ i.messages → R i (i.setMessage id m)
  markComplete : ∀ i l, R i (i.markComplete l)
  updateChan : ∀ i ch f, R i (i.updateChan ch f)
  dropSender : ∀ i sender, R i (i.dropSender sender)
  pop : ∀ i id, R i (i.pop id).2

/-- A relation along which everything that serves calls or terminates a wire moves. -/
structure Serves (R : Interface w → Interface w → Prop) : Prop extends Writes R where
  getCallBuffer : ∀ i key, R i (i.getCallBuffer key).2
  forget : ∀ i key, R i { i with callToBufferMap := i.callToBufferMap.erase key }
  poison : ∀ i l, R i (i.poison l)

theorem steady_writes : Writes (Steady : Interface w → Interface w → Prop) where
  setMessage _ _ _ _ := .of_eq rfl
  markComplete _ _ := .of_eq rfl
  updateChan _ _ _ := .of_eq rfl
  dropSender _ _ := .of_eq rfl
  pop := pop_steady

theorem later_serves : Serves (Later : Interface w → Interface w → Prop) where
  setMessage _ _ _ _ := .of_eq rfl
  markComplete _ _ := .of_eq rfl
  updateChan _ _ _ := .of_eq rfl
  dropSender _ _ := .of_eq rfl
  pop i id := (pop_steady i id).toLater
  getCallBuffer := getCallBuffer_later
  forget _ _ := .of_eq rfl
  poison i l := (poison_steady i l).toLater

theorem recycles_serves : Serves (Recycles : Interface w → Interface w → Prop) where
  setMessage i id m _ := setMessage_recycles i id m
  markComplete _ _ := .of_eq rfl
  updateChan _ _ _ := .of_eq rfl
  dropSender _ _ := .of_eq rfl
  pop := pop_recycles
  getCallBuffer := getCallBuffer_recycles
  forget _ _ := .of_eq rfl
  poison _ _ := .of_eq rfl

/-- A relation along which the operations that write to a message move. -/
structure Sends (R : Interface w → Interface w → Prop) : Prop where
  sendMany : ∀ data id, (sendMany data id).Within R
  terminateMessage : ∀ id, (terminateMessage id).Within R
  terminateChunk : ∀ id, (terminateChunk id).Within R

/-- A relation along which the operations move that serve calls or terminate a wire. -/
structure Operates (R : Interface w → Interface w → Prop) : Prop extends Sends R where
  pop : ∀ i id, R i (i.pop id).2
  getCallBuffer : ∀ i key, R i (i.getCallBuffer key).2
  forget : ∀ i key, R i { i with callToBufferMap := i.callToBufferMap.erase key }
  poison : ∀ i l, R i (i.poison l)

section

variable {R : Interface w → Interface w → Prop} [IsPreorder _ R]

/-- Of a message that has been opened it is known that it is there. -/
private theorem openMessage_keeps (i₀ : Interface w) (id : IpfiInteger w) :
    Meets (· = i₀) (openMessage id) (fun _ i => R i₀ i ∧ id ∈ i.messages) fun _ => R i₀ := by
  rintro i rfl
  cases hm : i.messages.lookup id with
  | none =>
    rw [show (openMessage id).run i = .error (.error (.outOfBounds id)) i by simp [openMessage, hm]]
    exact refl_of R i
  | some m =>
    by_cases hl : i.locks m.completeLock = .complete
    · rw [show (openMessage id).run i = .error (.error (.alreadyCompleted id)) i by simp [openMessage, hm, hl]]
      exact refl_of R i
    · rw [show (openMessage id).run i = .ok m i by simp [openMessage, hm, hl]]
      exact ⟨refl_of R i, AList.mem_of_lookup hm⟩

omit [IsPreorder (Interface w) R] in
private theorem unwrap_meets {α : Type} {i₀ : Interface w} {id : IpfiInteger w} (o : Option α) :
    Meets (fun i => R i₀ i ∧ id ∈ i.messages) (unwrap o : Op (Error w) (Interface w) α)
      (fun _ i => R i₀ i ∧ id ∈ i.messages) fun _ => R i₀ :=
  .unwrap_or (fun _ _ _ h => h) fun _ h => h.1

private theorem Writes.set (h : Writes R) {i₀ i : Interface w} {id : IpfiInteger w} (hi : R i₀ i ∧ id ∈ i.messages)
    (m : MessageBuffer) : R i₀ (i.setMessage id m) :=
  trans_of R hi.1 (h.setMessage i id m hi.2)

theorem Writes.sendMany (h : Writes R) (data : List UInt8) (id : IpfiInteger w) : (sendMany data id).Within R :=
  .of_meets fun i₀ => (openMessage_keeps i₀ id).bind fun _ => (unwrap_meets _).bind fun _ =>
    .modify fun _ hi => h.set hi _

theorem Writes.send (h : Writes R) (datum : Int8) (id : IpfiInteger w) : (send datum id).Within R := by
  refine .of_meets fun i₀ => (openMessage_keeps i₀ id).bind fun m => .ite (fun _ => ?_) fun _ => ?_
  · exact .bind (Q := fun _ => R i₀) (.modify fun i hi => trans_of R hi.1 (h.markComplete i _)) fun _ =>
      .pure fun _ hi => hi
  · exact (unwrap_meets _).bind fun _ => .bind (Q := fun _ => R i₀) (.modify fun _ hi => h.set hi _) fun _ =>
      .pure fun _ hi => hi

theorem Writes.terminateMessage (h : Writes R) (id : IpfiInteger w) : (terminateMessage id).Within R := by
  refine .of_meets fun i₀ => (openMessage_keeps i₀ id).bind fun m => .bind (Q := fun _ i => R i₀ i ∧ id ∈ i.messages)
    (.modify fun i hi => ⟨trans_of R hi.1 (h.markComplete i _), hi.2⟩) fun _ => ?_
  split
  · exact .pure fun _ hi => hi.1
  · refine (unwrap_meets _).bind fun c =>
      (unwrap_meets _).bind fun ch => .bind (Q := fun _ i => R i₀ i ∧ id ∈ i.messages)
      (.modifyGet fun i hi => ⟨trans_of R hi.1 (h.updateChan i ch _), hi.2⟩) fun sent => .ite (fun _ => ?_) fun _ => ?_
    · exact .bind (Q := fun _ => R i₀) (.modify fun _ hi => h.set hi _) fun _ =>
        .modify fun i hi => trans_of R hi (h.pop i id)
    · exact .bind (Q := fun _ => R i₀) (.modify fun _ hi => h.set hi _) fun _ =>
        .modify fun i hi => trans_of R hi (h.dropSender i _)

theorem Writes.terminateChunk (h : Writes R) (id : IpfiInteger w) : (terminateChunk id).Within R := by
  refine .of_meets fun i₀ => (openMessage_keeps i₀ id).bind fun m => ?_
  split
  · exact .modify fun _ hi => h.set hi _
  · refine (unwrap_meets _).bind fun c =>
      (unwrap_meets _).bind fun ch => .bind (Q := fun _ i => R i₀ i ∧ id ∈ i.messages)
      (.modifyGet fun i hi => ⟨trans_of R hi.1 (h.updateChan i ch _), hi.2⟩) fun sent => ?_
    exact .ite (fun _ => .modify fun _ hi => h.set hi _) fun _ => .modify fun _ hi => h.set hi _

theorem Writes.sends (h : Writes R) : Sends R := ⟨h.sendMany, h.terminateMessage, h.terminateChunk⟩

theorem Serves.operates (h : Serves R) : Operates R := ⟨h.sends, h.pop, h.getCallBuffer, h.forget, h.poison⟩

theorem Operates.dropAssociatedCallMessage (h : Operates R) (i : Interface w) (key : CallKey w) :
    R i (i.dropAssociatedCallMessage key) := by
  unfold Interface.dropAssociatedCallMessage
  split
  · exact trans_of R (h.forget i key) (h.pop _ _)
  · exact refl_of R i

end

end Interface

end Ipfi
