import Mathlib.Logic.Relation
import Ipfi.MessageSteps
import Ipfi.Waiting

/-!
# The methods on a message without other threads

With no other thread in between, the steps of a method do what its operation on the interface does, and end where that
ends: with its result, with its error, or waiting where it is blocked.
-/

namespace Ipfi

namespace MessageMethod

variable {w : IntFeature} {id : IpfiInteger w} {m : MessageMethod} {a a' : MessagePlace w} {x x' : MessageEntry}
  {msg : MessageBuffer}

/-- The entry is what the interface holds for the identifier. -/
structure Shows (id : IpfiInteger w) (i : Interface w) (x : MessageEntry) : Prop where
  message : x.message = i.messages.lookup id
  creationLock : x.creationLock.map x.creationLocks = i.creationLocks.lookup id
  locks : x.locks = i.locks
  lockCount : x.lockCount = i.lockCount
  chans : x.chans = i.chans
  chanCount : x.chanCount = i.chanCount

/-- The steps of a thread in the method, with nothing in between. -/
def Leads (id : IpfiInteger w) (m : MessageMethod) :
    MessagePlace w × MessageEntry → MessagePlace w × MessageEntry → Prop :=
  Relation.ReflTransGen fun y z => m.next id y.1 y.2 = z

/-- The thread waits if the operation is blocked, and has failed with the same error otherwise. -/
def Stops (id : IpfiInteger w) (m : MessageMethod) (y : MessagePlace w × MessageEntry) : Stop (Error w) → Prop
  | .blocked => m.next id y.1 y.2 = y
  | e => y.1 = .failed e

/-- The steps of the thread come to what is left of a run of an operation. -/
def Follows {α : Type} (id : IpfiInteger w) (m : MessageMethod) (y : MessagePlace w × MessageEntry)
    (after : α → MessagePlace w) : EStateM.Result (Stop (Error w)) (Interface w) α → Prop
  | .ok b i' => ∃ x', Leads id m y (after b, x') ∧ Shows id i' x'
  | .error e i' => ∃ z, Leads id m y z ∧ Shows id i' z.2 ∧ Stops id m z e

/-- The steps do what the operation does, and leave the thread where its result says. -/
def Ends {α : Type} (id : IpfiInteger w) (m : MessageMethod) (a : MessagePlace w) (op : Op (Error w) (Interface w) α)
    (after : α → MessagePlace w) : Prop :=
  ∀ i x, Shows id i x → Follows id m (a, x) after (op.run i)

variable {i : Interface w} {α β : Type} {after : α → MessagePlace w}

private theorem Leads.follows {r : EStateM.Result (Stop (Error w)) (Interface w) α}
    {y z : MessagePlace w × MessageEntry} (hy : Leads id m y z) (h : Follows id m z after r) :
    Follows id m y after r := by
  cases r with
  | ok b i' =>
    obtain ⟨x', hlead, hx'⟩ := h
    exact ⟨x', hy.trans hlead, hx'⟩
  | error e i' =>
    obtain ⟨z', hlead, hz'⟩ := h
    exact ⟨z', hy.trans hlead, hz'⟩

private theorem leads_ok (h : (m.advance id a).run x = .ok a' x') : Leads id m (a, x) (a', x') :=
  .single (by simp only [next, h])

private theorem leads_panicked (h : (m.advance id a).run x = .error .panicked x') :
    Leads id m (a, x) (.failed .panicked, x') :=
  .single (by simp only [next, h])

private theorem leads_error {e : Error w} (h : (m.advance id a).run x = .error (.error e) x') :
    Leads id m (a, x) (.failed (.error e), x') :=
  .single (by simp only [next, h])

private theorem stops_blocked (h : (m.advance id a).run x = .error .blocked x) : Stops id m (a, x) .blocked := by
  show m.next id a x = (a, x)
  simp only [next, h]

private theorem Ends.bind {op : Op (Error w) (Interface w) α} {f : α → Op (Error w) (Interface w) β}
    {after' : β → MessagePlace w} (h : Ends id m a op after) (hf : ∀ b, Ends id m (after b) (f b) after') :
    Ends id m a (op >>= f) after' := by
  intro i x hx
  have hs := h i x hx
  rcases hr : op.run i with ⟨b, i₁⟩ | ⟨e, i₁⟩ <;> rw [hr] at hs
  · obtain ⟨x₁, hlead, hx₁⟩ := hs
    rw [EStateM.run_bind_ok hr]
    exact hlead.follows (hf b i₁ x₁ hx₁)
  · rw [EStateM.run_bind_error hr]
    exact hs

/-- The lookup in `wait_for_message_creation` and what follows it. -/
private theorem waitForMessageCreation_ends (ha : a = .begin ∨ a = .checkCreation)
    (hm : a = .begin → m = getChunkStream) :
    Ends id m a (Interface.waitForMessageCreation id) fun _ => .created := by
  intro i x hx
  have hadv : m.advance id a = checkCreation := by
    rcases ha with rfl | rfl
    · rw [hm rfl]; rfl
    · rfl
  have hmsg := hx.message
  cases h : i.messages.lookup id with
  -- the message is there: one look at it is all
  | some msg =>
    have hmem : id ∈ i.messages := AList.mem_of_lookup h
    rw [h] at hmsg
    have hr : (Interface.waitForMessageCreation id).run i = .ok () i := by
      simp [Interface.waitForMessageCreation, hmem]
    rw [hr]
    exact ⟨x, leads_ok (by simp [hadv, checkCreation, hmsg]), hx⟩
  | none =>
    have hmem : id ∉ i.messages := AList.lookup_eq_none.1 h
    rw [h] at hmsg
    have hlook : Leads id m (a, x) (.lookUpLock, x) := leads_ok (by simp [hadv, checkCreation, hmsg])
    have hcreation := hx.creationLock
    cases hl : i.creationLocks.lookup id with
    | none =>
      -- the first to look inserts the lock, and waits on it
      rw [hl, Option.map_eq_none_iff] at hcreation
      have hr : (Interface.waitForMessageCreation id).run i =
          .error .blocked { i with creationLocks := i.creationLocks.insert id .incomplete } := by
        simp [Interface.waitForMessageCreation, hmem, hl]
      rw [hr]
      have hmiss : Leads id m (.lookUpLock, x) (.insertLock, x) := leads_ok (by simp [advance, hcreation])
      have hinsert : Leads id m (.insertLock, x) (.waitCreation x.creationCount, x.insertCreationLock.2) := leads_ok rfl
      refine ⟨_, (hlook.trans hmiss).trans hinsert, ?_, stops_blocked ?_⟩
      · exact { hx with creationLock := by simp [MessageEntry.insertCreationLock] }
      · simp [advance, MessageEntry.insertCreationLock]
    | some st =>
      -- a lock is there already, and its state decides
      rw [hl, Option.map_eq_some_iff] at hcreation
      obtain ⟨l, hlock, hst⟩ := hcreation
      have hwait : Leads id m (a, x) (.waitCreation l, x) := hlook.trans (leads_ok (by simp [advance, hlock]))
      cases st with
      | incomplete =>
        have hr : (Interface.waitForMessageCreation id).run i = .error .blocked i := by
          simp [Interface.waitForMessageCreation, hmem, hl]
        rw [hr]
        exact ⟨_, hwait, hx, stops_blocked (by simp [advance, hst])⟩
      | poisoned =>
        have hr : (Interface.waitForMessageCreation id).run i = .error (.error (.lockPoisoned id)) i := by
          simp [Interface.waitForMessageCreation, hmem, hl]
        rw [hr]
        exact ⟨_, hwait.trans (leads_error (by simp [advance, hst])), hx, rfl⟩
      | complete =>
        have hr : (Interface.waitForMessageCreation id).run i =
            .ok () { i with creationLocks := i.creationLocks.erase id } := by
          simp [Interface.waitForMessageCreation, hmem, hl]
        rw [hr]
        have hdone : Leads id m (.waitCreation l, x) (.removeLock, x) := leads_ok (by simp [advance, hst])
        have hremove : Leads id m (.removeLock, x) (.created, { x with creationLock := none }) := leads_ok rfl
        refine ⟨_, (hwait.trans hdone).trans hremove, ?_⟩
        exact { hx with creationLock := by simp [AList.lookup_erase] }

/-- What follows once the message has been found. -/
private theorem waitCompletion_follows (hx : Shows id i x) (h : i.messages.lookup id = some msg) :
    Follows id m (.waitCompletion msg.completeLock, x) m.readMessage ((Interface.waitForMessage id).run i) := by
  have hmsg : x.message = some msg := hx.message.trans h
  cases hl : i.locks msg.completeLock with
  | incomplete =>
    rw [Interface.waitForMessage_run_incomplete h hl]
    exact ⟨_, .refl, hx, stops_blocked (by simp [advance, hx.locks, hl])⟩
  | poisoned =>
    rw [Interface.waitForMessage_run_poisoned h hl]
    exact ⟨_, leads_error (by simp [advance, hx.locks, hl]), hx, rfl⟩
  | complete =>
    rw [Interface.waitForMessage_run h hl]
    have hdone : Leads id m (.waitCompletion msg.completeLock, x) (.completed, x) :=
      leads_ok (by simp [advance, hx.locks, hl])
    exact ⟨x, hdone.trans (leads_ok (by simp [advance, hmsg])), hx⟩

/-- `wait_for_message` once the message has been created. -/
private theorem created_ends (hm : m.waits) :
    Ends id m .created (do
      let message ← unwrap ((← get).messages.lookup id)
      let state ← Interface.waitForCompletion message.completeLock
      if state = .poisoned then throw (.error (.lockPoisoned id))
      unwrap ((← get).messages.lookup id)) m.readMessage := by
  intro i x hx
  cases h : i.messages.lookup id with
  | none =>
    have hmsg : x.message = none := hx.message.trans h
    simp only [EStateM.run_bind, EStateM.run_get, h, EStateM.run_unwrap_none]
    exact ⟨_, leads_panicked (by simp [advance, hmsg]), hx, rfl⟩
  | some msg =>
    have hmem : id ∈ i.messages := AList.mem_of_lookup h
    have hlook : Leads id m (.created, x) (.waitCompletion msg.completeLock, x) := by
      have hmsg : x.message = some msg := hx.message.trans h
      apply leads_ok
      cases m <;> first | exact absurd hm Bool.false_ne_true | simp [advance, hmsg]
    have hr : (Interface.waitForMessageCreation id).run i = .ok () i := by
      simp [Interface.waitForMessageCreation, hmem]
    have hfollows := hlook.follows (waitCompletion_follows hx h)
    rwa [Interface.waitForMessage, EStateM.run_bind_ok hr] at hfollows

theorem waitForMessage_ends (hm : m.waits) : Ends id m .begin (Interface.waitForMessage id) m.readMessage := by
  intro i x hx
  cases h : i.messages.lookup id with
  | some msg =>
    have hbegin : Leads id m (.begin, x) (.waitCompletion msg.completeLock, x) := by
      have hmsg : x.message = some msg := hx.message.trans h
      apply leads_ok
      cases m <;> first | exact absurd hm Bool.false_ne_true | simp [advance, hmsg]
    exact hbegin.follows (waitCompletion_follows hx h)
  | none =>
    have hbegin : Leads id m (.begin, x) (.checkCreation, x) := by
      have hmsg : x.message = none := hx.message.trans h
      apply leads_ok
      cases m <;> first | exact absurd hm Bool.false_ne_true | simp [advance, hmsg]
    have hends : Ends id m .checkCreation (Interface.waitForMessage id) m.readMessage :=
      (waitForMessageCreation_ends (.inr rfl) (by simp)).bind fun _ => created_ends hm
    exact hbegin.follows (hends i x hx)

/-! ### The methods -/

private theorem pop_shows (hx : Shows id i x) : Shows id (i.pop id).2 x.remove.2 ∧ x.remove.1 = (i.pop id).1 := by
  have hmsg := hx.message
  cases h : i.messages.lookup id with
  | none =>
    rw [h] at hmsg
    rw [remove_none hmsg, Interface.pop, h]
    exact ⟨hx, rfl⟩
  | some msg =>
    rw [h] at hmsg
    rw [Interface.pop_eq h, MessageEntry.remove, hmsg]
    refine ⟨{ hx with message := ?_, chans := ?_ }, rfl⟩
    · simp [Interface.dropSender, AList.lookup_erase]
    · simp [Interface.dropSender, hx.chans]

theorem pop_ends : Ends id pop .begin (modifyGet fun i => i.pop id) fun m => .returned (.popped m) := by
  intro i x hx
  obtain ⟨hx', heq⟩ := pop_shows hx
  show ∃ x', Leads id pop (.begin, x) (.returned (.popped (i.pop id).1), x') ∧ Shows id (i.pop id).2 x'
  rw [← heq]
  cases h : x.message with
  | none =>
    rw [remove_none h] at hx' ⊢
    exact ⟨x, leads_ok (by simp [advance, remove_none h]), hx'⟩
  | some msg =>
    have hremove : Leads id pop (.begin, x) (.relinquish msg, x.remove.2) :=
      leads_ok (by simp [advance, remove_some h])
    rw [remove_some h]
    exact ⟨{ x.remove.2 with handedOut := false }, hremove.trans (leads_ok rfl), { hx' with }⟩

/-- Deletes the message, which is unwrapped, and goes on with it. -/
private theorem popUnwrap_ends {f : MessageBuffer → Op (Error w) (Interface w) α}
    (hf : ∀ msg, Ends id m (.relinquish msg) (f msg) after) :
    Ends id m .popUnwrap (do
      let popped ← modifyGet fun i => i.pop id
      let message ← unwrap popped
      f message) after := by
  intro i x hx
  obtain ⟨hx', heq⟩ := pop_shows hx
  have hr : (modifyGet fun i => i.pop id : Op (Error w) (Interface w) _).run i = .ok (i.pop id).1 (i.pop id).2 := rfl
  rw [EStateM.run_bind_ok hr, ← heq]
  cases h : x.message with
  | none =>
    rw [remove_none h] at hx' ⊢
    exact ⟨_, leads_panicked (by simp [advance, remove_none h]), hx', rfl⟩
  | some msg =>
    have hremove : Leads id m (.popUnwrap, x) (.relinquish msg, x.remove.2) :=
      leads_ok (by simp [advance, remove_some h])
    rw [remove_some h]
    exact hremove.follows (hf msg _ _ hx')

private theorem ends_pure {b : α} (h : a = after b) : Ends id m a (pure b) after := by
  subst h
  exact fun _ x hx => ⟨x, .refl, hx⟩

theorem isChunked_ends : Ends id isChunked .begin (Interface.isChunked id) fun b => .returned (.flag b) :=
  (waitForMessage_ends rfl).bind fun _ => ends_pure rfl

theorem hasStream_ends : Ends id hasStream .begin (Interface.hasStream id) fun b => .returned (.flag b) :=
  (waitForMessage_ends rfl).bind fun _ => ends_pure rfl

theorem getRaw_ends : Ends id getRaw .begin (Interface.getRaw id) fun cs => .returned (.chunks cs) := by
  refine (waitForMessage_ends rfl).bind fun _ => popUnwrap_ends fun msg i x hx => ?_
  exact ⟨{ x with handedOut := false }, leads_ok rfl, { hx with }⟩

theorem getChunks_ends (decodes : List UInt8 → Bool) :
    Ends id (getChunks decodes) .begin (Interface.getChunks decodes id) fun cs => .returned (.decoded cs) := by
  refine (waitForMessage_ends rfl).bind fun msg => ?_
  by_cases hs : msg.sender.isSome
  · simp only [readMessage, if_pos hs]
    exact ends_pure rfl
  · simp only [readMessage, if_neg hs]
    refine popUnwrap_ends fun msg i x hx => ?_
    by_cases hd : msg.chunks.all decodes
    · simp only [if_pos hd]
      refine ⟨{ x with handedOut := false }, leads_ok ?_, { hx with }⟩
      simp only [advance, EStateM.run_bind, EStateM.run_modify, useMessage, if_pos hd]
      rfl
    · simp only [if_neg hd]
      refine ⟨(.failed (.error .decode), { x with handedOut := false }), leads_error ?_, { hx with }, rfl⟩
      simp only [advance, EStateM.run_bind, EStateM.run_modify, useMessage, if_neg hd]
      rfl

theorem getChunkStream_ends :
    Ends id getChunkStream .begin (Interface.getChunkStream id) fun r => .returned (.receiver r) := by
  refine (waitForMessageCreation_ends (.inl rfl) fun _ => rfl).bind fun _ i x hx => ?_
  have hmsg := hx.message
  cases h : i.messages.lookup id with
  | none =>
    rw [h] at hmsg
    simp only [EStateM.run_bind, EStateM.run_get, h, EStateM.run_unwrap_none]
    exact ⟨_, leads_panicked (by simp [advance, hmsg]), hx, rfl⟩
  | some msg =>
    rw [h] at hmsg
    simp only [EStateM.run_bind, EStateM.run_get, h, EStateM.run_unwrap_some]
    refine ⟨x.attach msg, leads_ok ?_, ?_⟩
    · simp only [advance, EStateM.run_bind, EStateM.run_get, hmsg, EStateM.run_unwrap_some, hx.chanCount]
      rfl
    · refine { hx with message := ?_, chans := ?_, chanCount := ?_ }
      · simp [MessageEntry.attach, Interface.setMessage, Interface.dropSender, hx.chanCount]
      · simp [MessageEntry.attach, Interface.setMessage, Interface.dropSender, hx.chanCount, hx.chans]
      · simp [MessageEntry.attach, Interface.setMessage, Interface.dropSender, hx.chanCount]

private theorem sendLast_sent {ch : ChanRef} (msg : MessageBuffer) (chunk : List UInt8) (hx : Shows id i x)
    (hr : (i.chans ch).receiverAlive) :
    Shows id ((i.sendChunk ch chunk).2.setMessage id { msg with chunks := msg.chunks.dropLast ++ [[]] })
      (x.sendLast msg ch chunk) ∧ ∃ msg', (x.sendLast msg ch chunk).message = some msg' := by
  have hr' : (x.chans ch).receiverAlive := by rwa [hx.chans]
  rw [MessageEntry.sendLast, if_pos hr']
  refine ⟨{ hx with message := ?_, chans := ?_ }, _, rfl⟩
  · simp [Interface.setMessage]
  · simp [Interface.sendChunk, Interface.updateChan, Interface.setMessage, hr, hx.chans]

private theorem sendLast_unsent {ch : ChanRef} {chunk : List UInt8} (hx : Shows id i x)
    (hr : ¬ (i.chans ch).receiverAlive) :
    Shows id (((i.sendChunk ch chunk).2.setMessage id
      { msg with chunks := msg.chunks.dropLast ++ [chunk], sender := some none }).dropSender msg.sender)
      (x.sendLast msg ch chunk) := by
  have hr' : ¬ (x.chans ch).receiverAlive := by rwa [hx.chans]
  rw [MessageEntry.sendLast, if_neg hr']
  refine { hx with message := ?_, chans := ?_ }
  · simp [Interface.setMessage, Interface.dropSender]
  · simp [Interface.sendChunk, Interface.updateChan, Interface.setMessage, Interface.dropSender, hr, hx.chans]

private theorem popStreamed_ends (hmsg : x.message = some msg) (hx : Shows id i x) :
    Follows id terminateMessage (.popStreamed, x) (fun _ => .returned .unit)
      (.ok () (i.pop id).2 : EStateM.Result (Stop (Error w)) (Interface w) Unit) := by
  have hremove : Leads id terminateMessage (.popStreamed, x) (.relinquish msg, x.remove.2) :=
    leads_ok (by simp [advance, remove_some hmsg])
  exact ⟨{ x.remove.2 with handedOut := false }, hremove.trans (leads_ok rfl), { (pop_shows hx).1 with }⟩

theorem terminateMessage_ends :
    Ends id terminateMessage .begin (Interface.terminateMessage id) fun _ => .returned .unit := by
  intro i x hx
  have hmsg := hx.message
  cases h : i.messages.lookup id with
  | none =>
    rw [h] at hmsg
    have hr : (Interface.terminateMessage id).run i = .error (.error (.outOfBounds id)) i := by
      simp [Interface.terminateMessage, Interface.openMessage, h]
    rw [hr]
    exact ⟨_, leads_error (by simp [advance, terminate, hmsg]), hx, rfl⟩
  | some msg =>
    rw [h] at hmsg
    by_cases hl : i.locks msg.completeLock = .complete
    · have hr : (Interface.terminateMessage id).run i = .error (.error (.alreadyCompleted id)) i := by
        simp [Interface.terminateMessage, Interface.openMessage, h, hl]
      rw [hr]
      exact ⟨_, leads_error (by simp [advance, terminate, hmsg, hx.locks, hl]), hx, rfl⟩
    · have hl' : x.locks msg.completeLock ≠ .complete := by
        rw [hx.locks]
        exact hl
      have hmark : Shows id (i.markComplete msg.completeLock) (x.markComplete msg.completeLock) :=
        { hx with locks := by simp [MessageEntry.markComplete, Interface.markComplete, hx.locks] }
      cases hs : msg.sender with
      | none =>
        have hr : (Interface.terminateMessage id).run i = .ok () (i.markComplete msg.completeLock) := by
          simp [Interface.terminateMessage, Interface.openMessage, h, hl, hs]
        rw [hr]
        exact ⟨_, leads_ok (by simp [advance, terminate, hmsg, hl', hs]), hmark⟩
      | some sender =>
        cases hc : msg.chunks.getLast? with
        | none =>
          have hr : (Interface.terminateMessage id).run i = .error .panicked (i.markComplete msg.completeLock) := by
            simp [Interface.terminateMessage, Interface.openMessage, h, hl, hs, hc]
          rw [hr]
          refine ⟨(_, x.markComplete _), leads_panicked ?_, hmark, rfl⟩
          simp [advance, terminate, hmsg, hl', hs, hc]
        | some chunk =>
          cases sender with
          | none =>
            have hr : (Interface.terminateMessage id).run i = .error .panicked (i.markComplete msg.completeLock) := by
              simp [Interface.terminateMessage, Interface.openMessage, h, hl, hs, hc]
            rw [hr]
            refine ⟨(_, x.markComplete _), leads_panicked ?_, hmark, rfl⟩
            simp [advance, terminate, hmsg, hl', hs, hc]
          | some ch =>
            -- the last chunk goes to the receiver, or stays when there is none any more
            by_cases hr : (i.chans ch).receiverAlive
            · have hr' : (x.chans ch).receiverAlive := by rwa [hx.chans]
              have hrun : (Interface.terminateMessage id).run i =
                  .ok () ((((i.markComplete msg.completeLock).sendChunk ch chunk).2.setMessage id
                    { msg with chunks := msg.chunks.dropLast ++ [[]] }).pop id).2 := by
                simp [Interface.terminateMessage, Interface.openMessage, h, hl, hs, hc, Interface.sendChunk,
                  Interface.markComplete, hr]
              obtain ⟨hsent, msg', hmsg'⟩ := sendLast_sent msg chunk hmark hr
              have hbegin : Leads id terminateMessage (.begin, x)
                  (.popStreamed, (x.markComplete msg.completeLock).sendLast msg ch chunk) :=
                leads_ok (by simp [advance, terminate, hmsg, hl', hs, hc, hr'])
              rw [hrun]
              exact hbegin.follows (popStreamed_ends hmsg' hsent)
            · have hr' : ¬ (x.chans ch).receiverAlive := by rwa [hx.chans]
              have hrun : (Interface.terminateMessage id).run i =
                  .ok () ((((i.markComplete msg.completeLock).sendChunk ch chunk).2.setMessage id { msg with
                    chunks := msg.chunks.dropLast ++ [chunk], sender := some none }).dropSender msg.sender) := by
                simp [Interface.terminateMessage, Interface.openMessage, h, hl, hs, hc, Interface.sendChunk,
                  Interface.markComplete, hr]
              rw [hrun]
              exact ⟨_, leads_ok (by simp [advance, terminate, hmsg, hl', hs, hc, hr']), sendLast_unsent hmark hr⟩

private theorem push_creationLocks (hid : i.push.1 = id) :
    i.push.2.creationLocks.lookup id = (i.creationLocks.lookup id).map fun _ => CompleteLockState.complete := by
  have hid' : i.messageIdQueue.get.1 = id := hid
  simp only [Interface.push, hid']
  split
  · rename_i st h
    rw [hid'] at h
    rw [h]
    exact AList.lookup_insert _
  · rename_i h
    rw [hid'] at h
    rw [h]
    rfl

/-- A push that is given the identifier. -/
theorem push_leads (hx : Shows id i x) (hid : i.push.1 = id) (hout : x.handedOut = false) :
    ∃ x', Leads id push (.begin, x) (.returned (.pushed id), x') ∧ Shows id i.push.2 x' := by
  have hgive : Leads id push (.begin, x) (.insert, { x with handedOut := true }) := leads_ok (by simp [advance, hout])
  have hinsert : Leads id push (.insert, { x with handedOut := true })
      (.notify, MessageEntry.insertMessage { x with handedOut := true }) := leads_ok rfl
  have hid' : i.messageIdQueue.get.1 = id := hid
  have hinserted : Shows id { i.push.2 with creationLocks := i.creationLocks }
      (MessageEntry.insertMessage { x with handedOut := true }) := by
    constructor
    · simp [MessageEntry.insertMessage, Interface.push, hid', hx.lockCount]
    · exact hx.creationLock
    · simp [MessageEntry.insertMessage, Interface.push, hx.locks, hx.lockCount]
    · simp [MessageEntry.insertMessage, Interface.push, hx.lockCount]
    · show Interface.closeSender x.chans (x.message.bind MessageBuffer.sender) =
        Interface.closeSender i.chans ((i.messages.lookup i.messageIdQueue.get.1).bind MessageBuffer.sender)
      rw [hid', hx.chans, hx.message]
    · exact hx.chanCount
  cases hl : x.creationLock with
  | none =>
    have hdone : Leads id push (.notify, MessageEntry.insertMessage { x with handedOut := true })
        (.returned (.pushed id), MessageEntry.insertMessage { x with handedOut := true }) :=
      leads_ok (by simp [advance, MessageEntry.insertMessage, hl])
    refine ⟨_, (hgive.trans hinsert).trans hdone, { hinserted with creationLock := ?_ }⟩
    rw [push_creationLocks hid, ← hx.creationLock]
    simp [MessageEntry.insertMessage, hl]
  | some l =>
    have hnotify : Leads id push (.notify, MessageEntry.insertMessage { x with handedOut := true })
        (.mark l, MessageEntry.insertMessage { x with handedOut := true }) :=
      leads_ok (by simp [advance, MessageEntry.insertMessage, hl])
    refine ⟨_, ((hgive.trans hinsert).trans hnotify).trans (leads_ok rfl), { hinserted with creationLock := ?_ }⟩
    rw [push_creationLocks hid, ← hx.creationLock]
    simp [MessageEntry.markCreated, MessageEntry.insertMessage, hl]

end MessageMethod

end Ipfi
