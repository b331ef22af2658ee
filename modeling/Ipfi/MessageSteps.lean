import Ipfi.Interface
import Ipfi.Lib.Threads

/-!
# The methods on a message step by step

The methods that create, read and delete the message under one identifier are sequences of atomic steps on what an
interface holds for it; between two of them other threads take theirs.  What a method does while it holds a reference
into the map of messages is one step.
-/

namespace Ipfi

variable {w : IntFeature}

/-- What an interface holds for one identifier. -/
structure MessageEntry where
  message : Option MessageBuffer
  /-- The queue has handed out the identifier and has not got it back. -/
  handedOut : Bool
  creationLock : Option LockRef
  /-- The states of the locks made for waiters on a creation, which are those below `creationCount`. -/
  creationLocks : LockRef → CompleteLockState
  creationCount : Nat
  /-- The states of the completion locks made for messages, which are those below `lockCount`. -/
  locks : LockRef → CompleteLockState
  lockCount : Nat
  chans : ChanRef → Chan
  chanCount : Nat

/-- The methods, and the drop of a chunk receiver. -/
inductive MessageMethod
  | getRaw
  | getChunks (decodes : List UInt8 → Bool)
  | isChunked
  | hasStream
  | getChunkStream
  | push
  | terminateMessage
  | pop
  | dropReceiver (rx : ChanRef)

/-- What the methods return. -/
inductive MessageReply (w : IntFeature)
  | chunks (chunks : List (List UInt8))
  | decoded (chunks : Option (List (List UInt8)))
  | flag (b : Bool)
  | receiver (r : ChunkReceiver w)
  | popped (message : Option MessageBuffer)
  | pushed (id : IpfiInteger w)
  | unit

/-- The replies of all methods but `get_chunk_stream`. -/
def MessageReply.plain : MessageReply w → Bool
  | receiver _ => false
  | _ => true

/-- Where a thread is in a method. -/
inductive MessagePlace (w : IntFeature)
  | begin
  /-- At the lookup of the message in `wait_for_message_creation`. -/
  | checkCreation
  | lookUpLock
  | insertLock
  | waitCreation (lock : LockRef)
  | removeLock
  /-- The message is said to have been created, and is yet to be looked up. -/
  | created
  | waitCompletion (lock : LockRef)
  /-- The message is said to have been completed, and is yet to be looked up. -/
  | completed
  /-- Before a `pop` whose result is unwrapped. -/
  | popUnwrap
  /-- Before the `pop` of a message whose last chunk has been streamed. -/
  | popStreamed
  /-- The message has been removed, and its identifier is yet to be relinquished. -/
  | relinquish (message : MessageBuffer)
  /-- A push has been given the identifier. -/
  | insert
  /-- A push has inserted its message, and has yet to look for waiters. -/
  | notify
  | mark (lock : LockRef)
  | returned (r : MessageReply w)
  | failed (e : Stop (Error w))

namespace MessageEntry

/-- Before the identifier is handed out for the first time. -/
def new : MessageEntry where
  message := none
  handedOut := false
  creationLock := none
  creationLocks := fun _ => .incomplete
  creationCount := 0
  locks := fun _ => .incomplete
  lockCount := 0
  chans := fun _ => { queue := [], senderAlive := false, receiverAlive := false }
  chanCount := 0

/-- No method is under way. -/
structure AtRest (x : MessageEntry) : Prop where
  creationLock : x.creationLock = none
  unpoisoned : ∀ l, x.creationLocks l ≠ .poisoned
  lock_lt : ∀ {msg}, x.message = some msg → msg.completeLock < x.lockCount
  handedOut : x.message.isSome → x.handedOut = true

theorem new_atRest : new.AtRest := ⟨rfl, by simp [new], by simp [new], by simp [new]⟩

/-- `messages.remove`. -/
def remove (x : MessageEntry) : Option MessageBuffer × MessageEntry :=
  match x.message with
  | some m => (some m, { x with message := none, chans := Interface.closeSender x.chans m.sender })
  | none => (none, x)

/-- Inserts the message of a push, and drops the one it overwrites. -/
def insertMessage (x : MessageEntry) : MessageEntry :=
  { x with
    message := some { chunks := [[]], completeLock := x.lockCount, sender := none }
    locks := Function.update x.locks x.lockCount .incomplete
    lockCount := x.lockCount + 1
    chans := Interface.closeSender x.chans (x.message.bind MessageBuffer.sender) }

/-- Makes a creation lock and inserts it. -/
def insertCreationLock (x : MessageEntry) : LockRef × MessageEntry :=
  (x.creationCount, { x with
    creationLock := some x.creationCount
    creationLocks := Function.update x.creationLocks x.creationCount .incomplete
    creationCount := x.creationCount + 1 })

def markComplete (x : MessageEntry) (lock : LockRef) : MessageEntry :=
  { x with locks := Function.update x.locks lock .complete }

def markCreated (x : MessageEntry) (lock : LockRef) : MessageEntry :=
  { x with creationLocks := Function.update x.creationLocks lock .complete }

/-- Attaches a sender to the message, and drops the one it replaces. -/
def attach (x : MessageEntry) (m : MessageBuffer) : MessageEntry :=
  { x with
    message := some { m with sender := some (some x.chanCount) }
    chans := Interface.closeSender
      (Function.update x.chans x.chanCount { queue := [], senderAlive := true, receiverAlive := true }) m.sender
    chanCount := x.chanCount + 1 }

/-- Sends the last chunk of a complete message to its receiver, which gets it if it is still held. -/
def sendLast (x : MessageEntry) (m : MessageBuffer) (ch : ChanRef) (chunk : List UInt8) : MessageEntry :=
  if (x.chans ch).receiverAlive then
    { x with
      message := some { m with chunks := m.chunks.dropLast ++ [[]] }
      chans := Function.update x.chans ch { x.chans ch with queue := (x.chans ch).queue ++ [chunk] } }
  else
    { x with
      message := some { m with chunks := m.chunks.dropLast ++ [chunk], sender := some none }
      chans := Interface.closeSender x.chans m.sender }

def dropReceiver (x : MessageEntry) (rx : ChanRef) : MessageEntry :=
  { x with chans := Function.update x.chans rx { x.chans rx with receiverAlive := false } }

end MessageEntry

namespace MessageMethod

/-- The methods that call `wait_for_message`. -/
def waits : MessageMethod → Bool
  | getRaw | getChunks _ | isChunked | hasStream => true
  | getChunkStream | push | terminateMessage | pop | dropReceiver _ => false

/-- The methods that look the message up after they have waited for it. -/
def reads : MessageMethod → Bool
  | getRaw | getChunks _ | isChunked | hasStream | getChunkStream => true
  | push | terminateMessage | pop | dropReceiver _ => false

/-- The lookup of the message in `wait_for_message_creation`. -/
def checkCreation : Op (Error w) MessageEntry (MessagePlace w) := do
  match (← get).message with
  | some _ => pure .created
  | none => pure .lookUpLock

/-- Marks the message complete, and streams its last chunk if there is a receiver for it. -/
def terminate (id : IpfiInteger w) : Op (Error w) MessageEntry (MessagePlace w) := do
  let x ← get
  match x.message with
  | none => throw (.error (.outOfBounds id))
  | some m =>
    if x.locks m.completeLock = .complete then throw (.error (.alreadyCompleted id))
    modify fun x => x.markComplete m.completeLock
    match m.sender with
    | none => pure (.returned .unit)
    | some sender =>
      let completedChunk ← unwrap m.chunks.getLast?
      let ch ← unwrap sender
      modify fun x => x.sendLast m ch completedChunk
      if (x.chans ch).receiverAlive then pure .popStreamed else pure (.returned .unit)

/-- What the method does with the message it has popped. -/
def useMessage (m : MessageMethod) (message : MessageBuffer) : Op (Error w) MessageEntry (MessagePlace w) :=
  match m with
  | getRaw => pure (.returned (.chunks message.chunks))
  | getChunks decodes =>
    if message.chunks.all decodes then pure (.returned (.decoded (some message.chunks))) else throw (.error .decode)
  | pop => pure (.returned (.popped (some message)))
  | _ => pure (.returned .unit)

/-- What the method does with the complete message. -/
def readMessage (m : MessageMethod) (message : MessageBuffer) : MessagePlace w :=
  match m with
  | isChunked => .returned (.flag (1 < message.chunks.length))
  | hasStream => .returned (.flag message.sender.isSome)
  | getChunks _ => if message.sender.isSome then .returned (.decoded none) else .popUnwrap
  | _ => .popUnwrap

/-- The next atomic step of a thread in the method. -/
def advance (id : IpfiInteger w) (m : MessageMethod) : MessagePlace w → Op (Error w) MessageEntry (MessagePlace w)
  | .begin => do
    match m with
    | getRaw | getChunks _ | isChunked | hasStream =>
      match (← get).message with
      | some message => pure (.waitCompletion message.completeLock)
      | none => pure .checkCreation
    | getChunkStream => checkCreation
    | push =>
      -- a push that is given another identifier is not on this one
      if (← get).handedOut then throw .blocked
      modify fun x => { x with handedOut := true }
      pure .insert
    | terminateMessage => terminate id
    | pop =>
      match (← modifyGet MessageEntry.remove) with
      | some message => pure (.relinquish message)
      | none => pure (.returned (.popped none))
    | dropReceiver rx =>
      modify fun x => x.dropReceiver rx
      pure (.returned .unit)
  | .checkCreation => checkCreation
  | .lookUpLock => do
    match (← get).creationLock with
    | some lock => pure (.waitCreation lock)
    | none => pure .insertLock
  | .insertLock => do
    let lock ← modifyGet MessageEntry.insertCreationLock
    pure (.waitCreation lock)
  | .waitCreation lock => do
    match (← get).creationLocks lock with
    | .incomplete => throw .blocked
    | .poisoned => throw (.error (.lockPoisoned id))
    | .complete => pure .removeLock
  | .removeLock => do
    modify fun x => { x with creationLock := none }
    pure .created
  | .created => do
    let x ← get
    let message ← unwrap x.message
    match m with
    | getChunkStream =>
      modify fun x => x.attach message
      pure (.returned (.receiver { rx := x.chanCount, completeLock := message.completeLock, messageId := id }))
    | _ => pure (.waitCompletion message.completeLock)
  | .waitCompletion lock => do
    match (← get).locks lock with
    | .incomplete => throw .blocked
    | .poisoned => throw (.error (.lockPoisoned id))
    | .complete => pure .completed
  | .completed => do
    let message ← unwrap (← get).message
    pure (m.readMessage message)
  | .popUnwrap => do
    let popped ← modifyGet MessageEntry.remove
    let message ← unwrap popped
    pure (.relinquish message)
  | .popStreamed => do
    match (← modifyGet MessageEntry.remove) with
    | some message => pure (.relinquish message)
    | none => pure (.returned .unit)
  | .relinquish message => do
    modify fun x => { x with handedOut := false }
    m.useMessage message
  | .insert => do
    modify MessageEntry.insertMessage
    pure .notify
  | .notify => do
    match (← get).creationLock with
    | some lock => pure (.mark lock)
    | none => pure (.returned (.pushed id))
  | .mark lock => do
    modify fun x => x.markCreated lock
    pure (.returned (.pushed id))
  | .returned r => pure (.returned r)
  | .failed e => pure (.failed e)

/-- The place and the entry after the next step; a thread that has to wait stays where it is. -/
def next (id : IpfiInteger w) (m : MessageMethod) (a : MessagePlace w) (x : MessageEntry) :
    MessagePlace w × MessageEntry :=
  match (m.advance id a).run x with
  | .ok a' x' => (a', x')
  | .error .blocked x' => (a, x')
  | .error e x' => (.failed e, x')

variable {id : IpfiInteger w} {m : MessageMethod} {a a' : MessagePlace w} {x x' : MessageEntry} {msg : MessageBuffer}

/-! ### Every single step -/

/-- What becomes of an entry when its message is terminated: the message stays, under the same lock. -/
structure Terminated (x : MessageEntry) (msg : MessageBuffer) (x' : MessageEntry) : Prop where
  message : ∃ msg', x'.message = some msg' ∧ msg'.completeLock = msg.completeLock ∧
    msg'.sender.isSome = msg.sender.isSome
  handedOut : x'.handedOut = x.handedOut
  creationLock : x'.creationLock = x.creationLock
  creationLocks : x'.creationLocks = x.creationLocks
  locks : x'.locks = Function.update x.locks msg.completeLock .complete
  lockCount : x'.lockCount = x.lockCount

/-- A method that has used the message it has popped. -/
def Ended (a : MessagePlace w) : Prop := (∃ r, r.plain ∧ a = .returned r) ∨ ∃ e, a = .failed (.error e)

/-- What one step of a thread in the method can do. -/
inductive Moves (id : IpfiInteger w) (m : MessageMethod) (x : MessageEntry) :
    MessagePlace w → MessagePlace w → MessageEntry → Prop
  | stays {a : MessagePlace w} : Moves id m x a a x
  | found {msg : MessageBuffer} (hm : m.waits) (h : x.message = some msg) :
      Moves id m x .begin (.waitCompletion msg.completeLock) x
  | missed (hm : m.waits) (h : x.message = none) : Moves id m x .begin .checkCreation x
  | present {a : MessagePlace w} (ha : a = .begin ∨ a = .checkCreation) (hm : a = .begin → m = getChunkStream)
      (h : x.message.isSome) : Moves id m x a .created x
  | absent {a : MessagePlace w} (ha : a = .begin ∨ a = .checkCreation) (hm : a = .begin → m = getChunkStream)
      (h : x.message = none) : Moves id m x a .lookUpLock x
  | foundLock {l : LockRef} (h : x.creationLock = some l) : Moves id m x .lookUpLock (.waitCreation l) x
  | missedLock (h : x.creationLock = none) : Moves id m x .lookUpLock .insertLock x
  | insertedLock : Moves id m x .insertLock (.waitCreation x.creationCount) x.insertCreationLock.2
  | creationDone {l : LockRef} (h : x.creationLocks l = .complete) : Moves id m x (.waitCreation l) .removeLock x
  | creationPoisoned {l : LockRef} (h : x.creationLocks l = .poisoned) :
      Moves id m x (.waitCreation l) (.failed (.error (.lockPoisoned id))) x
  | removedLock : Moves id m x .removeLock .created { x with creationLock := none }
  | lookedUp {msg : MessageBuffer} (h : x.message = some msg) :
      Moves id m x .created (.waitCompletion msg.completeLock) x
  | attached {msg : MessageBuffer} (h : x.message = some msg) (hm : m = getChunkStream) :
      Moves id m x .created
        (.returned (.receiver { rx := x.chanCount, completeLock := msg.completeLock, messageId := id })) (x.attach msg)
  | completionDone {l : LockRef} (h : x.locks l = .complete) : Moves id m x (.waitCompletion l) .completed x
  | completionPoisoned {l : LockRef} (h : x.locks l = .poisoned) :
      Moves id m x (.waitCompletion l) (.failed (.error (.lockPoisoned id))) x
  | read {msg : MessageBuffer} (h : x.message = some msg) : Moves id m x .completed (m.readMessage msg) x
  | lost {a : MessagePlace w} (ha : a = .created ∨ a = .completed ∨ a = .popUnwrap) (h : x.message = none) :
      Moves id m x a (.failed .panicked) x
  | removed {a : MessagePlace w} {msg : MessageBuffer} (ha : a = .popUnwrap ∨ a = .popStreamed ∨ a = .begin)
      (hm : a = .begin → m = pop) (h : x.message = some msg) : Moves id m x a (.relinquish msg) x.remove.2
  | gone {a : MessagePlace w} {r : MessageReply w} (ha : a = .popStreamed ∨ a = .begin) (hr : r.plain) :
      Moves id m x a (.returned r) x
  | relinquished {msg : MessageBuffer} {a' : MessagePlace w} (ha' : Ended a') :
      Moves id m x (.relinquish msg) a' { x with handedOut := false }
  | given (hm : m = push) (h : x.handedOut = false) : Moves id m x .begin .insert { x with handedOut := true }
  | inserted : Moves id m x .insert .notify x.insertMessage
  | notifies {l : LockRef} (h : x.creationLock = some l) : Moves id m x .notify (.mark l) x
  | unnoticed (h : x.creationLock = none) : Moves id m x .notify (.returned (.pushed id)) x
  | marked {l : LockRef} : Moves id m x (.mark l) (.returned (.pushed id)) (x.markCreated l)
  | terminated {msg : MessageBuffer} {a' : MessagePlace w} {x' : MessageEntry} (hm : m = terminateMessage)
      (h : x.message = some msg) (ha' : a' = .popStreamed ∨ a' = .returned .unit ∨ ∃ e, a' = .failed e)
      (hx' : Terminated x msg x') : Moves id m x .begin a' x'
  | refused {e : Error w} (hm : m = terminateMessage) : Moves id m x .begin (.failed (.error e)) x
  | dropped {rx : ChanRef} (hm : m = dropReceiver rx) : Moves id m x .begin (.returned .unit) (x.dropReceiver rx)

private theorem Moves.of_ok {y : MessageEntry} (h : (m.advance id a).run x = .ok a' y) (hm : m.Moves id x a a' y) :
    m.Moves id x a (m.next id a x).1 (m.next id a x).2 := by
  simpa only [next, h] using hm

private theorem Moves.of_error {e : Error w} (h : (m.advance id a).run x = .error (.error e) x)
    (hm : m.Moves id x a (.failed (.error e)) x) : m.Moves id x a (m.next id a x).1 (m.next id a x).2 := by
  simpa only [next, h] using hm

private theorem Moves.of_panicked {y : MessageEntry} (h : (m.advance id a).run x = .error .panicked y)
    (hm : m.Moves id x a (.failed .panicked) y) : m.Moves id x a (m.next id a x).1 (m.next id a x).2 := by
  simpa only [next, h] using hm

private theorem Moves.of_blocked (h : (m.advance id a).run x = .error .blocked x) :
    m.Moves id x a (m.next id a x).1 (m.next id a x).2 := by
  simp only [next, h]
  exact .stays

private theorem markComplete_terminated (h : x.message = some msg) :
    Terminated x msg (x.markComplete msg.completeLock) :=
  ⟨⟨msg, h, rfl, rfl⟩, rfl, rfl, rfl, rfl, rfl⟩

private theorem sendLast_terminated {ch : ChanRef} {chunk : List UInt8} (hs : msg.sender.isSome) :
    Terminated x msg ((x.markComplete msg.completeLock).sendLast msg ch chunk) := by
  unfold MessageEntry.sendLast
  split
  · exact ⟨⟨_, rfl, rfl, rfl⟩, rfl, rfl, rfl, rfl, rfl⟩
  · exact ⟨⟨_, rfl, rfl, hs.symm⟩, rfl, rfl, rfl, rfl, rfl⟩

private theorem terminate_moves (hm : m = terminateMessage) (ha : a = .begin) :
    m.Moves id x a (m.next id a x).1 (m.next id a x).2 := by
  subst hm ha
  cases h : x.message with
  | none => exact .of_error (e := .outOfBounds id) (by simp [advance, terminate, h]) (.refused rfl)
  | some msg =>
    by_cases hl : x.locks msg.completeLock = .complete
    · exact .of_error (e := .alreadyCompleted id) (by simp [advance, terminate, h, hl]) (.refused rfl)
    · cases hs : msg.sender with
      | none =>
        refine .of_ok (y := x.markComplete msg.completeLock) ?_
          (.terminated rfl h (.inr (.inl rfl)) (markComplete_terminated h))
        simp [advance, terminate, h, hl, hs]
      | some sender =>
        cases hc : msg.chunks.getLast? with
        | none =>
          refine .of_panicked (y := x.markComplete msg.completeLock) ?_
            (.terminated rfl h (.inr (.inr ⟨_, rfl⟩)) (markComplete_terminated h))
          simp [advance, terminate, h, hl, hs, hc]
        | some chunk =>
          cases sender with
          | none =>
            refine .of_panicked (y := x.markComplete msg.completeLock) ?_
              (.terminated rfl h (.inr (.inr ⟨_, rfl⟩)) (markComplete_terminated h))
            simp [advance, terminate, h, hl, hs, hc]
          | some ch =>
            have hx' : Terminated x msg ((x.markComplete msg.completeLock).sendLast msg ch chunk) :=
              sendLast_terminated (by rw [hs]; rfl)
            by_cases hr : (x.chans ch).receiverAlive
            · refine .of_ok ?_ (.terminated rfl h (.inl rfl) hx')
              simp [advance, terminate, h, hl, hs, hc, hr]
            · refine .of_ok ?_ (.terminated rfl h (.inr (.inl rfl)) hx')
              simp [advance, terminate, h, hl, hs, hc, hr]

theorem remove_some (h : x.message = some msg) : x.remove.1 = some msg := by
  simp [MessageEntry.remove, h]

theorem remove_snd (h : x.message = some msg) :
    x.remove.2 = { x with message := none, chans := Interface.closeSender x.chans msg.sender } := by
  simp [MessageEntry.remove, h]

theorem remove_none (h : x.message = none) : x.remove = (none, x) := by
  simp [MessageEntry.remove, h]

private theorem checkCreation_moves (ha : a = .begin ∨ a = .checkCreation) (hm : a = .begin → m = getChunkStream) :
    m.Moves id x a (m.next id a x).1 (m.next id a x).2 := by
  have hadv : m.advance id a = checkCreation := by
    rcases ha with rfl | rfl
    · rw [hm rfl]; rfl
    · rfl
  cases h : x.message with
  | none => exact .of_ok (by simp [hadv, checkCreation, h]) (.absent ha hm h)
  | some msg => exact .of_ok (by simp [hadv, checkCreation, h]) (.present ha hm (by rw [h]; rfl))

private theorem wait_moves (hm : m.waits) (ha : a = .begin) : m.Moves id x a (m.next id a x).1 (m.next id a x).2 := by
  subst ha
  cases h : x.message with
  | none =>
    refine .of_ok ?_ (.missed hm h)
    cases m <;> first | exact absurd hm Bool.false_ne_true | simp [advance, h]
  | some msg =>
    refine .of_ok ?_ (.found hm h)
    cases m <;> first | exact absurd hm Bool.false_ne_true | simp [advance, h]

private theorem useMessage_ended (m : MessageMethod) (msg : MessageBuffer) (x : MessageEntry) :
    (∃ r : MessageReply w, r.plain ∧ (m.useMessage msg).run x = .ok (.returned r) x) ∨
      ∃ e : Error w, (m.useMessage msg : Op (Error w) MessageEntry (MessagePlace w)).run x = .error (.error e) x := by
  cases m with
  | getChunks decodes =>
    by_cases hd : msg.chunks.all decodes
    · exact .inl ⟨_, rfl, by rw [useMessage, if_pos hd]; rfl⟩
    · exact .inr ⟨_, by rw [useMessage, if_neg hd]; rfl⟩
  | _ => exact .inl ⟨_, rfl, rfl⟩

theorem readMessage_cases (m : MessageMethod) (msg : MessageBuffer) :
    (∃ r : MessageReply w, r.plain ∧ m.readMessage msg = .returned r) ∨
      (m.readMessage msg : MessagePlace w) = .popUnwrap := by
  cases m with
  | isChunked | hasStream => exact .inl ⟨_, rfl, rfl⟩
  | getChunks decodes =>
    by_cases hs : msg.sender.isSome
    · exact .inl ⟨_, rfl, if_pos hs⟩
    · exact .inr (if_neg hs)
  | _ => exact .inr rfl

theorem next_moves (id : IpfiInteger w) (m : MessageMethod) (a : MessagePlace w) (x : MessageEntry) :
    m.Moves id x a (m.next id a x).1 (m.next id a x).2 := by
  cases a with
  | begin =>
    cases hm : m with
    | getRaw | getChunks | isChunked | hasStream => exact wait_moves rfl rfl
    | getChunkStream => exact checkCreation_moves (.inl rfl) fun _ => rfl
    | push =>
      cases h : x.handedOut with
      | true => exact .of_blocked (by simp [advance, h])
      | false => exact .of_ok (by simp [advance, h]) (.given rfl h)
    | terminateMessage => exact terminate_moves rfl rfl
    | pop =>
      cases h : x.message with
      | none => exact .of_ok (by simp [advance, remove_none h]; rfl) (.gone (.inr rfl) rfl)
      | some msg => exact .of_ok (by simp [advance, remove_some h]) (.removed (.inr (.inr rfl)) (fun _ => rfl) h)
    | dropReceiver rx => exact .of_ok (by simp [advance]) (.dropped rfl)
  | checkCreation => exact checkCreation_moves (.inr rfl) fun h => by cases h
  | lookUpLock =>
    cases h : x.creationLock with
    | none => exact .of_ok (by simp [advance, h]) (.missedLock h)
    | some l => exact .of_ok (by simp [advance, h]) (.foundLock h)
  | insertLock => exact .of_ok rfl .insertedLock
  | waitCreation l =>
    cases h : x.creationLocks l with
    | incomplete => exact .of_blocked (by simp [advance, h])
    | poisoned => exact .of_error (by simp [advance, h]) (.creationPoisoned h)
    | complete => exact .of_ok (by simp [advance, h]) (.creationDone h)
  | removeLock => exact .of_ok rfl .removedLock
  | created =>
    cases h : x.message with
    | none => exact .of_panicked (by simp [advance, h]) (.lost (.inl rfl) h)
    | some msg =>
      by_cases hm : m = getChunkStream
      · exact .of_ok (by simp [advance, h, hm]) (.attached h hm)
      · refine .of_ok ?_ (.lookedUp h)
        cases m <;> first | exact absurd rfl hm | simp [advance, h]
  | waitCompletion l =>
    cases h : x.locks l with
    | incomplete => exact .of_blocked (by simp [advance, h])
    | poisoned => exact .of_error (by simp [advance, h]) (.completionPoisoned h)
    | complete => exact .of_ok (by simp [advance, h]) (.completionDone h)
  | completed =>
    cases h : x.message with
    | none => exact .of_panicked (by simp [advance, h]) (.lost (.inr (.inl rfl)) h)
    | some msg => exact .of_ok (by simp [advance, h]) (.read h)
  | popUnwrap =>
    cases h : x.message with
    | none => exact .of_panicked (by simp [advance, remove_none h]) (.lost (.inr (.inr rfl)) h)
    | some msg =>
      exact .of_ok (by simp [advance, remove_some h]) (.removed (.inl rfl) (fun h => by cases h) h)
  | popStreamed =>
    cases h : x.message with
    | none => exact .of_ok (by simp [advance, remove_none h]; rfl) (.gone (.inl rfl) rfl)
    | some msg => exact .of_ok (by simp [advance, remove_some h]) (.removed (.inr (.inl rfl)) (fun h => by cases h) h)
  | relinquish msg =>
    rcases useMessage_ended m msg { x with handedOut := false } with ⟨r, hplain, hr⟩ | ⟨e, hr⟩
    · refine .of_ok (y := { x with handedOut := false }) ?_ (.relinquished (.inl ⟨r, hplain, rfl⟩))
      simp only [advance, EStateM.run_bind, EStateM.run_modify, hr]
    · have hmove : m.Moves id x (.relinquish msg) (.failed (.error e)) { x with handedOut := false } :=
        .relinquished (.inr ⟨e, rfl⟩)
      have hrun : (m.advance id (.relinquish msg)).run x = .error (.error e) { x with handedOut := false } := by
        simp only [advance, EStateM.run_bind, EStateM.run_modify, hr]
      simpa only [next, hrun] using hmove
  | insert => exact .of_ok rfl .inserted
  | notify =>
    cases h : x.creationLock with
    | none => exact .of_ok (by simp [advance, h]) (.unnoticed h)
    | some l => exact .of_ok (by simp [advance, h]) (.notifies h)
  | mark l => exact .of_ok rfl .marked
  | returned r => exact .of_ok rfl .stays
  | failed e => exact .of_ok rfl .stays

end MessageMethod

/-- Threads in methods on the message under one identifier. -/
abbrev MessageUsers (ι : Type) (w : IntFeature) : Type := Threads ι MessageEntry (MessagePlace w)

namespace MessageUsers

variable {ι : Type} [DecidableEq ι]

def start (x : MessageEntry) : MessageUsers ι w := ⟨x, fun _ => .begin⟩

def step (id : IpfiInteger w) (methods : ι → MessageMethod) (x : MessageUsers ι w) (t : ι) : MessageUsers ι w :=
  Threads.step (fun t a s => (methods t).next id a s) x t

theorem step_eq (id : IpfiInteger w) (methods : ι → MessageMethod) (x : MessageUsers ι w) (t : ι) :
    ∃ a s, (methods t).Moves id x.shared (x.place t) a s ∧
      x.step id methods t = ⟨s, Function.update x.place t a⟩ :=
  ⟨_, _, (methods t).next_moves id (x.place t) x.shared, rfl⟩

end MessageUsers

end Ipfi
