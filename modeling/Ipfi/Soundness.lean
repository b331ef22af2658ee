import Ipfi.Lib.Triple
import Ipfi.WorldCustody

/-!
# What receiving relies on

Every buffer has a chunk and a lock that was made for it, and only a completed one has lost its sender.  Every operation
keeps this, also where identifiers have run out, and because of it no operation that receiving uses panics.
-/

namespace Ipfi

variable {w : IntFeature}

open EStateM (Meets Within)

/-- What the operations on a buffer rely on. -/
structure MessageBuffer.Sound (locks : LockRef → CompleteLockState) (lockCount : Nat) (m : MessageBuffer) : Prop where
  lock_lt : m.completeLock < lockCount
  chunks_ne : m.chunks ≠ []
  sender_gone : m.sender = some none → locks m.completeLock = .complete

/-- The operation failed with an error of the program, in a state that satisfies `I`. -/
def Fails {σ : Type} (I : σ → Prop) (e : Stop (Error w)) (s : σ) : Prop := I s ∧ ∃ err, e = .error err

/-- The operation keeps `I` and ends with a result or an error. -/
def Safe {σ α : Type} (I : σ → Prop) (x : Op (Error w) σ α) : Prop := Meets I x (fun _ => I) (Fails I)

theorem Safe.state {σ α : Type} {I : σ → Prop} {x : Op (Error w) σ α} (h : Safe I x) {s : σ} (hs : I s) :
    I (x.run s).state :=
  EStateM.Meets.state (h.mono (fun _ => id) (fun _ _ => id) fun _ _ he => he.1) hs

namespace Interface

variable {i i' : Interface w} {id : IpfiInteger w} {m m' : MessageBuffer}

def Sound (i : Interface w) : Prop :=
  ∀ id m, i.messages.lookup id = some m → m.Sound i.locks i.lockCount

theorem new_sound : (new : Interface w).Sound := fun id m h => by simp [new] at h

/-- Buffers stay as they are or are replaced by sound ones, and what is complete remains so. -/
theorem Sound.of (h : i.Sound) (hl : i.lockCount ≤ i'.lockCount)
    (hs : ∀ l < i.lockCount, i.locks l = .complete → i'.locks l = .complete)
    (hm : ∀ id m, i'.messages.lookup id = some m → i.messages.lookup id = some m ∨ m.Sound i'.locks i'.lockCount) :
    i'.Sound := by
  intro id m hlook
  rcases hm id m hlook with hold | hnew
  · have hsound := h id m hold
    exact ⟨hsound.lock_lt.trans_le hl, hsound.chunks_ne, fun hn => hs _ hsound.lock_lt (hsound.sender_gone hn)⟩
  · exact hnew

theorem push_sound (h : i.Sound) : i.push.2.Sound := by
  refine h.of (Nat.le_succ _) (fun l hl hc => (push_locks_of_lt hl).trans hc) fun id m hm => ?_
  rw [lookup_push] at hm
  split at hm
  · cases hm
    exact .inr ⟨Nat.lt_succ_self _, by simp, fun hn => by cases hn⟩
  · exact .inl hm

theorem pop_sound (h : i.Sound) (id : IpfiInteger w) : (i.pop id).2.Sound := by
  refine h.of (by simp) (fun l _ hc => by simpa using hc) fun id' m hm => .inl ?_
  rw [lookup_pop] at hm
  split at hm <;> [cases hm; exact hm]

theorem setMessage_sound (h : i.Sound) (hm : m.Sound i.locks i.lockCount) : (i.setMessage id m).Sound := by
  refine h.of (Nat.le_refl _) (fun l _ hc => hc) fun id' m' hm' => ?_
  rw [lookup_setMessage] at hm'
  split at hm' <;> [(cases hm'; exact .inr hm); exact .inl hm']

theorem markComplete_sound (h : i.Sound) (l : LockRef) : (i.markComplete l).Sound := by
  refine h.of (Nat.le_refl _) (fun l' _ hc => ?_) fun _ _ hm => .inl hm
  simp only [markComplete, Function.update_apply]
  split <;> [rfl; exact hc]

theorem poison_sound (h : i.Sound) (l : LockRef) : (i.poison l).Sound := by
  refine h.of (Nat.le_refl _) (fun l' _ hc => ?_) fun _ _ hm => .inl hm
  simp only [poison]
  split
  · rw [Function.update_of_ne, hc]
    rintro rfl
    simp_all
  · exact hc

theorem getCallBuffer_sound (h : i.Sound) (key : CallKey w) : (i.getCallBuffer key).2.Sound := by
  unfold getCallBuffer
  split
  · exact h
  · exact push_sound h

theorem dropAssociatedCallMessage_sound (h : i.Sound) (key : CallKey w) : (i.dropAssociatedCallMessage key).Sound := by
  unfold dropAssociatedCallMessage
  split
  · exact pop_sound (i := { i with callToBufferMap := i.callToBufferMap.erase key }) h _
  · exact h

theorem foldl_sound {α : Type} {f : Interface w → α → Interface w} (hf : ∀ i a, i.Sound → (f i a).Sound) (as : List α)
    (h : i.Sound) : (as.foldl f i).Sound := by
  induction as generalizing i with
  | nil => exact h
  | cons a as ih => exact ih (hf i a h)

theorem Waited.sound (hw : Waited i i') (h : i.Sound) : i'.Sound := by
  cases hw with
  | waiting locks => exact h
  | taken id m _ _ => exact pop_sound h id
  | streamed id m hm =>
    have hm' := h id m hm
    exact setMessage_sound (i := i.openChan.2) h ⟨hm'.lock_lt, hm'.chunks_ne, fun hn => by simp at hn⟩
  | received ch f => exact h

/-! ### Writing operations -/

/-- What is known once the buffer `m` has been opened for writing. -/
private def Opened (m : MessageBuffer) (i : Interface w) : Prop :=
  i.Sound ∧ m.Sound i.locks i.lockCount ∧ m.sender ≠ some none

private theorem openMessage_meets (id : IpfiInteger w) : Meets Sound (openMessage id) Opened (Fails Sound) := by
  intro i h
  cases hm : i.messages.lookup id with
  | none =>
    rw [show (openMessage id).run i = .error (.error (.outOfBounds id)) i by simp [openMessage, hm]]
    exact ⟨h, _, rfl⟩
  | some m =>
    by_cases hl : i.locks m.completeLock = .complete
    · rw [show (openMessage id).run i = .error (.error (.alreadyCompleted id)) i by simp [openMessage, hm, hl]]
      exact ⟨h, _, rfl⟩
    · rw [openMessage_run hm hl]
      exact ⟨h, h id m hm, fun hn => hl ((h id m hm).sender_gone hn)⟩

private theorem extendLast_meets (m : MessageBuffer) (data : List UInt8) :
    Meets (Opened m) (unwrap (extendLast m.chunks data) : Op (Error w) (Interface w) _)
      (fun chunks i => i.Sound ∧ ({ m with chunks } : MessageBuffer).Sound i.locks i.lockCount) (Fails Sound) :=
  .unwrap fun i ⟨h, hm, _⟩ => by
    obtain ⟨cs, hcs, hne⟩ := exists_extendLast hm.chunks_ne data
    exact ⟨cs, hcs, h, hm.lock_lt, hne, hm.sender_gone⟩

private theorem getLast_meets {m : MessageBuffer} {P : Interface w → Prop} (hP : ∀ i, P i → Opened m i) :
    Meets P (unwrap m.chunks.getLast? : Op (Error w) (Interface w) _) (fun _ => P) (Fails Sound) :=
  .unwrap fun i h => ⟨_, List.getLast?_eq_some_getLast (hP i h).2.1.chunks_ne, h⟩

private theorem sender_meets {m : MessageBuffer} {sender : Option ChanRef} (hs : m.sender = some sender)
    {P : Interface w → Prop} (hP : ∀ i, P i → Opened m i) :
    Meets P (unwrap sender : Op (Error w) (Interface w) _) (fun _ => P) (Fails Sound) := by
  refine .unwrap fun i h => ?_
  cases sender with
  | none => exact absurd hs (hP i h).2.2
  | some ch => exact ⟨ch, rfl, h⟩

theorem sendMany_safe (data : List UInt8) (id : IpfiInteger w) : Safe Sound (sendMany data id) :=
  (openMessage_meets id).bind fun m => (extendLast_meets m data).bind fun _ =>
    .modify fun _ ⟨h, hm⟩ => setMessage_sound h hm

theorem send_safe (datum : Int8) (id : IpfiInteger w) : Safe Sound (send datum id) := by
  refine (openMessage_meets id).bind fun m => .ite (fun _ => ?_) fun _ => ?_
  · exact .bind (Q := fun _ => Sound) (.modify fun i h => markComplete_sound h.1 _) fun _ => .pure fun _ h => h
  · exact (extendLast_meets m _).bind fun chunks =>
      .bind (Q := fun _ => Sound) (.modify fun i ⟨h, hm⟩ => setMessage_sound h hm) fun _ => .pure fun _ h => h

theorem terminateMessage_safe (id : IpfiInteger w) : Safe Sound (terminateMessage id) := by
  refine (openMessage_meets id).bind fun m => ?_
  -- from here on the lock is complete, so the buffer may lose its sender
  refine .bind (Q := fun _ i => Opened m i ∧ i.locks m.completeLock = .complete)
    (.modify fun i ⟨h, hm, hs⟩ => ⟨⟨markComplete_sound h _, ⟨hm.lock_lt, hm.chunks_ne, ?_⟩, hs⟩, ?_⟩) fun _ => ?_
  · exact fun hn => absurd hn hs
  · exact Function.update_self ..
  split
  · exact .pure fun i h => h.1.1
  · refine (getLast_meets fun i h => h.1).bind fun completedChunk => ?_
    refine (sender_meets ‹_› fun i h => h.1).bind fun ch => ?_
    refine .bind (Q := fun _ i => Opened m i ∧ i.locks m.completeLock = .complete) (.modifyGet fun i h => h)
      fun sent => .ite (fun _ => ?_) fun _ => ?_
    · refine .bind (Q := fun _ => Sound) (.modify fun i ⟨⟨h, hm, _⟩, _⟩ => ?_) fun _ =>
        .modify fun i h => pop_sound h id
      exact setMessage_sound h ⟨hm.lock_lt, by simp, hm.sender_gone⟩
    · refine .bind (Q := fun _ => Sound) (.modify fun i ⟨⟨h, hm, _⟩, hl⟩ => ?_) fun _ => .modify fun i h => h
      exact setMessage_sound h ⟨hm.lock_lt, by simp, fun _ => hl⟩

theorem terminateChunk_safe (id : IpfiInteger w) : Safe Sound (terminateChunk id) := by
  have hset : ∀ (m : MessageBuffer) (cs : List (List UInt8)) (i : Interface w), cs ≠ [] → Opened m i →
      (i.setMessage id { m with chunks := cs }).Sound := fun m cs i hne ⟨h, hm, _⟩ =>
    setMessage_sound h ⟨hm.lock_lt, hne, hm.sender_gone⟩
  refine (openMessage_meets id).bind fun m => ?_
  split
  · exact .modify fun i h => hset m _ i (by simp) h
  · refine (getLast_meets fun i h => h).bind fun completedChunk => (sender_meets ‹_› fun i h => h).bind fun ch => ?_
    refine .bind (Q := fun _ => Opened m) (.modifyGet fun i h => h) fun sent => .ite (fun _ => ?_) fun _ => ?_
    · exact .modify fun i h => hset m _ i (by simp) h
    · exact .modify fun i h => hset m _ i (by simp) h

end Interface

/-! ### Serving -/

namespace Site

variable {s t t' : Site w} {checks : Bool}

def Sound (s : Site w) : Prop := s.interface.Sound

theorem onInterface_safe {α : Type} {x : Op (Error w) (Interface w) α} (hx : Safe Interface.Sound x) :
    Safe Sound (onInterface x) :=
  .zoom fun _ h => hx.mono (fun _ hi => hi ▸ h) (fun _ _ h => h) fun _ _ h => h

theorem onWire_modify_safe (f : Wire w → Wire w) : Safe Sound (onWire (modify f) : Op (Error w) (Site w) _) :=
  fun _ h => h

theorem getResponseIdx_safe (p : ProcedureIndex w) (c : CallIndex w) :
    Safe Sound (onWire (Wire.getResponseIdx p c)) := by
  intro s h
  cases ht : s.wire.terminated with
  | true =>
    rw [show (onWire (Wire.getResponseIdx p c)).run s = .error (.error .wireTerminated) s by
      simp [onWire, Wire.getResponseIdx, ht]]
    exact ⟨h, _, rfl⟩
  | false =>
    cases hr : s.wire.responseIdxMap.lookup (p, c) with
    | none =>
      rw [show (onWire (Wire.getResponseIdx p c)).run s = .error (.error (.noResponseBuffer p.idx c.idx)) s by
        simp [onWire, Wire.getResponseIdx, ht, hr]]
      exact ⟨h, _, rfl⟩
    | some b =>
      rw [show (onWire (Wire.getResponseIdx p c)).run s = .ok b s by simp [onWire, Wire.getResponseIdx, ht, hr]]
      exact h

theorem callProcedure_safe (p : ProcedureIndex w) (c : CallIndex w) (id : WireId w)
    (yielder : Nat → Payload → Terminator → Op (Error w) (Wire w) Unit) :
    Safe Sound (callProcedure p c id yielder) := by
  have hpop (b : IpfiInteger w) : Safe Sound (onInterface (modify fun i => (i.pop b).2) : Op (Error w) (Site w) _) :=
    onInterface_safe (.modify fun i h => Interface.pop_sound h b)
  refine (onInterface_safe (.modifyGet fun i h => Interface.getCallBuffer_sound h _)).bind fun b => ?_
  refine (onInterface_safe (.modify fun i h => by exact h)).bind fun _ => ?_
  refine .bind (Q := fun _ => Sound) (.get fun s h => h) fun s => ?_
  split
  · exact .throw fun s h => ⟨h, _, rfl⟩
  · refine .bind (Q := fun a s => a = s ∧ s.Sound) (.get fun s h => ⟨rfl, h⟩) fun s => ?_
    split
    · exact .throw fun s h => ⟨h.2, _, rfl⟩
    · rename_i message hm
      refine .bind (Q := fun _ s => s.Sound ∧ message.chunks ≠ [])
        (.get fun s h => ⟨h.2, (h.2 b message (h.1 ▸ hm)).chunks_ne⟩) fun s => ?_
      split
      · exact .throw fun s h => ⟨h.1, _, rfl⟩
      · exact .throw fun s h => ⟨h.1, _, rfl⟩
      · refine .bind (Q := fun _ => Sound) (.unwrap fun s h => ⟨_, List.head?_eq_some_head h.2, h.1⟩) fun args => ?_
        split
        · refine (onWire_modify_safe _).bind fun _ => (hpop b).bind fun _ => ?_
          split
          · exact .pure fun s h => h
          · exact .throw fun s h => ⟨h, _, rfl⟩
        · refine .bind (Q := fun _ => Sound) (.get fun s h => h) fun s => (onWire_modify_safe _).bind fun _ => ?_
          refine (onWire_modify_safe _).bind fun _ => ?_
          split
          · exact (hpop b).bind fun _ => .pure fun s h => h
          · exact (onWire_modify_safe _).bind fun _ => .throw fun s h => ⟨h, _, rfl⟩

theorem receiveCall_safe (p : ProcedureIndex w) (c : CallIndex w) (t : Terminator) (bytes : List UInt8) :
    Safe Sound (receiveCall p c t bytes) := by
  refine .bind (Q := fun _ => Sound) (.get fun s h => h) fun s => .ite (fun _ => .pure fun s h => h) fun _ => ?_
  refine (onInterface_safe (.modifyGet fun i h => Interface.getCallBuffer_sound h _)).bind fun b => ?_
  refine (onWire_modify_safe _).bind fun _ => (onInterface_safe (Interface.sendMany_safe bytes b)).bind fun _ => ?_
  refine .ite (fun _ => ?_) fun _ => .pure fun s h => h
  refine (onInterface_safe (Interface.terminateMessage_safe b)).bind fun _ =>
    .bind (Q := fun _ => Sound) (.get fun s h => h) fun s => (callProcedure_safe p c _ _).bind fun ret => ?_
  split
  · exact (onWire_modify_safe _).bind fun _ => (onWire_modify_safe _).bind fun _ => .pure fun s h => h
  · exact .bind (Q := fun _ => Sound) (.pure fun s h => h) fun _ => .pure fun s h => h

theorem receiveResponse_safe (p : ProcedureIndex w) (c : CallIndex w) (t : Terminator) (bytes : List UInt8) :
    Safe Sound (receiveResponse p c t bytes) := by
  refine (getResponseIdx_safe p c).bind fun b => (onInterface_safe (Interface.sendMany_safe bytes b)).bind fun _ => ?_
  split
  · exact (onInterface_safe (Interface.terminateMessage_safe b)).bind fun _ =>
      (onWire_modify_safe _).bind fun _ => .pure fun s h => h
  · exact (onInterface_safe (Interface.terminateChunk_safe b)).bind fun _ => .pure fun s h => h
  · exact .pure fun s h => h

theorem markTerminated_sound (h : s.Sound) : s.markTerminated.Sound :=
  Interface.foldl_sound (fun _ l hi => Interface.poison_sound hi l) _ <|
    Interface.foldl_sound (fun _ _ hi => Interface.dropAssociatedCallMessage_sound hi _) _ h

theorem receive_safe (m : Incoming w) : Safe Sound (receive m) := by
  cases m with
  | call p c t bytes => exact receiveCall_safe p c t bytes
  | response p c t bytes => exact receiveResponse_safe p c t bytes
  | endOfInput => exact .pure fun s h => h
  | termination =>
    exact .bind (Q := fun _ => Sound) (.modify fun s h => markTerminated_sound h) fun _ => .pure fun s h => h
  | ignored => exact .pure fun s h => h

end Site

/-! ### Methods of the interface -/

namespace Interface

variable {i : Interface w}

/-- The public methods of an interface and of chunk receivers that local code may call at any time. -/
inductive Method (w : IntFeature)
  | push
  | send (datum : Int8) (id : IpfiInteger w)
  | sendMany (data : List UInt8) (id : IpfiInteger w)
  | terminateMessage (id : IpfiInteger w)
  | terminateChunk (id : IpfiInteger w)
  | getRaw (id : IpfiInteger w)
  | get (decodes : List UInt8 → Bool) (id : IpfiInteger w)
  | getChunks (decodes : List UInt8 → Bool) (id : IpfiInteger w)
  | isChunked (id : IpfiInteger w)
  | hasStream (id : IpfiInteger w)
  | getChunkStream (id : IpfiInteger w)
  | recvRaw (r : ChunkReceiver w)
  | dropReceiver (r : ChunkReceiver w)
  | getId
  | relinquishId (id : WireId w)
  | dropAssociatedCallMessage (key : CallKey w)
  /-- A call that no wire has received, with a yielder that goes nowhere. -/
  | callProcedure (p : ProcedureIndex w) (c : CallIndex w) (id : WireId w)

/-- The interface after a method has been called, however it ended. -/
def call (i : Interface w) : Method w → Interface w
  | .push => i.push.2
  | .send datum id => ((Interface.send datum id).run i).state
  | .sendMany data id => ((Interface.sendMany data id).run i).state
  | .terminateMessage id => ((Interface.terminateMessage id).run i).state
  | .terminateChunk id => ((Interface.terminateChunk id).run i).state
  | .getRaw id => ((Interface.getRaw id).run i).state
  | .get decodes id => ((getTyped decodes id).run i).state
  | .getChunks decodes id => ((Interface.getChunks decodes id).run i).state
  | .isChunked id => ((Interface.isChunked id).run i).state
  | .hasStream id => ((Interface.hasStream id).run i).state
  | .getChunkStream id => ((Interface.getChunkStream id).run i).state
  | .recvRaw r => (r.recvRaw.run i).state
  | .dropReceiver r => i.dropReceiver r
  | .getId => i.getId.2
  | .relinquishId id => i.relinquishId id
  | .dropAssociatedCallMessage key => i.dropAssociatedCallMessage key
  | .callProcedure p c id =>
    ((Site.callProcedure p c id fun _ _ _ => pure ()).run ⟨i, .new id false 0⟩).state.interface

/-- A relation along which all methods of an interface move. -/
structure Calls (R : Interface w → Interface w → Prop) : Prop extends Operates R where
  send : ∀ datum id, (Interface.send datum id).Within R
  push : ∀ i, R i i.push.2
  waited : ∀ i i', Waited i i' → R i i'
  getId : ∀ i, R i i.getId.2
  relinquishId : ∀ i id, R i (i.relinquishId id)

theorem Calls.call {R : Interface w → Interface w → Prop} [IsPreorder _ R] (h : Calls R)
    (i : Interface w) (f : Method w) : R i (i.call f) := by
  have hwait : ∀ id, R i ((waitForMessage id).run i).state := fun id => h.waited i _ (waitForMessage_waited i id)
  cases f with
  | push => exact h.push i
  | send datum id => exact h.send datum id i
  | sendMany data id => exact h.sendMany data id i
  | terminateMessage id => exact h.terminateMessage id i
  | terminateChunk id => exact h.terminateChunk id i
  | getRaw id => exact h.waited i _ (getRaw_waited i id)
  | get decodes id => exact h.waited i _ (getTyped_waited decodes i id)
  | getChunks decodes id => exact h.waited i _ (getChunks_waited decodes i id)
  | isChunked id =>
    exact EStateM.state_bind (fun e i' hr => by simpa [hr] using hwait id) fun m i' hr => by simpa [hr] using hwait id
  | hasStream id =>
    exact EStateM.state_bind (fun e i' hr => by simpa [hr] using hwait id) fun m i' hr => by simpa [hr] using hwait id
  | getChunkStream id => exact h.waited i _ (getChunkStream_waited i id)
  | recvRaw r => exact h.waited i _ (recvRaw_waited i r)
  | dropReceiver r => exact h.waited i _ (.received r.rx fun c => { c with receiverAlive := false })
  | getId => exact h.getId i
  | relinquishId id => exact h.relinquishId i id
  | dropAssociatedCallMessage key => exact h.toOperates.dropAssociatedCallMessage i key
  | callProcedure p c id =>
    have hy (e : Nat) (bytes : Payload) (t : Terminator) :
        ((fun _ _ _ => pure () : Nat → Payload → Terminator → Op (Error w) (Wire w) Unit) e bytes t).Within
          (EStateM.Keeps Wire.calling) := .pure _
    exact (Site.callProcedure_within h.toOperates p c id hy ⟨i, .new id false 0⟩).1

def KeepsSound (i i' : Interface w) : Prop := i.Sound → i'.Sound

instance : IsPreorder (Interface w) KeepsSound where
  refl _ h := h
  trans _ _ _ h h' hs := h' (h hs)

theorem sound_calls : Calls (KeepsSound : Interface w → Interface w → Prop) where
  sendMany data id _ := (sendMany_safe data id).state
  terminateMessage id _ := (terminateMessage_safe id).state
  terminateChunk id _ := (terminateChunk_safe id).state
  pop _ id h := pop_sound h id
  getCallBuffer _ key h := getCallBuffer_sound h key
  forget _ _ h := h
  poison _ l h := poison_sound h l
  send datum id _ := (send_safe datum id).state
  push _ h := push_sound h
  waited _ _ hw := hw.sound
  getId _ h := h
  relinquishId _ _ h := h

theorem call_sound (h : i.Sound) (f : Method w) : (i.call f).Sound := sound_calls.call i f h

end Interface

/-! ### Everything that can happen -/

namespace Site

variable {s s' : Site w} {checks : Bool}

theorem endGivenCall_interface (s : Site w) (p : ProcedureIndex w) (c : CallIndex w) :
    ((endGivenCall p c).run s).state.interface = s.interface := by
  have hwire {α : Type} (x : Op (Error w) (Wire w) α) : (onWire x).Within (EStateM.Keeps interface) := fun s => by
    rw [onWire, EStateM.run_zoom, EStateM.Result.state_mapState]
    rfl
  have hhandle : (newCallHandle p c).Within (EStateM.Keeps interface) :=
    (hwire _).bind fun _ => .bind .get fun _ => (Within.unwrap _).bind fun _ => (hwire _).bind fun _ => .pure _
  exact (checkCanCall_within.bind fun _ => (hwire _).bind fun _ => hhandle : (endGivenCall p c).Within _) s

theorem Waits.sound (hw : Waits s s') (h : s.Sound) : s'.Sound := by
  induction hw with
  | start => exact h
  | wait _ hi ih => exact hi.sound ih
  | strike b _ ih => exact ih

theorem Move.sound {calls : Prop} (hm : Move checks calls s s') (h : s.Sound) : s'.Sound := by
  cases hm with
  | startCall p args _ =>
    rcases startCallWithPartialBytes_cases checks s p args with ⟨-, hr⟩ | ⟨e, hr⟩ <;> rw [hr]
    · exact Interface.push_sound h
    · exact h
  | continueCall p c args =>
    rcases continueGivenCallWithBytes_cases s p c args with hr | ⟨e, hr⟩ <;> rw [hr] <;> exact h
  | endCall p c => exact (congrArg Interface.Sound (endGivenCall_interface s p c)).mpr h
  | callWithBytes p args _ =>
    rcases callWithBytes_cases checks s p args with ⟨-, hr⟩ | ⟨e, hr⟩ <;> rw [hr]
    · exact Interface.push_sound h
    · exact h
  | queue queue => exact h
  | idle => exact h
  | waitBytes hd => exact (waitBytes_waits hd s).sound h
  | wait decodes hd => exact (wait_waits hd decodes s).sound h
  | waitChunks decodes hd => exact (waitChunks_waits hd decodes s).sound h
  | waitChunkStream hd => exact (waitChunkStream_waits hd s).sound h
  | intoResponseIdx hd => exact (intoResponseIdx_waits hd s).sound h
  | recvRaw r => exact (recvRaw_waits r s).sound h

theorem serveStep_sound (h : s.Sound) (a : ServeAction w) : (s.serveStep a).Sound :=
  serveStep_invariant (I := Sound) (fun _ => h) (fun p c t bytes _ => (receiveCall_safe p c t bytes).state h)
    (fun p c t bytes _ => (receiveResponse_safe p c t bytes).state h) (fun _ => markTerminated_sound)
    fun _ _ _ _ _ _ _ _ _ => h

end Site

namespace World

variable {s : World w} {checks : Bool}

/-- An action on the world, or a method of the interface that local code calls itself. -/
def stepAny (checks : Bool) (s : World w) : Action w ⊕ Interface.Method w → World w
  | .inl a => s.step checks a
  | .inr f => { s with interface := s.interface.call f }

theorem step_sound (h : s.interface.Sound) (a : Action w) : (s.step checks a).interface.Sound := by
  have hsite : ∀ {k t}, s.site? k = some t → t.Sound := fun ht => (congrArg Interface.Sound (wire?_of_site? ht).2).mpr h
  have hshape := step_shape checks s a
  generalize s.step checks a = s' at hshape
  cases hshape with
  | addProcedure p procedure => exact h
  | newWire moduleStyle max => exact h
  | cloneWire k hlive => exact h
  | dropWire k t hlive ht =>
    rw [dropWire_eq ht]
    exact Site.markTerminated_sound (hsite ht)
  | dropReceiver n rx handles => exact h
  | handles a handles _ => exact h
  | move a k t t' handles _ ht hm => exact hm.sound (hsite ht)
  | serve a k b t _ ht _ => exact Site.serveStep_sound (hsite ht) b

/-- Whatever wires and local code do, the interface stays sound. -/
theorem sound_of_reaches (h : Reaches (stepAny checks) (fun _ _ => True) .new s) : s.interface.Sound := by
  refine h.invariant (I := fun s => s.interface.Sound) Interface.new_sound fun s a hs _ => ?_
  cases a with
  | inl a => exact step_sound hs a
  | inr f => exact Interface.call_sound hs f

end World

end Ipfi
