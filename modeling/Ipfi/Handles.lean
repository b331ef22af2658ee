import Ipfi.WorldCustody

/-!
# What an action does to the handles

Every action makes a call, ends one, serves a wire, ends a wire, uses a handle, or is quiet: it leaves the messages, the
handles and what the wires track alone.
-/

namespace Ipfi

variable {w : IntFeature}

/-- What a wire knows of the calls it has made. -/
def Wire.tracking (x : Wire w) := (x.terminated, x.responseIdxMap, x.idleCallHandles)

/-- The wire after the handles on a response have been struck. -/
def Wire.struck (x : Wire w) (b : IpfiInteger w) : Wire w := { x with idleCallHandles := x.idleCallHandles.erase b }

namespace Interface

variable {i : Interface w} {id : IpfiInteger w} {m : MessageBuffer}

/-- The interface after a receiver has been made for a message. -/
def streaming (i : Interface w) (id : IpfiInteger w) (m : MessageBuffer) : Interface w :=
  (i.openChan.2.setMessage id { m with sender := some (some i.chanCount) }).dropSender m.sender

theorem waitForMessage_error {e : Stop (Error w)} {i' : Interface w} (hr : (waitForMessage id).run i = .error e i')
    (he : e ≠ .blocked) (hm : i.messages.lookup id = some m) : i.locks m.completeLock = .poisoned := by
  cases hl : i.locks m.completeLock with
  | poisoned => rfl
  | complete =>
    rw [waitForMessage_run hm hl] at hr
    cases hr
  | incomplete =>
    rw [waitForMessage_run_incomplete hm hl] at hr
    cases hr
    exact absurd rfl he

/-- A complete message is taken out before it is decoded. -/
theorem getTyped_cases (decodes : List UInt8 → Bool) (hm : i.messages.lookup id = some m)
    (hl : i.locks m.completeLock = .complete) :
    (∃ chunk, (getTyped decodes id).run i = .ok chunk (i.pop id).2) ∨
      ∃ e, e ≠ .blocked ∧ (getTyped decodes id).run i = .error e (i.pop id).2 := by
  rw [getTyped, EStateM.run_bind_ok (getRaw_run hm hl)]
  cases m.chunks.head? with
  | none => exact .inr ⟨.panicked, by simp, rfl⟩
  | some chunk =>
    simp only [EStateM.run_bind, EStateM.run_unwrap_some]
    split
    · exact .inl ⟨chunk, rfl⟩
    · exact .inr ⟨.error .decode, by simp, rfl⟩

/-- A complete message that has a receiver is left where it is. -/
theorem getChunks_cases (decodes : List UInt8 → Bool) (hm : i.messages.lookup id = some m)
    (hl : i.locks m.completeLock = .complete) :
    m.sender.isSome ∧ (getChunks decodes id).run i = .ok none i ∨
      (∃ chunks, (getChunks decodes id).run i = .ok chunks (i.pop id).2) ∨
        ∃ e, e ≠ .blocked ∧ (getChunks decodes id).run i = .error e (i.pop id).2 := by
  rw [getChunks, EStateM.run_bind_ok (waitForMessage_run hm hl)]
  split
  · exact .inl ⟨‹_›, rfl⟩
  · simp only [EStateM.run_bind, EStateM.run_modifyGet, pop_eq hm, EStateM.run_unwrap_some]
    split
    · exact .inr (.inl ⟨_, rfl⟩)
    · exact .inr (.inr ⟨.error .decode, by simp, rfl⟩)

end Interface

namespace CallHandle

variable {t : Site w}

/-- A handle cannot be waited on any more, and nothing has come of it. -/
def Fails (h : CallHandle w) (t : Site w) (e : Stop (Error w)) (t' : Site w) : Prop :=
  (∃ locks, t' = { t with interface := t.interface.withCreationLocks locks }) ∧ (e ≠ .blocked → ∀ m,
    t.interface.messages.lookup h.responseIdx = some m → t.interface.locks m.completeLock = .poisoned)

/-- The response of the handle is complete, as it stands in the buffer. -/
def Ready (h : CallHandle w) (t : Site w) (m : MessageBuffer) : Prop :=
  t.interface.messages.lookup h.responseIdx = some m ∧ t.interface.locks m.completeLock = .complete

/-- The site after the response of the handle has been taken out. -/
def taken (h : CallHandle w) (t : Site w) : Site w := { t with interface := (t.interface.pop h.responseIdx).2 }

/-- The site after the handle has been struck. -/
def struck (h : CallHandle w) (t : Site w) : Site w := { t with wire := t.wire.struck h.responseIdx }

private theorem onInterface_error {α : Type} {op : Op (Error w) (Interface w) α} {e : Stop (Error w)} {i : Interface w}
    (hr : op.run t.interface = .error e i) : (Site.onInterface op).run t = .error e { t with interface := i } := by
  rw [Site.onInterface, EStateM.run_zoom, hr]
  rfl

theorem onInterface_ok {α : Type} {op : Op (Error w) (Interface w) α} {a : α} {i : Interface w}
    (hr : op.run t.interface = .ok a i) : (Site.onInterface op).run t = .ok a { t with interface := i } := by
  rw [Site.onInterface, EStateM.run_zoom, hr]
  rfl

variable (h : CallHandle w) (decodes : List UInt8 → Bool)

/-- Waiting for the message of the handle, and what then comes of an operation that begins with it. -/
private theorem waitForMessage_outcome (h : CallHandle w) (t : Site w) :
    (∃ m, h.Ready t m ∧ (Interface.waitForMessage h.responseIdx).run t.interface = .ok m t.interface) ∨
      ∃ e i, (Interface.waitForMessage h.responseIdx).run t.interface = .error e i ∧
      h.Fails t e { t with interface := i } := by
  rcases Interface.waitForMessage_cases t.interface h.responseIdx with ⟨m, hm, hl, hr⟩ | ⟨e, locks, hr⟩
  · exact .inl ⟨m, ⟨hm, hl⟩, hr⟩
  · exact .inr ⟨e, _, hr, ⟨locks, rfl⟩, fun he m hm => Interface.waitForMessage_error hr he hm⟩

theorem waitBytes_ready {h : CallHandle w} {m : MessageBuffer} (hr : h.Ready t m) :
    h.waitBytes.run t = .ok m.chunks (h.struck (h.taken t)) := by
  rw [waitBytes, EStateM.run_bind_ok (onInterface_ok (Interface.getRaw_run hr.1 hr.2))]
  rfl

theorem waitBytes_incomplete {h : CallHandle w} {m : MessageBuffer}
    (hm : t.interface.messages.lookup h.responseIdx = some m) (hl : t.interface.locks m.completeLock = .incomplete) :
    h.waitBytes.run t = .error .blocked t := by
  rw [waitBytes, EStateM.run_bind_error]
  apply onInterface_error
  rw [Interface.getRaw, EStateM.run_bind_error (Interface.waitForMessage_run_incomplete hm hl)]

theorem waitBytes_cases (t : Site w) :
    (∃ m, h.Ready t m ∧ h.waitBytes.run t = .ok m.chunks (h.struck (h.taken t))) ∨
      ∃ e t', h.waitBytes.run t = .error e t' ∧ h.Fails t e t' := by
  rcases waitForMessage_outcome h t with ⟨m, hm, -⟩ | ⟨e, i, hr, hf⟩
  · exact .inl ⟨m, hm, waitBytes_ready hm⟩
  · refine .inr ⟨e, _, ?_, hf⟩
    rw [waitBytes, EStateM.run_bind_error]
    exact onInterface_error (by rw [Interface.getRaw, EStateM.run_bind_error hr])

/-- The handle is struck only where decoding succeeds. -/
theorem wait_cases (t : Site w) :
    (∃ m, h.Ready t m ∧ ((∃ chunk, (wait decodes h).run t = .ok chunk (h.struck (h.taken t))) ∨
      ∃ e, e ≠ .blocked ∧ (wait decodes h).run t = .error e (h.taken t))) ∨
    ∃ e t', (wait decodes h).run t = .error e t' ∧ h.Fails t e t' := by
  rcases waitForMessage_outcome h t with ⟨m, hm, -⟩ | ⟨e, i, hr, hf⟩
  · refine .inl ⟨m, hm, ?_⟩
    rcases Interface.getTyped_cases decodes hm.1 hm.2 with ⟨chunk, hr⟩ | ⟨e, he, hr⟩
    · exact .inl ⟨chunk, by rw [wait, EStateM.run_bind_ok (onInterface_ok hr)]; rfl⟩
    · exact .inr ⟨e, he, by rw [wait, EStateM.run_bind_error (onInterface_error hr)]; rfl⟩
  · refine .inr ⟨e, _, ?_, hf⟩
    rw [wait, EStateM.run_bind_error]
    apply onInterface_error
    rw [Interface.getTyped, EStateM.run_bind_error]
    rw [Interface.getRaw, EStateM.run_bind_error hr]

theorem waitChunks_cases (t : Site w) :
    (∃ m, h.Ready t m ∧ (m.sender.isSome ∧ (waitChunks decodes h).run t = .ok none (h.struck t) ∨
      (∃ chunks, (waitChunks decodes h).run t = .ok chunks (h.struck (h.taken t))) ∨
        ∃ e, e ≠ .blocked ∧ (waitChunks decodes h).run t = .error e (h.taken t))) ∨
    ∃ e t', (waitChunks decodes h).run t = .error e t' ∧ h.Fails t e t' := by
  rcases waitForMessage_outcome h t with ⟨m, hm, -⟩ | ⟨e, i, hr, hf⟩
  · refine .inl ⟨m, hm, ?_⟩
    rcases Interface.getChunks_cases decodes hm.1 hm.2 with ⟨hs, hr⟩ | ⟨chunks, hr⟩ | ⟨e, he, hr⟩
    · exact .inl ⟨hs, by rw [waitChunks, EStateM.run_bind_ok (onInterface_ok hr)]; rfl⟩
    · exact .inr (.inl ⟨chunks, by rw [waitChunks, EStateM.run_bind_ok (onInterface_ok hr)]; rfl⟩)
    · exact .inr (.inr ⟨e, he, by rw [waitChunks, EStateM.run_bind_error (onInterface_error hr)]; rfl⟩)
  · refine .inr ⟨e, _, ?_, hf⟩
    rw [waitChunks, EStateM.run_bind_error]
    exact onInterface_error (by rw [Interface.getChunks, EStateM.run_bind_error hr])

/-! ### Waiting on complete and on poisoned locks -/

variable {h decodes} {m : MessageBuffer}

theorem wait_ready (hr : h.Ready t m) {chunk : List UInt8} (hc : m.chunks.head? = some chunk)
    (hd : decodes chunk = true) : (wait decodes h).run t = .ok chunk (h.struck (h.taken t)) := by
  have htyped : (Interface.getTyped decodes h.responseIdx).run t.interface =
      .ok chunk (t.interface.pop h.responseIdx).2 := by
    rw [Interface.getTyped, EStateM.run_bind_ok (Interface.getRaw_run hr.1 hr.2), hc]
    simp [hd]
  rw [wait, EStateM.run_bind_ok (onInterface_ok htyped)]
  rfl

theorem waitChunks_ready (hr : h.Ready t m) (hs : m.sender = none) (hd : m.chunks.all decodes = true) :
    (waitChunks decodes h).run t = .ok (some m.chunks) (h.struck (h.taken t)) := by
  have hchunks : (Interface.getChunks decodes h.responseIdx).run t.interface =
      .ok (some m.chunks) (t.interface.pop h.responseIdx).2 := by
    rw [Interface.getChunks, EStateM.run_bind_ok (Interface.waitForMessage_run hr.1 hr.2), hs, if_neg (by simp)]
    simp only [EStateM.run_bind, EStateM.run_modifyGet, Interface.pop_eq hr.1, EStateM.run_unwrap_some, hd, if_true]
    rfl
  rw [waitChunks, EStateM.run_bind_ok (onInterface_ok hchunks)]
  rfl

/-- On a poisoned lock every way of waiting fails. -/
theorem wait_poisoned (hm : t.interface.messages.lookup h.responseIdx = some m)
    (hl : t.interface.locks m.completeLock = .poisoned) (decodes : List UInt8 → Bool) :
    h.waitBytes.run t = .error (.error (.lockPoisoned h.responseIdx)) t ∧
      (wait decodes h).run t = .error (.error (.lockPoisoned h.responseIdx)) t ∧
      (waitChunks decodes h).run t = .error (.error (.lockPoisoned h.responseIdx)) t := by
  have hr := Interface.waitForMessage_run_poisoned hm hl
  have hraw : (Interface.getRaw h.responseIdx).run t.interface =
      .error (.error (.lockPoisoned h.responseIdx)) t.interface := by
    rw [Interface.getRaw, EStateM.run_bind_error hr]
  refine ⟨?_, ?_, ?_⟩
  · rw [waitBytes, EStateM.run_bind_error (onInterface_error hraw)]
  · rw [wait, EStateM.run_bind_error (onInterface_error (i := t.interface) ?_)]
    rw [Interface.getTyped, EStateM.run_bind_error hraw]
  · rw [waitChunks, EStateM.run_bind_error (onInterface_error (i := t.interface) ?_)]
    rw [Interface.getChunks, EStateM.run_bind_error hr]

variable (h)

/-- The handle on what a receiver yields. -/
def receiver (h : CallHandle w) (t : Site w) (m : MessageBuffer) : ChunkReceiverHandle w where
  rx := { rx := t.interface.chanCount, completeLock := m.completeLock, messageId := h.responseIdx }
  responseIdx := h.responseIdx

theorem waitChunkStream_cases (t : Site w) :
    (∃ m, t.interface.messages.lookup h.responseIdx = some m ∧
      h.waitChunkStream.run t =
        .ok (h.receiver t m) { t with interface := t.interface.streaming h.responseIdx m }) ∨
      ∃ e t', h.waitChunkStream.run t = .error e t' ∧ h.Fails t e t' := by
  cases hm : t.interface.messages.lookup h.responseIdx with
  | some m =>
    refine .inl ⟨m, rfl, ?_⟩
    rw [waitChunkStream, EStateM.run_bind_ok (onInterface_ok (Interface.getChunkStream_run hm))]
    rfl
  | none =>
    obtain ⟨e, locks, hr⟩ := Interface.getChunkStream_absent hm
    refine .inr ⟨e, _, ?_, ⟨locks, rfl⟩, fun _ m hm' => by rw [hm] at hm'; cases hm'⟩
    rw [waitChunkStream, EStateM.run_bind_error (onInterface_error hr)]

end CallHandle

namespace ChunkReceiverHandle

/-- The receiver has come to its end. -/
structure Ended (r : ChunkReceiverHandle w) (i : Interface w) : Prop where
  empty : (i.chans r.rx.rx).queue = []
  closed : (i.chans r.rx.rx).senderAlive = false
  sane : i.locks r.rx.completeLock ≠ .poisoned

/-- The site after the first chunk has been taken off the channel, if there is one. -/
def received (r : ChunkReceiverHandle w) (t : Site w) : Site w :=
  { t with interface := t.interface.updateChan r.rx.rx fun c => { c with queue := c.queue.tail } }

variable (r : ChunkReceiverHandle w)

theorem recvRaw_cons {bytes : List UInt8} {rest : List (List UInt8)}
    (hq : (t.interface.chans r.rx.rx).queue = bytes :: rest) : r.recvRaw.run t = .ok (some bytes) (r.received t) := by
  by_cases hp : t.interface.locks r.rx.completeLock = .poisoned <;>
    simp [recvRaw, ChunkReceiver.recvRaw, Site.onInterface, Interface.takeChunk, hp, hq, received]

theorem recvRaw_poisoned (hq : (t.interface.chans r.rx.rx).queue = [])
    (hp : t.interface.locks r.rx.completeLock = .poisoned) :
    r.recvRaw.run t = .error (.error (.lockPoisoned r.rx.messageId)) (r.received t) := by
  simp [recvRaw, ChunkReceiver.recvRaw, Site.onInterface, Interface.takeChunk, hp, hq, received]

theorem recvRaw_ended (h : r.Ended t.interface) :
    r.recvRaw.run t = .ok none { r.received t with wire := t.wire.struck r.responseIdx } := by
  simp [recvRaw, ChunkReceiver.recvRaw, Site.onInterface, Interface.takeChunk, h.sane, h.empty, h.closed, received,
    CallHandle.strike, Site.onWire, Wire.struck]

theorem recvRaw_cases (t : Site w) :
    r.Ended t.interface ∧ r.recvRaw.run t = .ok none { r.received t with wire := t.wire.struck r.responseIdx } ∨
    (∃ bytes rest, (t.interface.chans r.rx.rx).queue = bytes :: rest ∧ r.recvRaw.run t = .ok
      (some bytes) (r.received t)) ∨
    (t.interface.chans r.rx.rx).queue = [] ∧ ∃ e, r.recvRaw.run t = .error e (r.received t) := by
  cases hq : (t.interface.chans r.rx.rx).queue with
  | cons bytes rest => exact .inr (.inl ⟨bytes, rest, rfl, recvRaw_cons r hq⟩)
  | nil =>
    by_cases hp : t.interface.locks r.rx.completeLock = .poisoned
    · exact .inr (.inr ⟨rfl, _, recvRaw_poisoned r hq hp⟩)
    · cases ha : (t.interface.chans r.rx.rx).senderAlive with
      | true => exact .inr (.inr ⟨rfl, .blocked, by
          simp [recvRaw, ChunkReceiver.recvRaw, Site.onInterface, Interface.takeChunk, hp, hq, ha, received]⟩)
      | false => exact .inl ⟨⟨hq, ha, hp⟩, recvRaw_ended r ⟨hq, ha, hp⟩⟩

end ChunkReceiverHandle

/-- The handle whose response an action is to take out. -/
def Action.takes? : Action w → Option Nat
  | .waitBytes n | .wait n _ | .waitChunks n _ => some n
  | _ => none

namespace World

variable {s s' : World w} {held : Nat → LockRef → Prop} {checks : Bool}

/-- The world after an operation on the wire `k` that uses up the handle at `n`. -/
def used (s : World w) (k n : Nat) (t : Site w) (h : Option (Handle w)) : World w := (s.setSite k t).setHandle n h

/-- What becomes of the world when a handle is used. -/
inductive Uses (s : World w) : Action w → World w → Prop
  | waits (a : Action w) (n k : Nat) (h : CallHandle w) (t t' : Site w) : s.handles[n]? = some (some (.call k h)) →
      s.site? k = some t → h.Fails t .blocked t' → Uses s a (s.setSite k t')
  | fails (a : Action w) (n k : Nat) (h : CallHandle w) (t t' : Site w) (e : Stop (Error w)) :
      s.handles[n]? = some (some (.call k h)) → s.site? k = some t → h.Fails t e t' → e ≠ .blocked →
      Uses s a (s.used k n t' none)
  /-- The response is taken out, and the handle is struck unless the response does not decode. -/
  | takes (a : Action w) (n k : Nat) (h : CallHandle w) (t t' : Site w) (m : MessageBuffer) : a.takes? = some n →
      s.handles[n]? = some (some (.call k h)) → s.site? k = some t → h.Ready t m →
      t' = h.struck (h.taken t) ∨ t' = h.taken t → Uses s a (s.used k n t' none)
  | leaves (n : Nat) (decodes : List UInt8 → Bool) (k : Nat) (h : CallHandle w) (t : Site w) (m : MessageBuffer) :
      s.handles[n]? = some (some (.call k h)) → s.site? k = some t → h.Ready t m → m.sender.isSome →
      Uses s (.waitChunks n decodes) (s.used k n (h.struck t) none)
  | streams (n k : Nat) (h : CallHandle w) (t : Site w) (m : MessageBuffer) : s.handles[n]? = some (some (.call k h)) →
      s.site? k = some t → t.interface.messages.lookup h.responseIdx = some m →
      Uses s (.waitChunkStream n) (s.used k n { t with interface := t.interface.streaming h.responseIdx m }
        (some (.chunks k (h.receiver t m))))
  | gives (n k : Nat) (h : CallHandle w) (t : Site w) : s.handles[n]? = some (some (.call k h)) → s.site? k = some t →
      Uses s (.intoResponseIdx n) (s.used k n (h.struck t) none)
  | receives (n k : Nat) (r : ChunkReceiverHandle w) (t : Site w) : s.handles[n]? = some (some (.chunks k r)) →
      s.site? k = some t → Uses s (.recvRaw n) (s.setSite k (r.received t))
  | finishes (n k : Nat) (r : ChunkReceiverHandle w) (t : Site w) : s.handles[n]? = some (some (.chunks k r)) →
      s.site? k = some t → r.Ended t.interface →
      Uses s (.recvRaw n) (s.setSite k { r.received t with wire := t.wire.struck r.responseIdx })
  | drops (n k : Nat) (h : CallHandle w) : s.handles[n]? = some (some (.call k h)) →
      Uses s (.dropHandle n) (s.setHandle n none)
  | closes (n k : Nat) (r : ChunkReceiverHandle w) : s.handles[n]? = some (some (.chunks k r)) →
      Uses s (.dropHandle n) ({ s with interface := s.interface.dropReceiver r.rx }.setHandle n none)

/-- The messages, the handles and what the wires track are left alone. -/
structure Quiet (s s' : World w) : Prop where
  messages : s'.interface.messages = s.interface.messages
  queue : s'.interface.messageIdQueue = s.interface.messageIdQueue
  locks : s'.interface.locks = s.interface.locks
  lockCount : s'.interface.lockCount = s.interface.lockCount
  chans : s'.interface.chans = s.interface.chans
  chanCount : s'.interface.chanCount = s.interface.chanCount
  handles : s'.handles = s.handles
  wires : ∀ {k x}, s.wire? k = some x → ∃ x', s'.wire? k = some x' ∧ x'.tracking = x.tracking

inductive Happens (s : World w) : Action w → World w → Prop
  | quiet (a : Action w) (s' : World w) : Quiet s s' → Happens s a s'
  | starts (k : Nat) (p : ProcedureIndex w) (args : Payload) (t : Site w) : s.site? k = some t →
      t.CanCall → Happens s (.startCall k p args) (s.setSite k (t.started p args))
  | calls (k : Nat) (p : ProcedureIndex w) (args : Payload) (t : Site w) : s.site? k = some t →
      t.CanCall → Happens s (.callWithBytes k p args) ((s.setSite k (t.called p args)).addHandle
        (.call k ⟨t.interface.push.1, t.interface.lockCount⟩))
  | ends (k : Nat) (p : ProcedureIndex w) (c : CallIndex w) (t : Site w) (b : IpfiInteger w) (m : MessageBuffer) :
    s.site? k = some t → t.Awaits p c b → t.interface.messages.lookup b = some m → Happens s (.endCall k p c)
    ((s.setSite k ((t.queued (.call p c .complete .empty)).handled b m.completeLock)).addHandle
    (.call k ⟨b, m.completeLock⟩))
  | serves (a : Action w) (k : Nat) (b : Site.ServeAction w) (t : Site w) : a.serve? = some (k, b) →
      s.site? k = some t → s.incoming? a = (b.message? t).map (fun m => (k, m)) →
      Happens s a (s.setSite k (t.serveStep b))
  | drops (k : Nat) (t : Site w) : s.site? k = some t → Happens s (.dropWire k) (s.dropWire k)
  | uses (a : Action w) (s' : World w) : Uses s a s' → Happens s a s'

theorem Quiet.rfl : Quiet s s :=
  ⟨Eq.refl _, Eq.refl _, Eq.refl _, Eq.refl _, Eq.refl _, Eq.refl _, Eq.refl _, fun hx => ⟨_, hx, Eq.refl _⟩⟩

theorem Quiet.setSite {k : Nat} {t t' : Site w} (ht : s.site? k = some t) (hi : t'.interface = t.interface)
    (hw : t'.wire.tracking = t.wire.tracking) : Quiet s (s.setSite k t') := by
  have hi' : (s.setSite k t').interface = s.interface := hi.trans (wire?_of_site? ht).2
  refine ⟨by rw [hi'], by rw [hi'], by rw [hi'], by rw [hi'], by rw [hi'], by rw [hi'], Eq.refl _, fun {j x} hx => ?_⟩
  by_cases hjk : j = k
  · subst hjk
    obtain rfl := Option.some.inj (hx.symm.trans (wire?_of_site? ht).1)
    exact ⟨_, wire?_setSite_self ht t', hw⟩
  · exact ⟨x, (wire?_setSite_ne s t' hjk).trans hx, Eq.refl _⟩

theorem Quiet.added (s : World w) (moduleStyle : Bool) (max : IpfiInteger w) : Quiet s (s.added moduleStyle max) := by
  refine ⟨Eq.refl _, Eq.refl _, Eq.refl _, Eq.refl _, Eq.refl _, Eq.refl _, Eq.refl _,
    fun {k x} hx => ⟨x, ?_, Eq.refl _⟩⟩
  rw [wire?_added, if_neg]
  · exact hx
  · rintro rfl
    simp [wire?] at hx

theorem Quiet.setClones (s : World w) (k : Nat) (f : Nat → Nat) : Quiet s (s.setClones k f) :=
  ⟨Eq.refl _, Eq.refl _, Eq.refl _, Eq.refl _, Eq.refl _, Eq.refl _, Eq.refl _,
    fun hx => ⟨_, (wire?_setClones s k f _).trans hx, Eq.refl _⟩⟩

/-! ### Actions on a wire -/

theorem onSite_ok {α : Type} {k : Nat} {t t' : Site w} {op : Op (Error w) (Site w) α} {a : α}
    (ht : s.site? k = some t) (hr : op.run t = .ok a t') (result : α → World w → World w) :
    s.onSite k op result = result a (s.setSite k t') := by
  simp only [onSite, ht, hr]

theorem onSite_error {α : Type} {k : Nat} {t t' : Site w} {op : Op (Error w) (Site w) α} {e : Stop (Error w)}
    (ht : s.site? k = some t) (hr : op.run t = .error e t') (result : α → World w → World w) :
    s.onSite k op result = s.setSite k t' := by
  simp only [onSite, ht, hr]

theorem onSite_none {α : Type} {k : Nat} {op : Op (Error w) (Site w) α} (ht : s.site? k = none)
    (result : α → World w → World w) : s.onSite k op result = s := by
  simp only [onSite, ht]

/-- An operation that at most puts something on the queue. -/
private theorem onSite_quiet {α : Type} (k : Nat) (op : Op (Error w) (Site w) α)
    (hop : ∀ t, (op.run t).state.interface = t.interface ∧ (op.run t).state.wire.tracking = t.wire.tracking) :
    Quiet s (s.onSite k op fun _ s => s) := by
  rw [onSite_state]
  cases ht : s.site? k with
  | none => exact .rfl
  | some t => exact .setSite ht (hop t).1 (hop t).2

private theorem onSite_serves (k : Nat) (b : Site.ServeAction w) (op : Op (Error w) (Site w) (Option Bool))
    (a : Action w) (ha : a.serve? = some (k, b)) (hlive : s.isLive k = true)
    (hstate : ∀ t, (op.run t).state = t.serveStep b) :
    Happens s a (s.onSite k op fun _ s => s) := by
  rw [onSite_state]
  cases ht : s.site? k with
  | none => exact .quiet _ _ .rfl
  | some t =>
    show Happens s a (s.setSite k _)
    rw [hstate]
    exact .serves a k b t ha ht (by simp [incoming?, ha, hlive, ht])

private theorem stepWire_happens (h : s.InCustody held) {a : Action w} (hlive : a.wire?.any s.isLive = true) :
    Happens s a (s.stepWire checks a) := by
  cases a with
  | cloneWire k => exact .quiet _ _ (.setClones s k _)
  | dropWire k =>
    cases ht : s.site? k with
    | none =>
      have hdrop : s.dropWire k = s := by unfold dropWire; rw [ht]
      show Happens s _ (s.dropWire k)
      rw [hdrop]
      exact .quiet _ _ .rfl
    | some t => exact .drops k t ht
  | startCall k p args =>
    show Happens s _ (s.onSite k _ fun _ s => s)
    cases ht : s.site? k with
    | none => rw [onSite_none ht]; exact .quiet _ _ .rfl
    | some t =>
      rcases Site.startCallWithPartialBytes_cases checks t p args with ⟨hc, hr⟩ | ⟨e, hr⟩
      · rw [onSite_ok ht hr]
        exact .starts k p args t ht hc
      · rw [onSite_error ht hr]
        exact .quiet _ _ (.setSite ht rfl rfl)
  | continueCall k p c args =>
    refine .quiet _ _ (onSite_quiet k _ fun t => ?_)
    rcases Site.continueGivenCallWithBytes_cases t p c args with hr | ⟨e, hr⟩ <;> rw [hr] <;> exact ⟨rfl, rfl⟩
  | endCall k p c =>
    show Happens s _ (s.onSite k _ fun h s => s.addHandle (.call k h))
    cases ht : s.site? k with
    | none => rw [onSite_none ht]; exact .quiet _ _ .rfl
    | some t =>
      rcases Site.endGivenCall_cases (h.site ht) p c with ⟨b, m, -, ha, hm, hr⟩ | ⟨e, t', hr, rfl | rfl⟩
      · rw [onSite_ok ht hr]
        exact .ends k p c t b m ht ha hm
      · rw [onSite_error ht hr]
        exact .quiet _ _ (.setSite ht rfl rfl)
      · rw [onSite_error ht hr]
        exact .quiet _ _ (.setSite ht rfl rfl)
  | callWithBytes k p args =>
    show Happens s _ (s.onSite k _ fun h s => s.addHandle (.call k h))
    cases ht : s.site? k with
    | none => rw [onSite_none ht]; exact .quiet _ _ .rfl
    | some t =>
      rcases Site.callWithBytes_cases checks t p args with ⟨hc, hr⟩ | ⟨e, hr⟩
      · rw [onSite_ok ht hr]
        exact .calls k p args t ht hc
      · rw [onSite_error ht hr]
        exact .quiet _ _ (.setSite ht rfl rfl)
  | signalEndOfInput k =>
    refine .quiet _ _ (onSite_quiet k _ fun t => ?_)
    cases ht : t.wire.terminated <;>
      simp [Site.onWire, Wire.signalEndOfInput, ht, Wire.pushMessage, Wire.tracking]
  | signalTermination k =>
    exact .quiet _ _ (onSite_quiet k (Site.onWire (modify Wire.signalTermination)) fun t => ⟨rfl, rfl⟩)
  | flush k =>
    refine .quiet _ _ (onSite_quiet k _ fun t => ?_)
    rw [Site.onWire, EStateM.run_zoom, EStateM.Result.state_mapState, flushToSink_state]
    split <;> exact ⟨rfl, rfl⟩
  | receiveOne k reader =>
    exact onSite_serves k (.receiveOne reader) _ _ rfl hlive fun t => receiveOneFrom_state t reader
  | fillStep k reader => exact onSite_serves k (.fillStep reader) _ _ rfl hlive fun t => fillStepFrom_state t reader
  | _ => exact .quiet _ _ .rfl

/-! ### Actions on a handle -/

/-- A handle is waited on for as long as its operation blocks, and is used up then. -/
private theorem consume_uses {α : Type} (n : Nat) (op : CallHandle w → Op (Error w) (Site w) α) (a : Action w)
    (result : Nat → α → Option (Handle w))
    (hop : ∀ k h t, s.handles[n]? = some (some (.call k h)) → s.site? k = some t →
      (∃ r t', (op h).run t = .ok r t' ∧ Uses s a (s.used k n t' (result k r))) ∨
      (∃ e t', e ≠ .blocked ∧ (op h).run t = .error e t' ∧ Uses s a (s.used k n t' none)) ∨
      ∃ e t', (op h).run t = .error e t' ∧ h.Fails t e t') : Happens s a (s.consume n op result) := by
  unfold consume
  split
  · rename_i k h hn
    split
    · exact .quiet _ _ .rfl
    · rename_i t ht
      rcases hop k h t hn ht with ⟨r, t', hr, hu⟩ | ⟨e, t', he, hr, hu⟩ | ⟨e, t', hr, hf⟩
      · rw [hr]
        exact .uses _ _ hu
      · rw [hr]
        cases e with
        | blocked => exact absurd rfl he
        | error e => exact .uses _ _ hu
        | panicked => exact .uses _ _ hu
      · rw [hr]
        cases e with
        | blocked => exact .uses _ _ (.waits a n k h t t' hn ht hf)
        | error e => exact .uses _ _ (.fails a n k h t t' _ hn ht hf (by simp))
        | panicked => exact .uses _ _ (.fails a n k h t t' _ hn ht hf (by simp))
  · exact .quiet _ _ .rfl

/-- What an action does to the handles, and to what they and the wires track. -/
theorem InCustody.happens (h : s.InCustody held) (a : Action w) : Happens s a (s.step checks a) := by
  cases a with
  | addProcedure p procedure =>
    exact .quiet _ _ ⟨rfl, rfl, rfl, rfl, rfl, rfl, rfl, fun hx => ⟨_, hx, rfl⟩⟩
  | newWire moduleStyle max => exact .quiet _ _ (.added s moduleStyle max)
  | «yield» k e bytes tm =>
    simp only [World.step]
    split
    · rename_i p c args fin hex
      rw [onSite_state]
      cases ht : s.site? k with
      | none => exact .quiet _ _ .rfl
      | some t =>
        have hw := Site.yielder_calling p c e bytes tm t.wire
        refine .quiet _ _ (.setSite ht ?_ ?_)
        · rw [Site.onWire, EStateM.run_zoom, EStateM.Result.state_mapState]
        · rw [Site.onWire, EStateM.run_zoom, EStateM.Result.state_mapState]
          exact congrArg (fun y => (y.1.2.1, y.2, y.1.2.2.2)) hw
    · exact .quiet _ _ .rfl
  | waitBytes n =>
    refine consume_uses n _ _ _ fun k h t hn ht => ?_
    rcases h.waitBytes_cases t with ⟨m, hm, hr⟩ | hf
    · exact .inl ⟨_, _, hr, .takes _ n k h t _ m rfl hn ht hm (.inl rfl)⟩
    · exact .inr (.inr hf)
  | wait n decodes =>
    refine consume_uses n _ _ _ fun k h t hn ht => ?_
    rcases h.wait_cases decodes t with ⟨m, hm, ⟨r, hr⟩ | ⟨e, he, hr⟩⟩ | hf
    · exact .inl ⟨_, _, hr, .takes _ n k h t _ m rfl hn ht hm (.inl rfl)⟩
    · exact .inr (.inl ⟨e, _, he, hr, .takes _ n k h t _ m rfl hn ht hm (.inr rfl)⟩)
    · exact .inr (.inr hf)
  | waitChunks n decodes =>
    refine consume_uses n _ _ _ fun k h t hn ht => ?_
    rcases h.waitChunks_cases decodes t with ⟨m, hm, ⟨hs, hr⟩ | ⟨r, hr⟩ | ⟨e, he, hr⟩⟩ | hf
    · exact .inl ⟨_, _, hr, .leaves n decodes k h t m hn ht hm hs⟩
    · exact .inl ⟨_, _, hr, .takes _ n k h t _ m rfl hn ht hm (.inl rfl)⟩
    · exact .inr (.inl ⟨e, _, he, hr, .takes _ n k h t _ m rfl hn ht hm (.inr rfl)⟩)
    · exact .inr (.inr hf)
  | waitChunkStream n =>
    refine consume_uses n _ _ _ fun k h t hn ht => ?_
    rcases h.waitChunkStream_cases t with ⟨m, hm, hr⟩ | hf
    · exact .inl ⟨_, _, hr, .streams n k h t m hn ht hm⟩
    · exact .inr (.inr hf)
  | intoResponseIdx n =>
    exact consume_uses n CallHandle.intoResponseIdx _ (fun _ _ => none) fun k h t hn ht =>
      .inl ⟨_, _, rfl, .gives n k h t hn ht⟩
  | recvRaw n =>
    simp only [World.step]
    split
    · rename_i k r hn
      cases ht : s.site? k with
      | none => rw [onSite_none ht]; exact .quiet _ _ .rfl
      | some t =>
        rcases r.recvRaw_cases t with ⟨hend, hr⟩ | ⟨bytes, rest, -, hr⟩ | ⟨-, e, hr⟩
        · rw [onSite_ok ht hr]
          exact .uses _ _ (.finishes n k r t hn ht hend)
        · rw [onSite_ok ht hr]
          exact .uses _ _ (.receives n k r t hn ht)
        · rw [onSite_error ht hr]
          exact .uses _ _ (.receives n k r t hn ht)
    · exact .quiet _ _ .rfl
  | dropHandle n =>
    simp only [World.step]
    split
    · exact .uses _ _ (.closes n _ _ ‹_›)
    · exact .uses _ _ (.drops n _ _ ‹_›)
    · exact .quiet _ _ .rfl
  | _ =>
    show Happens s _ (if _ then s.stepWire checks _ else s)
    split
    · exact stepWire_happens h ‹_›
    · exact .quiet _ _ .rfl

/-! ### What an action does not do -/

/-- A handle that was not there before. -/
inductive Obtains (s : World w) (a : Action w) (s' : World w) (k : Nat) : CallHandle w → Prop
  | calls (p : ProcedureIndex w) (args : Payload) : a = .callWithBytes k p args →
      s.interface.lockCount < s'.interface.lockCount → Obtains s a s' k ⟨s.interface.push.1, s.interface.lockCount⟩
  | ends (t : Site w) (p : ProcedureIndex w) (c : CallIndex w) (b : IpfiInteger w) (m : MessageBuffer) :
      a = .endCall k p c → s.site? k = some t → t.Awaits p c b → t.interface.messages.lookup b = some m →
      Obtains s a s' k ⟨b, m.completeLock⟩

theorem handles_addHandle {g g' : Handle w} {n : Nat} (hn : (s.addHandle g).handles[n]? = some (some g')) :
    s.handles[n]? = some (some g') ∨ n = s.handles.length ∧ g' = g := by
  replace hn : (s.handles ++ [some g])[n]? = some (some g') := hn
  rw [List.getElem?_append] at hn
  split at hn
  · exact .inl hn
  · rw [List.getElem?_singleton] at hn
    split at hn
    · exact .inr ⟨by omega, (Option.some.inj (Option.some.inj hn)).symm⟩
    · cases hn

theorem handles_setHandle {g : Option (Handle w)} {g' : Handle w} {n j : Nat}
    (hj : (s.setHandle n g).handles[j]? = some (some g')) :
    s.handles[j]? = some (some g') ∧ j ≠ n ∨ j = n ∧ g = some g' := by
  replace hj : (s.handles.set n g)[j]? = some (some g') := hj
  rw [List.getElem?_set] at hj
  split at hj
  · split at hj
    · exact .inr ⟨Eq.symm ‹_›, Option.some.inj hj⟩
    · cases hj
  · exact .inl ⟨hj, Ne.symm ‹_›⟩

theorem handles_setHandle_ne (s : World w) (g : Option (Handle w)) {n j : Nat} (hne : j ≠ n) :
    (s.setHandle n g).handles[j]? = s.handles[j]? :=
  List.getElem?_set_ne hne.symm

theorem Happens.handle {a : Action w} (hstep : Happens s a s') {n k : Nat} {h : CallHandle w}
    (hn : s'.handles[n]? = some (some (.call k h))) : s.handles[n]? = some (some (.call k h)) ∨ Obtains s a s' k h := by
  cases hstep with
  | quiet _ _ hq => exact .inl (hq.handles ▸ hn)
  | starts | serves => exact .inl hn
  | drops j t ht =>
    rw [dropWire_eq ht] at hn
    exact .inl hn
  | calls j p args t ht hrun =>
    obtain ⟨hx, hi⟩ := wire?_of_site? ht
    refine (handles_addHandle hn).imp id fun heq => ?_
    replace heq := heq.2
    cases heq
    rw [hi]
    refine .calls p args rfl ?_
    show _ < t.interface.lockCount + 1
    rw [hi]
    exact Nat.lt_succ_self _
  | ends j p c t b m ht ha hm =>
    refine (handles_addHandle hn).imp id fun heq => ?_
    replace heq := heq.2
    cases heq
    exact .ends t p c b m rfl ht ha hm
  | uses _ _ hu =>
    left
    cases hu with
    | waits | receives | finishes => exact hn
    | fails | takes | leaves | streams | gives | drops | closes =>
      rcases handles_setHandle hn with ⟨hn, -⟩ | ⟨-, heq⟩
      · exact hn
      · cases heq

theorem Uses.lockCount {a : Action w} (hu : Uses s a s') : s'.interface.lockCount = s.interface.lockCount := by
  cases hu with
  | waits _ n k h t t' hn ht hf | fails _ n k h t t' e hn ht hf _ =>
    obtain ⟨⟨locks, rfl⟩, -⟩ := hf
    exact (wire?_of_site? ht).2 ▸ rfl
  | takes _ n k h t t' m _ hn ht hm ht' =>
    have hpop := Interface.pop_lockCount t.interface h.responseIdx
    rcases ht' with rfl | rfl <;> exact (wire?_of_site? ht).2 ▸ hpop
  | leaves _ _ k _ t _ _ ht | streams _ k _ t _ _ ht | gives _ k _ t _ ht | receives _ k _ t _ ht
  | finishes _ k _ t _ ht => exact (wire?_of_site? ht).2 ▸ rfl
  | drops | closes => rfl

/-- A step keeps the locks of all messages, and new messages have new locks. -/
structure Ages (i i' : Interface w) : Prop where
  lockCount : i.lockCount ≤ i'.lockCount
  kept : ∀ {b m'}, i'.messages.lookup b = some m' →
    (∃ m, i.messages.lookup b = some m ∧ m.completeLock = m'.completeLock) ∨ i.lockCount ≤ m'.completeLock

theorem Ages.of_eq {i i' : Interface w} (hm : i'.messages = i.messages) (hc : i'.lockCount = i.lockCount) : Ages i i' :=
  ⟨hc.ge, fun hb => .inl ⟨_, hm ▸ hb, rfl⟩⟩

theorem Ages.of_evolves {i i' : Interface w} {touched : IpfiInteger w → Prop} (h : Interface.Evolves i i' touched) :
    Ages i i' :=
  ⟨h.later.lockCount, h.kept⟩

private theorem ages_streaming {i : Interface w} {b : IpfiInteger w} {m : MessageBuffer}
    (hm : i.messages.lookup b = some m) : Ages i (i.streaming b m) :=
  ⟨Nat.le_refl _, fun hb => .inl (Interface.kept_setMessage (i := i.openChan.2) hm
    { m with sender := some (some i.chanCount) } rfl hb)⟩

theorem Happens.ages {a : Action w} (hstep : Happens s a s') (h : s.InCustody held) (hroom : s.RoomFor a) :
    Ages s.interface s'.interface := by
  have hpush (hroom : s.Room) : Ages s.interface s.interface.push.2 :=
    .of_evolves (Interface.push_evolves h.wellFormed hroom fun _ => True)
  cases hstep with
  | quiet _ _ hq => exact .of_eq hq.messages hq.lockCount
  | starts k p args t ht hcan => exact (wire?_of_site? ht).2 ▸ hpush (hroom (.calls rfl ht hcan))
  | calls k p args t ht hcan => exact (wire?_of_site? ht).2 ▸ hpush (hroom (.calls rfl ht hcan))
  | ends k p c t b m ht _ _ => exact (wire?_of_site? ht).2 ▸ .of_eq rfl rfl
  | serves _ k b t _ ht hin =>
    exact (wire?_of_site? ht).2 ▸ .of_evolves (Site.serveStep_evolves (h.site ht) (hroom.serves hin ht))
  | drops k t ht =>
    have hterm := Ages.of_evolves (Site.markTerminated_evolves (h.site ht).wellFormed)
    rw [dropWire_eq ht]
    exact (wire?_of_site? ht).2 ▸ ⟨hterm.lockCount, hterm.kept⟩
  | uses _ _ hu =>
    cases hu with
    | waits _ n k h t t' hn ht hf | fails _ n k h t t' e hn ht hf _ =>
      obtain ⟨⟨locks, rfl⟩, -⟩ := hf
      exact (wire?_of_site? ht).2 ▸ .of_eq rfl rfl
    | takes _ n k h' t t' m _ hn ht hm ht' =>
      have hpop := Ages.of_evolves (Interface.pop_edits (Custody.wellFormed (h.site ht)) h'.responseIdx).evolves
      rcases ht' with rfl | rfl <;> exact (wire?_of_site? ht).2 ▸ hpop
    | streams n k h t m hn ht hm => exact (wire?_of_site? ht).2 ▸ ages_streaming hm
    | leaves _ _ k _ t _ _ ht | gives _ k _ t _ ht | receives _ k _ t _ ht | finishes _ k _ t _ ht =>
      exact (wire?_of_site? ht).2 ▸ .of_eq rfl rfl
    | drops | closes => exact .of_eq rfl rfl

/-- No identifier of a message is lost. -/
theorem Happens.recycles {a : Action w} (hstep : Happens s a s') : Interface.Recycles s.interface s'.interface := by
  cases hstep with
  | quiet _ _ hq => exact .of_eq (Prod.ext hq.messages hq.queue)
  | starts k p args t ht _ => exact (wire?_of_site? ht).2 ▸ Interface.push_recycles t.interface
  | calls k p args t ht _ => exact (wire?_of_site? ht).2 ▸ Interface.push_recycles t.interface
  | ends k p c t b m ht _ _ => exact (wire?_of_site? ht).2 ▸ .of_eq rfl
  | serves _ k b t _ ht _ =>
    exact (wire?_of_site? ht).2 ▸ (Site.serveStep_follows Interface.recycles_serves.operates t b).1
  | drops k t ht =>
    rw [dropWire_eq ht]
    exact (wire?_of_site? ht).2 ▸ (Site.markTerminated_follows Interface.recycles_serves.operates t).1
  | uses _ _ hu =>
    cases hu with
    | waits _ n k h t t' hn ht hf | fails _ n k h t t' e hn ht hf _ =>
      obtain ⟨⟨locks, rfl⟩, -⟩ := hf
      exact (wire?_of_site? ht).2 ▸ .of_eq rfl
    | takes _ n k h t t' m _ hn ht hm ht' =>
      rcases ht' with rfl | rfl <;> exact (wire?_of_site? ht).2 ▸ Interface.pop_recycles t.interface h.responseIdx
    | streams n k h t m hn ht hm =>
      exact (wire?_of_site? ht).2 ▸ Interface.setMessage_recycles t.interface.openChan.2 h.responseIdx _
    | leaves _ _ k _ t _ _ ht | gives _ k _ t _ ht | receives _ k _ t _ ht | finishes _ k _ t _ ht =>
      exact (wire?_of_site? ht).2 ▸ .of_eq rfl
    | drops | closes => exact .of_eq rfl

end World

end Ipfi
