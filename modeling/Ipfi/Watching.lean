import Ipfi.Cleanup
import Ipfi.Receivers

/-!
# What the handles of a wire wait for

As long as a wire runs, each of its handles finds its response: a call handle in the message buffer, a receiver in its
channel and the last chunk in the buffer.  The locks of the responses that are still incomplete are known to the wire.
-/

namespace Ipfi

variable {w : IntFeature}

open Interface (Same KeepsSettled Flows Drains Holds)
open Site (Part chunksOf EndsInComplete)

/-! ### One handle -/

namespace Handle

def lock : Handle w → LockRef
  | .call _ h => h.completeLock
  | .chunks _ r => r.rx.completeLock

def responseIdx : Handle w → IpfiInteger w
  | .call _ h => h.responseIdx
  | .chunks _ r => r.responseIdx

end Handle

/-- The response stands in the buffer, with all its chunks unless they go to a receiver. -/
structure CallHandle.Watches (h : CallHandle w) (i : Interface w) (parts : List Part) : Prop where
  message : ∃ m, i.messages.lookup h.responseIdx = some m ∧ m.completeLock = h.completeLock ∧
    Holds m parts ∧ (i.locks h.completeLock = .complete → m.sender = none)
  whole : i.locks h.completeLock = .complete → EndsInComplete parts

/-- The chunks of the response that have not been yielded are on their way to the receiver. -/
structure ChunkReceiverHandle.Watches (r : ChunkReceiverHandle w) (i : Interface w) (parts : List Part)
    (got : List (List UInt8)) : Prop where
  chan_lt : r.rx.rx < i.chanCount
  message : i.locks r.rx.completeLock ≠ .complete →
    ∃ m, i.messages.lookup r.responseIdx = some m ∧ m.completeLock = r.rx.completeLock
  flows : i.locks r.rx.completeLock = .incomplete → i.Flows r.responseIdx r.rx.completeLock r.rx.rx got parts
  drains : i.locks r.rx.completeLock = .complete → i.Drains r.rx.rx got parts ∧ EndsInComplete parts

namespace Handle

variable {g : Handle w} {i i' : Interface w} {parts : List Part} {got : List (List UInt8)}

def Watches (g : Handle w) (i : Interface w) (parts : List Part) (got : List (List UInt8)) : Prop :=
  match g with
  | .call _ h => h.Watches i parts ∧ got = []
  | .chunks _ r => r.Watches i parts got

/-- The handle still depends on its message. -/
def Needs (g : Handle w) (i : Interface w) : Prop :=
  match g with
  | .call _ _ => True
  | .chunks _ r => i.locks r.rx.completeLock ≠ .complete

/-- A step that leaves alone what the handle depends on. -/
structure Spared (g : Handle w) (i i' : Interface w) : Prop where
  chanCount : i.chanCount ≤ i'.chanCount
  same : g.Needs i → Same i i' g.responseIdx
  settled : ∀ ch k, KeepsSettled g.lock ch k i i'

theorem Spared.of_eq (hm : i'.messages = i.messages) (hl : i'.locks = i.locks) (hn : i'.lockCount = i.lockCount)
    (hc : i'.chans = i.chans) (hcount : i'.chanCount = i.chanCount) : g.Spared i i' :=
  ⟨hcount.ge, fun _ _ hb => ⟨hm ▸ hb, congrFun hl _, fun _ _ => congrFun hc _⟩,
    fun _ _ h => h.congr hn hl hcount (congrFun hc _) hm⟩

theorem Watches.congr (h : g.Watches i parts got) (hm : i'.messages = i.messages) (hl : i'.locks = i.locks)
    (hn : i'.chanCount = i.chanCount) (hc : ∀ k r, g = .chunks k r → i'.chans r.rx.rx = i.chans r.rx.rx) :
    g.Watches i' parts got := by
  cases g with
  | call k h' =>
    obtain ⟨⟨⟨m, hm', hrest⟩, hwhole⟩, hgot⟩ := h
    exact ⟨⟨⟨m, hm ▸ hm', hl ▸ hrest⟩, hl ▸ hwhole⟩, hgot⟩
  | chunks k r =>
    have hch := hc k r rfl
    obtain ⟨hlt, hmessage, hflows, hdrains⟩ := h
    refine ⟨hn ▸ hlt, by rw [hl, hm]; exact hmessage, fun hinc => ?_, fun hcomp => ?_⟩
    · obtain ⟨hr, hs, hbuf⟩ := hflows (hl ▸ hinc)
      exact ⟨hch ▸ hr, hch ▸ hs, by rw [hm, hch]; exact hbuf⟩
    · obtain ⟨⟨hdet, hs, hq⟩, hwhole⟩ := hdrains (hl ▸ hcomp)
      exact ⟨⟨hm ▸ hdet, hch ▸ hs, by rw [hch]; exact hq⟩, hwhole⟩

theorem Watches.message (h : g.Watches i parts got) (hn : g.Needs i) :
    ∃ m, i.messages.lookup g.responseIdx = some m ∧ m.completeLock = g.lock := by
  cases g with
  | call k h' =>
    obtain ⟨m, hm, hl, -⟩ := h.1.message
    exact ⟨m, hm, hl⟩
  | chunks k r => exact ChunkReceiverHandle.Watches.message h hn

theorem Watches.spared (h : g.Watches i parts got) (hs : g.Spared i i') (hlt : g.lock < i.lockCount) :
    g.Watches i' parts got ∧ i'.locks g.lock = i.locks g.lock := by
  cases g with
  | call k h' =>
    obtain ⟨⟨⟨m, hm, hl, hchunks, hs'⟩, hwhole⟩, hgot⟩ := h
    obtain ⟨hm', hl', -⟩ := hs.same trivial m hm
    rw [hl] at hl'
    exact ⟨⟨⟨⟨m, hm', hl, hchunks, fun hc => hs' (hl'.symm.trans hc)⟩, fun hc => hwhole (hl'.symm.trans hc)⟩, hgot⟩,
      hl'⟩
  | chunks k r =>
    by_cases hc : i.locks r.rx.completeLock = .complete
    · obtain ⟨hdrain, hwhole⟩ := ChunkReceiverHandle.Watches.drains h hc
      obtain ⟨-, hl', hlt', hchan, hdet⟩ := hs.settled r.rx.rx (i.chans r.rx.rx)
        ⟨hlt, hc, ChunkReceiverHandle.Watches.chan_lt h, rfl, hdrain.detached⟩
      refine ⟨⟨hlt', fun hne => absurd hl' hne, fun hinc => ?_, fun _ => ⟨⟨hdet, ?_, ?_⟩, hwhole⟩⟩, hl'.trans hc.symm⟩
      · exact absurd (hl'.symm.trans hinc) (by decide)
      · rw [hchan]
        exact hdrain.senderAlive
      · rw [hchan]
        exact hdrain.chunks
    · obtain ⟨m, hm, hl⟩ := ChunkReceiverHandle.Watches.message h hc
      obtain ⟨hm', hl', -⟩ := hs.same hc m hm
      rw [hl] at hl'
      refine ⟨⟨(ChunkReceiverHandle.Watches.chan_lt h).trans_le hs.chanCount, fun _ => ⟨m, hm', hl⟩, fun hinc => ?_,
        fun hcomp => absurd (hl'.symm.trans hcomp) hc⟩, hl'⟩
      obtain ⟨hr, hsend, cur, hbuf, hq⟩ := ChunkReceiverHandle.Watches.flows h (hl'.symm.trans hinc)
      obtain ⟨hbuf', -, hchan⟩ := hs.same hc _ hbuf
      rw [← hchan _ rfl] at hr hsend hq
      exact ⟨hr, hsend, cur, hbuf', hq⟩

end Handle

/-! ### All handles of a world -/

/-- A world, with what the wires have received and what the receivers have yielded. -/
structure Watch (w : IntFeature) where
  world : World w
  /-- The parts of a response so far, by the lock of its message. -/
  parts : LockRef → List Part
  /-- The chunks yielded so far by the receiver at a position. -/
  got : Nat → List (List UInt8)

namespace Watch

def new : Watch w where
  world := .new
  parts := fun _ => []
  got := fun _ => []

/-- The parts of all responses after one more part of one of them. -/
def heard (parts : LockRef → List Part) (l : LockRef) (q : Part) : LockRef → List Part :=
  Function.update parts l (parts l ++ [q])

theorem heard_self (parts : LockRef → List Part) (l : LockRef) (q : Part) : heard parts l q l = parts l ++ [q] :=
  Function.update_self ..

theorem heard_of_ne (parts : LockRef → List Part) {l l' : LockRef} (hne : l' ≠ l) (q : Part) :
    heard parts l q l' = parts l' :=
  Function.update_of_ne hne _ _

/-- What all receivers have yielded after one of them has yielded one more chunk. -/
def yielded (got : Nat → List (List UInt8)) (n : Nat) (chunk : List UInt8) : Nat → List (List UInt8) :=
  Function.update got n (got n ++ [chunk])

end Watch

namespace World

/-- The part of a response that an action delivers, with the lock of the response. -/
def part? (s : World w) (a : Action w) : Option (LockRef × Part) :=
  match s.incoming? a with
  | some (k, .response p c t bytes) =>
    ((s.own (.response k (p, c))).bind s.interface.getCompleteLock).map fun l => (l, (bytes, t))
  | _ => none

/-- The chunk that an action makes a receiver yield, with the position of the receiver. -/
def chunk? (s : World w) : Action w → Option (Nat × List UInt8)
  | .recvRaw n =>
    match s.handles[n]? with
    | some (some (.chunks k r)) => (s.site? k).bind fun t => match r.recvRaw.run t with
      | .ok (some chunk) _ => some (n, chunk)
      | _ => none
    | _ => none
  | _ => none

end World

def Watch.step (checks : Bool) (y : Watch w) (a : Action w) : Watch w where
  world := y.world.step checks a
  parts := match y.world.part? a with
    | some (l, q) => Watch.heard y.parts l q
    | none => y.parts
  got := match y.world.chunk? a with
    | some (n, chunk) => Watch.yielded y.got n chunk
    | none => y.got

/-- There is a handle at the position. -/
abbrev World.Live (s : World w) (n : Nat) (g : Handle w) : Prop := s.handles[n]? = some (some g)

/-- The response is not over, and its message has all its chunks unless they go to a receiver. -/
structure MessageBuffer.Arrives (m : MessageBuffer) (i : Interface w) (parts : List Part) : Prop where
  lock : i.locks m.completeLock = .incomplete
  goesOn : ∀ q ∈ parts, q.2 ≠ .complete
  chunks : Holds m parts

/-- While it runs the wire knows the lock of a handle as long as it is incomplete, and no handle has to wait after
that. -/
structure Wire.Tracks (x : Wire w) (i : Interface w) (g : Handle w) : Prop where
  tracked : x.terminated = false → i.locks g.lock = .incomplete → x.idleCallHandles.lookup g.responseIdx = some g.lock
  sane : x.terminated = false → i.locks g.lock ≠ .poisoned
  ended : x.terminated = true → i.locks g.lock ≠ .incomplete

theorem Wire.Tracks.congr {x : Wire w} {i : Interface w} {g g' : Handle w} (h : x.Tracks i g) (hl : g'.lock = g.lock)
    (hid : g'.responseIdx = g.responseIdx) : x.Tracks i g' := by
  refine ⟨?_, ?_, ?_⟩ <;> rw [hl]
  · rw [hid]
    exact h.tracked
  · exact h.sane
  · exact h.ended

structure Watched (y : Watch w) : Prop where
  fresh : ∀ l, y.world.interface.lockCount ≤ l → y.parts l = []
  unused : ∀ n, y.world.handles.length ≤ n → y.got n = []
  arrives : ∀ k x call b m, y.world.wire? k = some x → x.terminated = false → x.responseIdxMap.lookup call = some b →
    y.world.interface.messages.lookup b = some m → m.Arrives y.world.interface (y.parts m.completeLock)
  watches : ∀ n g, y.world.Live n g → g.Watches y.world.interface (y.parts g.lock) (y.got n)
  apart : ∀ n n' k k' r r', y.world.Live n (.chunks k r) → y.world.Live n' (.chunks k' r') → r.rx.rx = r'.rx.rx → n = n'
  tracks : ∀ n g, y.world.Live n g → ∃ x, y.world.wire? g.wire = some x ∧ x.Tracks y.world.interface g

/-- What a wire still knows of its calls, and of those of its handles that have to wait. -/
structure World.Remembers (s : World w) (k : Nat) (x x' : Wire w) : Prop where
  terminated : x'.terminated = x.terminated
  responses : x'.responseIdxMap = x.responseIdxMap
  idle : ∀ n g, s.Live n g → g.wire = k → x.terminated = false → s.interface.locks g.lock = .incomplete →
    x'.idleCallHandles.lookup g.responseIdx = some g.lock

theorem MessageBuffer.Arrives.same {m m' : MessageBuffer} {i i' : Interface w} {parts : List Part}
    {b : IpfiInteger w} (h : m.Arrives i parts) (hm : i.messages.lookup b = some m) (hs : Same i i' b)
    (hm' : i'.messages.lookup b = some m') : m'.Arrives i' parts := by
  obtain ⟨hb, hl, -⟩ := hs m hm
  obtain rfl := Option.some.inj (hb.symm.trans hm')
  exact ⟨hl.trans h.lock, h.goesOn, h.chunks⟩

namespace Watched

variable {y : Watch w} {k : Nat} {t t' : Site w} {parts' : LockRef → List Part} {got' : Nat → List (List UInt8)}
  {s' : World w}

/-- A step that keeps all messages and their locks, in which every wire remembers what it knew. -/
theorem keeps (h : Watched y) (hm : s'.interface.messages = y.world.interface.messages)
    (hl : s'.interface.locks = y.world.interface.locks) (hn : s'.interface.lockCount = y.world.interface.lockCount)
    (hh : s'.handles = y.world.handles)
    (hold : ∀ k x, y.world.wire? k = some x → ∃ x', s'.wire? k = some x' ∧ y.world.Remembers k x x')
    (hnew : ∀ k x', s'.wire? k = some x' → y.world.wire? k = none → x'.responseIdxMap = ∅)
    (hunused : ∀ n, y.world.handles.length ≤ n → got' n = [])
    (hwatches : ∀ n g, y.world.Live n g → g.Watches s'.interface (y.parts g.lock) (got' n)) :
    Watched ⟨s', y.parts, got'⟩ := by
  have hlive : ∀ {n g}, s'.Live n g → y.world.Live n g := fun {n g} hg => (congrArg (·[n]?) hh).symm.trans hg
  refine ⟨fun l hl' => h.fresh l (hn ▸ hl'), fun n hn' => hunused n (hh ▸ hn'),
    fun k x' call b m hx' hrun hcall hm' => ?_, fun n g hg => hwatches n g (hlive hg),
    fun n n' k k' r r' hg hg' => h.apart n n' k k' r r' (hlive hg) (hlive hg'), fun n g hg => ?_⟩
  · cases hx : y.world.wire? k with
    | none =>
      rw [hnew k x' hx' hx] at hcall
      cases hcall
    | some x =>
      obtain ⟨x'', hx'', hr⟩ := hold k x hx
      obtain rfl := Option.some.inj (hx'.symm.trans hx'')
      have harr := h.arrives k x call b m hx (hr.terminated ▸ hrun) (hr.responses ▸ hcall) (hm ▸ hm')
      exact ⟨(congrFun hl _).trans harr.lock, harr.goesOn, harr.chunks⟩
  · replace hg := hlive hg
    obtain ⟨x, hx, htr⟩ := h.tracks n g hg
    obtain ⟨x', hx', hr⟩ := hold g.wire x hx
    have hlock := congrFun hl g.lock
    refine ⟨x', hx', fun hrun hinc => ?_, fun hrun hp => ?_, fun hend hinc => ?_⟩
    · exact hr.idle n g hg rfl (hr.terminated ▸ hrun) (hlock.symm.trans hinc)
    · exact htr.sane (hr.terminated ▸ hrun) (hlock.symm.trans hp)
    · exact htr.ended (hr.terminated ▸ hend) (hlock.symm.trans hinc)

/-- What a wire tracks. -/
theorem idle (h : Watched y) {x : Wire w} (hx : y.world.wire? k = some x) {n : Nat}
    {g : Handle w} (hg : y.world.Live n g) (hgk : g.wire = k) (hrun : x.terminated = false)
    (hinc : y.world.interface.locks g.lock = .incomplete) :
    x.idleCallHandles.lookup g.responseIdx = some g.lock := by
  obtain ⟨x', hx', htr⟩ := h.tracks n g hg
  obtain rfl := Option.some.inj ((hgk ▸ hx').symm.trans hx)
  exact htr.tracked hrun hinc

theorem remembers (h : Watched y) {x x' : Wire w} (hx : y.world.wire? k = some x) (hw : x'.tracking = x.tracking) :
    y.world.Remembers k x x' := by
  refine ⟨congrArg Prod.fst hw, congrArg (fun z => z.2.1) hw, fun n g hg hgk hrun hinc => ?_⟩
  rw [show x'.idleCallHandles = x.idleCallHandles from congrArg (fun z => z.2.2) hw]
  exact h.idle hx hg hgk hrun hinc

/-- A step of one wire that keeps all messages and their locks. -/
theorem keepsSite (h : Watched y) (ht : y.world.site? k = some t) (hm : t'.interface.messages = t.interface.messages)
    (hl : t'.interface.locks = t.interface.locks) (hn : t'.interface.lockCount = t.interface.lockCount)
    (hr : y.world.Remembers k t.wire t'.wire) (hunused : ∀ n, y.world.handles.length ≤ n → got' n = [])
    (hwatches : ∀ n g, y.world.Live n g → g.Watches t'.interface (y.parts g.lock) (got' n)) :
    Watched ⟨y.world.setSite k t', y.parts, got'⟩ := by
  obtain ⟨hx, hi⟩ := World.wire?_of_site? ht
  refine h.keeps (hi ▸ hm) (hi ▸ hl) (hi ▸ hn) rfl (fun j x hj => ?_) (fun j x' hj hnone => ?_) hunused hwatches
  · by_cases hjk : j = k
    · subst hjk
      obtain rfl := Option.some.inj (hj.symm.trans hx)
      exact ⟨t'.wire, World.wire?_setSite_self ht t', hr⟩
    · exact ⟨x, (World.wire?_setSite_ne _ t' hjk).trans hj, h.remembers hj rfl⟩
  · rw [World.wire?_setSite, hnone] at hj
    split at hj <;> cases hj

/-- A step that leaves the interface alone. -/
theorem setWire (h : Watched y) (ht : y.world.site? k = some t) (hi : t'.interface = t.interface)
    (hr : y.world.Remembers k t.wire t'.wire) : Watched ⟨y.world.setSite k t', y.parts, y.got⟩ := by
  refine h.keepsSite ht (by rw [hi]) (by rw [hi]) (by rw [hi]) hr h.unused fun n g hg => ?_
  rw [hi, (World.wire?_of_site? ht).2]
  exact h.watches n g hg

/-- A step of a wire that neither ends it nor leaves any of its handles behind. -/
theorem setSite (h : Watched y) (ht : y.world.site? k = some t) (hterm : t'.wire.terminated = t.wire.terminated)
    (hfresh : ∀ l, t'.interface.lockCount ≤ l → parts' l = []) (hunused : ∀ n, y.world.handles.length ≤ n → got' n = [])
    (hwatches : ∀ n g, y.world.Live n g → g.Watches t'.interface (parts' g.lock) (got' n) ∧
      (t'.interface.locks g.lock = y.world.interface.locks g.lock ∨ t'.interface.locks g.lock = .complete))
    (hidle : ∀ n g, y.world.Live n g → g.wire = k → t.wire.terminated = false →
      y.world.interface.locks g.lock = .incomplete → t'.wire.idleCallHandles.lookup g.responseIdx = some g.lock)
    (hown : t.wire.terminated = false → ∀ call b m, t'.wire.responseIdxMap.lookup call = some b →
      t'.interface.messages.lookup b = some m → m.Arrives t'.interface (parts' m.completeLock))
    (hothers : ∀ j x call b m, j ≠ k → y.world.wire? j = some x → x.terminated = false →
      x.responseIdxMap.lookup call = some b → t'.interface.messages.lookup b = some m →
        m.Arrives t'.interface (parts' m.completeLock)) :
    Watched ⟨y.world.setSite k t', parts', got'⟩ := by
  have hx := (World.wire?_of_site? ht).1
  refine ⟨hfresh, hunused, fun j x call b m hj hrun hcall hm => ?_, fun n g hg => (hwatches n g hg).1,
    fun n n' j j' r r' hn hn' => h.apart n n' j j' r r' hn hn', fun n g hg => ?_⟩
  · by_cases hjk : j = k
    · subst hjk
      obtain rfl := Option.some.inj (hj.symm.trans (World.wire?_setSite_self ht t'))
      exact hown (hterm.symm.trans hrun) call b m hcall hm
    · exact hothers j x call b m hjk ((World.wire?_setSite_ne _ t' hjk).symm.trans hj) hrun hcall hm
  · obtain ⟨x, hgx, htr⟩ := h.tracks n g hg
    have hlock := (hwatches n g hg).2
    -- a lock that has not been completed is as it was
    have hold : ∀ st, st ≠ .complete → t'.interface.locks g.lock = st → y.world.interface.locks g.lock = st := by
      rintro st hne hst
      rcases hlock with hl | hl
      · exact hl.symm.trans hst
      · exact absurd (hst.symm.trans hl) hne
    by_cases hgk : g.wire = k
    · have hxt : x = t.wire := Option.some.inj ((hgk ▸ hgx).symm.trans hx)
      subst hxt
      refine ⟨t'.wire, hgk ▸ World.wire?_setSite_self ht t', fun hrun hinc => ?_, fun hrun hp => ?_,
        fun hend hinc => ?_⟩
      · exact hidle n g hg hgk (hterm.symm.trans hrun) (hold _ (by decide) hinc)
      · exact htr.sane (hterm.symm.trans hrun) (hold _ (by decide) hp)
      · exact htr.ended (hterm.symm.trans hend) (hold _ (by decide) hinc)
    · refine ⟨x, (World.wire?_setSite_ne _ t' hgk).trans hgx, fun hrun hinc => ?_, fun hrun hp => ?_,
        fun hend hinc => ?_⟩
      · exact htr.tracked hrun (hold _ (by decide) hinc)
      · exact htr.sane hrun (hold _ (by decide) hp)
      · exact htr.ended hend (hold _ (by decide) hinc)

/-- A step that spares all handles and all responses that are on their way. -/
theorem setSite_spared (h : Watched y) (ht : y.world.site? k = some t) (hterm : t'.wire.terminated = t.wire.terminated)
    (hcount : t.interface.lockCount ≤ t'.interface.lockCount)
    (hlt : ∀ n g, y.world.Live n g → g.lock < y.world.interface.lockCount)
    (hspared : ∀ n g, y.world.Live n g → g.Spared t.interface t'.interface)
    (hidle : ∀ n g, y.world.Live n g → g.wire = k → t.wire.terminated = false →
      y.world.interface.locks g.lock = .incomplete → t'.wire.idleCallHandles.lookup g.responseIdx = some g.lock)
    (hmap : t'.wire.responseIdxMap = t.wire.responseIdxMap)
    (hsame : ∀ j call b, y.world.own (.response j call) = some b →
      b ∈ t.interface.messages ∧ Same t.interface t'.interface b) :
    Watched ⟨y.world.setSite k t', y.parts, y.got⟩ := by
  obtain ⟨hx, hi⟩ := World.wire?_of_site? ht
  have harrives : ∀ j x call b m, y.world.wire? j = some x → x.terminated = false →
      x.responseIdxMap.lookup call = some b → t'.interface.messages.lookup b = some m → m.Arrives t'.interface
        (y.parts m.completeLock) := by
    intro j x call b m hj hrun hcall hm
    obtain ⟨hmem, hs⟩ := hsame j call b (by simp only [World.own, hj]; exact hcall)
    obtain ⟨m₀, hm₀⟩ := AList.mem_iff_lookup.1 hmem
    obtain rfl := Option.some.inj ((hs m₀ hm₀).1.symm.trans hm)
    exact (hi ▸ h.arrives j x call b m₀ hj hrun hcall (hi ▸ hm₀) : m₀.Arrives t.interface _).same hm₀ hs hm
  refine h.setSite ht hterm (fun l hl => h.fresh l ?_) h.unused (fun n g hg => ?_) hidle
    (fun hrun call b m hcall => harrives k t.wire call b m hx hrun (hmap ▸ hcall))
    fun j x call b m _ hj => harrives j x call b m hj
  · rw [← hi]
    exact hcount.trans hl
  · have hw := (hi ▸ h.watches n g hg : g.Watches t.interface _ _).spared (hspared n g hg) (hi ▸ hlt n g hg)
    exact ⟨hw.1, .inl (hi ▸ hw.2)⟩

/-! ### Handles come and go -/

/-- A handle may be obtained on a message that stands in the buffer. -/
theorem addHandle (h : Watched y) {k : Nat} {h' : CallHandle w}
    (hw : h'.Watches y.world.interface (y.parts h'.completeLock))
    (htr : ∃ x, y.world.wire? k = some x ∧ x.Tracks y.world.interface (.call k h')) :
    Watched ⟨y.world.addHandle (.call k h'), y.parts, y.got⟩ := by
  refine ⟨h.fresh, fun n hn => h.unused n ?_, h.arrives, fun n g hg => ?_,
    fun n n' j j' r r' hn hn' => ?_, fun n g hg => ?_⟩
  · replace hn : (y.world.handles ++ [some (Handle.call k h')]).length ≤ n := hn
    rw [List.length_append] at hn
    exact (Nat.le_add_right _ _).trans hn
  · rcases World.handles_addHandle hg with hg | ⟨rfl, rfl⟩
    · exact h.watches n g hg
    · exact ⟨hw, h.unused _ (Nat.le_refl _)⟩
  · rcases World.handles_addHandle hn with hn | ⟨-, heq⟩
    · rcases World.handles_addHandle hn' with hn' | ⟨-, heq⟩
      · exact h.apart n n' j j' r r' hn hn'
      · cases heq
    · cases heq
  · rcases World.handles_addHandle hg with hg | ⟨-, rfl⟩
    · exact h.tracks n g hg
    · exact htr

/-- A handle may go, and a receiver with a channel of its own may take its place. -/
theorem setHandle (h : Watched y) (n : Nat) {new : Option (Handle w)}
    (hw : ∀ g, new = some g → g.Watches y.world.interface (y.parts g.lock) (y.got n))
    (hapart : ∀ k r, new = some (.chunks k r) → ∀ n' k' r', y.world.Live n' (.chunks k' r') → r.rx.rx ≠ r'.rx.rx)
    (htr : ∀ g, new = some g → ∃ x, y.world.wire? g.wire = some x ∧ x.Tracks y.world.interface g) :
    Watched ⟨y.world.setHandle n new, y.parts, y.got⟩ := by
  refine ⟨h.fresh, fun j hj => h.unused j ?_, h.arrives, fun j g hg => ?_,
    fun j j' k k' r r' hj hj' heq => ?_, fun j g hg => ?_⟩
  · replace hj : (y.world.handles.set n new).length ≤ j := hj
    rwa [List.length_set] at hj
  · rcases World.handles_setHandle hg with ⟨hg, -⟩ | ⟨rfl, hnew⟩
    · exact h.watches j g hg
    · exact hw g hnew
  · rcases World.handles_setHandle hj with ⟨hj, -⟩ | ⟨hjn, hnew⟩ <;>
      rcases World.handles_setHandle hj' with ⟨hj', -⟩ | ⟨hjn', hnew'⟩
    · exact h.apart j j' k k' r r' hj hj' heq
    · exact absurd heq.symm (hapart k' r' hnew' j k r hj)
    · exact absurd heq (hapart k r hnew j' k' r' hj')
    · exact hjn.trans hjn'.symm
  · rcases World.handles_setHandle hg with ⟨hg, -⟩ | ⟨-, hnew⟩
    · exact h.tracks j g hg
    · exact htr g hnew

theorem drops (h : Watched y) (n : Nat) : Watched ⟨y.world.setHandle n none, y.parts, y.got⟩ :=
  h.setHandle n (by simp) (by simp) (by simp)

end Watched

end Ipfi
