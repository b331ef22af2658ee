import Ipfi.Deliveries

/-!
# Making and using handles

A handle is made on a response that is on its way, and may be used in any way that takes nothing from another one: a
response is not taken out or handed over while another handle waits for it, and no handle is struck from the idle
handles in the place of another one.
-/

namespace Ipfi

variable {w : IntFeature}

open Interface (Same KeepsSettled Flows Drains Holds)
open Site (Part chunksOf EndsInComplete)

namespace Watched

variable {y : Watch w} {held : Nat → LockRef → Prop} {k n : Nat} {t t' : Site w} {p : ProcedureIndex w}
  {c : CallIndex w}
  {b : IpfiInteger w} {m : MessageBuffer} {h' : CallHandle w}

open World (wire?_of_site? own_site)

/-! ### Making calls -/

/-- The new message of a call is nobody's yet. -/
theorem allots (h : Watched y) (t' : Site w) (hc : y.world.InCustody held)
    (hk : y.world.Known held) (ht : y.world.site? k = some t) (hroom : t.interface.messages.size < 2 ^ w.bits)
    (hi' : t'.interface = t.interface.push.2) (hterm : t'.wire.terminated = t.wire.terminated)
    (hmap : t'.wire.responseIdxMap = t.wire.responseIdxMap.insert (p, t.nextIdx p) t.interface.push.1)
    (hidle : t'.wire.idleCallHandles = t.wire.idleCallHandles ∨ ∃ l,
    t'.wire.idleCallHandles = t.wire.idleCallHandles.insert t.interface.push.1 l) :
    Watched ⟨y.world.setSite k t', y.parts, y.got⟩ := by
  obtain ⟨hx, hi⟩ := wire?_of_site? ht
  have hw := Custody.wellFormed (hc.site ht)
  have hnew := Interface.push_notMem hw hroom
  -- the new message is under a new identifier, with a new lock
  have hspared : ∀ n g, y.world.Live n g → g.Watches t'.interface (y.parts g.lock) (y.got n) ∧
      t'.interface.locks g.lock = t.interface.locks g.lock := by
    intro n g hg
    rw [hi']
    refine (hi ▸ h.watches n g hg : g.Watches t.interface _ _).spared
      ⟨Nat.le_refl _, fun _ => ?_, fun ch k' hs => hs.push⟩ (hi ▸ hk.lock_lt hc hg)
    exact Interface.push_same hw hroom
  have hold : ∀ j x call b m, y.world.wire? j = some x → x.terminated = false → x.responseIdxMap.lookup call = some b →
      t'.interface.messages.lookup b = some m → m.Arrives t'.interface (y.parts m.completeLock) := by
    intro j x call b m hj hrun hcall hm
    have ho : y.world.own (.response j call) = some b := by
      simp only [World.own, hj]
      exact hcall
    obtain ⟨m₀, hm₀⟩ := AList.mem_iff_lookup.1 (hc.opened ho).mem
    have hs : Same t.interface t'.interface b := hi' ▸ Interface.push_same hw hroom
    have hmm : m₀ = m := Option.some.inj ((hs m₀ (hi ▸ hm₀)).1.symm.trans hm)
    subst hmm
    exact (hi ▸ h.arrives j x call b m₀ hj hrun hcall hm₀ : m₀.Arrives t.interface _).same (hi ▸ hm₀) hs hm
  refine h.setSite ht hterm (fun l hl => h.fresh l ?_) h.unused
    (fun n g hg => ⟨(hspared n g hg).1, .inl (hi ▸ (hspared n g hg).2)⟩) (fun n g hg hgk hrun hinc => ?_)
    (fun hrun call b m hcall hm => ?_) fun j x call b m _ => hold j x call b m
  · rw [hi'] at hl
    exact (Nat.le_succ _).trans (hi ▸ hl)
  · have hlook := h.idle hx hg hgk hrun hinc
    rcases hidle with hidle | ⟨l, hidle⟩
    · rw [hidle, hlook]
    · obtain ⟨m, hm, -⟩ := h.message hg (by rw [hinc]; decide)
      rw [hidle, AList.lookup_insert_ne, hlook]
      rintro heq
      exact hnew (heq ▸ AList.mem_of_lookup (hi ▸ hm))
  · rw [hmap, AList.lookup_insert_eq] at hcall
    split at hcall
    · obtain rfl := Option.some.inj hcall
      rw [hi', Interface.lookup_push, if_pos rfl] at hm
      obtain rfl := Option.some.inj hm
      have hparts := h.fresh t.interface.lockCount (hi ▸ Nat.le_refl _)
      refine ⟨by rw [hi']; exact Interface.push_locks_self _, fun q hq => ?_, fun _ => ?_⟩
      · rw [hparts] at hq
        cases hq
      · rw [hparts]
        rfl
    · exact hold k t.wire call b m hx hrun hcall hm

/-- A handle on a response that is on its way. -/
theorem addHandle_of_arrives (h : Watched y) (hm : y.world.interface.messages.lookup b = some m)
    (harr : m.Arrives y.world.interface (y.parts m.completeLock)) {x : Wire w} (hx : y.world.wire? k = some x)
    (hrun : x.terminated = false) (hidle : x.idleCallHandles.lookup b = some m.completeLock) :
    Watched ⟨y.world.addHandle (.call k ⟨b, m.completeLock⟩), y.parts, y.got⟩ := by
  have hne : y.world.interface.locks m.completeLock ≠ .complete := by rw [harr.lock]; decide
  refine h.addHandle ⟨⟨m, hm, rfl, harr.chunks, fun hcomp => absurd hcomp hne⟩, fun hcomp => absurd hcomp hne⟩
    ⟨x, hx, fun _ _ => hidle, fun _ hp => ?_, fun hend => ?_⟩
  · exact absurd (harr.lock.symm.trans hp) (by decide)
  · exact absurd (hrun.symm.trans hend) (by decide)

theorem calls (h : Watched y) (hc : y.world.InCustody held) (hk : y.world.Known held)
    (ht : y.world.site? k = some t) (hroom : t.interface.messages.size < 2 ^ w.bits)
    (hrun : t.wire.terminated = false) (args : Payload) :
    Watched ⟨(y.world.setSite k (t.called p args)).addHandle (.call k ⟨t.interface.push.1, t.interface.lockCount⟩),
      y.parts, y.got⟩ := by
  have h₁ := h.allots (t.called p args) hc hk ht hroom rfl rfl rfl (.inr ⟨_, rfl⟩)
  have hx := World.wire?_setSite_self ht (t.called p args)
  have hm : (y.world.setSite k (t.called p args)).interface.messages.lookup t.interface.push.1 =
      some { chunks := [[]], completeLock := t.interface.lockCount, sender := none } :=
    (Interface.lookup_push _ _).trans (if_pos rfl)
  exact h₁.addHandle_of_arrives hm (h₁.arrives k _ _ _ _ hx hrun (AList.lookup_insert _) hm) hx
    hrun (AList.lookup_insert _)

theorem ends (h : Watched y) (ht : y.world.site? k = some t) (ha : t.Awaits p c b)
    (hm : t.interface.messages.lookup b = some m) (q : Message w) :
    Watched ⟨(y.world.setSite k ((t.queued q).handled b m.completeLock)).addHandle (.call k ⟨b, m.completeLock⟩),
      y.parts, y.got⟩ := by
  obtain ⟨hx, hi⟩ := wire?_of_site? ht
  have h₁ : Watched ⟨y.world.setSite k ((t.queued q).handled b m.completeLock), y.parts, y.got⟩ := by
    refine h.setWire ht rfl ⟨rfl, rfl, fun n g hg hgk hrun hinc => ?_⟩
    have hlook := h.idle hx hg hgk hrun hinc
    show (t.wire.idleCallHandles.insert b m.completeLock).lookup g.responseIdx = _
    by_cases hb : g.responseIdx = b
    · obtain ⟨m', hm', hl'⟩ := h.message hg (by rw [hinc]; decide)
      rw [hb, AList.lookup_insert, ← hl']
      rw [hb, ← hi, hm] at hm'
      rw [Option.some.inj hm']
    · rw [AList.lookup_insert_ne hb, hlook]
  have hx' := World.wire?_setSite_self ht ((t.queued q).handled b m.completeLock)
  exact h₁.addHandle_of_arrives hm (h₁.arrives k _ _ _ _ hx' ha.running ha.mapped hm) hx' ha.running
    (AList.lookup_insert _)

/-! ### Using handles -/

/-- The handles that remain after one of them is gone. -/
private theorem live_setHandle {s : World w} {j : Nat} {g : Handle w} (hj : (s.setHandle n none).Live j g) :
    s.Live j g ∧ j ≠ n := by
  rcases World.handles_setHandle hj with hj | ⟨-, hg⟩
  · exact hj
  · cases hg

/-- A handle may be struck where no other one waits under its identifier. -/
theorem remembers_struck (h : Watched y) {x : Wire w} (hx : y.world.wire? k = some x)
    (halone : ∀ n g, y.world.Live n g → g.wire = k → g.responseIdx = b → y.world.interface.locks g.lock ≠ .incomplete) :
    y.world.Remembers k x (x.struck b) := by
  refine ⟨rfl, rfl, fun n g hg hgk hrun hinc => ?_⟩
  refine (AList.lookup_erase_ne ?_).trans (h.idle hx hg hgk hrun hinc)
  exact fun hb => halone n g hg hgk hb hinc

theorem waits (h : Watched y) (ht : y.world.site? k = some t) (locks : FinMap (IpfiInteger w) CompleteLockState) :
    Watched ⟨y.world.setSite k { t with interface := t.interface.withCreationLocks locks }, y.parts, y.got⟩ := by
  obtain ⟨hx, hi⟩ := wire?_of_site? ht
  refine h.keepsSite ht rfl rfl rfl (h.remembers hx rfl) h.unused fun n g hg => ?_
  exact (hi ▸ h.watches n g hg : g.Watches t.interface _ _).congr rfl rfl rfl fun _ _ _ => rfl

/-- The response of a handle that can be taken out. -/
theorem ready (h : Watched y) (ht : y.world.site? k = some t) (hn : y.world.Live n (.call k h')) (hr : h'.Ready t m) :
    m.completeLock = h'.completeLock ∧ m.sender = none := by
  have hi := (wire?_of_site? ht).2
  obtain ⟨m', hm', hl, -, hs⟩ := (h.watches n _ hn).1.message
  obtain rfl := Option.some.inj ((hi ▸ hr.1).symm.trans hm')
  exact ⟨hl, hs (hl ▸ hi ▸ hr.2)⟩

/-- The response of a handle is taken out, unless another handle waits for it. -/
theorem takes (h : Watched y) (hc : y.world.InCustody held) (hk : y.world.Known held) (ht : y.world.site? k = some t)
    (hn : y.world.Live n (.call k h')) (hr : h'.Ready t m)
    (hother : ∀ j k' h'', y.world.Live j (.call k' h'') → h''.completeLock = h'.completeLock → j = n)
    (ht' : t' = h'.struck (h'.taken t) ∨ t' = h'.taken t) : Watched ⟨y.world.used k n t' none, y.parts, y.got⟩ := by
  obtain ⟨hx, hi⟩ := wire?_of_site? ht
  have hw := Custody.wellFormed (hc.site ht)
  have hpop : t'.interface = (t.interface.pop h'.responseIdx).2 := by rcases ht' with rfl | rfl <;> rfl
  -- the identifier is no other handle's any more
  have hfree : ∀ j g, (y.world.setHandle n none).Live j g → g.Needs t.interface → g.responseIdx ≠ h'.responseIdx := by
    intro j g hj hneeds hb
    obtain ⟨hj, hne⟩ := live_setHandle hj
    obtain ⟨m', hm', hl'⟩ := (hi ▸ h.watches j g hj : g.Watches t.interface _ _).message hneeds
    obtain rfl := Option.some.inj (hr.1.symm.trans (hb ▸ hm'))
    cases g with
    | call k' h'' => exact hne (hother j k' h'' hj (hl'.symm.trans (h.ready ht hn hr).1))
    | chunks k' r => exact hneeds ((congrArg _ hl').symm.trans hr.2)
  show Watched ⟨(y.world.setHandle n none).setSite k t', y.parts, y.got⟩
  refine (h.drops n).setSite_spared ht (by rcases ht' with rfl | rfl <;> rfl) (by rw [hpop, Interface.pop_lockCount])
    (fun j g hj => hk.lock_lt hc (live_setHandle hj).1) (fun j g hj => ⟨by rw [hpop, Interface.pop_chanCount],
    fun hneeds => hpop ▸ Interface.pop_same hw (hfree j g hj hneeds), fun ch k' hs => hpop ▸ hs.pop _⟩)
    (fun j g hj hgk hrun hinc => ?_) (by rcases ht' with rfl | rfl <;> rfl) fun j call b ho => ?_
  · have hlook := h.idle hx (live_setHandle hj).1 hgk hrun hinc
    rcases ht' with rfl | rfl
    · refine (AList.lookup_erase_ne (hfree j g hj ?_)).trans hlook
      cases g with
      | call k' h'' => trivial
      | chunks k' r =>
        intro hcomp
        rw [hi] at hcomp
        exact absurd (hinc.symm.trans hcomp) (by decide)
    · exact hlook
  · have hopen := hc.opened (o := .response j call) (b := b) ho
    refine ⟨hi ▸ hopen.mem, hpop ▸ Interface.pop_same hw ?_⟩
    rintro rfl
    obtain ⟨m', hm', hl'⟩ := hopen
    rw [← hi] at hm' hl'
    exact hl' (Option.some.inj (hm'.symm.trans hr.1) ▸ hr.2)

theorem gives (h : Watched y) (ht : y.world.site? k = some t) (halone : ∀ j g, y.world.Live j g → j ≠ n → g.wire = k →
      g.responseIdx = h'.responseIdx → y.world.interface.locks g.lock ≠ .incomplete) :
    Watched ⟨y.world.used k n (h'.struck t) none, y.parts, y.got⟩ := by
  show Watched ⟨(y.world.setHandle n none).setSite k (h'.struck t), y.parts, y.got⟩
  refine (h.drops n).setWire ht rfl ((h.drops n).remembers_struck (wire?_of_site? ht).1 fun j g hj => ?_)
  obtain ⟨hj, hne⟩ := live_setHandle hj
  exact halone j g hj hne

/-! ### Receivers -/

variable {r : ChunkReceiverHandle w}

theorem received_watches {i : Interface w} {parts : List Part} {got : List (List UInt8)} (h : r.Watches i parts got) :
    r.Watches (i.updateChan r.rx.rx fun c => { c with queue := c.queue.tail }) parts
      (got ++ (i.chans r.rx.rx).queue.head?.toList) := by
  have hchan : (i.updateChan r.rx.rx fun c => { c with queue := c.queue.tail }).chans r.rx.rx =
      { i.chans r.rx.rx with queue := (i.chans r.rx.rx).queue.tail } := Function.update_self ..
  have hqueue : (i.chans r.rx.rx).queue.head?.toList ++ (i.chans r.rx.rx).queue.tail = (i.chans r.rx.rx).queue := by
    cases (i.chans r.rx.rx).queue <;> rfl
  refine ⟨h.chan_lt, h.message, fun hinc => ?_, fun hcomp => ?_⟩
  · obtain ⟨hr, hs, cur, hbuf, hq⟩ := h.flows hinc
    refine ⟨by rw [hchan]; exact hr, by rw [hchan]; exact hs, cur, hbuf, ?_⟩
    rw [hchan, List.append_assoc _ _ (List.tail _), hqueue, hq]
  · obtain ⟨⟨hdet, hs, hq⟩, hwhole⟩ := h.drains hcomp
    refine ⟨⟨hdet, by rw [hchan]; exact hs, ?_⟩, hwhole⟩
    rw [hchan, List.append_assoc, hqueue, hq]

/-- What is done to the channel of a receiver does not concern other handles. -/
theorem updateChan_watches (h : Watched y) (ht : y.world.site? k = some t) (hn : y.world.Live n (.chunks k r)) {j : Nat}
    {g : Handle w} (hj : y.world.Live j g) (hne : j ≠ n) (f : Chan → Chan) :
    g.Watches (t.interface.updateChan r.rx.rx f) (y.parts g.lock) (y.got j) := by
  refine ((wire?_of_site? ht).2 ▸ h.watches j g hj : g.Watches t.interface _ _).congr rfl rfl rfl fun k' r' hg => ?_
  subst hg
  exact Function.update_of_ne (fun heq => hne (h.apart j n k' k r' r hj hn heq)) _ _

theorem receives (h : Watched y) (ht : y.world.site? k = some t) (hn : y.world.Live n (.chunks k r)) {x : Wire w}
    (hx : y.world.Remembers k t.wire x) :
    Watched ⟨y.world.setSite k { r.received t with wire := x }, y.parts,
      Function.update y.got n (y.got n ++ (t.interface.chans r.rx.rx).queue.head?.toList)⟩ := by
  refine h.keepsSite ht rfl rfl rfl hx (fun j hj => ?_) fun j g hj => ?_
  · rw [Function.update_of_ne, h.unused j hj]
    rintro rfl
    exact absurd (List.getElem?_eq_some_iff.1 hn).1 (Nat.not_lt.2 hj)
  · by_cases hne : j = n
    · subst hne
      obtain rfl := Option.some.inj (Option.some.inj (hj.symm.trans hn))
      rw [Function.update_self]
      exact received_watches ((wire?_of_site? ht).2 ▸ h.watches j _ hj : r.Watches t.interface _ _)
    · rw [Function.update_of_ne hne]
      exact h.updateChan_watches ht hn hj hne fun c => { c with queue := c.queue.tail }

theorem closes (h : Watched y) (hn : y.world.Live n (.chunks k r)) :
    Watched ⟨{ y.world with interface := y.world.interface.dropReceiver r.rx }.setHandle n none, y.parts, y.got⟩ := by
  obtain ⟨x, hx, -⟩ := h.tracks n _ hn
  refine (h.drops n).keeps rfl rfl rfl rfl (fun j x hj => ⟨x, hj, (h.drops n).remembers hj rfl⟩)
    (fun j x hj hnone => ?_) (h.drops n).unused fun j g hj => ?_
  · exact absurd (hj.symm.trans hnone) (by simp)
  · obtain ⟨hj, hne⟩ := live_setHandle hj
    exact h.updateChan_watches (World.site?_of_wire? hx) hn hj hne fun c => { c with receiverAlive := false }

/-! ### Receiving chunks one by one -/

theorem holds_streaming {parts : List Part} {ch : ChanRef} (h : Holds m parts) :
    Holds { m with sender := some (some ch) } parts :=
  fun hs => h (.inr (hs.resolve_left (by simp)))

/-- The new receiver gets whatever comes in, if nothing has gone to another one and no chunk has ended. -/
private theorem receiver_watches_streaming {parts : List Part} (hw : t.interface.WellFormed)
    (hm : t.interface.messages.lookup h'.responseIdx = some m) (hholds : Holds m parts)
    (hcomp : t.interface.locks m.completeLock ≠ .complete)
    (hunbroken : t.interface.locks m.completeLock = .incomplete → ∀ q ∈ parts, q.2 = .none) :
    (h'.receiver t m).Watches (t.interface.streaming h'.responseIdx m) parts [] := by
  have hchan : (t.interface.streaming h'.responseIdx m).chans t.interface.chanCount =
      { queue := [], senderAlive := true, receiverAlive := true } := by
    refine (Interface.closeSender_of_ne fun hs => (hw.chan_lt hm hs).ne rfl).trans ?_
    exact Function.update_self ..
  have hlook := (Interface.lookup_streaming t.interface h'.responseIdx _ m).trans (if_pos rfl)
  refine ⟨Nat.lt_succ_self _, fun _ => ⟨_, hlook, rfl⟩, fun hinc => ?_, fun hc => absurd hc hcomp⟩
  obtain ⟨cur, hcur⟩ := Site.chunksOf_unbroken (hunbroken hinc)
  have hchunks : m.chunks = [cur] := (hholds (.inr (hunbroken hinc))).trans hcur
  refine ⟨congrArg Chan.receiverAlive hchan, congrArg Chan.senderAlive hchan, cur, ?_, ?_⟩
  · rw [← hchunks]
    exact hlook
  · rw [show (t.interface.streaming h'.responseIdx m).chans (h'.receiver t m).rx.rx = _ from hchan, hcur]
    rfl

/-- Handles go on as they were when a receiver is made, unless they receive from the same message themselves. -/
private theorem watches_streaming {i : Interface w} {g : Handle w} {parts : List Part} {got : List (List UInt8)}
    (h : g.Watches i parts got) (hw : i.WellFormed) (hm : i.messages.lookup b = some m) (hlt : g.lock < i.lockCount)
    (hcomp : i.locks m.completeLock ≠ .complete)
    (hp : ∀ k r, g = .chunks k r → r.rx.completeLock = m.completeLock → i.locks m.completeLock = .poisoned) :
    g.Watches (i.streaming b m) parts got := by
  have hlook := (Interface.lookup_streaming i b b m).trans (if_pos rfl)
  by_cases hgl : g.lock = m.completeLock
  · rw [← hgl] at hcomp
    cases g with
    | call k h' =>
      obtain ⟨⟨⟨m', hm', hl', hholds, -⟩, -⟩, hgot⟩ := h
      obtain rfl := hw.lock_inj hm' hm (hl'.trans hgl)
      obtain rfl := Option.some.inj (hm'.symm.trans hm)
      exact ⟨⟨⟨_, hlook, hl', holds_streaming hholds, fun hc => absurd hc hcomp⟩, fun hc => absurd hc hcomp⟩, hgot⟩
    | chunks k r =>
      have hpoisoned : i.locks r.rx.completeLock = .poisoned := (congrArg i.locks hgl).trans (hp k r rfl hgl)
      obtain ⟨m', hm', hl'⟩ := ChunkReceiverHandle.Watches.message h hcomp
      obtain rfl := hw.lock_inj hm' hm (hl'.trans hgl)
      refine ⟨(ChunkReceiverHandle.Watches.chan_lt h).trans (Nat.lt_succ_self _), fun _ => ⟨_, hlook, hgl.symm⟩,
        fun hinc => ?_, fun hc => absurd hc hcomp⟩
      exact absurd (hpoisoned.symm.trans hinc) (by decide)
  · refine (h.spared ⟨Nat.le_succ _, fun hneeds => Interface.streaming_same hw hm fun hb => hgl ?_, fun ch k' hs =>
      hs.streaming hm⟩ hlt).1
    obtain ⟨m', hm', hl'⟩ := h.message hneeds
    exact hl'.symm.trans (congrArg _ (Option.some.inj (hm'.symm.trans (hb ▸ hm))))

/-- A handle may be exchanged for a receiver as long as no chunk of the response has ended or gone elsewhere. -/
theorem streams (h : Watched y) (hc : y.world.InCustody held) (hk : y.world.Known held) (ht : y.world.site? k = some t)
    (hn : y.world.Live n (.call k h')) (hm : t.interface.messages.lookup h'.responseIdx = some m)
    (ha : y.world.interface.locks h'.completeLock ≠ .poisoned → y.world.interface.locks h'.completeLock = .incomplete ∧
      (∀ q ∈ y.parts h'.completeLock, q.2 = .none) ∧
      ∀ j k' r, y.world.Live j (.chunks k' r) → r.rx.completeLock ≠ h'.completeLock) :
    Watched ⟨y.world.used k n { t with interface := t.interface.streaming h'.responseIdx m }
      (some (.chunks k (h'.receiver t m))), y.parts, y.got⟩ := by
  obtain ⟨hx, hi⟩ := wire?_of_site? ht
  have hw := Custody.wellFormed (hc.site ht)
  obtain ⟨⟨⟨m₀, hm₀, hl, hholds, -⟩, -⟩, hgot⟩ := (hi ▸ h.watches n _ hn : (Handle.call k h').Watches t.interface _ _)
  obtain rfl := Option.some.inj (hm₀.symm.trans hm)
  rw [← hi, ← hl] at ha
  -- no receiver is made for a response that is complete
  have hcomp : t.interface.locks m₀.completeLock ≠ .complete := by
    intro hcomplete
    have hinc := (ha (by rw [hcomplete]; decide)).1
    exact absurd (hcomplete.symm.trans hinc) (by decide)
  have harrives : ∀ j x call b m, y.world.wire? j = some x → x.terminated = false →
      x.responseIdxMap.lookup call = some b → (t.interface.streaming h'.responseIdx m₀).messages.lookup b = some m →
      m.Arrives (t.interface.streaming h'.responseIdx m₀) (y.parts m.completeLock) := by
    intro j x call b m hj hrun hcall hm'
    have hlook := (Interface.lookup_streaming t.interface h'.responseIdx b m₀).symm.trans hm'
    split at hlook
    · subst b
      obtain rfl := Option.some.inj hlook
      have harr : m₀.Arrives t.interface _ := hi ▸ h.arrives j x call _ m₀ hj hrun hcall (hi ▸ hm)
      exact ⟨harr.lock, harr.goesOn, holds_streaming harr.chunks⟩
    · exact (hi ▸ h.arrives j x call b m hj hrun hcall (hi ▸ hlook) : m.Arrives t.interface _).same hlook
        (Interface.streaming_same hw hm ‹_›) hm'
  have h₁ : Watched
      ⟨y.world.setSite k { t with interface := t.interface.streaming h'.responseIdx m₀ }, y.parts, y.got⟩ := by
    refine h.setSite ht rfl (fun l hl' => h.fresh l (hi ▸ hl')) h.unused (fun j g hj => ⟨?_, .inl (hi ▸ rfl)⟩)
      (fun j g hj hgk hrun hinc => h.idle hx hj hgk hrun hinc)
      (fun hrun call b m hcall hm' => harrives k t.wire call b m hx hrun hcall hm')
      fun j x call b m _ hj hrun hcall hm' => harrives j x call b m hj hrun hcall hm'
    refine watches_streaming (hi ▸ h.watches j g hj) hw hm (hi ▸ hk.lock_lt hc hj) hcomp fun k' r hg hgl => ?_
    subst hg
    by_contra hp
    exact (ha hp).2.2 j k' r hj hgl
  refine h₁.setHandle n (fun g hg => ?_) (fun k' r hr j k'' r' hj => ?_) fun g hg => ?_
  · cases hg
    show (h'.receiver t m₀).Watches _ (y.parts m₀.completeLock) (y.got n)
    rw [hgot]
    exact receiver_watches_streaming hw hm (hl ▸ hholds) hcomp fun hinc => (ha (by rw [hinc]; decide)).2.1
  · cases hr
    exact (hi ▸ h.watches j _ hj : r'.Watches t.interface _ _).chan_lt.ne'
  · cases hg
    obtain ⟨x, hgx, htr⟩ := h₁.tracks n _ hn
    exact ⟨x, hgx, htr.congr hl rfl⟩

end Watched

end Ipfi
