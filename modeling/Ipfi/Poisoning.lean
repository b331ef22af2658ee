import Ipfi.HandleUses

/-!
# Handles and the end of their wire

When a wire ends, each of its handles has a complete lock and still gives the whole response, or a poisoned one.  So
it is as long as no handle is struck from the idle handles in the place of another one, and no response is handed over
or taken out while another handle waits for it.
-/

namespace Ipfi

variable {w : IntFeature}

open Interface (Same)
open Site (Part chunksOf EndsInComplete)

namespace World

variable {s s' : World w} {held : Nat → LockRef → Prop} {checks : Bool} {a : Action w} {k : Nat} {t t' : Site w}

/-- No other handle of the wire waits under the identifier. -/
def Alone (s : World w) (n k : Nat) (b : IpfiInteger w) : Prop :=
  ∀ j g, s.Live j g → j ≠ n → g.wire = k → g.responseIdx = b → s.interface.locks g.lock ≠ .incomplete

theorem setSite_setSite (s : World w) (k : Nat) (t t' : Site w) : (s.setSite k t).setSite k t' = s.setSite k t' := by
  show World.mk _ ((s.wires.modify k _).modify k _) _ = _
  rw [List.modify_modify_eq]
  rfl

theorem site?_setSite_self (ht : s.site? k = some t) (t' : Site w) : (s.setSite k t').site? k = some t' :=
  site?_of_wire? (wire?_setSite_self ht t')

theorem part?_of_response {p : ProcedureIndex w} {c : CallIndex w} {tm : Terminator} {bytes : List UInt8}
    {b : IpfiInteger w} {m : MessageBuffer} (ha : s.incoming? a = some (k, .response p c tm bytes))
    (hown : s.own (.response k (p, c)) = some b) (hm : s.interface.messages.lookup b = some m) :
    s.part? a = some (m.completeLock, (bytes, tm)) := by
  simp [part?, ha, hown, Interface.getCompleteLock, hm]

theorem part?_of_unmapped {p : ProcedureIndex w} {c : CallIndex w} {tm : Terminator} {bytes : List UInt8}
    (ha : s.incoming? a = some (k, .response p c tm bytes)) (hown : s.own (.response k (p, c)) = none) :
    s.part? a = none := by
  simp [part?, ha, hown]

theorem part?_of_ne (ha : ∀ j p c tm bytes, s.incoming? a ≠ some (j, .response p c tm bytes)) : s.part? a = none := by
  unfold part?
  split
  · exact absurd ‹_› (ha _ _ _ _ _)
  · rfl

variable {n : Nat} {r : ChunkReceiverHandle w}

theorem step_recvRaw (hn : s.Live n (.chunks k r)) :
    s.step checks (.recvRaw n) = s.onSite k r.recvRaw fun _ s => s := by
  simp only [step]
  rw [show s.handles[n]? = _ from hn]

/-- A receiver yields the first chunk in its channel. -/
theorem chunk?_recvRaw (hn : s.Live n (.chunks k r)) (ht : s.site? k = some t) :
    s.chunk? (.recvRaw n) = (t.interface.chans r.rx.rx).queue.head?.map fun c => (n, c) := by
  simp only [chunk?, show s.handles[n]? = _ from hn, ht, Option.bind_some]
  rcases r.recvRaw_cases t with ⟨hend, hr⟩ | ⟨bytes, rest, hq, hr⟩ | ⟨hq, e, hr⟩
  · rw [hr, hend.empty]
    rfl
  · rw [hr, hq]
    rfl
  · rw [hr, hq]
    rfl

theorem chunk?_of_ne (ha : ∀ n, a ≠ .recvRaw n) : s.chunk? a = none := by
  cases a with
  | recvRaw n => exact absurd rfl (ha n)
  | _ => rfl

end World

/-- What keeps a handle from being left behind when its wire ends. -/
structure Watch.Orderly (y : Watch w) (a : Action w) : Prop where
  room : y.world.RoomFor a
  /-- No handle is struck from the idle handles in the place of another one. -/
  gives : ∀ n k h, a = .intoResponseIdx n → y.world.Live n (.call k h) → y.world.Alone n k h.responseIdx
  finishes : ∀ n k r, a = .recvRaw n → y.world.Live n (.chunks k r) → r.Ended y.world.interface →
    y.world.Alone n k r.responseIdx
  /-- A complete response is taken out only if no other handle is held on it. -/
  takes : ∀ n k h, a.takes? = some n → y.world.Live n (.call k h) → y.world.interface.locks h.completeLock = .complete →
    ∀ j k' h', y.world.Live j (.call k' h') → h'.completeLock = h.completeLock → j = n
  /-- Unless the wire has ended before, a receiver is made before any chunk has ended or gone to another receiver. -/
  streams : ∀ n k h, a = .waitChunkStream n → y.world.Live n (.call k h) →
    y.world.interface.locks h.completeLock ≠ .poisoned → y.world.interface.locks h.completeLock = .incomplete ∧
      (∀ q ∈ y.parts h.completeLock, q.2 = .none) ∧
      ∀ j k' r, y.world.Live j (.chunks k' r) → r.rx.completeLock ≠ h.completeLock
  /-- A response that goes to a receiver comes to its end only if no other handle is held on it. -/
  completes : ∀ k p c bytes b m, y.world.incoming? a = some (k, .response p c .complete bytes) →
    y.world.own (.response k (p, c)) = some b → y.world.interface.messages.lookup b = some m → m.sender.isSome →
    ∀ j k' h, y.world.Live j (.call k' h) → h.completeLock ≠ m.completeLock

namespace Watched

variable {y : Watch w} {held : Nat → LockRef → Prop} {checks : Bool} {a : Action w} {k n : Nat} {t t' : Site w}

open World (wire?_of_site? site?_setSite_self)

/-! ### One step -/

/-- What is received, before the wire may end. -/
private theorem received (h : Watched y) (checks : Bool) (hc : y.world.InCustody held)
    (hk : y.world.Known held) (ha : y.Orderly a) (ht : y.world.site? k = some t) {b : Site.ServeAction w}
    (hin : y.world.incoming? a = (b.message? t).map fun m => (k, m)) (hr : t.Received b t') :
    Watched ⟨y.world.setSite k t', (y.step checks a).parts, y.got⟩ ∧ (y.world.setSite k t').InCustody held := by
  obtain ⟨hx, hi⟩ := wire?_of_site? ht
  have hct := hc.site ht
  have hparts : y.world.part? a = none → (y.step checks a).parts = y.parts := fun hp => by simp only [Watch.step, hp]
  cases hr with
  | nothing hno =>
    rw [hparts (World.part?_of_ne fun j p c tm bytes hj => ?_)]
    · exact ⟨h.setWire ht rfl (h.remembers hx rfl), hc.setSite ht id⟩
    · obtain ⟨m, hm, heq⟩ := Option.map_eq_some_iff.1 (hin.symm.trans hj)
      cases heq
      exact hno p c tm bytes hm
  | call p c tm bytes hm =>
    rw [hparts (World.part?_of_ne fun j p' c' tm' bytes' hj => ?_)]
    · have hroom : t.RoomFor (.call p c tm bytes) := ha.room.serves hin ht _ hm
      exact ⟨h.receiveCall hc hk ht hroom tm bytes,
        hc.setSite ht fun ht' => (Site.receiveCall_works ht' hroom tm bytes).custody⟩
    · rw [hin, hm] at hj
      cases hj
  | response p c tm bytes hm =>
    rw [hm] at hin
    refine ⟨?_, hc.setSite ht fun ht' => (Site.receiveResponse_works ht' p c tm bytes).custody⟩
    have hopen : ∀ b', t.wire.responseIdxMap.lookup (p, c) = some b' → t.interface.Open b' :=
      fun b' hb' => hct.response_open hb'
    have hown : y.world.own (.response k (p, c)) = t.wire.responseIdxMap.lookup (p, c) := by
      simp only [World.own, hx]
      rfl
    cases hmap : t.wire.responseIdxMap.lookup (p, c) with
    -- nothing is awaited under this call, so nothing has been heard
    | none =>
      rw [hparts (World.part?_of_unmapped hin (hown.trans hmap))]
      rcases Site.receiveResponse_cases hct.wellFormed hopen tm bytes with ⟨e, hr⟩ | ⟨b', i, haw, -⟩
      · rw [hr]
        exact h.setWire ht rfl (h.remembers hx rfl)
      · cases hmap.symm.trans haw.mapped
    | some b' =>
      obtain ⟨m, hm', ho⟩ := hopen b' hmap
      -- the response is awaited, and the part goes to its buffer
      have haw : t.Awaits p c b' := ⟨Site.ServeAction.running_of_message? hm, hmap⟩
      obtain ⟨i, hr, -⟩ := Site.receivePart_edits hct.wellFormed ⟨m, hm', ho⟩ tm bytes
      have hparts' : (y.step checks a).parts = Watch.heard y.parts m.completeLock (bytes, tm) := by
        simp only [Watch.step, World.part?_of_response hin (hown.trans hmap) (hi ▸ hm')]
      rw [Site.receiveResponse_run haw hr, hparts']
      refine h.receivePart hc hk ht haw hm' (fun htm hs => ?_) hr
      subst htm
      exact ha.completes k p c bytes b' m hin (hown.trans hmap) (hi ▸ hm') hs
  | yields p c e bytes tm hm =>
    rw [hparts (World.part?_of_ne fun j p c tm bytes hj => ?_)]
    · exact ⟨h.yields ht p c e bytes tm, hc.setSite ht fun ht' => ht'.congr rfl
        (congrArg Prod.snd (Site.yielder_calling p c e bytes tm t.wire))
        (congrArg (fun x => x.1.2.2.2) (Site.yielder_calling p c e bytes tm t.wire))⟩
    · rw [hin, hm] at hj
      cases hj

theorem serves (h : Watched y) (hc : y.world.InCustody held) (hk : y.world.Known held) (ha : y.Orderly a)
    (ht : y.world.site? k = some t) {b : Site.ServeAction w}
    (hin : y.world.incoming? a = (b.message? t).map fun m => (k, m)) :
    Watched ⟨y.world.setSite k (t.serveStep b), (y.step checks a).parts, y.got⟩ := by
  obtain ⟨t', hr, hstep⟩ := t.serveStep_received b
  obtain ⟨h', hc'⟩ := h.received checks hc hk ha ht hin hr
  rcases hstep with hstep | hstep <;> rw [hstep]
  · exact h'
  · rw [← World.setSite_setSite y.world k t' t'.markTerminated]
    exact h'.markTerminated hc' hk (site?_setSite_self ht t')

theorem dropWire (h : Watched y) (hc : y.world.InCustody held) (hk : y.world.Known held)
    (ht : y.world.site? k = some t) : Watched ⟨y.world.dropWire k, y.parts, y.got⟩ := by
  have h' := h.markTerminated hc hk ht
  rw [World.dropWire_eq ht]
  refine h'.keeps rfl rfl rfl rfl (fun j x hj => ⟨x, ?_, h'.remembers hj rfl⟩) (fun j x hj hnone => ?_) h'.unused
    fun j g hj => (h'.watches j g hj).congr rfl rfl rfl fun _ _ _ => rfl
  · rw [World.wire?_setClones]
    exact hj
  · rw [World.wire?_setClones] at hj
    cases hnone.symm.trans hj

theorem quiet {s' : World w} (h : Watched y) (hq : World.Quiet y.world s')
    (hnew : ∀ k x, s'.wire? k = some x → y.world.wire? k = none → x.responseIdxMap = ∅) :
    Watched ⟨s', y.parts, y.got⟩ := by
  refine h.keeps hq.messages hq.locks hq.lockCount hq.handles (fun k x hx => ?_) hnew h.unused fun n g hg => ?_
  · obtain ⟨x', hx', htr⟩ := hq.wires hx
    exact ⟨x', hx', h.remembers hx htr⟩
  · exact (h.watches n g hg).congr hq.messages hq.locks hq.chanCount fun _ r _ => congrFun hq.chans _

theorem uses {s' : World w} (h : Watched y) (hc : y.world.InCustody held) (hk : y.world.Known held) (ha : y.Orderly a)
    (hu : World.Uses y.world a s') (hrecv : ∀ n, a ≠ .recvRaw n) : Watched ⟨s', y.parts, y.got⟩ := by
  cases hu with
  | waits _ n k h' t t' hn ht hf =>
    obtain ⟨⟨locks, rfl⟩, -⟩ := hf
    exact h.waits ht locks
  | fails _ n k h' t t' e hn ht hf _ =>
    obtain ⟨⟨locks, rfl⟩, -⟩ := hf
    exact (h.waits ht locks).drops n
  | takes _ n k h' t t' m hact hn ht hr ht' =>
    refine h.takes hc hk ht hn hr (ha.takes n k h' hact hn ?_) ht'
    rw [← (wire?_of_site? ht).2, ← (h.ready ht hn hr).1]
    exact hr.2
  | leaves n decodes k h' t m hn ht hr hs =>
    rw [(h.ready ht hn hr).2] at hs
    cases hs
  | streams n k h' t m hn ht hm => exact h.streams hc hk ht hn hm (ha.streams n k h' rfl hn)
  | gives n k h' t hn ht => exact h.gives ht (ha.gives n k h' rfl hn)
  | receives n | finishes n => exact absurd rfl (hrecv n)
  | drops n => exact h.drops n
  | closes n k r hn => exact h.closes hn

theorem got_recvRaw {r : ChunkReceiverHandle w} (hn : y.world.Live n (.chunks k r)) (ht : y.world.site? k = some t) :
    (y.step checks (.recvRaw n)).got =
      Function.update y.got n (y.got n ++ (t.interface.chans r.rx.rx).queue.head?.toList) := by
  simp only [Watch.step, World.chunk?_recvRaw hn ht]
  cases (t.interface.chans r.rx.rx).queue with
  | nil =>
    show y.got = Function.update y.got n (y.got n ++ [])
    rw [List.append_nil, Function.update_eq_self]
  | cons c rest => rfl

/-- Receiving a chunk. -/
theorem recvRaw (h : Watched y) (ha : y.Orderly (.recvRaw n)) : Watched (y.step checks (.recvRaw n)) := by
  by_cases hlive : ∃ k r, y.world.Live n (.chunks k r)
  · obtain ⟨k, r, hn⟩ := hlive
    obtain ⟨x, hx, -⟩ := h.tracks n _ hn
    have ht : y.world.site? k = some ⟨y.world.interface, x⟩ := World.site?_of_wire? hx
    show Watched ⟨y.world.step checks (.recvRaw n), y.parts, (y.step checks (.recvRaw n)).got⟩
    rw [World.step_recvRaw hn, got_recvRaw hn ht]
    rcases r.recvRaw_cases ⟨y.world.interface, x⟩ with ⟨hend, hr⟩ | ⟨bytes, rest, hq, hr⟩ | ⟨hq, e, hr⟩
    · rw [World.onSite_ok ht hr]
      refine h.receives ht hn (h.remembers_struck hx fun j g hj hgk hid hinc => ?_)
      by_cases hne : j = n
      · subst hne
        obtain rfl := Option.some.inj (Option.some.inj (hj.symm.trans hn))
        exact absurd
          ((ChunkReceiverHandle.Watches.flows (h.watches j _ hn) hinc).senderAlive.symm.trans hend.closed) (by decide)
      · exact ha.finishes n k r rfl hn hend j g hj hne hgk hid hinc
    · rw [World.onSite_ok ht hr]
      exact h.receives ht hn (h.remembers hx rfl)
    · rw [World.onSite_error ht hr]
      exact h.receives ht hn (h.remembers hx rfl)
  · have hstep : y.world.step checks (.recvRaw n) = y.world ∧ y.world.chunk? (.recvRaw n) = none := by
      constructor
      · simp only [World.step]
        split
        · exact absurd ⟨_, _, ‹_›⟩ hlive
        · rfl
      · simp only [World.chunk?]
        split
        · exact absurd ⟨_, _, ‹_›⟩ hlive
        · rfl
    show Watched ⟨y.world.step checks (.recvRaw n), y.parts, (y.step checks (.recvRaw n)).got⟩
    simp only [Watch.step, hstep.1, hstep.2]
    exact h

theorem step (h : Watched y) (hc : y.world.InCustody held) (hk : y.world.Known held) (ha : y.Orderly a) :
    Watched (y.step checks a) := by
  by_cases hrecv : ∃ n, a = .recvRaw n
  · obtain ⟨n, rfl⟩ := hrecv
    exact h.recvRaw ha
  replace hrecv : ∀ n, a ≠ .recvRaw n := fun n hn => hrecv ⟨n, hn⟩
  have hgot : (y.step checks a).got = y.got := by simp only [Watch.step, World.chunk?_of_ne hrecv]
  show Watched ⟨y.world.step checks a, (y.step checks a).parts, (y.step checks a).got⟩
  rw [hgot]
  cases hin : y.world.incoming? a with
  | some km =>
    obtain ⟨b, t, ht, hm, hstep⟩ := World.step_of_incoming? (k := km.1) (m := km.2) checks hin
    rw [hstep]
    exact h.serves hc hk ha ht (by rw [hin, hm]; rfl)
  | none =>
    have hserves : ∀ k b t, y.world.site? k = some t → y.world.incoming? a = (b.message? t).map (fun m => (k, m)) →
        Watched ⟨y.world.setSite k (t.serveStep b), (y.step checks a).parts, y.got⟩ := fun k b t ht hin' =>
      h.serves hc hk ha ht hin'
    have hparts : (y.step checks a).parts = y.parts := by
      simp only [Watch.step, World.part?_of_ne (a := a) (s := y.world) (by simp [hin])]
    rw [hparts] at hserves ⊢
    have hstep : World.Happens y.world a (y.world.step checks a) := hc.happens a
    have hnew : ∀ k x, (y.world.step checks a).wire? k = some x → y.world.wire? k = none → x.responseIdxMap = ∅ :=
      fun _ _ => World.responses_of_new
    generalize y.world.step checks a = s' at hstep hnew
    cases hstep with
    | quiet _ _ hq => exact h.quiet hq hnew
    | starts k p args t ht hcan =>
      exact h.allots (t.started p args) hc hk ht (ha.room.calls rfl ht hcan) rfl rfl rfl (.inl rfl)
    | calls k p args t ht hcan => exact h.calls hc hk ht (ha.room.calls rfl ht hcan) hcan.running args
    | ends k p c t b m ht haw hm => exact h.ends ht haw hm _
    | serves _ k b t _ ht hin' => exact hserves k b t ht hin'
    | drops k t ht => exact h.dropWire hc hk ht
    | uses _ _ hu => exact h.uses hc hk ha hu hrecv

/-! ### Runs -/

/-- The locks of handles that are new are known to their wires. -/
private theorem known_happens {s' : World w} (h : Watched y) (hk : y.world.Known held)
    (hstep : World.Happens y.world a s') {g : Handle w} (hg : s'.Live n g) :
    held g.wire g.lock ∨ s'.Idle g.wire g.lock := by
  have hset : ∀ {j t₀} (t' : Site w) {b l}, y.world.site? j = some t₀ → t'.wire.idleCallHandles.lookup b = some l →
      ∀ g', ((y.world.setSite j t').addHandle g').Idle j l := by
    intro j t₀ t' b l ht hl g'
    exact ⟨t'.wire, World.wire?_setSite_self ht t', AList.mem_values.2 ⟨_, hl⟩⟩
  cases hstep with
  | quiet _ _ hq => exact .inl (hk n g ((congrArg (·[n]?) hq.handles).symm.trans hg))
  | starts | serves => exact .inl (hk n g hg)
  | drops k t ht =>
    rw [World.dropWire_eq ht] at hg
    exact .inl (hk n g hg)
  | calls k p args t ht _ =>
    rcases World.handles_addHandle hg with hg | ⟨-, rfl⟩
    · exact .inl (hk n g hg)
    · exact .inr (hset (t.called p args) ht (AList.lookup_insert _) _)
  | ends k p c t b m ht _ _ =>
    rcases World.handles_addHandle hg with hg | ⟨-, rfl⟩
    · exact .inl (hk n g hg)
    · exact .inr (hset ((t.queued _).handled b m.completeLock) ht (AList.lookup_insert _) _)
  | uses _ _ hu =>
    left
    cases hu with
    | waits | receives | finishes => exact hk n g hg
    | fails | takes | leaves | gives | drops | closes =>
      rcases World.handles_setHandle hg with ⟨hg, -⟩ | ⟨-, hg⟩
      · exact hk n g hg
      · cases hg
    | streams j k h' t m hj ht hm =>
      rcases World.handles_setHandle hg with ⟨hg, -⟩ | ⟨-, hg⟩
      · exact hk n g hg
      · obtain ⟨m', hm', hl, -⟩ := (h.watches j _ hj).1.message
        obtain rfl := Option.some.inj (((wire?_of_site? ht).2 ▸ hm').symm.trans hm)
        cases hg
        show held k m'.completeLock
        rw [hl]
        exact hk j _ hj

private theorem new_watched : Watched (.new : Watch w) where
  fresh _ _ := rfl
  unused _ _ := rfl
  arrives k x call b m hx := by cases hx
  watches n g hg := by cases hg
  apart n n' k k' r r' hg := by cases hg
  tracks n g hg := by cases hg

theorem run (hy : Reaches (Watch.step checks) Watch.Orderly .new y) :
    Watched y ∧ ∃ held, y.world.InCustody held ∧ y.world.Known held := by
  refine hy.invariant (I := fun y => Watched y ∧ ∃ held, y.world.InCustody held ∧ y.world.Known held)
    ⟨new_watched, _, World.new_inCustody, fun n g hg => by cases hg⟩ ?_
  rintro y a ⟨h, held, hc, hk⟩ ha
  refine ⟨h.step hc hk ha, fun k l => held k l ∨ (y.world.step checks a).Idle k l, ?_, fun n g hg =>
    known_happens h hk (hc.happens a) hg⟩
  show Custody (y.world.step checks a).interface (y.world.step checks a).own fun k l =>
    (held k l ∨ (y.world.step checks a).Idle k l) ∨ (y.world.step checks a).Idle k l
  simp only [or_assoc, or_self]
  exact hc.step ha.room

end Watched

/-! ### What the handles of a wire that has ended still give -/

namespace CallHandle

/-- Waiting returns the whole response. -/
structure Whole (h : CallHandle w) (t : Site w) (parts : List Part) : Prop where
  lock : t.interface.locks h.completeLock = .complete
  ends : EndsInComplete parts
  waitBytes : ∃ t', h.waitBytes.run t = .ok (chunksOf parts) t'
  wait : ∀ decodes chunk, (chunksOf parts).head? = some chunk → decodes chunk = true →
    ∃ t', (CallHandle.wait decodes h).run t = .ok chunk t'
  waitChunks : ∀ decodes, (chunksOf parts).all decodes = true →
    ∃ t', (CallHandle.waitChunks decodes h).run t = .ok (some (chunksOf parts)) t'

/-- Waiting fails. -/
structure Poisoned (h : CallHandle w) (t : Site w) : Prop where
  lock : t.interface.locks h.completeLock = .poisoned
  waitBytes : h.waitBytes.run t = .error (.error (.lockPoisoned h.responseIdx)) t
  wait : ∀ decodes, (CallHandle.wait decodes h).run t = .error (.error (.lockPoisoned h.responseIdx)) t
  waitChunks : ∀ decodes, (CallHandle.waitChunks decodes h).run t = .error (.error (.lockPoisoned h.responseIdx)) t

end CallHandle

namespace ChunkReceiverHandle

/-- Receives a number of chunks. -/
def recvMany (r : ChunkReceiverHandle w) : Nat → Op (Error w) (Site w) (List (Option (List UInt8)))
  | 0 => pure []
  | n + 1 => do
    let chunk ← r.recvRaw
    let chunks ← r.recvMany n
    pure (chunk :: chunks)

/-- The chunks that have not been received yet are received, and nothing after them. -/
structure Whole (r : ChunkReceiverHandle w) (t : Site w) (parts : List Part) (got : List (List UInt8)) : Prop where
  lock : t.interface.locks r.rx.completeLock = .complete
  ends : EndsInComplete parts
  recvRaw : ∃ rest t' t'', got ++ rest = chunksOf parts ∧ (r.recvMany rest.length).run t = .ok (rest.map some) t' ∧
    r.recvRaw.run t' = .ok none t''

/-- What is left in the channel is received, and then receiving fails. -/
structure Poisoned (r : ChunkReceiverHandle w) (t : Site w) : Prop where
  lock : t.interface.locks r.rx.completeLock = .poisoned
  recvRaw : ∃ (rest : List (List UInt8)) (t' t'' : Site w), (r.recvMany rest.length).run t = .ok (rest.map some) t' ∧
    r.recvRaw.run t' = .error (.error (.lockPoisoned r.rx.messageId)) t''

/-- Receiving what is in the channel empties it. -/
theorem recvMany_run (r : ChunkReceiverHandle w) (t : Site w) :
    ∃ t', (r.recvMany (t.interface.chans r.rx.rx).queue.length).run t = .ok ((t.interface.chans r.rx.rx).queue.map some)
      t' ∧ (t'.interface.chans r.rx.rx).queue = [] ∧ t'.interface.locks = t.interface.locks ∧
      (t'.interface.chans r.rx.rx).senderAlive = (t.interface.chans r.rx.rx).senderAlive := by
  generalize hq : (t.interface.chans r.rx.rx).queue = cs
  induction cs generalizing t with
  | nil => exact ⟨t, rfl, hq, rfl, rfl⟩
  | cons c cs ih =>
    have hchan : (r.received t).interface.chans r.rx.rx = { t.interface.chans r.rx.rx with queue := cs } := by
      apply (Function.update_self ..).trans
      rw [hq]
      rfl
    obtain ⟨t', hr, hempty, hlocks, hsender⟩ := ih (r.received t) (by rw [hchan])
    refine ⟨t', ?_, hempty, hlocks, ?_⟩
    · show (do let chunk ← r.recvRaw; let chunks ← r.recvMany cs.length; pure (chunk :: chunks)).run t = _
      rw [EStateM.run_bind_ok (recvRaw_cons r hq), EStateM.run_bind_ok hr]
      rfl
    · rw [hsender, hchan]

end ChunkReceiverHandle

namespace Handle

/-- The handle gives the whole response, or it fails. -/
def Released (g : Handle w) (t : Site w) (parts : List Part) (got : List (List UInt8)) : Prop :=
  match g with
  | .call _ h => h.Whole t parts ∨ h.Poisoned t
  | .chunks _ r => r.Whole t parts got ∨ r.Poisoned t

variable {g : Handle w} {t : Site w} {parts : List Part} {got : List (List UInt8)}

theorem Watches.released (h : g.Watches t.interface parts got) (hl : t.interface.locks g.lock ≠ .incomplete) :
    g.Released t parts got := by
  cases g with
  | call k h' =>
    obtain ⟨⟨⟨m, hm, hlock, hholds, hs⟩, hwhole⟩, -⟩ := h
    cases hst : t.interface.locks h'.completeLock with
    | incomplete => exact absurd hst hl
    | complete =>
      have hready : h'.Ready t m := ⟨hm, hlock ▸ hst⟩
      have hchunks := hholds (.inl (hs hst))
      left
      exact ⟨hst, hwhole hst, ⟨_, hchunks ▸ CallHandle.waitBytes_ready hready⟩,
        fun decodes chunk hc hd => ⟨_, CallHandle.wait_ready hready (hchunks ▸ hc) hd⟩,
        fun decodes hd => ⟨_, hchunks ▸ CallHandle.waitChunks_ready hready (hs hst) (hchunks ▸ hd)⟩⟩
    | poisoned =>
      have hfails := CallHandle.wait_poisoned hm (hlock ▸ hst)
      exact .inr
        ⟨hst, (hfails fun _ => true).1, fun decodes => (hfails decodes).2.1, fun decodes => (hfails decodes).2.2⟩
  | chunks k r =>
    obtain ⟨t', hr, hempty, hlocks, hsender⟩ := r.recvMany_run t
    cases hst : t.interface.locks r.rx.completeLock with
    | incomplete => exact absurd hst hl
    | complete =>
      obtain ⟨hdrains, hends⟩ := ChunkReceiverHandle.Watches.drains h hst
      have hend : r.Ended t'.interface := ⟨hempty, hsender.trans hdrains.senderAlive, by rw [hlocks, hst]; decide⟩
      exact .inl ⟨hst, hends, _, t', _, hdrains.chunks, hr, r.recvRaw_ended hend⟩
    | poisoned => exact .inr ⟨hst, _, t', _, hr, r.recvRaw_poisoned hempty (hlocks ▸ hst)⟩

end Handle

/-- In every run of orderly steps, the handles of a wire that has ended give the whole response or fail, a running wire
knows the locks of those of its handles that wait, and the end of a wire poisons no lock of a handle of another one. -/
theorem Watch.handles_released {checks : Bool} {y : Watch w} (hy : Reaches (Watch.step checks) Watch.Orderly .new y) :
    (∀ n g t, y.world.Live n g → y.world.site? g.wire = some t → t.wire.terminated = true →
      g.Released t (y.parts g.lock) (y.got n)) ∧
    (∀ n g t, y.world.Live n g → y.world.site? g.wire = some t → t.wire.terminated = false →
      t.interface.locks g.lock = .incomplete → t.wire.idleCallHandles.lookup g.responseIdx = some g.lock) ∧
    ∀ n g k t, y.world.Live n g → g.wire ≠ k → y.world.site? k = some t →
      t.markTerminated.interface.locks g.lock = t.interface.locks g.lock := by
  obtain ⟨h, held, hc, hk⟩ := Watched.run hy
  refine ⟨fun n g t hg ht hend => ?_, fun n g t hg ht hrun hinc => ?_, fun n g k t hg hne ht => ?_⟩
  · obtain ⟨hx, hi⟩ := World.wire?_of_site? ht
    obtain ⟨x, hx', htr⟩ := h.tracks n g hg
    obtain rfl := Option.some.inj (hx'.symm.trans hx)
    exact Handle.Watches.released (hi ▸ h.watches n g hg) (hi ▸ htr.ended hend)
  · obtain ⟨hx, hi⟩ := World.wire?_of_site? ht
    exact h.idle hx hg rfl hrun (hi ▸ hinc)
  · rw [h.locks_markTerminated_ne hc hk ht hg hne, (World.wire?_of_site? ht).2]

/-! ### One connection -/

namespace Watch

private def connect : Action .u8 := .newWire false 3

private def call : Action .u8 := .callWithBytes 0 ⟨0⟩ .empty

/-- The whole response to the first call. -/
private def respond : Action .u8 := .receiveOne 0 (Message.response ⟨0⟩ ⟨0⟩ .complete .empty : Message .u8).toBytes

/-- The peer terminates the connection. -/
private def disconnect : Action .u8 := .receiveOne 0 (Message.termination : Message .u8).toBytes

private def after (actions : List (Action .u8)) : Watch .u8 := actions.foldl (Watch.step true) .new

private abbrev OrderlyRun (y : Watch .u8) : Prop := Reaches (Watch.step true) Watch.Orderly .new y

/-- An action that uses no handle, and makes no response come to its end. -/
private theorem orderly_of_unused {y : Watch .u8} {a : Action .u8} (hroom : y.world.RoomFor a)
    (huses : ∀ n, a ≠ .intoResponseIdx n ∧ a ≠ .recvRaw n ∧ a ≠ .waitChunkStream n) (htakes : a.takes? = none)
    (hin : ∀ k p c bytes, y.world.incoming? a ≠ some (k, .response p c .complete bytes)) : y.Orderly a where
  room := hroom
  gives n k h ha := absurd ha (huses n).1
  finishes n k r ha := absurd ha (huses n).2.1
  takes n k h ha := by cases htakes.symm.trans ha
  streams n k h ha := absurd ha (huses n).2.2
  completes k p c bytes b m ha := absurd ha (hin k p c bytes)

private theorem connect_orderly : OrderlyRun (after [connect]) := by
  refine .next (a := connect) .start
    (orderly_of_unused (fun _ => show _ < 2 ^ 8 by decide) (by simp [connect]) rfl ?_)
  intro k p c bytes hin; cases hin

private theorem call_orderly : OrderlyRun (after [connect, call]) := by
  refine connect_orderly.next (a := call)
    (orderly_of_unused (fun _ => show _ < 2 ^ 8 by decide) (by simp [call]) rfl ?_)
  intro k p c bytes hin; cases hin

private theorem respond_orderly : OrderlyRun (after [connect, call, respond]) := by
  refine call_orderly.next (a := respond) ⟨fun _ => show _ < 2 ^ 8 by decide, ?_, ?_, ?_, ?_, ?_⟩
  · intro n k h hab; cases hab
  · intro n k r hab; cases hab
  · intro n k h hab; cases hab
  · intro n k h hab; cases hab
  · intro k p c bytes b m hin hown hm hs
    cases hin
    cases hown
    cases hm
    cases hs

private theorem call_again_orderly : OrderlyRun (after [connect, call, respond, call]) := by
  refine respond_orderly.next (a := call)
    (orderly_of_unused (fun _ => show _ < 2 ^ 8 by decide) (by simp [call]) rfl ?_)
  intro k p c bytes hin; cases hin

private theorem disconnect_orderly : OrderlyRun (after [connect, call, respond, call, disconnect]) := by
  refine call_again_orderly.next (a := disconnect)
    (orderly_of_unused (fun _ => show _ < 2 ^ 8 by decide) (by simp [disconnect]) rfl ?_)
  intro k p c bytes hin; cases hin

/-- The wire of a run on which two calls were made and one answered. -/
private def ended : Site .u8 :=
  ((after [connect, call, respond, call, disconnect]).world.site? 0).getD ⟨.new, .new ⟨0⟩ false 3⟩

/-- One handle whose response is there, and one that is left waiting. -/
theorem handles_released_connection :
    (Handle.call 0 ⟨0, 0⟩ : Handle .u8).Released ended [([], .complete)] [] ∧
      (Handle.call 0 ⟨1, 1⟩ : Handle .u8).Released ended [] [] :=
  have h := (handles_released disconnect_orderly).1
  ⟨h 0 (.call 0 ⟨0, 0⟩) _ rfl rfl rfl, h 1 (.call 0 ⟨1, 1⟩) _ rfl rfl rfl⟩

/-- A receiver comes to its end when the identifier of its response has already been given to another call, whose handle
it then strikes from the idle handles.  When the peer terminates the connection that handle waits for ever. -/
theorem not_handles_released :
    ¬ ∀ (y : Watch .u8), Reaches (Watch.step true) (fun _ _ => True) .new y → ∀ n g t, y.world.Live n g →
      y.world.site? g.wire = some t → t.wire.terminated = true → g.Released t (y.parts g.lock) (y.got n) := by
  intro h
  have hrun : Reaches (Watch.step true) (fun _ _ => True) .new
      (after [connect, call, .waitChunkStream 0, respond, call, .recvRaw 0, .recvRaw 0, disconnect]) :=
    Reaches.start.foldl _ fun _ _ _ => trivial
  rcases h _ hrun 1 (.call 0 ⟨0, 1⟩) _ rfl rfl rfl with hwhole | hpoisoned
  · cases hwhole.lock
  · cases hpoisoned.lock

end Watch

end Ipfi
