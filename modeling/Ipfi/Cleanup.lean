import Ipfi.Handles

/-!
# What is left of the calls of a wire

The buffer of a response is awaited by a running wire, or it is complete and there is a handle left to take it out, as
long as no wire is ended while it still awaits responses and no response is abandoned.  Then nothing is left of a wire
once it is terminated and its handles are used up, and the identifiers of its responses wait for reuse.
-/

namespace Ipfi

variable {w : IntFeature}

open Interface (Evolves Same Recycles)

/-! ### Serving a wire -/

namespace Site

variable {t t' : Site w} {x : Surroundings w} {a : ServeAction w} {b : IpfiInteger w} {m : MessageBuffer}
  {call : ProcedureIndex w × CallIndex w}

private theorem yielder_responses (p : ProcedureIndex w) (c : CallIndex w) (e : Nat) (bytes : Payload) (tm : Terminator)
    (y : Wire w) : ((Wire.yielder p c e bytes tm).run y).state.responseIdxMap = y.responseIdxMap :=
  congrArg Prod.snd (yielder_calling p c e bytes tm y)

private theorem own_yield (p : ProcedureIndex w) (c : CallIndex w) (e : Nat) (bytes : Payload) (tm : Terminator) :
    own { t with wire := ((Wire.yielder p c e bytes tm).run t.wire).state } x = t.own x := by
  funext o
  cases o with
  | args key => rfl
  | response k call => simp only [own, yielder_responses]

/-- A completed message that nothing holds is left alone. -/
theorem serveStep_unheld (h : t.InCustody x) (hroom : ∀ m, a.message? t = some m → t.RoomFor m) (hb : t.Unheld x b)
    (hm : t.interface.messages.lookup b = some m) (hl : t.interface.locks m.completeLock = .complete) :
    Same t.interface (t.serveStep a).interface b := by
  refine (serveStep_invariant (I := fun t' => t'.InCustody x ∧ t'.Unheld x b ∧ Same t.interface t'.interface b)
    (fun _ => ⟨h, hb, .rfl⟩) (fun p c tm bytes hmsg => ?_) (fun p c tm bytes hmsg => ?_) (fun t' ht' => ?_)
    fun e p c args f bytes tm _ _ => ?_).2.2
  · obtain ⟨hsame, hb'⟩ := receive_unheld h (hroom _ hmsg) (by simp) hb
    exact ⟨(receiveCall_works h (hroom _ hmsg) tm bytes).custody, hb', hsame⟩
  · obtain ⟨hsame, hb'⟩ := receive_unheld h (hroom _ hmsg) (by simp) hb
    exact ⟨(receiveResponse_works h p c tm bytes).custody, hb', hsame⟩
  · obtain ⟨hcustody, hb', hsame⟩ := ht'
    obtain ⟨hm', hl', -⟩ := hsame m hm
    obtain ⟨hsame', hb''⟩ := markTerminated_unheld hcustody hb' hm' (hl'.trans hl)
    exact ⟨(markTerminated_confines hcustody).custody, hb'', hsame.trans hsame'⟩
  · have hcalling := yielder_calling p c e bytes tm t.wire
    refine ⟨h.congr rfl (yielder_responses p c e bytes tm t.wire) (congrArg (fun y => y.1.2.2.2) hcalling),
      ⟨hb.mem, fun o => ?_⟩, .rfl⟩
    rw [own_yield]
    exact hb.free o

/-- The response of the call has come to its end. -/
structure Answered (t : Site w) (a : ServeAction w) (call : ProcedureIndex w × CallIndex w) (b : IpfiInteger w)
    (m : MessageBuffer) (t' : Site w) : Prop where
  message : ∃ bytes, a.message? t = some (.response call.1 call.2 .complete bytes)
  complete : ∀ {m'}, t'.interface.messages.lookup b = some m' → t'.interface.locks m'.completeLock = .complete
  gone : ∀ {ch}, m.sender = some (some ch) → (t.interface.chans ch).receiverAlive = true → b ∉ t'.interface.messages

private theorem receiveResponse_awaited (h : t.InCustody x) (hb : t.wire.responseIdxMap.lookup call = some b)
    (hm : t.interface.messages.lookup b = some m) {p : ProcedureIndex w} {c : CallIndex w} {tm : Terminator}
    {bytes : List UInt8} (hmsg : a.message? t = some (.response p c tm bytes)) :
    (((receiveResponse p c tm bytes).run t).state.wire.responseIdxMap.lookup call = some b ∧
      ((receiveResponse p c tm bytes).run t).state.interface.Open b) ∨
    t.Answered a call b m ((receiveResponse p c tm bytes).run t).state := by
  have hworks := receiveResponse_works h p c tm bytes
  by_cases hcall : call = (p, c) ∧ tm = .complete
  · obtain ⟨rfl, rfl⟩ := hcall
    have hopen := h.response_open hb
    obtain ⟨m', hm', ho⟩ := hopen
    obtain rfl := Option.some.inj (hm.symm.trans hm')
    obtain ⟨i, hr, hcomplete, hgone⟩ := Interface.receivePart_complete_settles h.wellFormed hm ho bytes
    rw [receiveResponse_run ⟨ServeAction.running_of_message? hmsg, hb⟩ hr]
    exact .inr ⟨⟨bytes, hmsg⟩, hcomplete, hgone⟩
  · left
    have hmap : ((receiveResponse p c tm bytes).run t).state.wire.responseIdxMap.lookup call = some b := by
      rcases receiveResponse_cases h.wellFormed (fun b hb => h.response_open hb) tm bytes with ⟨e, hr⟩ |
        ⟨b', i, -, hr, -, -⟩
      · rw [hr]
        exact hb
      · rw [hr]
        show (afterPart t p c tm i).wire.responseIdxMap.lookup call = some b
        unfold afterPart
        split
        · exact (AList.lookup_erase_eq _ _ _).trans ((if_neg fun heq => hcall ⟨heq, ‹_›⟩).trans hb)
        · exact hb
    exact ⟨hmap, hworks.custody.response_open hmap⟩

/-- What is awaited stays so while the wire runs, until its response has come to its end. -/
theorem serveStep_awaited (h : t.InCustody x) (hroom : ∀ m, a.message? t = some m → t.RoomFor m)
    (hb : t.wire.responseIdxMap.lookup call = some b) (hm : t.interface.messages.lookup b = some m)
    (hrun : (t.serveStep a).wire.terminated = false) :
    ((t.serveStep a).wire.responseIdxMap.lookup call = some b ∧ (t.serveStep a).interface.Open b) ∨
      t.Answered a call b m (t.serveStep a) := by
  have hopen := h.response_open hb
  refine (serveStep_invariant (I := fun t' => t'.wire.terminated = true ∨
    (t'.wire.responseIdxMap.lookup call = some b ∧ t'.interface.Open b) ∨ t.Answered a call b m t')
    (fun _ => .inr (.inl ⟨hb, hopen⟩)) (fun p c tm bytes hmsg => .inr (.inl ?_))
    (fun p c tm bytes hmsg => .inr (receiveResponse_awaited h hb hm hmsg)) (fun _ _ => .inl rfl)
    fun e p c args f bytes tm _ _ => .inr (.inl ⟨?_, hopen⟩)).resolve_left (by simp [hrun])
  · have hmap : ((receiveCall p c tm bytes).run t).state.wire.responseIdxMap = t.wire.responseIdxMap :=
      congrArg Prod.snd (receiveCall_calling p c tm bytes t).2
    have hb' := (congrArg (AList.lookup call) hmap).trans hb
    exact ⟨hb', (receiveCall_works h (hroom _ hmsg) tm bytes).custody.response_open hb'⟩
  · exact (congrArg (AList.lookup call) (yielder_responses p c e bytes tm t.wire)).trans hb

end Site

/-! ### Response buffers -/

/-- A response buffer that was allotted to a call on a wire, with the lock that tells it from other messages under the
same identifier. -/
structure Allotment (w : IntFeature) where
  wire : Nat
  id : IpfiInteger w
  lock : LockRef

/-- The wire that a handle was obtained from. -/
def Handle.wire : Handle w → Nat
  | .call k _ | .chunks k _ => k

/-- The uses of a handle that leave a complete message where it is. -/
def Action.Abandons (a : Action w) (n : Nat) (m : MessageBuffer) : Prop :=
  a = .dropHandle n ∨ a = .intoResponseIdx n ∨ a = .waitChunkStream n ∨
    (∃ decodes, a = .waitChunks n decodes) ∧ m.sender.isSome

namespace World

variable {s s' : World w} {held : Nat → LockRef → Prop} {checks : Bool} {e : Allotment w} {k : Nat} {t t' : Site w}
  {a : Action w}

/-- The response buffer that is allotted to a call in a step. -/
def allotments (s s' : World w) : Action w → List (Allotment w)
  | .startCall k _ _ | .callWithBytes k _ _ =>
    if s.interface.lockCount < s'.interface.lockCount then [⟨k, s.interface.push.1, s.interface.lockCount⟩] else []
  | _ => []

/-- A step, and all response buffers allotted so far. -/
def allot (checks : Bool) (y : World w × List (Allotment w)) (a : Action w) : World w × List (Allotment w) :=
  (y.1.step checks a, y.2 ++ y.1.allotments (y.1.step checks a) a)

/-- A running wire expects a response in the buffer. -/
def Awaited (s : World w) (e : Allotment w) : Prop :=
  ∃ x call, s.wire? e.wire = some x ∧ x.terminated = false ∧ x.responseIdxMap.lookup call = some e.id

/-- There is a handle of the wire on the message with the lock. -/
def Handled (s : World w) (k : Nat) (l : LockRef) : Prop :=
  ∃ (n : Nat) (h : CallHandle w), s.handles[n]? = some (some (.call k h)) ∧ h.completeLock = l

/-- What keeps the response buffers accounted for. -/
structure Careful (checks : Bool) (s : World w) (a : Action w) : Prop where
  room : s.RoomFor a
  /-- No call gets an index under which a response is still awaited. -/
  fresh : ∀ {k p args t}, a = .startCall k p args ∨ a = .callWithBytes k p args → s.site? k = some t →
    (p, t.nextIdx p) ∉ t.wire.responseIdxMap
  /-- No wire is ended while it still awaits a response. -/
  ends : ∀ {k x x'}, s.wire? k = some x → (s.step checks a).wire? k = some x' → x.terminated = false →
    x'.terminated = true → x.responseIdxMap = ∅
  /-- A response ends only while its receiver or a handle on it is held. -/
  responds : ∀ {k p c bytes t b m}, s.incoming? a = some (k, .response p c .complete bytes) → s.site? k = some t →
    t.wire.responseIdxMap.lookup (p, c) = some b → t.interface.messages.lookup b = some m →
    (∃ ch, m.sender = some (some ch) ∧ (t.interface.chans ch).receiverAlive = true) ∨ s.Handled k m.completeLock
  /-- The last handle on a complete response is used to take it out. -/
  takes : ∀ {n k : Nat} {h : CallHandle w} {m : MessageBuffer}, a.Abandons n m →
    s.handles[n]? = some (some (.call k h)) → s.interface.messages.lookup h.responseIdx = some m →
    m.completeLock = h.completeLock → s.interface.locks m.completeLock = .complete → ∃ (n' : Nat) (h' : CallHandle w),
    n' ≠ n ∧ s.handles[n']? = some (some (.call k h')) ∧ h'.completeLock = h.completeLock

/-- The buffer is awaited, or it is complete and there is a handle on it. -/
def Placed (s : World w) (e : Allotment w) : Prop :=
  s.interface.locks e.lock ≠ .complete ∧ s.Awaited e ∨ s.interface.locks e.lock = .complete ∧ s.Handled e.wire e.lock

structure Kept (s : World w) (e : Allotment w) : Prop where
  lt : e.lock < s.interface.lockCount
  id : ∀ {b m}, s.interface.messages.lookup b = some m → m.completeLock = e.lock → b = e.id
  handle : ∀ {n k : Nat} {h : CallHandle w}, s.handles[n]? = some (some (.call k h)) → h.completeLock = e.lock →
    k = e.wire ∧ h.responseIdx = e.id
  placed : ∀ {m}, s.interface.messages.lookup e.id = some m → m.completeLock = e.lock → s.Placed e

/-- The locks that handles know have been made. -/
def HandlesLt (s : World w) : Prop :=
  ∀ (n k : Nat) (h : CallHandle w), s.handles[n]? = some (some (.call k h)) → h.completeLock < s.interface.lockCount

/-! ### Steps -/

theorem Handled.mono {l : LockRef} (h : s.Handled k l)
    (hn : ∀ {n : Nat} {h : CallHandle w}, s.handles[n]? = some (some (.call k h)) → h.completeLock = l →
      s'.handles[n]? = some (some (.call k h))) : s'.Handled k l := by
  obtain ⟨n, h', hn', hl⟩ := h
  exact ⟨n, h', hn hn' hl, hl⟩

theorem Awaited.setSite (h : s.Awaited e) (ht : s.site? k = some t) (hterm : t'.wire.terminated = t.wire.terminated)
    (hmap : ∀ {call b}, t.wire.responseIdxMap.lookup call = some b → t'.wire.responseIdxMap.lookup call = some b) :
    (s.setSite k t').Awaited e := by
  obtain ⟨x, call, hx, hrun, hcall⟩ := h
  by_cases hk : e.wire = k
  · obtain rfl := Option.some.inj ((hk ▸ hx).symm.trans (wire?_of_site? ht).1)
    exact ⟨t'.wire, call, hk ▸ wire?_setSite_self ht t', hterm.trans hrun, hmap hcall⟩
  · exact ⟨x, call, (wire?_setSite_ne s t' hk).trans hx, hrun, hcall⟩

theorem Awaited.owns (h : s.Awaited e) : ∃ call, s.own (.response e.wire call) = some e.id := by
  obtain ⟨x, call, hx, -, hcall⟩ := h
  refine ⟨call, ?_⟩
  simp only [own, hx]
  exact hcall

/-- A handle that is obtained on the buffer is one of its wire. -/
theorem Kept.obtains (h : s.Kept e) (hc : s.InCustody held) {h' : CallHandle w} (hn : Obtains s a s' k h')
    (hl : h'.completeLock = e.lock) : k = e.wire ∧ h'.responseIdx = e.id := by
  cases hn with
  | calls => exact absurd (hl ▸ h.lt) (Nat.lt_irrefl _)
  | ends t p c b m _ ht ha hm =>
    obtain ⟨hx, hi⟩ := wire?_of_site? ht
    replace hl : m.completeLock = e.lock := hl
    rw [hi] at hm
    obtain rfl := h.id hm hl
    have hown : s.own (.response k (p, c)) = some e.id := by
      simp only [own, hx]
      exact ha.mapped
    obtain ⟨m', hm', ho⟩ := hc.opened hown
    obtain rfl := Option.some.inj (hm.symm.trans hm')
    rcases h.placed hm hl with ⟨-, haw⟩ | ⟨hcomp, -⟩
    · obtain ⟨call, hcall⟩ := haw.owns
      exact ⟨(Owner.response.inj (hc.inj hown hcall)).1, rfl⟩
    · exact absurd (hl ▸ hcomp) ho

theorem Kept.passes (h : s.Kept e) (hc : s.InCustody held) (hages : Ages s.interface s'.interface)
    (hhandle : ∀ {n k : Nat} {h : CallHandle w}, s'.handles[n]? = some (some (.call k h)) →
      s.handles[n]? = some (some (.call k h)) ∨ Obtains s a s' k h)
    (hacc : ∀ {m m'}, s.interface.messages.lookup e.id = some m → s'.interface.messages.lookup e.id = some m' →
      m.completeLock = e.lock → m'.completeLock = e.lock → s.Placed e → s'.Placed e) : s'.Kept e where
  lt := h.lt.trans_le hages.lockCount
  id hm' hl := by
    rcases hages.kept hm' with ⟨m, hm, hl'⟩ | hnew
    · exact h.id hm (hl'.trans hl)
    · exact absurd (h.lt.trans_le (hl ▸ hnew)) (Nat.lt_irrefl _)
  handle hn hl := by
    rcases hhandle hn with hn | hn
    · exact h.handle hn hl
    · exact h.obtains hc hn hl
  placed hm' hl := by
    rcases hages.kept hm' with ⟨m, hm, hl'⟩ | hnew
    · exact hacc hm hm' (hl'.trans hl) hl (h.placed hm (hl'.trans hl))
    · exact absurd (h.lt.trans_le (hl ▸ hnew)) (Nat.lt_irrefl _)

theorem Placed.calm (h : s.Placed e) (hlock : s'.interface.locks e.lock = s.interface.locks e.lock)
    (haw : s.Awaited e → s'.Awaited e) (hhandled : s.Handled e.wire e.lock → s'.Handled e.wire e.lock) :
    s'.Placed e := by
  rw [Placed, hlock]
  exact h.imp (And.imp_right haw) (And.imp_right hhandled)

theorem Placed.setSite (h : s.Placed e) (ht : s.site? k = some t)
    (hlock : t'.interface.locks e.lock = t.interface.locks e.lock) (hterm : t'.wire.terminated = t.wire.terminated)
    (hmap : ∀ {call b}, t.wire.responseIdxMap.lookup call = some b → t'.wire.responseIdxMap.lookup call = some b) :
    (s.setSite k t').Placed e := by
  refine h.calm ?_ (fun haw => haw.setSite ht hterm hmap) fun hh => hh
  show t'.interface.locks e.lock = _
  rw [hlock, (wire?_of_site? ht).2]

theorem Placed.addHandle (h : s.Placed e) (g : Handle w) : (s.addHandle g).Placed e := by
  refine h.calm rfl (fun haw => haw) fun hh => hh.mono fun {n h'} hn _ => ?_
  obtain ⟨hlt, -⟩ := List.getElem?_eq_some_iff.1 hn
  exact (List.getElem?_append_left hlt).trans hn

/-- A handle may go if there is another one, or if the response is not complete. -/
theorem Placed.setHandle (h : s.Placed e)
    {n : Nat} (hlast : s.interface.locks e.lock = .complete → ∀ {h' : CallHandle w},
    s.handles[n]? = some (some (.call e.wire h')) → h'.completeLock = e.lock → ∃ (n' : Nat) (h'' : CallHandle w),
    n' ≠ n ∧ s.handles[n']? = some (some (.call e.wire h'')) ∧ h''.completeLock = e.lock) (g : Option (Handle w)) :
    (s.setHandle n g).Placed e := by
  rcases h with ⟨hl, haw⟩ | ⟨hl, n', h', hn', hlock⟩
  · exact .inl ⟨hl, haw⟩
  · right
    by_cases hne : n' = n
    · subst hne
      obtain ⟨j, h'', hne, hj, hlock'⟩ := hlast hl hn' hlock
      exact ⟨hl, j, h'', (handles_setHandle_ne s g hne).trans hj, hlock'⟩
    · exact ⟨hl, n', h', (handles_setHandle_ne s g hne).trans hn', hlock⟩

/-- Nothing but a call of its own owns what is awaited, and nothing at all what is complete. -/
private theorem unheld_of_complete (hc : s.InCustody held) (ht : s.site? k = some t)
    {b : IpfiInteger w} {m : MessageBuffer} (hm : t.interface.messages.lookup b = some m)
    (hl : t.interface.locks m.completeLock = .complete) : t.Unheld (s.around held k) b := by
  refine ⟨AList.mem_of_lookup hm, fun o ho => ?_⟩
  obtain ⟨m', hm', hopen⟩ := (hc.site ht).opened ho
  obtain rfl := Option.some.inj (hm.symm.trans hm')
  exact hopen hl

/-- What another wire awaits is out of reach. -/
private theorem Awaited.confined (haw : s.Awaited e) (ht : s.site? k = some t) (hne : e.wire ≠ k)
    (hconf : Site.Confines (s.around held k) t t') :
    Same s.interface t'.interface e.id ∧ (s.setSite k t').Awaited e := by
  obtain ⟨call, hown⟩ := haw.owns
  have ho : t.own (s.around held k) (.response e.wire call) = some e.id := (if_neg hne).trans hown
  refine ⟨(wire?_of_site? ht).2 ▸ hconf.same ho hne, ?_⟩
  obtain ⟨x, call, hx, hrun, hcall⟩ := haw
  exact ⟨x, call, (wire?_setSite_ne s t' hne).trans hx, hrun, hcall⟩

theorem Placed.serves (hacc : s.Placed e) (hc : s.InCustody held) (ht : s.site? k = some t) {b : Site.ServeAction w}
    (hroom : ∀ m, b.message? t = some m → t.RoomFor m) {m m' : MessageBuffer}
    (hm : s.interface.messages.lookup e.id = some m)
    (hm' : (t.serveStep b).interface.messages.lookup e.id = some m') (hl : m.completeLock = e.lock)
    (hl' : m'.completeLock = e.lock)
    (hends : t.wire.terminated = false → (t.serveStep b).wire.terminated = true → t.wire.responseIdxMap = ∅)
    (hresponds : ∀ {p c bytes}, b.message? t = some (.response p c .complete bytes) →
      t.wire.responseIdxMap.lookup (p, c) = some e.id →
      (∃ ch, m.sender = some (some ch) ∧ (t.interface.chans ch).receiverAlive = true) ∨ s.Handled k m.completeLock) :
    (s.setSite k (t.serveStep b)).Placed e := by
  obtain ⟨hx, hi⟩ := wire?_of_site? ht
  have hmt : t.interface.messages.lookup e.id = some m := hi ▸ hm
  rcases hacc with ⟨hlock, haw⟩ | ⟨hlock, hhandled⟩
  -- the response is still awaited: by this wire, which may now have received the last part, or by another
  · by_cases hk : e.wire = k
    · obtain ⟨x, call, hx', hrun, hcall⟩ := haw
      obtain rfl := Option.some.inj ((hk ▸ hx').symm.trans hx)
      have hrun' : (t.serveStep b).wire.terminated = false := by
        by_contra hterm
        rw [hends hrun (by simpa using hterm)] at hcall
        cases hcall
      rcases Site.serveStep_awaited (hc.site ht) hroom hcall hmt hrun' with ⟨hmap, hopen⟩ | hans
      · obtain ⟨m'', hm'', ho⟩ := hopen
        obtain rfl := Option.some.inj (hm'.symm.trans hm'')
        exact .inl ⟨hl' ▸ ho, (t.serveStep b).wire, call, hk ▸ wire?_setSite_self ht _, hrun', hmap⟩
      · refine .inr ⟨hl' ▸ hans.complete hm', ?_⟩
        obtain ⟨bytes, hmsg⟩ := hans.message
        rcases hresponds hmsg hcall with ⟨ch, hch, halive⟩ | hhandled
        · exact absurd (AList.mem_of_lookup hm') (hans.gone hch halive)
        · rw [hk, ← hl]
          exact hhandled
    · obtain ⟨hsame, haw'⟩ := haw.confined ht hk (Site.serveStep_confines (hc.site ht) hroom)
      refine .inl ⟨?_, haw'⟩
      have hlock' := (hsame m hm).2.1
      rw [hl] at hlock'
      exact hlock'.trans_ne hlock
  -- the response is complete: no wire writes to it any more
  · have hcomp : t.interface.locks m.completeLock = .complete := by rw [hi, hl, hlock]
    have hsame := Site.serveStep_unheld (a := b) (hc.site ht) hroom (unheld_of_complete hc ht hmt hcomp) hmt hcomp
    have hlock' := (hsame m hmt).2.1.trans hcomp
    rw [hl] at hlock'
    exact .inr ⟨hlock', hhandled⟩

theorem Placed.dropWire (hacc : s.Placed e) (hc : s.InCustody held) (ht : s.site? k = some t) {m : MessageBuffer}
    (hm : s.interface.messages.lookup e.id = some m) (hl : m.completeLock = e.lock)
    (hends : t.wire.terminated = false → t.wire.responseIdxMap = ∅) : (s.dropWire k).Placed e := by
  obtain ⟨hx, hi⟩ := wire?_of_site? ht
  have hmt : t.interface.messages.lookup e.id = some m := hi ▸ hm
  have hlocks : (s.dropWire k).interface.locks = t.markTerminated.interface.locks := by
    rw [dropWire_eq ht]
    rfl
  rcases hacc with ⟨hlock, haw⟩ | ⟨hlock, hhandled⟩
  · have hk : e.wire ≠ k := by
      intro hk
      obtain ⟨x, call, hx', hrun, hcall⟩ := haw
      obtain rfl := Option.some.inj ((hk ▸ hx').symm.trans hx)
      rw [hends hrun] at hcall
      cases hcall
    obtain ⟨hsame, x, call, hx', hrun, hcall⟩ := haw.confined ht hk (Site.markTerminated_confines (hc.site ht))
    have hlock' := (hsame m hm).2.1
    rw [hl] at hlock'
    refine .inl ⟨by rw [hlocks, hlock']; exact hlock, x, call, ?_, hrun, hcall⟩
    rw [dropWire_eq ht, wire?_setClones]
    exact (wire?_setSite_ne s _ hk).trans ((wire?_setSite_ne s _ hk).symm.trans hx')
  · have hcomp : t.interface.locks m.completeLock = .complete := by rw [hi, hl, hlock]
    obtain ⟨hsame, -⟩ := Site.markTerminated_unheld (hc.site ht) (unheld_of_complete hc ht hmt hcomp) hmt hcomp
    have hlock' := (hsame m hmt).2.1.trans hcomp
    rw [hl] at hlock'
    refine .inr ⟨by rw [hlocks, hlock'], ?_⟩
    rw [dropWire_eq ht]
    exact hhandled

/-- Unless it is abandoned, a complete response is not lost with one handle. -/
private theorem Kept.abandons (h : s.Kept e) (ha : s.Careful checks a) {m : MessageBuffer}
    (hm : s.interface.messages.lookup e.id = some m) (hl : m.completeLock = e.lock) {n : Nat} (hab : a.Abandons n m)
    (hcomp : s.interface.locks e.lock = .complete) {h' : CallHandle w}
    (hn : s.handles[n]? = some (some (.call e.wire h'))) (hl' : h'.completeLock = e.lock) :
    ∃ (n' : Nat) (h'' : CallHandle w), n' ≠ n ∧ s.handles[n']? = some (some (.call e.wire h'')) ∧
      h''.completeLock = e.lock := by
  have hidx := (h.handle hn hl').2
  obtain ⟨n', h'', hne, hn', hlock⟩ := ha.takes hab hn (hidx ▸ hm) (hl.trans hl'.symm) (hl ▸ hcomp)
  exact ⟨n', h'', hne, hn', hlock.trans hl'⟩

/-- What becomes of a buffer when a handle is used. -/
theorem Kept.uses (h : s.Kept e) (ha : s.Careful checks a) (hu : Uses s a s') {m m' : MessageBuffer}
    (hm : s.interface.messages.lookup e.id = some m) (hm' : s'.interface.messages.lookup e.id = some m')
    (hl : m.completeLock = e.lock) : s'.Placed e := by
  have hacc := h.placed hm hl
  have hsame {n k : Nat} {h' h'' : CallHandle w} (hn : s.handles[n]? = some (some (.call k h')))
      (hn'' : s.handles[n]? = some (some (.call e.wire h''))) : h' = h'' := by
    cases hn.symm.trans hn''
    rfl
  cases hu with
  | waits _ n k h' t t' hn ht hf =>
    obtain ⟨⟨locks, rfl⟩, -⟩ := hf
    exact hacc.setSite ht rfl rfl fun hb => hb
  | fails _ n k h' t t' err hn ht hf herr =>
    obtain ⟨⟨locks, rfl⟩, hpoison⟩ := hf
    refine (hacc.setSite ht rfl rfl fun hb => hb).setHandle (fun hcomp {h''} hn'' hl'' => ?_) none
    obtain rfl := hsame hn hn''
    -- waiting has failed, so the response was not complete
    have hp := hpoison herr m (by rw [(h.handle hn'' hl'').2, (wire?_of_site? ht).2, hm])
    rw [hl] at hp
    cases hp.symm.trans hcomp
  | takes _ n k h' t t' m₀ _ hn ht hready ht' =>
    have hpop : (t.interface.pop h'.responseIdx).2.messages.lookup e.id = some m' := by
      rcases ht' with rfl | rfl <;> exact hm'
    -- the buffer is still there, so it is not the one that was taken
    have hne : e.id ≠ h'.responseIdx := by
      intro heq
      rw [Interface.lookup_pop, if_pos heq] at hpop
      cases hpop
    have hset : (s.setSite k t').Placed e := by
      rcases ht' with rfl | rfl <;> exact hacc.setSite ht (congrFun (Interface.pop_locks _ _) _) rfl fun hb => hb
    refine hset.setHandle (fun hcomp {h''} hn'' hl'' => ?_) none
    obtain rfl := hsame hn hn''
    exact absurd (h.handle hn'' hl'').2.symm hne
  | leaves n decodes k h' t m₀ hn ht hready hs =>
    have hi := (wire?_of_site? ht).2
    have hset : (s.setSite k (h'.struck t)).Placed e := hacc.setSite ht rfl rfl fun hb => hb
    refine hset.setHandle (fun hcomp {h''} hn'' hl'' => ?_) none
    obtain rfl := hsame hn hn''
    have hm₀ := hready.1
    rw [(h.handle hn'' hl'').2, hi] at hm₀
    obtain rfl := Option.some.inj (hm.symm.trans hm₀)
    exact h.abandons ha hm hl (.inr (.inr (.inr ⟨⟨decodes, rfl⟩, hs⟩))) (hi ▸ hcomp) hn'' hl''
  | streams n k h' t m₀ hn ht hm₀ =>
    refine (hacc.setSite ht rfl rfl fun hb => hb).setHandle (fun hcomp {h''} hn'' hl'' => ?_) _
    exact h.abandons ha hm hl (.inr (.inr (.inl rfl))) ((wire?_of_site? ht).2 ▸ hcomp) hn'' hl''
  | gives n k h' t hn ht =>
    have hset : (s.setSite k (h'.struck t)).Placed e := hacc.setSite ht rfl rfl fun hb => hb
    refine hset.setHandle (fun hcomp {h''} hn'' hl'' => ?_) none
    exact h.abandons ha hm hl (.inr (.inl rfl)) ((wire?_of_site? ht).2 ▸ hcomp) hn'' hl''
  | receives n k r t hn ht => exact hacc.setSite ht rfl rfl fun hb => hb
  | finishes n k r t hn ht hend => exact hacc.setSite ht rfl rfl fun hb => hb
  | drops n k h' hn =>
    exact hacc.setHandle (fun hcomp {h''} hn'' hl'' => h.abandons ha hm hl (.inl rfl) hcomp hn'' hl'') none
  | closes n k r hn =>
    have hdrop : ({ s with interface := s.interface.dropReceiver r.rx } : World w).Placed e :=
      hacc.calm rfl (fun haw => haw) fun hh => hh
    refine hdrop.setHandle (fun hcomp {h''} hn'' hl'' => ?_) none
    cases hn.symm.trans hn''

theorem Kept.step (h : s.Kept e) (hc : s.InCustody held) (ha : s.Careful checks a) : (s.step checks a).Kept e := by
  have hstep : Happens s a (s.step checks a) := hc.happens a
  refine h.passes hc (hstep.ages hc ha.room) (fun hn => hstep.handle hn) fun {m m'} hm hm' hl hl' hacc => ?_
  have hends := @ha.ends
  generalize s.step checks a = s' at hstep hm' hends ⊢
  -- a call is given a new buffer and a new index
  have hallot {k : Nat} {p : ProcedureIndex w} {args : Payload} {t t' : Site w} (ht : s.site? k = some t)
      (hcall : a = .startCall k p args ∨ a = .callWithBytes k p args)
      (hi' : t'.interface = t.interface.push.2) (hterm : t'.wire.terminated = t.wire.terminated)
      (hmap : t'.wire.responseIdxMap = t.wire.responseIdxMap.insert (p, t.nextIdx p) t.interface.push.1) :
      (s.setSite k t').Placed e := by
    refine hacc.setSite ht ?_ hterm fun {call b} hb => ?_
    · rw [hi']
      exact Interface.push_locks_of_lt ((wire?_of_site? ht).2 ▸ h.lt)
    · rw [hmap, AList.lookup_insert_ne, hb]
      rintro rfl
      exact ha.fresh hcall ht (AList.mem_of_lookup hb)
  cases hstep with
  | quiet _ _ hq =>
    refine hacc.calm (congrFun hq.locks _) (fun haw => ?_) fun hh => hh.mono fun hn _ => hq.handles ▸ hn
    obtain ⟨x, call, hx, hrun, hcall⟩ := haw
    obtain ⟨x', hx', htr⟩ := hq.wires hx
    simp only [Wire.tracking, Prod.mk.injEq] at htr
    exact ⟨x', call, hx', htr.1.trans hrun, htr.2.1 ▸ hcall⟩
  | starts k p args t ht hrun => exact hallot ht (.inl rfl) rfl rfl rfl
  | calls k p args t ht hrun =>
    have hset : (s.setSite k (t.called p args)).Placed e := hallot ht (.inr rfl) rfl rfl rfl
    exact hset.addHandle _
  | ends k p c t b m₀ ht haw hm₀ =>
    have hset : (s.setSite k ((t.queued (.call p c .complete .empty)).handled b m₀.completeLock)).Placed e :=
      hacc.setSite ht rfl rfl fun hb => hb
    exact hset.addHandle _
  | serves _ k b t hserve ht hin =>
    obtain ⟨hx, hi⟩ := wire?_of_site? ht
    refine hacc.serves hc ht (ha.room.serves hin ht) hm hm' hl hl' (fun hrun hterm => ?_)
      fun {p c bytes} hmsg hcall => ?_
    · exact hends hx (wire?_setSite_self ht _) hrun hterm
    · exact ha.responds (by rw [hin, hmsg]; rfl) ht hcall (hi ▸ hm)
  | drops k t ht =>
    obtain ⟨hx, hi⟩ := wire?_of_site? ht
    have hx' : (s.dropWire k).wire? k = some t.markTerminated.wire := by
      rw [dropWire_eq ht, wire?_setClones]
      exact wire?_setSite_self ht _
    exact hacc.dropWire hc ht hm hl fun hrun => hends hx hx' hrun rfl
  | uses _ _ hu => exact h.uses ha hu hm hm' hl

/-! ### New buffers -/

theorem of_mem_allotments (he : e ∈ s.allotments s' a) : s.interface.lockCount < s'.interface.lockCount ∧
    ∃ k p args, (a = .startCall k p args ∨ a = .callWithBytes k p args) ∧
      e = ⟨k, s.interface.push.1, s.interface.lockCount⟩ := by
  unfold allotments at he
  split at he
  all_goals first
    | split at he
      · rename_i k p args hlt
        exact ⟨hlt, k, p, args, by simp, List.mem_singleton.1 he⟩
      · cases he
    | cases he

/-- A new buffer is awaited. -/
private theorem kept_allotted (hc : s.InCustody held) (hlt : s.HandlesLt)
    (ht : s.site? k = some t) (hs' : s'.interface = t.interface.push.2) (hw' : ∃ x,
    s'.wire? k = some x ∧ x.terminated = false ∧ ∃ call, x.responseIdxMap.lookup call = some t.interface.push.1)
    (hhandle : ∀ {n k' : Nat} {h : CallHandle w}, s'.handles[n]? = some (some (.call k' h)) →
    s.handles[n]? = some (some (.call k' h)) ∨ k' = k ∧ h.responseIdx = s.interface.push.1) :
    s'.Kept ⟨k, s.interface.push.1, s.interface.lockCount⟩ ∧ s'.interface.Circulates s.interface.push.1 := by
  have hi := (wire?_of_site? ht).2
  rw [hi] at hs' hw'
  refine ⟨⟨?_, fun {b m} hm hl => ?_, fun hn hl => ?_, fun {m} hm hl => .inl ⟨?_, ?_⟩⟩, ?_⟩
  · rw [hs']
    exact Nat.lt_succ_self _
  · rw [hs', Interface.lookup_push] at hm
    split at hm
    · assumption
    · exact absurd hl (Nat.ne_of_lt (hc.wellFormed.lock_lt hm))
  · rcases hhandle hn with hn | hn
    · exact absurd hl (Nat.ne_of_lt (hlt _ _ _ hn))
    · exact hn
  · rw [hs', Interface.push_locks_self]
    decide
  · obtain ⟨x, hx, hterm, call, hcall⟩ := hw'
    exact ⟨x, call, hx, hterm, hcall⟩
  · rw [hs']
    exact Interface.push_circulates _

theorem kept_of_mem_allotments (hc : s.InCustody held) (hlt : s.HandlesLt) (he : e ∈ s.allotments (s.step checks a) a) :
    (s.step checks a).Kept e ∧ (s.step checks a).interface.Circulates e.id := by
  obtain ⟨hcount, k, p, args, hcall, rfl⟩ := of_mem_allotments he
  have hstep : Happens s a (s.step checks a) := hc.happens a
  generalize s.step checks a = s' at hstep hcount ⊢
  have hhandle : ∀ {n k' : Nat} {h : CallHandle w}, s'.handles[n]? = some (some (.call k' h)) →
      s.handles[n]? = some (some (.call k' h)) ∨ k' = k ∧ h.responseIdx = s.interface.push.1 := by
    intro n k' h hn
    refine (hstep.handle hn).imp id fun hob => ?_
    cases hob with
    | calls p' args' ha _ => rcases hcall with rfl | rfl <;> cases ha; exact ⟨rfl, rfl⟩
    | ends t p c b m ha _ _ _ => rcases hcall with rfl | rfl <;> cases ha
  cases hstep with
  | quiet _ _ hq => exact absurd hq.lockCount (Nat.ne_of_gt hcount)
  | uses _ _ hu => exact absurd hu.lockCount (Nat.ne_of_gt hcount)
  | starts k' p' args' t ht hcan =>
    obtain rfl : k' = k := by rcases hcall with h | h <;> cases h; rfl
    exact kept_allotted hc hlt ht rfl
      ⟨_, wire?_setSite_self ht (t.started p' args'), hcan.running, _, AList.lookup_insert _⟩ hhandle
  | calls k' p' args' t ht hcan =>
    obtain rfl : k' = k := by rcases hcall with h | h <;> cases h; rfl
    exact kept_allotted hc hlt ht rfl
      ⟨_, wire?_setSite_self ht (t.called p' args'), hcan.running, _, AList.lookup_insert _⟩ hhandle
  | ends => rcases hcall with h | h <;> cases h
  | serves _ _ _ _ hserve => rcases hcall with rfl | rfl <;> cases hserve
  | drops => rcases hcall with h | h <;> cases h

theorem HandlesLt.step (hlt : s.HandlesLt) (hc : s.InCustody held) (hroom : s.RoomFor a) :
    (s.step checks a).HandlesLt := by
  have hstep : Happens s a (s.step checks a) := hc.happens a
  have hages := hstep.ages hc hroom
  intro n k h hn
  rcases hstep.handle hn with hn | hob
  · exact (hlt _ _ _ hn).trans_le hages.lockCount
  · cases hob with
    | calls p args _ hcount => exact hcount
    | ends t p c b m _ ht _ hm =>
      have hm' : s.interface.messages.lookup b = some m := (wire?_of_site? ht).2 ▸ hm
      exact (hc.wellFormed.lock_lt hm').trans_le hages.lockCount

/-! ### Runs -/

/-- All response buffers that were allotted are kept track of. -/
structure Ledger (y : World w × List (Allotment w)) : Prop where
  custody : y.1.InCustody fun _ _ => False
  handlesLt : y.1.HandlesLt
  kept : ∀ e ∈ y.2, y.1.Kept e
  circulates : ∀ e ∈ y.2, y.1.interface.Circulates e.id

theorem Ledger.allot {y : World w × List (Allotment w)} (h : Ledger y) (ha : y.1.Careful checks a) :
    Ledger (World.allot checks y a) where
  custody := h.custody.step ha.room
  handlesLt := h.handlesLt.step h.custody ha.room
  kept e he := by
    rcases List.mem_append.1 he with he | he
    · exact (h.kept e he).step h.custody ha
    · exact (kept_of_mem_allotments h.custody h.handlesLt he).1
  circulates e he := by
    rcases List.mem_append.1 he with he | he
    · exact (h.custody.happens a).recycles e.id (h.circulates e he)
    · exact (kept_of_mem_allotments h.custody h.handlesLt he).2

theorem ledger_of_reaches {y : World w × List (Allotment w)}
    (h : Reaches (World.allot checks) (fun y a => y.1.Careful checks a) (.new, []) y) : Ledger y := by
  have hnew : (new : World w).HandlesLt := fun n k h hn => by cases hn
  exact h.invariant ⟨new_inCustody, hnew, by simp, by simp⟩ fun _ _ h ha => h.allot ha

/-- The wire has been terminated, and whatever was obtained from it has been consumed or dropped. -/
structure Done (s : World w) (k : Nat) : Prop where
  terminated : ∀ {x}, s.wire? k = some x → x.terminated = true
  consumed : ∀ {n : Nat} {g : Handle w}, s.handles[n]? = some (some g) → g.wire ≠ k

theorem Kept.notMem_of_done (h : s.Kept e) (hdone : s.Done e.wire) {b : IpfiInteger w} {m : MessageBuffer}
    (hm : s.interface.messages.lookup b = some m) : m.completeLock ≠ e.lock := by
  intro hl
  obtain rfl := h.id hm hl
  rcases h.placed hm hl with ⟨-, x, call, hx, hrun, -⟩ | ⟨-, n, h', hn, -⟩
  · rw [hdone.terminated hx] at hrun
    cases hrun
  · exact hdone.consumed hn rfl

/-- The identifiers under which running wires await responses. -/
def awaitedIds (s : World w) : List (IpfiInteger w) :=
  s.wires.flatMap fun x => if x.wire.terminated then [] else x.wire.responseIdxMap.values

/-- The identifiers that the call handles are for. -/
def handledIds (s : World w) : List (IpfiInteger w) :=
  s.handles.filterMap fun g => match g with
    | some (.call _ h) => some h.responseIdx
    | _ => none

/-- The identifiers of the messages that were allotted as response buffers. -/
def responseBuffers (s : World w) (l : List (Allotment w)) : Finset (IpfiInteger w) :=
  s.interface.messages.keySet.filter fun b =>
    (s.interface.messages.lookup b).any fun m => l.any fun e => m.completeLock = e.lock

theorem Kept.mem_ids (h : s.Kept e) {m : MessageBuffer} (hm : s.interface.messages.lookup e.id = some m)
    (hl : m.completeLock = e.lock) : e.id ∈ s.awaitedIds ++ s.handledIds := by
  rw [List.mem_append]
  rcases h.placed hm hl with ⟨-, x, call, hx, hrun, hcall⟩ | ⟨-, n, h', hn, hl'⟩
  · left
    obtain ⟨y, hy, rfl⟩ := Option.map_eq_some_iff.1 hx
    refine List.mem_flatMap.2 ⟨y, List.mem_of_getElem? hy, ?_⟩
    rw [if_neg (by simp [hrun])]
    exact AList.mem_values.2 ⟨call, hcall⟩
  · exact .inr (List.mem_filterMap.2 ⟨_, List.mem_of_getElem? hn, congrArg some (h.handle hn hl').2⟩)

theorem Ledger.card_responseBuffers_le {l : List (Allotment w)} (h : Ledger (s, l)) :
    (s.responseBuffers l).card ≤ s.awaitedIds.length + s.handledIds.length := by
  have hsub : s.responseBuffers l ⊆ (s.awaitedIds ++ s.handledIds).toFinset := by
    intro b hb
    obtain ⟨-, hb⟩ := Finset.mem_filter.1 hb
    cases hm : s.interface.messages.lookup b with
    | none => simp [hm] at hb
    | some m =>
      rw [hm, Option.any_some, List.any_eq_true] at hb
      obtain ⟨e, he, hl⟩ := hb
      have hkept := h.kept e he
      obtain rfl := hkept.id hm (of_decide_eq_true hl)
      exact List.mem_toFinset.2 (hkept.mem_ids hm (of_decide_eq_true hl))
  calc (s.responseBuffers l).card
      ≤ (s.awaitedIds ++ s.handledIds).toFinset.card := Finset.card_le_card hsub
    _ ≤ (s.awaitedIds ++ s.handledIds).length := List.toFinset_card_le _
    _ = s.awaitedIds.length + s.handledIds.length := List.length_append

/-- In every run of careful steps, nothing that was allotted as a response buffer of a wire is left once the wire has
been terminated and what was obtained from it is gone, and the identifier waits for reuse unless it is in use again.
There are never more response buffers than responses awaited and handles held. -/
theorem response_buffers_freed {l : List (Allotment w)}
    (h : Reaches (World.allot checks) (fun y a => y.1.Careful checks a) (.new, []) (s, l)) :
    (∀ e ∈ l, s.Done e.wire → (∀ b m, s.interface.messages.lookup b = some m → m.completeLock ≠ e.lock) ∧
      s.interface.Circulates e.id) ∧
    (s.responseBuffers l).card ≤ s.awaitedIds.length + s.handledIds.length := by
  have hledger := ledger_of_reaches h
  refine ⟨fun e he hdone => ⟨fun b m hm => (hledger.kept e he).notMem_of_done hdone hm, hledger.circulates e he⟩, ?_⟩
  exact hledger.card_responseBuffers_le

/-! ### One connection -/

private def connect : Action .u8 := .newWire false 3

private def call : Action .u8 := .callWithBytes 0 ⟨0⟩ .empty

/-- The whole response to the call. -/
private def respond : Action .u8 := .receiveOne 0 (Message.response ⟨0⟩ ⟨0⟩ .complete .empty : Message .u8).toBytes

/-- The peer terminates the connection. -/
private def hangUp : Action .u8 := .receiveOne 0 (Message.termination : Message .u8).toBytes

private def disconnect : Action .u8 := .dropWire 0

private def after (actions : List (Action .u8)) : World .u8 × List (Allotment .u8) :=
  actions.foldl (World.allot true) (.new, [])

private abbrev CarefulRun (y : World .u8 × List (Allotment .u8)) : Prop :=
  Reaches (World.allot true) (fun y a => y.1.Careful true a) (.new, []) y

private theorem connect_careful : CarefulRun (after [connect]) := by
  refine .next (a := connect) .start ⟨fun _ => show _ < 2 ^ 8 by decide, ?_, ?_, ?_, ?_⟩
  · rintro k p args t (h | h) <;> cases h
  · intro k x x' hx; cases hx
  · intro k p c bytes t b m h; cases h
  · rintro n k h m - hn; cases hn

private theorem call_careful : CarefulRun (after [connect, call]) := by
  refine connect_careful.next (a := call) ⟨fun _ => show _ < 2 ^ 8 by decide, ?_, ?_, ?_, ?_⟩
  · intro k p args t hcall ht
    obtain _ | k := k
    · cases ht
      simp [Wire.new]
    · cases ht
  · intro k x x' hx hx' hrun hterm
    obtain _ | k := k
    · cases hx; rfl
    · cases hx
  · intro k p c bytes t b m h; cases h
  · rintro n k h m - hn; cases hn

private theorem respond_careful : CarefulRun (after [connect, call, respond]) := by
  refine call_careful.next (a := respond) ⟨fun _ => show _ < 2 ^ 8 by decide, ?_, ?_, ?_, ?_⟩
  · rintro k p args t (h | h) <;> cases h
  · intro k x x' hx hx' hrun hterm
    obtain _ | k := k
    · cases hx'; cases hterm
    · cases hx
  · intro k p c bytes t b m hin ht hcall hm
    cases hin
    cases ht
    cases hcall
    cases hm
    exact .inr ⟨0, ⟨0, 0⟩, rfl, rfl⟩
  · rintro n k h m (hab | hab | hab | ⟨⟨_, hab⟩, -⟩) hn <;> cases hab

private theorem wait_careful : CarefulRun (after [connect, call, respond, .waitBytes 0]) := by
  refine respond_careful.next (a := .waitBytes 0) ⟨fun _ => show _ < 2 ^ 8 by decide, ?_, ?_, ?_, ?_⟩
  · rintro k p args t (h | h) <;> cases h
  · intro k x x' hx hx' hrun hterm
    obtain _ | k := k
    · cases hx; rfl
    · cases hx
  · intro k p c bytes t b m h; cases h
  · rintro n k h m (hab | hab | hab | ⟨⟨_, hab⟩, -⟩) hn <;> cases hab

private theorem disconnect_careful : CarefulRun (after [connect, call, respond, .waitBytes 0, disconnect]) := by
  refine wait_careful.next (a := disconnect) ⟨fun _ => show _ < 2 ^ 8 by decide, ?_, ?_, ?_, ?_⟩
  · rintro k p args t (h | h) <;> cases h
  · intro k x x' hx hx' hrun hterm
    obtain _ | k := k
    · cases hx; rfl
    · cases hx
  · intro k p c bytes t b m h; cases h
  · rintro n k h m (hab | hab | hab | ⟨⟨_, hab⟩, -⟩) hn <;> cases hab

/-- A wire that has been dropped, and whose only handle has been used. -/
private theorem done_of_run {s : World .u8} (hterm : (s.wire? 0).all Wire.terminated = true)
    (hhandles : s.handles = [none]) : s.Done 0 := by
  refine ⟨fun {x} hx => ?_, fun {n g} hn => ?_⟩
  · rw [hx] at hterm
    exact hterm
  · rw [hhandles, List.getElem?_singleton] at hn
    split at hn <;> cases hn

theorem response_buffers_freed_connection :
    (after [connect, call, respond, .waitBytes 0, disconnect]).1.interface.Circulates 0 ∧
      ((after [connect, call, respond, .waitBytes 0, disconnect]).1.responseBuffers [⟨0, 0, 0⟩]).card ≤ 0 :=
  have h := response_buffers_freed disconnect_careful
  ⟨(h.1 ⟨0, 0, 0⟩ (List.mem_singleton.2 rfl) (done_of_run rfl rfl)).2, h.2⟩

/-- The peer terminates the connection while the response is still awaited, waiting for it returns an error, and the
wire is dropped. -/
theorem not_response_buffers_freed :
    ¬ ∀ (s : World .u8) (l : List (Allotment .u8)), Reaches (World.allot true) (fun _ _ => True) (.new, []) (s, l) →
      ∀ e ∈ l, s.Done e.wire → ∀ b m, s.interface.messages.lookup b = some m → m.completeLock ≠ e.lock := by
  intro h
  have hrun : Reaches (World.allot true) (fun _ _ => True) (.new, [])
      (after [connect, call, hangUp, .waitBytes 0, disconnect]) :=
    Reaches.start.foldl _ fun _ _ _ => trivial
  exact h _ _ hrun ⟨0, 0, 0⟩ (List.mem_singleton.2 rfl) (done_of_run rfl rfl) 0 ⟨[[]], 0, none⟩ rfl rfl

end World

end Ipfi
