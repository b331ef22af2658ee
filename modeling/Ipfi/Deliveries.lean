import Ipfi.Watching

/-!
# What comes in and how a wire ends, for the handles

A part of a response reaches the handles on that response and no others, and a call that comes in reaches none.  The end
of a wire poisons the locks of the handles it leaves waiting, and no lock of a handle of another wire.
-/

namespace Ipfi

variable {w : IntFeature}

open Interface (Same KeepsSettled Flows Drains)
open Site (Part chunksOf EndsInComplete)

namespace World

variable {s : World w} {held : Nat → LockRef → Prop} {k : Nat} {t : Site w}

/-- The locks of all handles are known. -/
def Known (held : Nat → LockRef → Prop) (s : World w) : Prop := ∀ n g, s.Live n g → held g.wire g.lock

theorem own_site (ht : s.site? k = some t) (o : Owner w) : t.own (s.around held k) o = s.own o := by
  obtain ⟨hx, hi⟩ := wire?_of_site? ht
  cases o with
  | args key => exact congrArg (fun i : Interface w => i.callToBufferMap.lookup key) hi
  | response j call =>
    by_cases hjk : j = k
    · subst hjk
      apply (if_pos rfl).trans
      simp only [own, hx]
      rfl
    · exact if_neg hjk

variable {n : Nat} {g : Handle w} {o : Owner w} {m : MessageBuffer}

theorem Known.lock_lt (hk : s.Known held) (hc : s.InCustody held) (hg : s.Live n g) : g.lock < s.interface.lockCount :=
  hc.lt (.inl (hk n g hg))

/-- The message of a handle belongs to a call of its wire, if it belongs to any. -/
theorem Known.owner (hk : s.Known held) (hc : s.InCustody held) (hg : s.Live n g)
    (hm : s.interface.messages.lookup g.responseIdx = some m) (hl : m.completeLock = g.lock)
    (ho : s.own o = some g.responseIdx) : ∃ call, o = .response g.wire call :=
  hc.mine (k := g.wire) (.inl (hl ▸ hk n g hg)) ho hm

end World

namespace Watched

variable {y : Watch w} {held : Nat → LockRef → Prop} {k : Nat} {t t' : Site w}

open World (wire?_of_site? own_site)
open Watch (heard heard_self heard_of_ne)

/-- The message of a handle that is not complete. -/
theorem message (h : Watched y) {n : Nat} {g : Handle w} (hg : y.world.Live n g)
    (hl : y.world.interface.locks g.lock ≠ .complete) :
    ∃ m, y.world.interface.messages.lookup g.responseIdx = some m ∧ m.completeLock = g.lock := by
  apply (h.watches n g hg).message
  cases g with
  | call j h' => trivial
  | chunks j r => exact hl

/-! ### Receiving -/

theorem receiveCall (h : Watched y) (hc : y.world.InCustody held) (hk : y.world.Known held)
    (ht : y.world.site? k = some t) {p : ProcedureIndex w} {c : CallIndex w}
    (hroom : t.Begins p c → t.interface.messages.size < 2 ^ w.bits) (tm : Terminator) (bytes : List UInt8) :
    Watched ⟨y.world.setSite k ((Site.receiveCall p c tm bytes).run t).state, y.parts, y.got⟩ := by
  obtain ⟨hx, hi⟩ := wire?_of_site? ht
  by_cases hrej : t.Rejects p c
  · rw [Site.receiveCall_run, if_pos hrej]
    exact h.setWire ht rfl (h.remembers hx rfl)
  have hct := hc.site ht
  obtain ⟨hev, -, -⟩ := Site.receiveCall_buffer hct hroom tm bytes
  have hcalling := (Site.receiveCall_calling p c tm bytes t).2
  refine h.setSite_spared ht (congrArg (fun x => x.1.2.1) hcalling) hev.later.lockCount (fun n g hg => hk.lock_lt hc hg)
    (fun n g hg => ⟨hev.later.chanCount, fun hn => hev.same _ ?_, fun ch c' =>
      (Site.receiveCall_follows Interface.settled_operates p c tm bytes t).1⟩) (fun n g hg hgk hrun hinc => ?_)
    (congrArg Prod.snd hcalling) fun j call b ho => ⟨hi ▸ (hc.opened ho).mem, ?_⟩
  · -- the buffer of the call is no response
    intro heq
    obtain ⟨m, hm, hl⟩ := (hi ▸ h.watches n g hg : g.Watches t.interface _ _).message hn
    rcases Site.bufferOf_cases hct.wellFormed fun hnew => hroom ⟨hrej, hnew⟩ with hb | ⟨-, hnew⟩
    · have ho : y.world.own (.args (p, c, t.wire.id)) = some g.responseIdx := by
        rw [heq, ← hb, hi]
        rfl
      obtain ⟨call, hcall⟩ := hk.owner hc hg (hi ▸ hm) hl ho
      cases hcall
    · exact hnew (heq ▸ AList.mem_of_lookup hm)
  · rw [show ((Site.receiveCall p c tm bytes).run t).state.wire.idleCallHandles = t.wire.idleCallHandles from
      congrArg (fun x => x.1.2.2.2) hcalling]
    exact h.idle hx hg hgk hrun hinc
  · exact (Site.receiveCall_works hct hroom tm bytes).same (o := .response j call) (by simp)
      ((own_site ht _).trans ho)

theorem yields (h : Watched y) (ht : y.world.site? k = some t) (p : ProcedureIndex w) (c : CallIndex w)
    (e : Nat) (bytes : Payload) (tm : Terminator) :
    Watched
      ⟨y.world.setSite k { t with wire := ((Wire.yielder p c e bytes tm).run t.wire).state }, y.parts, y.got⟩ := by
  have hcalling := Site.yielder_calling p c e bytes tm t.wire
  exact h.setWire ht rfl (h.remembers (wire?_of_site? ht).1 (congrArg (fun x => (x.1.2.1, x.2, x.1.2.2.2)) hcalling))

section

variable {p : ProcedureIndex w} {c : CallIndex w} {b : IpfiInteger w} {m : MessageBuffer} {tm : Terminator}
  {bytes : List UInt8} {i' : Interface w}

/-- What a part of a response does to a call handle that waits for the response. -/
private theorem call_watches (h' : CallHandle w) {parts : List Part} {i : Interface w} (hw : i.WellFormed)
    (hm : i.messages.lookup h'.responseIdx = some m) (hl : m.completeLock = h'.completeLock) (harr : m.Arrives i parts)
    (hcomp : tm = .complete → m.sender = none)
    (hr : (Interface.receivePart h'.responseIdx tm bytes).run i = .ok () i') :
    h'.Watches i' (parts ++ [(bytes, tm)]) ∧
      (i'.locks h'.completeLock = i.locks h'.completeLock ∨ i'.locks h'.completeLock = .complete) := by
  have ho : i.locks m.completeLock ≠ .complete := by rw [harr.lock]; decide
  by_cases ht : tm = .complete
  · subst ht
    have hs := hcomp rfl
    obtain ⟨done, cur, hcut⟩ := Cut.exists_chunksFrom [] (Site.marked parts)
    have hcs : m.chunks = done ++ [cur] := (harr.chunks (.inl hs)).trans hcut
    rw [Interface.receivePart_complete hm ho hcs hs bytes] at hr
    cases hr
    have hlock : ((i.setMessage h'.responseIdx { m with chunks := done ++ [cur ++ bytes] }).markComplete
        m.completeLock).locks h'.completeLock = .complete := by
      rw [← hl]
      exact Function.update_self ..
    refine ⟨⟨⟨_, Interface.lookup_setMessage_self _ _ _, hl, fun _ => ?_, fun _ => hs⟩, fun _ => ?_⟩, .inr hlock⟩
    · rw [Site.chunksOf_concat hcut]
      rfl
    · exact ⟨parts, bytes, rfl, harr.goesOn⟩
  · obtain ⟨i'', m', hr', hm', hlocks, hl', hs', hchunks⟩ :=
      Interface.receivePart_continues hw hm ho harr.chunks ht bytes
    cases hr.symm.trans hr'
    have hinc : i'.locks h'.completeLock = .incomplete := by rw [hlocks, ← hl, harr.lock]
    refine ⟨⟨⟨m', hm', hl'.trans hl, hchunks, fun hc => ?_⟩, fun hc => ?_⟩, .inl (by rw [hlocks])⟩
    · exact absurd (hinc.symm.trans hc) (by decide)
    · exact absurd (hinc.symm.trans hc) (by decide)

/-- What a part of a response does to a receiver of its chunks. -/
private theorem receiver_watches {r : ChunkReceiverHandle w} {parts : List Part}
    {got : List (List UInt8)} {i : Interface w} (hw : i.WellFormed) (h : r.Watches i parts got)
    (hinc : i.locks r.rx.completeLock = .incomplete) (hgoes : ∀ q ∈ parts, q.2 ≠ .complete)
    (hsteady : i.chanCount ≤ i'.chanCount) (hlocks : tm ≠ .complete → i'.locks = i.locks)
    (hr : (Interface.receivePart r.responseIdx tm bytes).run i = .ok () i') :
    r.Watches i' (parts ++ [(bytes, tm)]) got ∧
      (i'.locks r.rx.completeLock = i.locks r.rx.completeLock ∨ i'.locks r.rx.completeLock = .complete) := by
  have ho : i.locks r.rx.completeLock ≠ .complete := by rw [hinc]; decide
  by_cases ht : tm = .complete
  · subst ht
    obtain ⟨i'', hr', hl, hdrain⟩ := (h.flows hinc).completes hw ho bytes
    cases hr.symm.trans hr'
    refine ⟨⟨h.chan_lt.trans_le hsteady, fun hne => absurd hl hne, fun hi => ?_,
      fun _ => ⟨hdrain, parts, bytes, rfl, hgoes⟩⟩, .inr hl⟩
    exact absurd (hl.symm.trans hi) (by decide)
  · obtain ⟨i'', hr', hflow⟩ := (h.flows hinc).continues ho ht bytes
    cases hr.symm.trans hr'
    have hinc' : i'.locks r.rx.completeLock = .incomplete := by rw [hlocks ht, hinc]
    obtain ⟨cur, hbuf, -⟩ := hflow.buffer
    refine ⟨⟨h.chan_lt.trans_le hsteady, fun _ => ⟨_, hbuf, rfl⟩, fun _ => hflow, fun hc => ?_⟩,
      .inl (by rw [hlocks ht])⟩
    exact absurd (hinc'.symm.trans hc) (by decide)

/-- A response goes on with a part that is not its last one. -/
private theorem part_continues {parts : List Part} {i : Interface w} (hw : i.WellFormed)
    (hm : i.messages.lookup b = some m) (harr : m.Arrives i parts) (htm : tm ≠ .complete)
    (hr : (Interface.receivePart b tm bytes).run i = .ok () i') :
    i'.locks = i.locks ∧ ∃ m', i'.messages.lookup b = some m' ∧ m'.completeLock = m.completeLock ∧
      m'.Arrives i' (parts ++ [(bytes, tm)]) := by
  have ho : i.locks m.completeLock ≠ .complete := by rw [harr.lock]; decide
  obtain ⟨i'', m', hr', hm', hlocks, hl', -, hchunks⟩ := Interface.receivePart_continues hw hm ho harr.chunks htm bytes
  cases hr.symm.trans hr'
  refine ⟨hlocks, m', hm', hl', ?_, fun q hq => ?_, hchunks⟩
  · rw [hlocks, hl']
    exact harr.lock
  · rcases List.mem_append.1 hq with hq | hq
    · exact harr.goesOn q hq
    · obtain rfl := List.mem_singleton.1 hq
      exact htm

private theorem part_edits {parts : List Part} {i : Interface w} (hw : i.WellFormed)
    (hm : i.messages.lookup b = some m) (harr : m.Arrives i parts)
    (hr : (Interface.receivePart b tm bytes).run i = .ok () i') : Interface.Edits i i' b := by
  have ho : i.locks m.completeLock ≠ .complete := by rw [harr.lock]; decide
  obtain ⟨i'', hr', he, -⟩ := Site.receivePart_edits hw ⟨m, hm, ho⟩ tm bytes
  cases hr.symm.trans hr'
  exact he

private theorem own_of_awaits (ht : y.world.site? k = some t) (ha : t.Awaits p c b) :
    y.world.own (.response k (p, c)) = some b := by
  simp only [World.own, (wire?_of_site? ht).1]
  exact ha.mapped

/-- A response is not touched by the parts of another one. -/
private theorem arrives_other (h : Watched y) (hc : y.world.InCustody held) (ht : y.world.site? k = some t)
    (hm : t.interface.messages.lookup b = some m) (hown : y.world.own (.response k (p, c)) = some b)
    (he : Interface.Edits t.interface i' b) {j : Nat} {x : Wire w} {call : ProcedureIndex w × CallIndex w}
    {b' : IpfiInteger w} {m' : MessageBuffer} (hne : (j, call) ≠ (k, (p, c))) (hj : y.world.wire? j = some x)
    (hrun : x.terminated = false) (hcall : x.responseIdxMap.lookup call = some b')
    (hm' : i'.messages.lookup b' = some m') :
    m'.Arrives i' (heard y.parts m.completeLock (bytes, tm) m'.completeLock) := by
  have hi := (wire?_of_site? ht).2
  have hown' : y.world.own (.response j call) = some b' := by
    simp only [World.own, hj]
    exact hcall
  have hbne : b' ≠ b := by
    rintro rfl
    cases hc.inj hown' hown
    exact hne rfl
  obtain ⟨m₀, hm₀⟩ := AList.mem_iff_lookup.1 (hc.opened hown').mem
  have hs := he.same b' hbne
  obtain rfl := Option.some.inj ((hs m₀ (hi ▸ hm₀)).1.symm.trans hm')
  -- a message under another identifier has another lock
  have hl : m₀.completeLock ≠ m.completeLock :=
    fun hl => hbne ((Custody.wellFormed (hc.site ht)).lock_inj (hi ▸ hm₀) hm hl)
  rw [heard_of_ne _ hl]
  exact (hi ▸ h.arrives j x call b' m₀ hj hrun hcall hm₀ : m₀.Arrives t.interface _).same (hi ▸ hm₀) hs hm'

/-- A part of a response reaches the handles on it, and spares the others. -/
private theorem watches_part (h : Watched y) (hc : y.world.InCustody held) (hk : y.world.Known held)
    (ht : y.world.site? k = some t) (hm : t.interface.messages.lookup b = some m)
    (harr : m.Arrives t.interface (y.parts m.completeLock)) (hcomp : tm = .complete → m.sender.isSome → ∀ n j h',
    y.world.Live n (.call j h') → h'.completeLock ≠ m.completeLock)
    (hsettled : ∀ l ch k', KeepsSettled l ch k' t.interface i')
    (hr : (Interface.receivePart b tm bytes).run t.interface = .ok () i') {n : Nat} {g : Handle w}
    (hg : y.world.Live n g) :
    g.Watches i' (heard y.parts m.completeLock (bytes, tm) g.lock) (y.got n) ∧
      (i'.locks g.lock = t.interface.locks g.lock ∨ i'.locks g.lock = .complete) := by
  have hi := (wire?_of_site? ht).2
  have hw := Custody.wellFormed (hc.site ht)
  have he := part_edits hw hm harr hr
  have hg' : g.Watches t.interface (y.parts g.lock) (y.got n) := hi ▸ h.watches n g hg
  by_cases hl : g.lock = m.completeLock
  · have hinc : t.interface.locks g.lock = .incomplete := by rw [hl, harr.lock]
    have hne : y.world.interface.locks g.lock ≠ .complete := by rw [← hi, hinc]; decide
    obtain ⟨m', hm', hl'⟩ := h.message hg hne
    rw [← hi] at hm'
    have hb := hw.lock_inj hm' hm (hl'.trans hl)
    rw [hl, heard_self, ← hl]
    cases g with
    | call j h' =>
      subst hb
      have hcall := call_watches h' hw hm hl.symm (hl ▸ harr) (fun htm => ?_) hr
      · exact ⟨⟨hcall.1, hg'.2⟩, hcall.2⟩
      · by_contra hs
        exact hcomp htm (Option.isSome_iff_ne_none.2 hs) n j h' hg hl
    | chunks j r =>
      subst hb
      exact receiver_watches hw hg' hinc (hl ▸ harr.goesOn) he.steady.chanCount
        (fun htm => (part_continues hw hm harr htm hr).1) hr
  · rw [heard_of_ne _ hl]
    have hspared : g.Spared t.interface i' := by
      refine ⟨he.steady.chanCount, fun hn => he.same _ fun heq => ?_, fun ch k' => hsettled _ ch k'⟩
      obtain ⟨m', hm', hl'⟩ := hg'.message hn
      rw [heq] at hm'
      exact hl (hl'.symm.trans (congrArg _ (Option.some.inj (hm'.symm.trans hm))))
    have hw' := hg'.spared hspared (hi ▸ hk.lock_lt hc hg)
    exact ⟨hw'.1, .inl hw'.2⟩

private theorem afterPart_keeps (t : Site w) (p : ProcedureIndex w) (c : CallIndex w) (tm : Terminator)
    (i' : Interface w) :
    (t.afterPart p c tm i').interface = i' ∧ (t.afterPart p c tm i').wire.terminated = t.wire.terminated ∧
      (t.afterPart p c tm i').wire.idleCallHandles = t.wire.idleCallHandles := by
  unfold Site.afterPart
  split <;> exact ⟨rfl, rfl, rfl⟩

/-- A part of a response reaches the handles on it and no other. -/
theorem receivePart (h : Watched y) (hc : y.world.InCustody held) (hk : y.world.Known held)
    (ht : y.world.site? k = some t) (ha : t.Awaits p c b) (hm : t.interface.messages.lookup b = some m)
    (hcomp : tm = .complete → m.sender.isSome → ∀ n j h', y.world.Live n (.call j h') → h'.completeLock ≠
    m.completeLock) (hr : (Interface.receivePart b tm bytes).run t.interface = .ok () i') :
    Watched ⟨y.world.setSite k (t.afterPart p c tm i'), heard y.parts m.completeLock (bytes, tm), y.got⟩ := by
  obtain ⟨hx, hi⟩ := wire?_of_site? ht
  have hw := Custody.wellFormed (hc.site ht)
  have harr : m.Arrives t.interface (y.parts m.completeLock) :=
    hi ▸ h.arrives k t.wire (p, c) b m hx ha.running ha.mapped (hi ▸ hm)
  have he := part_edits hw hm harr hr
  have hown := own_of_awaits ht ha
  -- a receiver that has been handed over completely only drains
  have hsettled : ∀ l ch k', KeepsSettled l ch k' t.interface i' := by
    intro l ch k'
    have hop : Interface.Operates (KeepsSettled l ch k' : Interface w → Interface w → Prop) :=
      Interface.settled_operates
    have hf := (Site.receiveResponse_follows hop.toSends p c tm bytes t).1
    rw [Site.receiveResponse_run ha hr] at hf
    exact hf
  obtain ⟨hafter, hterm, hidle⟩ := afterPart_keeps t p c tm i'
  refine h.setSite ht hterm (fun l hl => ?_) h.unused (fun n g hg => ?_) (fun n g hg hgk hrun' hinc => ?_)
    (fun hrun' call b' m' hcall hm' => ?_) fun j x call b' m' hne hj hrun' hcall hm' => ?_
  · have hle : y.world.interface.lockCount ≤ l := by
      rw [← hi]
      exact he.steady.lockCount.trans (hafter ▸ hl)
    rw [heard_of_ne _ (Nat.ne_of_gt ((hw.lock_lt hm).trans_le (hi ▸ hle)))]
    exact h.fresh l hle
  · rw [hafter, ← hi]
    exact watches_part h hc hk ht hm harr hcomp hsettled hr hg
  · rw [hidle]
    exact h.idle hx hg hgk hrun' hinc
  · rw [hafter] at hm' ⊢
    -- the call itself awaits its response as before, unless this was the last part of it
    by_cases hcall' : call = (p, c)
    · subst hcall'
      have htm : tm ≠ .complete := by
        rintro rfl
        simp [Site.afterPart] at hcall
      have hb : b' = b := by
        simp only [Site.afterPart, if_neg htm] at hcall
        exact Option.some.inj (hcall.symm.trans ha.mapped)
      subst hb
      obtain ⟨-, m'', hm'', hl'', harr'⟩ := part_continues hw hm harr htm hr
      cases hm'.symm.trans hm''
      rw [hl'', heard_self]
      exact harr'
    · refine arrives_other h hc ht hm hown he (fun heq => hcall' (congrArg Prod.snd heq)) hx hrun' ?_ hm'
      unfold Site.afterPart at hcall
      split at hcall
      · rwa [AList.lookup_erase_eq, if_neg hcall'] at hcall
      · exact hcall
  · rw [hafter] at hm' ⊢
    exact arrives_other h hc ht hm hown he (fun heq => hne (congrArg Prod.fst heq)) hj hrun' hcall hm'

end

/-! ### Ending a wire -/

/-- Termination takes no message from a handle. -/
private theorem sync_spared (h : Watched y) (hc : y.world.InCustody held) (hk : y.world.Known held)
    (ht : y.world.site? k = some t) {n : Nat} {g : Handle w} (hg : y.world.Live n g) :
    g.Spared t.interface t.markTerminatedSync.interface := by
  have hi := (wire?_of_site? ht).2
  have hev := Site.markTerminatedSync_evolves (Custody.wellFormed (hc.site ht))
  have hdrop : ∀ ch k', KeepsSettled g.lock ch k' t.interface t.markTerminatedSync.interface := by
    intro ch k'
    refine List.foldlRecOn _ _ (fun h => h) fun i hstep pc _ => ?_
    exact fun hs => Interface.settled_operates.dropAssociatedCallMessage i _ (hstep hs)
  refine ⟨hev.later.chanCount, fun hn => hev.same _ ?_, hdrop⟩
  rintro ⟨call, -, hb⟩
  obtain ⟨m, hm, hl⟩ := (hi ▸ h.watches n g hg : g.Watches t.interface _ _).message hn
  have ho : y.world.own (.args (call.1, call.2, t.wire.id)) = some g.responseIdx := by
    rw [← hb, hi]
    rfl
  obtain ⟨call', hcall⟩ := hk.owner hc hg (hi ▸ hm) hl ho
  cases hcall

/-- Poisoning its lock leaves a handle nothing to wait for. -/
private theorem watches_poisoned {g : Handle w} {i : Interface w} {parts : List Part} {got : List (List UInt8)}
    {locks : LockRef → CompleteLockState} (h : g.Watches i parts got)
    (hl : locks g.lock = i.locks g.lock ∨ locks g.lock = .poisoned ∧ i.locks g.lock ≠ .complete) :
    g.Watches { i with locks := locks } parts got := by
  have hold : ∀ st, st ≠ .poisoned → locks g.lock = st → i.locks g.lock = st := by
    rintro st hne hst
    rcases hl with hl | ⟨hl, -⟩
    · exact hl.symm.trans hst
    · exact absurd (hst.symm.trans hl) hne
  have hcomp : i.locks g.lock = .complete → locks g.lock = .complete := by
    intro hc
    rcases hl with hl | ⟨-, hne⟩
    · exact hl.trans hc
    · exact absurd hc hne
  cases g with
  | call j h' =>
    obtain ⟨⟨⟨m, hm, hlock, hchunks, hs⟩, hwhole⟩, hgot⟩ := h
    exact ⟨⟨⟨m, hm, hlock, hchunks, fun hc => hs (hold _ (by decide) hc)⟩, fun hc => hwhole (hold _ (by decide) hc)⟩,
      hgot⟩
  | chunks j r =>
    obtain ⟨hlt, hm, hflows, hdrains⟩ := h
    refine ⟨hlt, fun hne => hm fun hc => hne (hcomp hc), fun hinc => ?_, fun hc => ?_⟩
    · obtain ⟨hr, hs, hbuf⟩ := hflows (hold _ (by decide) hinc)
      exact ⟨hr, hs, hbuf⟩
    · obtain ⟨⟨hdet, hs, hq⟩, hwhole⟩ := hdrains (hold _ (by decide) hc)
      exact ⟨⟨hdet, hs, hq⟩, hwhole⟩

/-- Of the locks of handles, termination poisons the incomplete ones that the wire knows. -/
theorem locks_markTerminated (h : Watched y) (hc : y.world.InCustody held) (hk : y.world.Known held)
    (ht : y.world.site? k = some t) {n : Nat} {g : Handle w} (hg : y.world.Live n g) :
    t.markTerminated.interface.locks g.lock =
      if g.lock ∈ t.wire.idleCallHandles.values ∧ y.world.interface.locks g.lock = .incomplete then .poisoned
      else y.world.interface.locks g.lock := by
  have hi := (wire?_of_site? ht).2
  have hsync := ((hi ▸ h.watches n g hg : g.Watches t.interface _ _).spared (sync_spared h hc hk ht hg)
    (hi ▸ hk.lock_lt hc hg)).2
  rw [← hi, ← hsync]
  exact Interface.foldl_poison_locks _ _ _

theorem locks_markTerminated_ne (h : Watched y) (hc : y.world.InCustody held) (hk : y.world.Known held)
    (ht : y.world.site? k = some t) {n : Nat} {g : Handle w} (hg : y.world.Live n g) (hne : g.wire ≠ k) :
    t.markTerminated.interface.locks g.lock = y.world.interface.locks g.lock := by
  rw [h.locks_markTerminated hc hk ht hg]
  refine if_neg fun hl => hne ?_
  exact hc.apart (.inl (hk n g hg)) (.inr ⟨t.wire, (wire?_of_site? ht).1, hl.1⟩)

/-- When a wire ends, none of its handles is left waiting. -/
theorem markTerminated (h : Watched y) (hc : y.world.InCustody held) (hk : y.world.Known held)
    (ht : y.world.site? k = some t) : Watched ⟨y.world.setSite k t.markTerminated, y.parts, y.got⟩ := by
  obtain ⟨hx, hi⟩ := wire?_of_site? ht
  have hct := hc.site ht
  have hev := Site.markTerminated_evolves (Custody.wellFormed hct)
  obtain ⟨locks, heq⟩ := Interface.foldl_poison_eq t.wire.idleCallHandles.values t.markTerminatedSync.interface
  have hlocks : t.markTerminated.interface = { t.markTerminatedSync.interface with locks := locks } := heq
  refine ⟨fun l hl => h.fresh l ?_, h.unused, fun j x call b m hj hrun hcall hm => ?_, fun n g hg => ?_,
    h.apart, fun n g hg => ?_⟩
  · rw [← hi]
    exact hev.later.lockCount.trans hl
  -- only other wires await responses now, and their buffers are left alone
  · have hjk : j ≠ k := by
      rintro rfl
      obtain rfl := Option.some.inj (hj.symm.trans (World.wire?_setSite_self ht _))
      cases hrun
    replace hj : y.world.wire? j = some x := (World.wire?_setSite_ne _ _ hjk).symm.trans hj
    have ho : y.world.own (.response j call) = some b := by
      simp only [World.own, hj]
      exact hcall
    have hs : Same t.interface t.markTerminated.interface b :=
      (Site.markTerminated_confines hct).same (o := .response j call) ((own_site ht _).trans ho) hjk
    obtain ⟨m₀, hm₀⟩ := AList.mem_iff_lookup.1 (hc.opened ho).mem
    have hmm : m₀ = m := Option.some.inj ((hs m₀ (hi ▸ hm₀)).1.symm.trans hm)
    subst hmm
    exact (hi ▸ h.arrives j x call b m₀ hj hrun hcall hm₀ : m₀.Arrives t.interface _).same (hi ▸ hm₀) hs hm
  · have hsync := (hi ▸ h.watches n g hg : g.Watches t.interface _ _).spared (sync_spared h hc hk ht hg)
      (hi ▸ hk.lock_lt hc hg)
    have hlock : locks g.lock = _ := (congrFun (congrArg Interface.locks hlocks) g.lock).symm.trans
      (h.locks_markTerminated hc hk ht hg)
    show g.Watches t.markTerminated.interface _ _
    rw [hlocks]
    apply watches_poisoned hsync.1
    rw [hlock, hsync.2, hi]
    split
    · rename_i hp
      refine .inr ⟨rfl, ?_⟩
      rw [hp.2]
      decide
    · exact .inl rfl
  · obtain ⟨x, hgx, htr⟩ := h.tracks n g hg
    by_cases hgk : g.wire = k
    · have hxt : x = t.wire := Option.some.inj ((hgk ▸ hgx).symm.trans hx)
      subst hxt
      -- all handles of the wire are tracked, so none of their locks has been left incomplete
      have hended : t.markTerminated.wire.terminated ≠ false := Bool.noConfusion
      refine ⟨t.markTerminated.wire, hgk ▸ World.wire?_setSite_self ht _, fun hrun => absurd hrun hended,
        fun hrun => absurd hrun hended, fun _ hinc => ?_⟩
      replace hinc := (h.locks_markTerminated hc hk ht hg).symm.trans hinc
      split at hinc
      · cases hinc
      · rename_i hne
        cases hrun : t.wire.terminated with
        | true => exact htr.ended hrun hinc
        | false => exact hne ⟨AList.mem_values.2 ⟨_, htr.tracked hrun hinc⟩, hinc⟩
    · have hl := h.locks_markTerminated_ne hc hk ht hg hgk
      refine ⟨x, (World.wire?_setSite_ne _ _ hgk).trans hgx, ?_, ?_, ?_⟩
      · exact fun hrun hinc => htr.tracked hrun (hl.symm.trans hinc)
      · exact fun hrun hp => htr.sane hrun (hl.symm.trans hp)
      · exact fun hend hinc => htr.ended hend (hl.symm.trans hinc)

end Watched

end Ipfi
