import Ipfi.Answers
import Ipfi.Handles
import Ipfi.Views

/-!
# Replies on their way into the handles

A caller that awaits the responses to its calls: a reply adds to the response it is part of and to no other, and once
the response is complete its handle takes it.
-/

namespace Ipfi

variable {w : IntFeature}

open Site (Part chunksOf EndsInComplete)

/-- The parts in which replies arrive. -/
def partsOf (replies : List Yield) : List Part := replies.map fun y => (y.1.val, y.2)

theorem partsOf_concat (replies : List Yield) (y : Yield) :
    partsOf (replies ++ [y]) = partsOf replies ++ [(y.1.val, y.2)] := by
  simp [partsOf]

theorem exists_complete {replies : List Yield} (h : EndsInComplete (partsOf replies)) :
    ∃ y ∈ replies, y.2 = .complete := by
  obtain ⟨init, bytes, heq, -⟩ := h
  have hmem : (bytes, Terminator.complete) ∈ partsOf replies := by simp [heq]
  obtain ⟨y, hy, hyq⟩ := List.mem_map.1 hmem
  exact ⟨y, hy, congrArg Prod.snd hyq⟩

/-- How a call stands once the given replies to it have been received. -/
structure CallRecord.Stands (r : CallRecord w) (t : Site w) (replies : List Yield) : Prop where
  waits : r.result = none → ∃ b l, t.Responds r.procedureIdx r.callIdx b l (partsOf replies) ∧
    ∀ h, r.handle = some h → h = ⟨b, l⟩
  waited : ∀ chunks, r.result = some chunks → chunks = chunksOf (partsOf replies) ∧ EndsInComplete (partsOf replies)
  ended : EndsInComplete (partsOf replies) → r.handle ≠ none

theorem CallRecord.held_eq_some {r : CallRecord w} {h : CallHandle w} :
    r.held = some h ↔ r.result = none ∧ r.handle = some h := by
  unfold held
  cases r.result <;> simp

namespace Site

/-- A caller that has made the given calls, once it has received the given replies. -/
structure Expects (t : Site w) (x : Surroundings w) (calls : List (CallRecord w)) (q : Replied w) : Prop where
  custody : t.InCustody x
  canCall : t.CanCall
  distinct : (calls.map CallRecord.pair).Nodup
  stands : ∀ r ∈ calls, r.Stands t (q r.pair)
  apart : ∀ r ∈ calls, ∀ r' ∈ calls, ∀ h h', r.held = some h → r'.held = some h' → h.responseIdx = h'.responseIdx →
    r.pair = r'.pair

namespace Expects

variable {t t' : Site w} {x : Surroundings w} {calls : List (CallRecord w)} {q : Replied w} {r r' : CallRecord w}
  {n : Nat} {h' : CallHandle w}

theorem eq_of_pair (h : t.Expects x calls q) (hr : r ∈ calls) (hr' : r' ∈ calls) (heq : r.pair = r'.pair) : r = r' :=
  List.inj_on_of_nodup_map h.distinct hr hr' heq

/-- A call that is not over awaits its response. -/
theorem accumulates (h : t.Expects x calls q) (hr : r ∈ calls) (hq : ∀ y ∈ q r.pair, y.2 ≠ .complete) :
    r.result = none ∧ ∃ b l, t.Accumulates r.procedureIdx r.callIdx b l (chunksOf (partsOf (q r.pair))) ∧
      (∀ p ∈ partsOf (q r.pair), p.2 ≠ .complete) ∧ ∀ h, r.handle = some h → h = ⟨b, l⟩ := by
  have hnot : ¬ EndsInComplete (partsOf (q r.pair)) := fun hend => by
    obtain ⟨y, hy, hc⟩ := exists_complete hend
    exact hq y hy hc
  have hnone : r.result = none := by
    by_contra hne
    obtain ⟨chunks, hchunks⟩ := Option.ne_none_iff_exists'.1 hne
    exact hnot ((h.stands r hr).waited chunks hchunks).2
  obtain ⟨b, l, hresp, hhd⟩ := (h.stands r hr).waits hnone
  rcases hresp with ⟨hacc, hparts⟩ | ⟨-, hend, -⟩
  · exact ⟨hnone, b, l, hacc, hparts, hhd⟩
  · exact absurd hend hnot

/-- Only the interface, the awaited responses and the flags matter. -/
theorem congr (h : t.Expects x calls q) (hc : t'.InCustody x) (hi : t'.interface = t.interface)
    (hr : t'.wire.responseIdxMap = t.wire.responseIdxMap) (ht : t'.wire.terminated = t.wire.terminated)
    (hm : t'.wire.moduleStyle = t.wire.moduleStyle) : t'.Expects x calls q := by
  refine ⟨hc, ⟨ht.trans h.canCall.running, hm.trans h.canCall.hostStyle⟩, h.distinct, fun r hrc => ?_, h.apart⟩
  obtain ⟨hwaits, hwaited, hended⟩ := h.stands r hrc
  refine ⟨fun hn => ?_, hwaited, hended⟩
  obtain ⟨b, l, hresp, hhd⟩ := hwaits hn
  exact ⟨b, l, hresp.congr hi hr ht, hhd⟩

/-! ### Receiving -/

/-- A reply to a call that is not over is received, and adds to the replies to that call. -/
theorem receives (h : t.Expects x calls q) (hr : r ∈ calls) (hh : r.handle ≠ none)
    (hq : ∀ y ∈ q r.pair, y.2 ≠ .complete) (tm : Terminator) (bytes : Payload) :
    ∃ b t', (receiveResponse r.procedureIdx r.callIdx tm bytes.val).run t = .ok (some b) t' ∧
      t'.Expects x calls (q.recv (.response r.procedureIdx r.callIdx tm bytes)) := by
  obtain ⟨hnone, b, l, hacc, hparts, hhd⟩ := h.accumulates hr hq
  obtain ⟨i, hi, -, -⟩ :=
    receivePart_edits h.custody.wellFormed ⟨_, hacc.buffer, by rw [hacc.lock]; decide⟩ tm bytes.val
  have hrun := receiveResponse_run hacc.awaits hi
  refine ⟨_, _, hrun, ?_⟩
  rw [← EStateM.Result.state_ok (some (decide (tm = .complete))) (t.afterPart r.procedureIdx r.callIdx tm i), ← hrun]
  have hpassive := (receiveResponse_answering r.procedureIdx r.callIdx tm bytes.val t).passive_of_answering
  refine ⟨(receiveResponse_works h.custody _ _ tm bytes.val).custody, ⟨hpassive.terminated.trans h.canCall.running,
    hpassive.fixed_of_passive.moduleStyle.trans h.canCall.hostStyle⟩, h.distinct, fun r' hr' => ?_, h.apart⟩
  by_cases heq : r'.pair = r.pair
  · obtain rfl := h.eq_of_pair hr' hr heq
    have hself : q.recv (.response r'.procedureIdx r'.callIdx tm bytes) r'.pair = q r'.pair ++ [(bytes, tm)] :=
      Function.update_self ..
    rw [hself]
    refine ⟨fun _ => ⟨b, l, ?_, hhd⟩, fun chunks hc => ?_, fun _ => hh⟩
    · rw [partsOf_concat]
      exact hacc.receive_self hparts tm bytes.val
    · cases hnone.symm.trans hc
  · have hother : q.recv (.response r.procedureIdx r.callIdx tm bytes) r'.pair = q r'.pair :=
      Function.update_of_ne heq ..
    rw [hother]
    obtain ⟨hwaits, hwaited, hended⟩ := h.stands r' hr'
    refine ⟨fun hn => ?_, hwaited, hended⟩
    obtain ⟨b', l', hresp, hhd'⟩ := hwaits hn
    exact ⟨b', l', hresp.receiveResponse_ne h.custody (Ne.symm heq) tm bytes.val, hhd'⟩

/-! ### One call at a time -/

section

variable {f : CallRecord w → CallRecord w}

/-- What becomes of one call leaves the others alone. -/
private theorem modify (h : t.Expects x calls q) (hn : calls[n]? = some r) (hf : ∀ r, (f r).pair = r.pair)
    (hc : t'.InCustody x) (hcan : t'.CanCall) (hself : (f r).Stands t' (q r.pair))
    (hothers : ∀ r' ∈ calls, r'.pair ≠ r.pair → r'.Stands t' (q r'.pair))
    (hapart : ∀ r' ∈ calls, r'.pair ≠ r.pair → ∀ h h', (f r).held = some h → r'.held = some h' →
      h.responseIdx ≠ h'.responseIdx) : t'.Expects x (calls.modify n f) q := by
  refine ⟨hc, hcan, CallRecord.map_pair_modify hf calls n ▸ h.distinct, fun r' hr' => ?_,
    fun r' hr' r'' hr'' g g' hg hg' heq => ?_⟩
  · rcases CallRecord.mem_modify h.distinct hn hr' with rfl | ⟨hr', hne⟩
    · rw [hf]
      exact hself
    · exact hothers r' hr' hne
  · rcases CallRecord.mem_modify h.distinct hn hr' with rfl |
      ⟨hr', hne⟩ <;> rcases CallRecord.mem_modify h.distinct hn hr'' with rfl | ⟨hr'', hne'⟩
    · rfl
    · exact absurd heq (hapart r'' hr'' hne' g g' hg hg')
    · exact absurd heq.symm (hapart r' hr' hne g' g hg' hg)
    · exact h.apart r' hr' r'' hr'' g g' hg hg' heq

end

/-! ### Waiting -/

/-- The handle of a call that is over takes the response. -/
theorem waits (h : t.Expects x calls q) (hn : calls[n]? = some r) (hheld : r.held = some h')
    (hend : EndsInComplete (partsOf (q r.pair))) :
    ∃ t', h'.waitBytes.run t = .ok (chunksOf (partsOf (q r.pair))) t' ∧
      t'.Expects x (calls.modify n fun r' => { r' with result := some (chunksOf (partsOf (q r.pair))) }) q := by
  have hr : r ∈ calls := List.mem_of_getElem? hn
  obtain ⟨hnone, hhandle⟩ := CallRecord.held_eq_some.1 hheld
  obtain ⟨b, l, hresp, hhd⟩ := (h.stands r hr).waits hnone
  obtain rfl := hhd h' hhandle
  have hcomp : t.Completed b l (chunksOf (partsOf (q r.pair))) := by
    rcases hresp with ⟨-, hparts⟩ | ⟨hcomp, -⟩
    · obtain ⟨init, bytes, heq, -⟩ := hend
      exact absurd rfl (hparts (bytes, .complete) (by simp [heq]))
    · exact hcomp
  have hrun := CallHandle.waitBytes_ready (t := t) (h := ⟨b, l⟩) ⟨hcomp.buffer, hcomp.lock⟩
  refine ⟨_, hrun, ?_⟩
  have hc : (((⟨b, l⟩ : CallHandle w).struck ((⟨b, l⟩ : CallHandle w).taken t))).InCustody x := by
    have hkeeps := ((waitBytes_waits ⟨b, l⟩ t).keepsCustody h.custody).1
    rwa [hrun] at hkeeps
  -- nobody else waits for a response in the buffer
  have hne : ∀ r' ∈ calls, r'.pair ≠ r.pair → ∀ b' l',
      t.Responds r'.procedureIdx r'.callIdx b' l' (partsOf (q r'.pair)) →
      (∀ h, r'.handle = some h → h = ⟨b', l'⟩) → r'.result = none → b' ≠ b := by
    rintro r' hr' hpair b' l' hresp' hhd' hnone' rfl
    rcases hresp' with ⟨hacc, -⟩ | ⟨-, hend', -⟩
    · have hl : l' = l := congrArg MessageBuffer.completeLock (Option.some.inj (hacc.buffer.symm.trans hcomp.buffer))
      subst hl
      cases hacc.lock.symm.trans hcomp.lock
    · obtain ⟨g, hg⟩ := Option.ne_none_iff_exists'.1 ((h.stands r' hr').ended hend')
      obtain rfl := hhd' g hg
      exact hpair (h.apart r' hr' r hr _ _ (CallRecord.held_eq_some.2 ⟨hnone', hg⟩) hheld rfl)
  refine h.modify hn (fun _ => rfl) hc ⟨h.canCall.running, h.canCall.hostStyle⟩
    ⟨fun hres => ?_, fun chunks hres => ?_, fun _ => ?_⟩ (fun r' hr' hpair => ?_) fun r' hr' hpair g g' hg => ?_
  · cases hres
  · exact ⟨(Option.some.inj hres).symm, hend⟩
  · rw [hhandle]
    simp
  · obtain ⟨hwaits, hwaited, hended⟩ := h.stands r' hr'
    refine ⟨fun hnone' => ?_, hwaited, hended⟩
    obtain ⟨b', l', hresp', hhd'⟩ := hwaits hnone'
    have hsame : Interface.Same t.interface (t.interface.pop b).2 b' :=
      Interface.pop_same h.custody.wellFormed (hne r' hr' hpair b' l' hresp' hhd' hnone')
    refine ⟨b', l', ?_, hhd'⟩
    rcases hresp' with ⟨hacc, hparts⟩ | ⟨hcomp', hend', hk⟩
    · exact .inl ⟨hacc.of_same ⟨hacc.awaits.running, hacc.awaits.mapped⟩ hsame, hparts⟩
    · exact .inr ⟨hcomp'.of_same hsame, hend', hk⟩
  · cases (CallRecord.held_eq_some.1 hg).1

/-- As long as a call is not over its handle blocks. -/
theorem blocks (h : t.Expects x calls q) (hn : calls[n]? = some r) (hheld : r.held = some h')
    (hend : ¬ EndsInComplete (partsOf (q r.pair))) : h'.waitBytes.run t = .error .blocked t := by
  obtain ⟨hnone, hhandle⟩ := CallRecord.held_eq_some.1 hheld
  obtain ⟨b, l, hresp, hhd⟩ := (h.stands r (List.mem_of_getElem? hn)).waits hnone
  obtain rfl := hhd h' hhandle
  rcases hresp with ⟨hacc, -⟩ | ⟨-, hend', -⟩
  · exact CallHandle.waitBytes_incomplete hacc.buffer hacc.lock
  · exact absurd hend' hend

/-! ### Calling -/

/-- Another piece of a call. -/
theorem continues (h : t.Expects x calls q) (hn : calls[n]? = some r) (args : Payload) (m : Message w) :
    (t.queued m).Expects x (calls.modify n fun r => { r with pieces := r.pieces ++ [args] }) q := by
  have hr : r ∈ calls := List.mem_of_getElem? hn
  have hstands : ∀ r' ∈ calls, r'.Stands (t.queued m) (q r'.pair) := fun r' hr' =>
    (h.congr (queued_inCustody h.custody m) rfl rfl rfl rfl).stands r' hr'
  refine h.modify hn (fun _ => rfl) (queued_inCustody h.custody m) ⟨h.canCall.running, h.canCall.hostStyle⟩ ?_
    (fun r' hr' _ => hstands r' hr') fun r' hr' hne g g' hg hg' heq => ?_
  · obtain ⟨hwaits, hwaited, hended⟩ := hstands r hr
    exact ⟨hwaits, hwaited, hended⟩
  · exact hne (h.apart r hr r' hr' g g' hg hg' heq).symm

/-- The response to a new call goes to a new buffer. -/
theorem makes (h : t.Expects x calls q) (hroom : t.interface.messages.size < 2 ^ w.bits)
    (hc : t'.InCustody x) (hcan : t'.CanCall) (hi : t'.interface = t.interface.push.2)
    (hmap : t'.wire.responseIdxMap = t.wire.responseIdxMap.insert r.pair t.interface.push.1)
    (hnew : ∀ r' ∈ calls, r'.pair ≠ r.pair) (hq : q r.pair = []) (hres : r.result = none)
    (hh : ∀ h, r.handle = some h → h = ⟨t.interface.push.1, t.interface.lockCount⟩) :
    t'.Expects x (calls ++ [r]) q := by
  have hw := Custody.wellFormed h.custody
  have hfresh := Interface.push_notMem hw hroom
  have hsame : ∀ b, Interface.Same t.interface t'.interface b := fun b => hi ▸ Interface.push_same hw hroom
  have hmem : ∀ r' ∈ calls, ∀ h, r'.held = some h → h.responseIdx ∈ t.interface.messages := by
    intro r' hr' g hg
    obtain ⟨hnone, hhandle⟩ := CallRecord.held_eq_some.1 hg
    obtain ⟨b, l, hresp, hhd⟩ := (h.stands r' hr').waits hnone
    obtain rfl := hhd g hhandle
    rcases hresp with ⟨hacc, -⟩ | ⟨hcomp, -⟩
    · exact AList.mem_of_lookup hacc.buffer
    · exact AList.mem_of_lookup hcomp.buffer
  have hmine : ∀ g, r.held = some g → g.responseIdx = t.interface.push.1 := fun g hg => by
    rw [hh g (CallRecord.held_eq_some.1 hg).2]
  refine ⟨hc, hcan, ?_, fun r' hr' => ?_, fun r' hr' r'' hr'' g g' hg hg' heq => ?_⟩
  · rw [List.map_append, List.nodup_append]
    refine ⟨h.distinct, List.nodup_singleton _, fun k hk k' hk' => ?_⟩
    obtain ⟨r', hr', rfl⟩ := List.mem_map.1 hk
    obtain rfl := List.mem_singleton.1 hk'
    exact hnew r' hr'
  · rcases List.mem_append.1 hr' with hr' | hr'
    · obtain ⟨hwaits, hwaited, hended⟩ := h.stands r' hr'
      refine ⟨fun hnone => ?_, hwaited, hended⟩
      obtain ⟨b, l, hresp, hhd⟩ := hwaits hnone
      refine ⟨b, l, ?_, hhd⟩
      rcases hresp with ⟨hacc, hparts⟩ | ⟨hcomp, hend, hk⟩
      · refine .inl ⟨hacc.of_same ⟨hcan.running, ?_⟩ (hsame b), hparts⟩
        rw [hmap]
        exact (AList.lookup_insert_ne (hnew r' hr')).trans hacc.awaits.mapped
      · refine .inr ⟨hcomp.of_same (hsame b), hend, ?_⟩
        rw [hmap, AList.mem_insert]
        rintro (heq | hk')
        · exact hnew r' hr' heq
        · exact hk hk'
    · obtain rfl := List.mem_singleton.1 hr'
      rw [hq]
      refine ⟨fun _ => ⟨t.interface.push.1, t.interface.lockCount,
        .inl ⟨⟨⟨hcan.running, ?_⟩, ?_, ?_⟩, by simp [partsOf]⟩, hh⟩, fun chunks hc => ?_, fun hend => ?_⟩
      · rw [hmap]
        exact AList.lookup_insert _
      · rw [hi, Interface.lookup_push, if_pos rfl]
        rfl
      · rw [hi]
        exact Interface.push_locks_self _
      · cases hres.symm.trans hc
      · obtain ⟨y, hy, -⟩ := exists_complete hend
        cases hy
  · rcases List.mem_append.1 hr' with hold | hold <;> rcases List.mem_append.1 hr'' with hold' | hold'
    · exact h.apart r' hold r'' hold' g g' hg hg' heq
    · rw [List.mem_singleton.1 hold'] at hg'
      exact absurd (hmine g' hg' ▸ heq ▸ hmem r' hold g hg) hfresh
    · rw [List.mem_singleton.1 hold] at hg
      exact absurd (hmine g hg ▸ heq ▸ hmem r'' hold' g' hg') hfresh
    · rw [List.mem_singleton.1 hold, List.mem_singleton.1 hold']

/-- Ending a call gives a handle on its response, and leaves the others alone. -/
theorem ends (h : t.Expects x calls q) (hn : calls[n]? = some r) (hhandle : r.handle = none) :
    ∃ h', (endGivenCall r.procedureIdx r.callIdx).run t =
        .ok h' ((t.queued (.call r.procedureIdx r.callIdx .complete .empty)).handled h'.responseIdx h'.completeLock) ∧
      ((t.queued (.call r.procedureIdx r.callIdx .complete .empty)).handled h'.responseIdx h'.completeLock).Expects x
        (calls.modify n fun r => { r with handle := some h' }) q := by
  have hr : r ∈ calls := List.mem_of_getElem? hn
  have hnot : ¬ EndsInComplete (partsOf (q r.pair)) := fun hend => (h.stands r hr).ended hend hhandle
  have hnone : r.result = none := by
    by_contra hne
    obtain ⟨chunks, hchunks⟩ := Option.ne_none_iff_exists'.1 hne
    exact hnot ((h.stands r hr).waited chunks hchunks).2
  obtain ⟨b, l, hresp, -⟩ := (h.stands r hr).waits hnone
  obtain ⟨hacc, hparts⟩ := hresp.resolve_right fun hresp => hnot hresp.2.1
  refine ⟨⟨b, l⟩, endGivenCall_awaited h.canCall hacc.awaits hacc.buffer, ?_⟩
  have hcustody := handled_inCustody (queued_inCustody h.custody (.call r.procedureIdx r.callIdx .complete .empty))
    (p := r.procedureIdx) (c := r.callIdx) ⟨hacc.awaits.running, hacc.awaits.mapped⟩ hacc.buffer
  refine h.modify hn (fun _ => rfl) hcustody ⟨h.canCall.running, h.canCall.hostStyle⟩
    ⟨fun _ => ⟨b, l, hresp.congr rfl rfl rfl, fun g hg => (Option.some.inj hg).symm⟩, fun chunks hc => ?_,
    fun _ => by simp⟩ (fun r' hr' _ => ?_) fun r' hr' hpair g g' hg hg' heq => ?_
  · cases hnone.symm.trans hc
  · obtain ⟨hwaits, hwaited, hended⟩ := h.stands r' hr'
    refine ⟨fun hnone' => ?_, hwaited, hended⟩
    obtain ⟨b', l', hresp', hhd'⟩ := hwaits hnone'
    exact ⟨b', l', hresp'.congr rfl rfl rfl, hhd'⟩
  · -- the buffer of another call is not the one of this call
    obtain rfl : g = ⟨b, l⟩ := (Option.some.inj (CallRecord.held_eq_some.1 hg).2).symm
    obtain ⟨hnone', hhandle'⟩ := CallRecord.held_eq_some.1 hg'
    obtain ⟨b', l', hresp', hhd'⟩ := (h.stands r' hr').waits hnone'
    obtain rfl := hhd' g' hhandle'
    replace heq : b = b' := heq
    subst heq
    rcases hresp' with ⟨hacc', -⟩ | ⟨hcomp', -⟩
    · have howner := h.custody.inj (hacc'.own x) (hacc.own x)
      exact hpair (Owner.response.inj howner).2
    · have hl : l = l' := congrArg MessageBuffer.completeLock (Option.some.inj (hacc.buffer.symm.trans hcomp'.buffer))
      subst hl
      cases hacc.lock.symm.trans hcomp'.lock

end Expects

end Site

end Ipfi
