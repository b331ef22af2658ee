import Ipfi.ChunkStream
import Ipfi.Confinement

/-!
# A response among other messages

What comes in over a wire adds to the response it belongs to and leaves all others alone, those that are awaited and
those that are complete.
-/

namespace Ipfi

variable {w : IntFeature}

namespace Site

variable {s : Site w} {x : Surroundings w} {p : ProcedureIndex w} {c : CallIndex w} {b : IpfiInteger w} {l : LockRef}
  {cs : List (List UInt8)} {parts : List Part} {m : Incoming w}

theorem receive_running (hs : s.wire.terminated = false) (hm : m ≠ .termination) :
    ((receive m).run s).state.wire.terminated = false := by
  cases m with
  | call p c t bytes => exact ((receiveCall_calling p c t bytes s).passive_of_calling.terminated).trans hs
  | response p c t bytes => exact ((receiveResponse_answering p c t bytes s).passive_of_answering.terminated).trans hs
  | endOfInput => exact hs
  | termination => exact absurd rfl hm
  | ignored => exact hs

theorem receive_idleCallHandles (m : Incoming w) :
    ((receive m).run s).state.wire.idleCallHandles = s.wire.idleCallHandles := by
  cases m with
  | call p c t bytes => exact congrArg (fun y => y.2.2.2) (receiveCall_calling p c t bytes s).passive_of_calling.2
  | response p c t bytes =>
    exact congrArg (fun y => y.2.2.2) (receiveResponse_answering p c t bytes s).passive_of_answering.2
  | endOfInput => rfl
  | termination => rfl
  | ignored => rfl

/-- No message makes the wire await a response. -/
theorem receive_unmapped (hs : s.InCustody x) {key : ProcedureIndex w × CallIndex w} (hk : key ∉ s.wire.responseIdxMap)
    (m : Incoming w) :
    key ∉ ((receive m).run s).state.wire.responseIdxMap := by
  cases m with
  | call p c t bytes =>
    have hmap : ((receiveCall p c t bytes).run s).state.wire.responseIdxMap = s.wire.responseIdxMap :=
      congrArg Prod.snd (receiveCall_calling p c t bytes s).2
    show key ∉ ((receiveCall p c t bytes).run s).state.wire.responseIdxMap
    rwa [hmap]
  | response p c t bytes =>
    show key ∉ ((receiveResponse p c t bytes).run s).state.wire.responseIdxMap
    rcases receiveResponse_cases hs.wellFormed (fun b hb => hs.response_open hb) t bytes with ⟨e, hr⟩ | ⟨b, i, -, hr, -⟩
    · rw [hr]
      exact hk
    · rw [hr, EStateM.Result.state_ok, afterPart]
      split
      · exact fun hmem => hk (AList.mem_erase.1 hmem).2
      · exact hk
  | endOfInput => exact hk
  | termination => exact hk
  | ignored => exact hk

/-- The response as it has arrived in the given parts, in the buffer `b` with the lock `l`. -/
def Responds (s : Site w) (p : ProcedureIndex w) (c : CallIndex w) (b : IpfiInteger w) (l : LockRef)
    (parts : List Part) : Prop :=
  s.Accumulates p c b l (chunksOf parts) ∧ (∀ q ∈ parts, q.2 ≠ .complete) ∨
    s.Completed b l (chunksOf parts) ∧ EndsInComplete parts ∧ (p, c) ∉ s.wire.responseIdxMap

theorem Completed.unheld (h : s.Completed b l cs) (hs : s.InCustody x) : s.Unheld x b := by
  refine ⟨AList.mem_of_lookup h.buffer, fun o ho => ?_⟩
  obtain ⟨m, hm, hl⟩ := hs.opened ho
  cases h.buffer.symm.trans hm
  exact hl h.lock

theorem Completed.of_same {s' : Site w} (h : s.Completed b l cs) (hs : Interface.Same s.interface s'.interface b) :
    s'.Completed b l cs := by
  obtain ⟨hb, hl, -⟩ := hs _ h.buffer
  exact ⟨hb, hl.trans h.lock⟩

theorem Accumulates.of_same {s' : Site w} (h : s.Accumulates p c b l cs) (ha : s'.Awaits p c b)
    (hs : Interface.Same s.interface s'.interface b) : s'.Accumulates p c b l cs := by
  obtain ⟨hb, hl, -⟩ := hs _ h.buffer
  exact ⟨ha, hb, hl.trans h.lock⟩

/-- Only the interface, the awaited responses and the flag matter. -/
theorem Responds.congr {s' : Site w} (h : s.Responds p c b l parts) (hi : s'.interface = s.interface)
    (hr : s'.wire.responseIdxMap = s.wire.responseIdxMap) (ht : s'.wire.terminated = s.wire.terminated) :
    s'.Responds p c b l parts := by
  have hsame : Interface.Same s.interface s'.interface b := by rw [hi]; exact .rfl
  rcases h with ⟨h, hparts⟩ | ⟨h, hend, hk⟩
  · exact .inl ⟨h.of_same ⟨ht.trans h.awaits.running, hr ▸ h.awaits.mapped⟩ hsame, hparts⟩
  · exact .inr ⟨h.of_same hsame, hend, hr ▸ hk⟩

theorem Accumulates.own (h : s.Accumulates p c b l cs) (x : Surroundings w) :
    s.own x (.response x.position (p, c)) = some b := (if_pos rfl).trans h.awaits.mapped

private theorem Accumulates.of_works {s' : Site w} {o₀ : Owner w} (h : s.Accumulates p c b l cs) (hw : Works x o₀ s s')
    (hne : .response x.position (p, c) ≠ o₀) (hs' : s'.wire.terminated = false) : s'.Accumulates p c b l cs := by
  refine h.of_same ⟨hs', ?_⟩ (hw.same hne (h.own x))
  have hown := (hw.own hne).trans (h.own x)
  simpa only [Site.own, if_true] using hown

/-- A part of another response. -/
theorem Responds.receiveResponse_ne (h : s.Responds p c b l parts) (hs : s.InCustody x) {p' : ProcedureIndex w}
    {c' : CallIndex w} (hne : (p', c') ≠ (p, c)) (t : Terminator) (bytes : List UInt8) :
    ((receiveResponse p' c' t bytes).run s).state.Responds p c b l parts := by
  rcases h with ⟨h, hparts⟩ | ⟨h, hend, hk⟩
  · have hrun := receive_running (m := .response p' c' t bytes) h.awaits.running (by simp)
    refine .inl ⟨h.of_works (receiveResponse_works hs p' c' t bytes) (fun heq => ?_) hrun, hparts⟩
    exact hne (Owner.response.inj heq).2.symm
  · exact .inr ⟨h.of_same (receiveResponse_unheld hs p' c' t bytes (h.unheld hs)).1, hend,
      receive_unmapped hs hk (.response p' c' t bytes)⟩

/-- A message that is no part of the response. -/
theorem Accumulates.receive_ne (h : s.Accumulates p c b l cs) (hs : s.InCustody x) (hroom : s.RoomFor m)
    (hm : m ≠ .termination) (hne : ∀ t bytes, m ≠ .response p c t bytes) :
    ((receive m).run s).state.Accumulates p c b l cs := by
  have hrun := receive_running h.awaits.running hm
  cases m with
  | call p' c' t bytes => exact h.of_works (receiveCall_works hs hroom t bytes) nofun hrun
  | response p' c' t bytes =>
    refine h.of_works (receiveResponse_works hs p' c' t bytes) (fun heq => ?_) hrun
    obtain ⟨rfl, rfl⟩ := Prod.mk.inj (Owner.response.inj heq).2
    exact hne t bytes rfl
  | endOfInput => exact h
  | termination => exact absurd rfl hm
  | ignored => exact h

/-- A part of the response. -/
theorem Accumulates.receive_self (h : s.Accumulates p c b l (chunksOf parts)) (hparts : ∀ q ∈ parts, q.2 ≠ .complete)
    (t : Terminator) (bytes : List UInt8) :
    ((receive (.response p c t bytes)).run s).state.Responds p c b l (parts ++ [(bytes, t)]) := by
  obtain ⟨done, cur, hcut⟩ := Cut.exists_chunksFrom [] (marked parts)
  have hnext : chunksOf (parts ++ [(bytes, t)]) = done ++ Cut.chunksFrom cur (marked [(bytes, t)]) := by
    rw [chunksOf, marked_append]
    exact Cut.chunksFrom_append hcut _
  replace h : s.Accumulates p c b l (done ++ [cur]) := by rwa [← hcut]
  have hnot (ht : t ≠ .complete) : ∀ q ∈ parts ++ [(bytes, t)], q.2 ≠ .complete := by
    intro q hq
    rcases List.mem_append.1 hq with hq | hq
    · exact hparts q hq
    · rw [List.mem_singleton.1 hq]
      exact ht
  unfold Responds
  rw [hnext]
  cases t with
  | none => exact .inl ⟨h.none bytes, hnot (by decide)⟩
  | chunk => exact .inl ⟨by simpa [marked, Cut.chunksFrom] using h.chunk bytes, hnot (by decide)⟩
  | complete =>
    refine .inr ⟨h.complete bytes, ⟨parts, bytes, rfl, hparts⟩, ?_⟩
    show (p, c) ∉ ((receiveResponse p c .complete bytes).run s).state.wire.responseIdxMap
    rw [receiveResponse_run h.awaits (Interface.receivePart_complete h.buffer (by rw [h.lock]; decide) rfl rfl bytes)]
    exact fun hmem => (AList.mem_erase.1 hmem).1 rfl

/-- A complete response stays what it is. -/
theorem Completed.receive (h : s.Completed b l cs) (hs : s.InCustody x) (hroom : s.RoomFor m)
    (hm : m ≠ .termination) :
    ((receive m).run s).state.Completed b l cs :=
  h.of_same (receive_unheld hs hroom hm (h.unheld hs)).1

/-- The part of the response that a message is, if it is awaited. -/
def partOf (s : Site w) (p : ProcedureIndex w) (c : CallIndex w) : Incoming w → List Part
  | .response p' c' t bytes => if (p', c') = (p, c) ∧ (p, c) ∈ s.wire.responseIdxMap then [(bytes, t)] else []
  | _ => []

theorem partOf_ne (hne : ∀ t bytes, m ≠ .response p c t bytes) : s.partOf p c m = [] := by
  cases m with
  | response p' c' t bytes =>
    refine if_neg fun h => ?_
    obtain ⟨rfl, rfl⟩ := Prod.mk.inj h.1
    exact hne t bytes rfl
  | _ => rfl

/-- A message adds to the response what it is of it. -/
theorem Accumulates.receive (h : s.Accumulates p c b l (chunksOf parts)) (hparts : ∀ q ∈ parts, q.2 ≠ .complete)
    (hs : s.InCustody x) (hroom : s.RoomFor m) (hm : m ≠ .termination) :
    ((Site.receive m).run s).state.Responds p c b l (parts ++ s.partOf p c m) := by
  by_cases hne : ∀ t bytes, m ≠ .response p c t bytes
  · rw [partOf_ne hne, List.append_nil]
    exact .inl ⟨h.receive_ne hs hroom hm hne, hparts⟩
  · push Not at hne
    obtain ⟨t, bytes, rfl⟩ := hne
    rw [partOf, if_pos ⟨rfl, AList.mem_of_lookup h.awaits.mapped⟩]
    exact h.receive_self hparts t bytes

/-- A message leaves a complete response alone, and adds what it is of an awaited one. -/
theorem Responds.receive (h : s.Responds p c b l parts) (hs : s.InCustody x) (hroom : s.RoomFor m)
    (hm : m ≠ .termination) :
    ((Site.receive m).run s).state.Responds p c b l (parts ++ s.partOf p c m) := by
  rcases h with ⟨h, hparts⟩ | ⟨h, hend, hk⟩
  · exact h.receive hparts hs hroom hm
  · have hpart : s.partOf p c m = [] := by
      unfold partOf
      split
      · exact if_neg fun hmem => hk hmem.2
      · rfl
    rw [hpart, List.append_nil]
    exact .inr ⟨h.receive hs hroom hm, hend, receive_unmapped hs hk m⟩

end Site

end Ipfi
