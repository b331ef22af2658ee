import Ipfi.EachWire
import Ipfi.Gathering

/-!
# What a wire leaves behind

An argument buffer belongs to a running wire that is still working on its call, so that a wire that is terminated or
dropped leaves none behind, and the next wire with its identifier starts without any.  The one step that breaks this
is a streaming execution that yields the end of a call whose index the peer has already used for the next call.
-/

namespace Ipfi

variable {w : IntFeature}

open Interface (Stays)

/-! ### One wire -/

namespace Site

variable {s : Site w} {p : ProcedureIndex w} {c : CallIndex w} {t : Terminator} {bytes : List UInt8}

/-- The argument buffers of the wire belong to its ongoing procedures, and once it is terminated it has none. -/
structure Tidy (s : Site w) : Prop where
  ongoing : ∀ {p c}, (p, c, s.wire.id) ∈ s.interface.callToBufferMap → (p, c) ∈ s.wire.ongoingProcedures
  ended : s.wire.terminated = true → ∀ {p c}, (p, c, s.wire.id) ∉ s.interface.callToBufferMap

theorem Tidy.receiveCall (h : s.Tidy) (hterm : s.wire.terminated = false) (p : ProcedureIndex w) (c : CallIndex w)
    (t : Terminator) (bytes : List UInt8) : ((receiveCall p c t bytes).run s).state.Tidy := by
  have hframe := (receiveCall_calling p c t bytes s).passive_of_calling
  have hid := hframe.fixed_of_passive.id
  have hterm' := hframe.terminated.trans hterm
  refine ⟨fun {p' c'} hmem => ?_, fun ht => by rw [hterm'] at ht; cases ht⟩
  rw [hid] at hmem
  have hshape := receiveCall_shape s p c t bytes
  generalize ((Site.receiveCall p c t bytes).run s).state = s' at hshape hmem
  -- a key of the map after the call was admitted is that of the call, or was in the map before
  have hadmitted : (p', c', s.wire.id) ∈ (s.admitCall p c).interface.callToBufferMap →
      (p', c') ∈ (s.admitCall p c).wire.ongoingProcedures := by
    intro hkey
    obtain ⟨b, hb⟩ := AList.mem_iff_lookup.1 hkey
    rw [lookup_admitCall] at hb
    apply (AList.mem_insert _).2
    split at hb
    · rename_i heq
      simp only [Prod.mk.injEq] at heq
      exact .inl (Prod.ext heq.1 heq.2.1)
    · exact .inr (h.ongoing (AList.mem_of_lookup hb))
  cases hshape with
  | rejected hrej => exact h.ongoing hmem
  | admitted i hrej hi =>
    rw [hi] at hmem
    exact hadmitted hmem
  | dropped i hrej ht hi =>
    rw [hi] at hmem
    exact hadmitted (AList.mem_erase.1 hmem).2
  | served i procedure args hrej ht hi hp =>
    rw [hi] at hmem
    obtain ⟨hne, hkey⟩ := AList.mem_erase.1 hmem
    have hother : (p', c') ∈ Wire.others p c (s.admitCall p c).wire :=
      ⟨hadmitted hkey, fun heq => hne (by rw [(Prod.mk.inj heq).1, (Prod.mk.inj heq).2])⟩
    rw [← Wire.serve_others] at hother
    exact hother.1

theorem Tidy.of_serving {s' : Site w} (h : s.Tidy) (hs : Follows Interface.Steady Wire.serving s s') : s'.Tidy := by
  have hid := hs.fixed_of_serving.id
  have hterm : s'.wire.terminated = s.wire.terminated := congrArg (fun y => y.2.1) hs.2
  refine ⟨fun hmem => ?_, fun ht => ?_⟩
  · rw [hs.1.calls, hid] at hmem
    exact hs.ongoingProcedures ▸ h.ongoing hmem
  · rw [hs.1.calls, hid]
    exact h.ended (hterm.symm.trans ht)

/-- Termination deletes every argument buffer of the wire. -/
theorem Tidy.notMem_markTerminated (h : s.Tidy) : (p, c, s.wire.id) ∉ s.markTerminated.interface.callToBufferMap := by
  intro hmem
  obtain ⟨b, hb⟩ := AList.mem_iff_lookup.1 hmem
  rw [lookup_markTerminated] at hb
  split at hb
  · cases hb
  · rename_i hnot
    exact hnot ⟨h.ongoing (AList.mem_of_lookup hb), rfl⟩

theorem Tidy.markTerminated (h : s.Tidy) : s.markTerminated.Tidy :=
  ⟨fun hmem => absurd hmem h.notMem_markTerminated, fun _ => h.notMem_markTerminated⟩

private theorem notMem_dropAssociatedCallMessage {i : Interface w} {key : CallKey w} {b : IpfiInteger w}
    (h : b ∉ i.messages ∨ i.callToBufferMap.lookup key = some b) : b ∉ (i.dropAssociatedCallMessage key).messages := by
  unfold Interface.dropAssociatedCallMessage
  split
  · rename_i b' hb
    rw [← AList.lookup_eq_none, Interface.lookup_pop]
    split
    · rfl
    · rename_i hne
      rcases h with h | h
      · exact AList.lookup_eq_none.2 h
      · exact absurd (Option.some.inj (h.symm.trans hb)) hne
  · rename_i hb
    rcases h with h | h
    · exact h
    · cases hb.symm.trans h

private theorem notMem_foldl_dropAssociatedCallMessage (id : WireId w) (calls : List (ProcedureIndex w × CallIndex w))
    {i : Interface w} {b : IpfiInteger w}
    (h : b ∉ i.messages ∨ ∃ call ∈ calls, i.callToBufferMap.lookup (call.1, call.2, id) = some b) :
    b ∉ (calls.foldl (fun i pc => i.dropAssociatedCallMessage (pc.1, pc.2, id)) i).messages := by
  induction calls generalizing i with
  | nil =>
    rcases h with h | ⟨call, hcall, -⟩
    · exact h
    · cases hcall
  | cons call calls ih =>
    apply ih
    rcases h with h | ⟨call', hcall, hb⟩
    · exact .inl (notMem_dropAssociatedCallMessage (.inl h))
    · by_cases heq : call' = call
      · subst heq
        exact .inl (notMem_dropAssociatedCallMessage (.inr hb))
      · right
        refine ⟨call', (List.mem_cons.1 hcall).resolve_left heq, ?_⟩
        rw [Interface.lookup_dropAssociatedCallMessage, if_neg, hb]
        intro hkey
        simp only [Prod.mk.injEq] at hkey
        exact heq (Prod.ext hkey.1 hkey.2.1)

/-- Poisoning locks deletes no message and adds none. -/
private theorem foldl_poison_messages (locks : List LockRef) (i : Interface w) :
    (locks.foldl Interface.poison i).messages = i.messages := by
  induction locks generalizing i with
  | nil => rfl
  | cons l locks ih => exact ih _

theorem Tidy.args_notMem_markTerminated (h : s.Tidy) {b : IpfiInteger w}
    (hb : s.interface.callToBufferMap.lookup (p, c, s.wire.id) = some b) : b ∉ s.markTerminated.interface.messages := by
  show b ∉ (List.foldl Interface.poison _ _).messages
  rw [foldl_poison_messages]
  exact notMem_foldl_dropAssociatedCallMessage _ _
    (.inr ⟨(p, c), AList.mem_keys.1 (h.ongoing (AList.mem_of_lookup hb)), hb⟩)

/-- No streaming execution of a running wire yields the end of a call that has an argument buffer. -/
def ClearsOnly (s : Site w) (a : ServeAction w) : Prop :=
  ∀ e bytes p c args f, a = .yield e bytes .complete → s.wire.terminated = false →
    s.wire.executions[e]? = some ⟨p, c, args, true, f⟩ → (p, c, s.wire.id) ∉ s.interface.callToBufferMap

theorem Tidy.serveStep (h : s.Tidy) {a : ServeAction w} (ha : s.ClearsOnly a) : (s.serveStep a).Tidy := by
  refine serveStep_invariant (fun _ => h) (fun p c t bytes hm => ?_) (fun p c t bytes _ => ?_)
    (fun s' hs' => hs'.markTerminated) fun e p c args f bytes t he hex => ?_
  · exact h.receiveCall (ServeAction.running_of_message? hm) p c t bytes
  · exact h.of_serving (receiveResponse_answering p c t bytes s).serving_of_answering
  · have hcalling := yielder_calling p c e bytes t s.wire
    have hid : ((Wire.yielder p c e bytes t).run s.wire).state.id = s.wire.id := congrArg (fun y => y.1.1.1) hcalling
    have hterm : ((Wire.yielder p c e bytes t).run s.wire).state.terminated = s.wire.terminated :=
      congrArg (fun y => y.1.2.1) hcalling
    refine ⟨fun {p' c'} hmem => ?_, fun ht => ?_⟩
    · replace hmem : (p', c', s.wire.id) ∈ s.interface.callToBufferMap := hid ▸ hmem
      have hrun : s.wire.terminated = false := by
        by_contra ht
        exact h.ended (by simpa using ht) hmem
      by_cases hpc : (p', c') = (p, c)
      · obtain ⟨rfl, rfl⟩ := Prod.mk.inj hpc
        have hne : t ≠ .complete := by
          rintro rfl
          exact ha e bytes p' c' args f he hrun hex hmem
        simpa [Wire.yielder, Wire.pushMessage, hrun, hne] using h.ongoing hmem
      · have hother : (p', c') ∈ Wire.others p c s.wire := ⟨h.ongoing hmem, hpc⟩
        rw [← Wire.yielder_others p c e bytes t s.wire] at hother
        exact hother.1
    · intro p' c' hmem
      exact h.ended (hterm.symm.trans ht) (hid ▸ hmem)

end Site

/-! ### All wires of an interface -/

namespace World

variable {s s' : World w} {held : Nat → LockRef → Prop} {j k : Nat} {t t' : Site w} {x y : Wire w} {checks : Bool}
  {key : CallKey w}

/-- The argument buffer belongs to a running wire, which is still working on the call. -/
def Owned (s : World w) (key : CallKey w) : Prop :=
  ∃ k x, s.isLive k = true ∧ s.wire? k = some x ∧ x.id = key.2.2 ∧ x.terminated = false ∧
    (key.1, key.2.1) ∈ x.ongoingProcedures

/-- Every argument buffer belongs to a running wire, and a wire that has been dropped is terminated. -/
structure Tidy (s : World w) : Prop where
  owned : ∀ {key}, key ∈ s.interface.callToBufferMap → s.Owned key
  ended : ∀ {k x}, s.wire? k = some x → s.isLive k = false → x.terminated = true

theorem Tidy.site (h : s.Tidy) (hids : s.Ids) (hlive : s.isLive k = true) (ht : s.site? k = some t) : t.Tidy := by
  obtain ⟨hx, hi⟩ := wire?_of_site? ht
  have hself : ∀ {p c}, (p, c, t.wire.id) ∈ t.interface.callToBufferMap →
      t.wire.terminated = false ∧ (p, c) ∈ t.wire.ongoingProcedures := by
    intro p c hmem
    rw [hi] at hmem
    obtain ⟨j, y, hj, hy, hid, hterm, hongoing⟩ := h.owned hmem
    obtain rfl := hids.eq_of_isLive hj hlive hy hx hid
    cases hy.symm.trans hx
    exact ⟨hterm, hongoing⟩
  refine ⟨fun hmem => (hself hmem).2, fun hterm {p c} hmem => ?_⟩
  rw [(hself hmem).1] at hterm
  cases hterm

/-- An argument buffer of another wire keeps its owner. -/
theorem Owned.setSite_ne (h : s.Owned key) (ht : s.site? k = some t) (hne : key.2.2 ≠ t.wire.id) (t' : Site w) :
    (s.setSite k t').Owned key := by
  obtain ⟨j, y, hj, hy, hid, hrest⟩ := h
  have hjk : j ≠ k := by
    rintro rfl
    cases hy.symm.trans (wire?_of_site? ht).1
    exact hne hid.symm
  exact ⟨j, y, (isLive_setSite s k t' j).trans hj, (wire?_setSite_ne s t' hjk).trans hy, hid, hrest⟩

theorem Tidy.setSite (h : s.Tidy) (ht : s.site? k = some t) (hlive : s.isLive k = true)
    (hf : Site.Follows Interface.Later Wire.fixed t t') (hcalls : ∀ {key : CallKey w}, key.2.2 ≠ t.wire.id →
      t'.interface.callToBufferMap.lookup key = t.interface.callToBufferMap.lookup key) (ht' : t'.Tidy)
    (hmem : key ∈ t'.interface.callToBufferMap) : (s.setSite k t').Owned key := by
  obtain ⟨hx, hi⟩ := wire?_of_site? ht
  by_cases hid : key.2.2 = t.wire.id
  · obtain ⟨p, c, id⟩ := key
    obtain rfl : id = t'.wire.id := hid.trans hf.id.symm
    refine ⟨k, t'.wire, (isLive_setSite s k t' k).trans hlive, wire?_setSite_self ht t', rfl, ?_, ht'.ongoing hmem⟩
    by_contra hterm
    exact ht'.ended (by simpa using hterm) hmem
  · refine (h.owned ?_).setSite_ne ht hid t'
    obtain ⟨b, hb⟩ := AList.mem_iff_lookup.1 hmem
    rw [hcalls hid, hi] at hb
    exact AList.mem_of_lookup hb

/-- What local code does on a wire moves no argument buffer. -/
theorem Tidy.setSite_of_serving (h : s.Tidy) (ht : s.site? k = some t)
    (hs : Site.Follows Interface.Steady Wire.serving t t') (hmem : key ∈ t'.interface.callToBufferMap) :
    (s.setSite k t').Owned key := by
  obtain ⟨hx, hi⟩ := wire?_of_site? ht
  have hterm : t'.wire.terminated = t.wire.terminated := congrArg (fun y => y.2.1) hs.2
  rw [hs.1.calls, hi] at hmem
  obtain ⟨j, y, hj, hy, hid, hrun, hongoing⟩ := h.owned hmem
  by_cases hjk : j = k
  · subst hjk
    cases hy.symm.trans hx
    exact ⟨j, t'.wire, (isLive_setSite s j t' j).trans hj, wire?_setSite_self ht t', hs.fixed_of_serving.id.trans hid,
      hterm.trans hrun, hs.ongoingProcedures ▸ hongoing⟩
  · exact ⟨j, y, (isLive_setSite s k t' j).trans hj, (wire?_setSite_ne s t' hjk).trans hy, hid, hrun, hongoing⟩

theorem Owned.added (h : s.Owned key) (moduleStyle : Bool) (max : IpfiInteger w) :
    (s.added moduleStyle max).Owned key := by
  obtain ⟨k, x, hk, hx, hrest⟩ := h
  have hne : k ≠ s.wires.length := by
    rintro rfl
    simp [wire?] at hx
  refine ⟨k, x, ?_, ?_, hrest⟩
  · rw [isLive_added, hk, Bool.or_true]
  · rw [wire?_added, if_neg hne, hx]

theorem isLive_dropWire (ht : s.site? k = some t) (hlast : ∀ x, s.wires[k]? = some x → x.clones ≤ 1) (j : Nat) :
    (s.dropWire k).isLive j = if j = k then false else s.isLive j := by
  rw [dropWire_eq ht]
  show (((s.wires.modify k _).modify k _)[j]?).any _ = _
  rw [List.getElem?_modify, List.getElem?_modify, isLive]
  by_cases hjk : j = k
  · subst hjk
    cases hx : s.wires[j]? with
    | none => simp
    | some x => simp [hlast x hx]
  · cases s.wires[j]? <;> simp [hjk, Ne.symm hjk]

/-- The drop of an unshared wire leaves no argument buffer of it. -/
theorem Tidy.dropWire (h : s.Tidy) (hids : s.Ids) (hlive : s.isLive k = true) (ht : s.site? k = some t)
    (hlast : ∀ x, s.wires[k]? = some x → x.clones ≤ 1) (hmem : key ∈ (s.dropWire k).interface.callToBufferMap) :
    (s.dropWire k).Owned key := by
  have htidy := h.site hids hlive ht
  have hmem' : key ∈ t.markTerminated.interface.callToBufferMap := by
    rw [dropWire_eq ht] at hmem
    exact hmem
  obtain ⟨j, y, hj, hy, hid, hrun, hongoing⟩ := h.setSite ht hlive (Site.markTerminated_fixed t)
    (fun {key} hne => by rw [Site.lookup_markTerminated, if_neg fun hkey => hne hkey.2]) htidy.markTerminated hmem'
  have hjk : j ≠ k := by
    rintro rfl
    cases hy.symm.trans (wire?_setSite_self ht _)
    cases hrun
  rw [isLive_setSite] at hj
  refine ⟨j, y, ?_, ?_, hid, hrun, hongoing⟩
  · rw [isLive_dropWire ht hlast, if_neg hjk, hj]
  · rw [dropWire_eq ht, wire?_setClones]
    exact hy

/-- A step without clones at which no streaming execution yields the end of a call that has an argument buffer. -/
structure Clean (s : World w) (a : Action w) : Prop where
  separate : s.Separate a
  clears : ∀ {k b t}, a.serve? = some (k, b) → s.site? k = some t → t.ClearsOnly b

theorem Tidy.step (h : s.Tidy) (hcustody : s.InCustody held) (hids : s.Ids) (hun : s.Unshared) {a : Action w}
    (ha : s.Clean a) : (s.step checks a).Tidy := by
  have hended : s.Ended := fun k x => h.ended
  refine ⟨fun {key} hmem => ?_, fun {k x} => hended.step a k x⟩
  have hshape := step_shape checks s a
  generalize s.step checks a = s' at hshape hmem
  cases hshape with
  | addProcedure p procedure => exact h.owned hmem
  | newWire moduleStyle max => exact (h.owned hmem).added moduleStyle max
  | cloneWire k hlive => exact absurd rfl (ha.separate.noClone k)
  | dropWire k t hlive ht => exact h.dropWire hids hlive ht (hun k) hmem
  | dropReceiver n rx handles => exact h.owned hmem
  | handles a handles _ => exact h.owned hmem
  | move a k t t' handles _ ht hm => exact h.setSite_of_serving ht hm.serving hmem
  | serve a k b t hserve ht hin =>
    by_cases hterm : t.wire.terminated = true
    · rw [Site.serveStep_of_terminated hterm] at hmem ⊢
      exact h.setSite_of_serving ht (refl_of (Site.Follows Interface.Steady Wire.serving) t) hmem
    · have hlive : s.isLive k = true := hended.isLive (wire?_of_site? ht).1 (by simpa using hterm)
      have hconf := Site.serveStep_confines (hcustody.site ht) (ha.separate.room.serves hin ht)
      exact h.setSite ht hlive (Site.serveStep_fixed t b) (fun hne => hconf.calls hne)
        ((h.site hids hlive ht).serveStep (ha.clears hserve ht)) hmem

end World

end Ipfi
