import Ipfi.Serving

/-!
# The limit of ongoing procedures

Argument buffers that still accumulate and executions that still run are bounded by the limit, each under its own
(procedure, call) pair in `ongoing_procedures`, as long as no call comes in for a pair whose execution still runs.
-/

namespace Ipfi

variable {w : IntFeature}

/-! ### Running executions -/

def Execution.finish (e : Execution w) : Execution w := { e with finished := true }

/-- The pairs of the executions that are not finished. -/
def Execution.running (es : List (Execution w)) : List (ProcedureIndex w × CallIndex w) :=
  (es.filter fun e => !e.finished).map pair

namespace Execution

variable {es : List (Execution w)} {a : Execution w} {e : Nat}

theorem running_cons (a : Execution w) (es : List (Execution w)) :
    running (a :: es) = if a.finished then running es else a.pair :: running es := by
  cases ha : a.finished <;> simp [running, ha]

theorem running_append (es es' : List (Execution w)) : running (es ++ es') = running es ++ running es' := by
  simp [running]

theorem mem_running (ha : es[e]? = some a) (hfin : a.finished = false) : a.pair ∈ running es :=
  List.mem_map.2 ⟨a, List.mem_filter.2 ⟨List.mem_of_getElem? ha, by simp [hfin]⟩, rfl⟩

theorem running_modify_sublist (es : List (Execution w)) (e : Nat) :
    (running (es.modify e finish)).Sublist (running es) := by
  induction es generalizing e with
  | nil => simp [running]
  | cons b es ih =>
    cases e with
    | zero =>
      rw [List.modify_zero_cons, running_cons, running_cons, if_pos (show b.finish.finished = true from rfl)]
      split
      · exact List.Sublist.refl _
      · exact List.sublist_cons_self _ _
    | succ e =>
      rw [List.modify_succ_cons, running_cons, running_cons]
      split
      · exact ih e
      · exact (ih e).cons_cons _

/-- An execution that is finished leaves the running ones. -/
theorem notMem_running_modify (ha : es[e]? = some a) (hd : (running es).Nodup) (hfin : a.finished = false) :
    a.pair ∉ running (es.modify e finish) := by
  induction es generalizing e with
  | nil => simp at ha
  | cons b es ih =>
    rw [running_cons] at hd
    cases e with
    | zero =>
      cases ha
      rw [hfin] at hd
      rw [List.modify_zero_cons, running_cons, if_pos (show a.finish.finished = true from rfl)]
      exact (List.nodup_cons.1 hd).1
    | succ e =>
      rw [List.modify_succ_cons, running_cons]
      split at hd
      · rw [if_pos ‹_›]
        exact ih ha hd
      · obtain ⟨hb, hd⟩ := List.nodup_cons.1 hd
        rw [if_neg ‹_›, List.mem_cons, not_or]
        refine ⟨fun he => hb ?_, ih ha hd⟩
        exact he ▸ mem_running ha hfin

end Execution

/-- The pairs with an argument buffer that still accumulates. -/
def Site.accumulating (s : Site w) : List (ProcedureIndex w × CallIndex w) :=
  (s.interface.callToBufferMap.keys.filter fun key => key.2.2 = s.wire.id).map fun key => (key.1, key.2.1)

/-! ### Slots -/

namespace Wire

def running (x : Wire w) : List (ProcedureIndex w × CallIndex w) := Execution.running x.executions

/-- Every accumulating buffer and every running execution has an ongoing pair of its own. -/
structure Slots (x : Wire w) (accumulates : ProcedureIndex w × CallIndex w → Prop) : Prop where
  accumulates_ongoing : ∀ k, accumulates k → k ∈ x.ongoingProcedures
  running_ongoing : ∀ k ∈ x.running, k ∈ x.ongoingProcedures
  apart : ∀ k ∈ x.running, ¬ accumulates k
  distinct : x.running.Nodup
  limit : x.ongoingProcedures.size ≤ x.maxOngoingProcedures.toNat

variable {x x' : Wire w} {p : ProcedureIndex w} {c : CallIndex w} {e : Nat}
  {accumulates accumulates' : ProcedureIndex w × CallIndex w → Prop}

theorem Slots.mono (h : x.Slots accumulates) (himp : ∀ k, accumulates' k → accumulates k) : x.Slots accumulates' where
  accumulates_ongoing k hk := h.accumulates_ongoing k (himp k hk)
  running_ongoing := h.running_ongoing
  apart k hk ha := h.apart k hk (himp k ha)
  distinct := h.distinct
  limit := h.limit

/-- Executions that end keep the pairs of the others apart. -/
private theorem Slots.congr (h : x.Slots accumulates) (hrun : x'.running.Sublist x.running)
    (hongoing : x'.ongoingProcedures = x.ongoingProcedures)
    (hmax : x'.maxOngoingProcedures = x.maxOngoingProcedures) : x'.Slots accumulates where
  accumulates_ongoing k hk := hongoing ▸ h.accumulates_ongoing k hk
  running_ongoing k hk := hongoing ▸ h.running_ongoing k (hrun.subset hk)
  apart k hk := h.apart k (hrun.subset hk)
  distinct := h.distinct.sublist hrun
  limit := by rw [hongoing, hmax]; exact h.limit

/-- A pair that nothing holds can go. -/
private theorem Slots.erase (h : x.Slots accumulates) (hrun : x'.running.Sublist x.running) (hr : (p, c) ∉ x'.running)
    (ha : ¬ accumulates (p, c)) (hongoing : x'.ongoingProcedures = x.ongoingProcedures.erase (p, c))
    (hmax : x'.maxOngoingProcedures = x.maxOngoingProcedures) : x'.Slots accumulates := by
  have hmem : ∀ k, k ∈ x.ongoingProcedures → k ≠ (p, c) → k ∈ x'.ongoingProcedures := by
    intro k hk hne
    rw [hongoing]
    exact AList.mem_erase.2 ⟨hne, hk⟩
  constructor
  · intro k hk
    exact hmem k (h.accumulates_ongoing k hk) (by rintro rfl; exact ha hk)
  · intro k hk
    exact hmem k (h.running_ongoing k (hrun.subset hk)) (by rintro rfl; exact hr hk)
  · exact fun k hk => h.apart k (hrun.subset hk)
  · exact h.distinct.sublist hrun
  · rw [hongoing, hmax]
    exact (AList.size_erase_le _ _).trans h.limit

/-- A new execution takes over the pair of the buffer it was called on. -/
private theorem Slots.record (h : x.Slots accumulates) (hr : (p, c) ∉ x.running) (ha : ¬ accumulates (p, c))
    (hongoing : (p, c) ∈ x.ongoingProcedures) (args : List UInt8) (str fin : Bool) :
    (x.recordExecution ⟨p, c, args, str, fin⟩).Slots accumulates := by
  have hrun : (x.recordExecution ⟨p, c, args, str, fin⟩).running = x.running ++ if fin then [] else [(p, c)] := by
    simp only [running, recordExecution, Execution.running_append]
    cases fin <;> rfl
  constructor
  · exact h.accumulates_ongoing
  · intro k hk
    rw [hrun, List.mem_append] at hk
    rcases hk with hk | hk
    · exact h.running_ongoing k hk
    · split at hk
      · cases hk
      · rw [List.mem_singleton.1 hk]; exact hongoing
  · intro k hk
    rw [hrun, List.mem_append] at hk
    rcases hk with hk | hk
    · exact h.apart k hk
    · split at hk
      · cases hk
      · rw [List.mem_singleton.1 hk]; exact ha
  · rw [hrun]
    cases fin
    · exact h.distinct.append (List.nodup_singleton _) (by simpa using hr)
    · simpa using h.distinct
  · exact h.limit

/-- The execution `e` is one of the pair, and once it is finished the pair is not ongoing. -/
def Yields (x : Wire w) (p : ProcedureIndex w) (c : CallIndex w) (e : Nat) : Prop :=
  ∃ a, x.executions[e]? = some a ∧ a.pair = (p, c) ∧ (a.finished = true → (p, c) ∉ x.ongoingProcedures)

theorem Slots.yielder (h : x.Slots accumulates) (ha : ¬ accumulates (p, c)) (hy : x.Yields p c e) (bytes : Payload)
    (t : Terminator) :
    ((Wire.yielder p c e bytes t).run x).state.Slots accumulates ∧
      ((Wire.yielder p c e bytes t).run x).state.Yields p c e := by
  rw [yielder_run]
  split
  · exact ⟨h, hy⟩
  · split
    · obtain ⟨a, hae, hap, hfin⟩ := hy
      have hrun : (x.finishExecution e).running.Sublist x.running := Execution.running_modify_sublist _ _
      have hnot : (p, c) ∉ (x.finishExecution e).running := by
        cases hf : a.finished with
        | false => exact hap ▸ Execution.notMem_running_modify hae h.distinct hf
        | true => exact fun hm => hfin hf (h.running_ongoing _ (hrun.subset hm))
      refine ⟨h.erase hrun hnot ha rfl rfl, a.finish, ?_, hap, fun _ hm => (AList.mem_erase.1 hm).1 rfl⟩
      show (x.executions.modify e Execution.finish)[e]? = _
      rw [List.getElem?_modify_eq, hae]
      rfl
    · exact ⟨h.congr (List.Sublist.refl _) rfl rfl, hy⟩

theorem Slots.runYields (h : x.Slots accumulates) (ha : ¬ accumulates (p, c)) (hy : x.Yields p c e)
    (ys : List (Payload × Terminator)) :
    (Site.runYields (Wire.yielder p c e) ys x).Slots accumulates := by
  induction ys generalizing x with
  | nil => exact h
  | cons y ys ih =>
    obtain ⟨h', hy'⟩ := h.yielder ha hy y.1 y.2
    exact ih h' hy'

/-- Calling the procedure of a pair whose buffer has just been taken off the map. -/
theorem Slots.serve (h : x.Slots accumulates) (hr : (p, c) ∉ x.running) (ha : ¬ accumulates (p, c))
    (hongoing : (p, c) ∈ x.ongoingProcedures) (procedure : Procedure w) (args : List UInt8) :
    (x.serve p c procedure args).Slots accumulates := by
  cases procedure with
  | standard closure =>
    have h' := h.record hr ha hongoing args false true
    simp only [Wire.serve]
    have hrun : (x.recordExecution ⟨p, c, args, false, true⟩).running = x.running := by
      simp [running, recordExecution, Execution.running]
    split
    · exact h'.erase (List.Sublist.refl _) (hrun ▸ hr) ha rfl rfl
    · exact h'
  | streaming closure =>
    have h' := h.record hr ha hongoing args true false
    have hy : (x.recordExecution ⟨p, c, args, true, false⟩).Yields p c x.executions.length :=
      ⟨⟨p, c, args, true, false⟩, by simp [recordExecution], rfl, by simp⟩
    have h'' := h'.runYields ha hy (closure args).2
    simp only [Wire.serve]
    split
    · exact h''
    · exact h''.congr (Execution.running_modify_sublist _ _) rfl rfl

end Wire

namespace Site

variable {s : Site w} {p : ProcedureIndex w} {c : CallIndex w} {t : Terminator} {bytes : List UInt8}

/-- The pair has an argument buffer on the wire. -/
def HasBuffer (s : Site w) (k : ProcedureIndex w × CallIndex w) : Prop :=
  (k.1, k.2, s.wire.id) ∈ s.interface.callToBufferMap

def Slots (s : Site w) : Prop := s.wire.Slots s.HasBuffer

theorem length_accumulating_add_running (h : s.Slots) :
    s.accumulating.length + s.wire.running.length ≤ s.wire.maxOngoingProcedures.toNat := by
  have hacc : ∀ k ∈ s.accumulating, s.HasBuffer k := by
    intro k hk
    simp only [accumulating, List.mem_map, List.mem_filter, decide_eq_true_eq] at hk
    obtain ⟨key, ⟨hmem, hid⟩, rfl⟩ := hk
    rw [HasBuffer, ← hid]
    exact AList.mem_keys.2 hmem
  have hnd : s.accumulating.Nodup := by
    refine List.Nodup.map_on ?_ (s.interface.callToBufferMap.keys_nodup.filter _)
    rintro ⟨p, c, id⟩ hk ⟨p', c', id'⟩ hk' heq
    simp only [List.mem_filter, decide_eq_true_eq] at hk hk'
    simp only [Prod.mk.injEq] at heq ⊢
    exact ⟨heq.1, heq.2, hk.2.trans hk'.2.symm⟩
  have hall : (s.accumulating ++ s.wire.running).Nodup :=
    hnd.append h.distinct fun k hk hr => h.apart k hr (hacc k hk)
  have hsub : s.accumulating ++ s.wire.running ⊆ s.wire.ongoingProcedures.keys := by
    intro k hk
    rcases List.mem_append.1 hk with hk | hk
    · exact AList.mem_keys.1 (h.accumulates_ongoing k (hacc k hk))
    · exact AList.mem_keys.1 (h.running_ongoing k hk)
  have hle := (List.subperm_of_subset hall hsub).length_le
  rw [List.length_append] at hle
  exact hle.trans h.limit

/-- Admitting a call that is not running takes at most one slot. -/
theorem Slots.admitCall (h : s.Slots) (hr : (p, c) ∉ s.wire.running) (hrej : ¬ s.Rejects p c) :
    (s.admitCall p c).wire.Slots fun k => s.HasBuffer k ∨ k = (p, c) where
  accumulates_ongoing k hk := by
    apply (AList.mem_insert _).2
    rcases hk with hk | hk
    · exact .inr (h.accumulates_ongoing k hk)
    · exact .inl hk
  running_ongoing k hk := (AList.mem_insert _).2 (.inr (h.running_ongoing k hk))
  apart k hk hb := by
    rcases hb with hb | rfl
    · exact h.apart k hk hb
    · exact hr hk
  distinct := h.distinct
  limit := by
    show (s.wire.ongoingProcedures.insert (p, c) ()).size ≤ s.wire.maxOngoingProcedures.toNat
    by_cases hmem : (p, c) ∈ s.wire.ongoingProcedures
    · rw [AList.size_insert_of_mem hmem]; exact h.limit
    · rw [AList.size_insert_of_notMem hmem]
      rw [Rejects, not_and, not_le] at hrej
      exact hrej hmem

theorem Slots.receiveCall (h : s.Slots) (hr : (p, c) ∉ s.wire.running) (t : Terminator) (bytes : List UInt8) :
    ((Site.receiveCall p c t bytes).run s).state.Slots := by
  have hshape := receiveCall_shape s p c t bytes
  have hid : ((Site.receiveCall p c t bytes).run s).state.wire.id = s.wire.id :=
    (receiveCall_calling p c t bytes s).passive_of_calling.fixed_of_passive.id
  generalize ((Site.receiveCall p c t bytes).run s).state = s' at hshape hid ⊢
  -- after the call is taken off the map, its pair has no buffer
  have herase : ∀ {i : Interface w}, i.callToBufferMap =
      (s.admitCall p c).interface.callToBufferMap.erase (p, c, s.wire.id) → ∀ {k : ProcedureIndex w × CallIndex w},
      (k.1, k.2, s.wire.id) ∈ i.callToBufferMap → s.HasBuffer k ∧ k ≠ (p, c) := by
    intro i hi k hk
    rw [hi, AList.mem_erase] at hk
    obtain ⟨hne, hk⟩ := hk
    obtain ⟨b, hb⟩ := AList.mem_iff_lookup.1 hk
    rw [lookup_admitCall, if_neg hne] at hb
    exact ⟨AList.mem_of_lookup hb, by rintro rfl; exact hne rfl⟩
  cases hshape with
  | rejected hrej => exact h
  | admitted i hrej hi =>
    refine (h.admitCall hr hrej).mono fun k hk => ?_
    rw [HasBuffer, hi] at hk
    obtain ⟨b, hb⟩ := AList.mem_iff_lookup.1 hk
    rw [lookup_admitCall] at hb
    split at hb
    · rename_i heq
      simp only [Prod.mk.injEq] at heq
      exact .inr (Prod.ext heq.1 heq.2.1)
    · exact .inl (AList.mem_of_lookup hb)
  | dropped i hrej ht hi => exact (h.admitCall hr hrej).mono fun k hk => .inl (herase hi hk).1
  | served i procedure args hrej ht hi hp =>
    have hw : ((s.admitCall p c).wire.serve p c procedure args).Slots fun k => s.HasBuffer k ∧ k ≠ (p, c) := by
      refine ((h.admitCall hr hrej).mono fun k hk => .inl hk.1).serve hr (fun hk => hk.2 rfl) ?_ procedure args
      exact (AList.mem_insert _).2 (.inl rfl)
    exact hw.mono fun k hk => herase hi (hid ▸ hk)

theorem Slots.of_serving {s' : Site w} (h : s.Slots) (hs : Follows Interface.Steady Wire.serving s s') : s'.Slots := by
  have hrun : s'.wire.running = s.wire.running := congrArg Execution.running hs.executions
  have hw : s'.wire.Slots s.HasBuffer :=
    h.congr (hrun ▸ List.Sublist.refl _) hs.ongoingProcedures hs.fixed_of_serving.maxOngoingProcedures
  refine hw.mono fun k hk => ?_
  rwa [HasBuffer, hs.1.calls, hs.fixed_of_serving.id] at hk

theorem Slots.markTerminated (h : s.Slots) : s.markTerminated.Slots := by
  refine Wire.Slots.mono (x := s.markTerminated.wire) (h.congr (List.Sublist.refl _) rfl rfl) fun k hk => ?_
  obtain ⟨b, hb⟩ := AList.mem_iff_lookup.1 hk
  rw [lookup_markTerminated] at hb
  split at hb
  · cases hb
  · exact AList.mem_of_lookup hb

/-- A step at which no call comes in for a pair whose execution still runs, and no finished execution yields the end of
a pair that is ongoing again. -/
def KeepsSlots (s : Site w) (a : ServeAction w) : Prop :=
  (∀ p c t bytes, a.message? s = some (.call p c t bytes) → (p, c) ∉ s.wire.running) ∧
  ∀ e bytes ex, a = .yield e bytes .complete → s.wire.executions[e]? = some ex → ex.finished = true →
    ex.pair ∉ s.wire.ongoingProcedures

theorem Slots.serveStep (h : s.Slots) {a : ServeAction w} (ha : s.KeepsSlots a) : (s.serveStep a).Slots := by
  refine serveStep_invariant (fun _ => h) ?_ ?_ (fun s hs => hs.markTerminated) ?_
  · intro p c t bytes hm
    exact h.receiveCall (ha.1 p c t bytes hm) t bytes
  · intro p c t bytes _
    exact h.of_serving (receiveResponse_answering p c t bytes s).serving_of_answering
  · intro e p c args fin bytes t he hex
    have hid : ((Wire.yielder p c e bytes t).run s.wire).state.id = s.wire.id :=
      congrArg (fun x => x.1.1.1) (yielder_calling p c e bytes t s.wire)
    suffices hw : ((Wire.yielder p c e bytes t).run s.wire).state.Slots s.HasBuffer from
      hw.mono fun k hk => by rwa [HasBuffer, hid] at hk
    by_cases ht : t = .complete
    · subst ht
      have hfin : fin = true → (p, c) ∉ s.wire.ongoingProcedures := ha.2 e bytes _ he hex
      have hbuf : ¬ s.HasBuffer (p, c) := by
        cases fin with
        | false => exact h.apart _ (Execution.mem_running hex rfl)
        | true => exact fun hb => hfin rfl (h.accumulates_ongoing _ hb)
      exact (Wire.Slots.yielder h hbuf ⟨_, hex, rfl, hfin⟩ bytes .complete).1
    · rw [Wire.yielder_run, if_neg ht]
      split
      · exact h
      · exact h.congr (List.Sublist.refl _) rfl rfl

/-- In every state that steps which keep the slots apart lead to, the limit bounds what accumulates and what runs. -/
theorem accumulating_add_running_le {i : Interface w} {id : WireId w} (hi : ∀ key ∈ i.callToBufferMap, key.2.2 ≠ id)
    (moduleStyle : Bool) (max : IpfiInteger w) (hs : Reaches serveStep KeepsSlots ⟨i, .new id moduleStyle max⟩ s) :
    s.accumulating.length + s.wire.running.length ≤ max.toNat := by
  have hstart : Slots ⟨i, .new id moduleStyle max⟩ := by
    refine ⟨fun k hk => absurd rfl (hi _ hk), ?_, ?_, List.nodup_nil, Nat.zero_le _⟩
    · intro k hk; cases hk
    · intro k hk; cases hk
  obtain ⟨hslots, hmax⟩ : s.Slots ∧ s.wire.maxOngoingProcedures = max := by
    refine hs.invariant (I := fun s => s.Slots ∧ s.wire.maxOngoingProcedures = max) ⟨hstart, rfl⟩ ?_
    rintro s a ⟨h, hm⟩ ha
    exact ⟨h.serveStep ha, (serveStep_fixed s a).maxOngoingProcedures.trans hm⟩
  exact hmax ▸ length_accumulating_add_running hslots

/-- An interface with a streaming procedure that yields only after its closure has returned. -/
private def streamInterface : Interface .u32 := Interface.new.addProcedure ⟨1⟩ (.streaming fun _ => (.ok (), []))

/-- A whole call of the procedure, with the call index 0. -/
private def wholeCall : ServeAction .u32 := .receiveOne (Message.call ⟨1⟩ ⟨0⟩ .complete .empty : Message .u32).toBytes

theorem accumulating_add_running_le_call :
    (serveStep ⟨streamInterface, .new ⟨0⟩ false 1⟩ wholeCall).accumulating.length +
      (serveStep ⟨streamInterface, .new ⟨0⟩ false 1⟩ wholeCall).wire.running.length ≤ 1 :=
  accumulating_add_running_le (by simp [streamInterface, Interface.addProcedure, Interface.new]) false 1
    (.next .start ⟨fun _ _ _ _ _ => by simp [Wire.running, Execution.running, Wire.new], nofun⟩)

/-- The same call twice runs its procedure twice at once under one pair. -/
theorem accumulating_add_running_twice :
    ¬ ∀ s, Reaches serveStep (fun _ _ => True) ⟨streamInterface, .new ⟨0⟩ false 1⟩ s →
      s.accumulating.length + s.wire.running.length ≤ 1 := by
  intro h
  have := h _ (.next (a := wholeCall) (.next (a := wholeCall) .start trivial) trivial)
  exact absurd this (by decide +kernel)

end Site

end Ipfi
