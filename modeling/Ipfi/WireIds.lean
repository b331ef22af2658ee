import Ipfi.WorldCustody

/-!
# The identifiers of wires

Live wires have different identifiers, and those that wait to be reused belong to no live wire, as long as a wire is
only dropped with its last clone.
-/

namespace Ipfi

variable {w : IntFeature}

namespace Site

variable {t t' : Site w} {checks : Bool}

/-- Local code does not touch the calls that a wire serves. -/
theorem Move.serving {calls : Prop} (hm : Move checks calls t t') : Follows Interface.Steady Wire.serving t t' := by
  cases hm with
  | startCall p args _ => exact startCallWithPartialBytes_serving checks p args t
  | continueCall p c args => exact continueGivenCallWithBytes_serving p c args t
  | endCall p c => exact endGivenCall_serving p c t
  | callWithBytes p args _ => exact callWithBytes_serving checks p args t
  | queue queue => exact ⟨refl_of Interface.Steady _, rfl⟩
  | idle => exact refl_of (Follows Interface.Steady Wire.serving) t
  | waitBytes h => exact (waitBytes_waits h t).serving
  | wait decodes h => exact (wait_waits h decodes t).serving
  | waitChunks decodes h => exact (waitChunks_waits h decodes t).serving
  | waitChunkStream h => exact (waitChunkStream_waits h t).serving
  | intoResponseIdx h => exact (intoResponseIdx_waits h t).serving
  | recvRaw r => exact (recvRaw_waits r t).serving

theorem Move.fixed {calls : Prop} (hm : Move checks calls t t') : Follows Interface.Later Wire.fixed t t' :=
    hm.serving.fixed_of_serving.later

end Site

namespace World

variable {s : World w} {k j : Nat} {t t' : Site w} {id : WireId w} {checks : Bool}

/-- The identifier of a wire of which a clone is live. -/
def liveId? (s : World w) (k : Nat) : Option (WireId w) :=
  s.wires[k]?.bind fun x => if 0 < x.clones then some x.wire.id else none

def LiveId (s : World w) (id : IpfiInteger w) : Prop := ∃ k, s.liveId? k = some ⟨id⟩

def liveCount (s : World w) : Nat := s.wires.countP fun x => decide (0 < x.clones)

structure Ids (s : World w) : Prop where
  inUse : s.interface.wireIdQueue.InUse s.LiveId
  inj : ∀ {j k id}, s.liveId? j = some id → s.liveId? k = some id → j = k

theorem new_ids : (new : World w).Ids where
  inUse := RoiQueue.new_inUse.congr fun _ => by simp [LiveId, liveId?, new]
  inj h := by simp [liveId?, new] at h

theorem Ids.congr {s' : World w} (h : s.Ids) (hq : s'.interface.wireIdQueue = s.interface.wireIdQueue)
    (hid : ∀ k, s'.liveId? k = s.liveId? k) : s'.Ids where
  inUse := by
    rw [hq]
    exact h.inUse.congr fun id => exists_congr fun k => by rw [hid]
  inj hj hk := h.inj ((hid _).symm.trans hj) ((hid _).symm.trans hk)

theorem liveId?_modify (wires : List (SharedWire w)) (f : SharedWire w → SharedWire w) (k j : Nat) :
    ((wires.modify k f)[j]?.bind fun x => if 0 < x.clones then some x.wire.id else none) =
      wires[j]?.bind fun x =>
        if 0 < (if k = j then f x else x).clones then some (if k = j then f x else x).wire.id else none := by
  rw [List.getElem?_modify]
  cases wires[j]? <;> split <;> rfl

theorem liveId?_setSite (ht : s.site? k = some t) (hid : t'.wire.id = t.wire.id) (j : Nat) :
    (s.setSite k t').liveId? j = s.liveId? j := by
  refine (liveId?_modify _ _ k j).trans ?_
  obtain ⟨x, hx, rfl⟩ := Option.map_eq_some_iff.1 ht
  by_cases hkj : k = j
  · subst hkj
    simp [liveId?, hx, hid]
  · simp [liveId?, hkj]

theorem Ids.setSite (h : s.Ids) (ht : s.site? k = some t) (hf : Site.Follows Interface.Later Wire.fixed t t') :
    (s.setSite k t').Ids :=
  h.congr (hf.1.wireIds.trans (congrArg _ (wire?_of_site? ht).2)) (liveId?_setSite ht hf.id)

private theorem exists_liveIds (s : World w) :
    ∃ L : Finset (IpfiInteger w), (∀ id, id ∈ L ↔ s.LiveId id) ∧ L.card ≤ s.liveCount := by
  refine ⟨((s.wires.filter fun x => decide (0 < x.clones)).map fun x => x.wire.id.idx).toFinset, fun id => ?_, ?_⟩
  · simp only [List.mem_toFinset, List.mem_map, List.mem_filter, decide_eq_true_eq, LiveId, liveId?,
      Option.bind_eq_some_iff, Option.ite_none_right_eq_some, Option.some.injEq]
    constructor
    · rintro ⟨x, ⟨hx, hlive⟩, rfl⟩
      obtain ⟨k, hk⟩ := List.mem_iff_getElem?.1 hx
      exact ⟨k, x, hk, hlive, rfl⟩
    · rintro ⟨k, x, hk, hlive, hid⟩
      exact ⟨x, ⟨List.mem_of_getElem? hk, hlive⟩, by rw [hid]⟩
  · apply (List.toFinset_card_le _).trans
    rw [List.length_map, ← List.countP_eq_length_filter]
    rfl

/-- While fewer than `2 ^ w` wires are live, the identifier of the next wire belongs to none of them. -/
theorem Ids.getId_notLive (h : s.Ids) (hroom : s.liveCount < 2 ^ w.bits) (j : Nat) :
    s.liveId? j ≠ some s.interface.getId.1 := by
  obtain ⟨L, hL, hcard⟩ := exists_liveIds s
  exact fun hj => (RoiQueue.get_inUse h.inUse hL (hcard.trans_lt hroom)).1 ⟨j, hj⟩

theorem Ids.added (h : s.Ids) (hroom : s.liveCount < 2 ^ w.bits) (moduleStyle : Bool) (max : IpfiInteger w) :
    (s.added moduleStyle max).Ids := by
  obtain ⟨L, hL, hcard⟩ := exists_liveIds s
  have huse := (RoiQueue.get_inUse h.inUse hL (hcard.trans_lt hroom)).2
  have hid : ∀ j, (s.added moduleStyle max).liveId? j =
      if j = s.wires.length then some s.interface.getId.1 else s.liveId? j := by
    intro j
    show ((s.wires ++ [_])[j]?).bind _ = _
    rw [List.getElem?_append]
    split
    · rw [if_neg (by omega)]
      rfl
    · split
      · subst_vars; simp [Wire.new]
      · rw [List.getElem?_eq_none (by simp; omega), liveId?, List.getElem?_eq_none (by omega)]
  have hnone := h.getId_notLive hroom
  have hlen : s.liveId? s.wires.length = none := by simp [liveId?]
  constructor
  · refine huse.congr fun id => ?_
    constructor
    · rintro (rfl | ⟨k, hk⟩)
      · exact ⟨s.wires.length, by rw [hid, if_pos rfl]; rfl⟩
      · refine ⟨k, ?_⟩
        rw [hid, if_neg, hk]
        rintro rfl
        rw [hlen] at hk
        cases hk
    · rintro ⟨k, hk⟩
      rw [hid] at hk
      split at hk
      · exact .inl (congrArg WireId.idx (Option.some.inj hk)).symm
      · exact .inr ⟨k, hk⟩
  · intro j k id hj hk
    rw [hid] at hj hk
    split at hj <;> split at hk
    · subst_vars; rfl
    · cases hj; exact absurd hk (hnone k)
    · cases hk; exact absurd hj (hnone j)
    · exact h.inj hj hk

theorem liveId?_setClones (s : World w) (k : Nat) (f : Nat → Nat) (j : Nat) :
    (s.setClones k f).liveId? j =
      s.wires[j]?.bind fun x => if 0 < (if k = j then f x.clones else x.clones) then some x.wire.id else none := by
  refine (liveId?_modify _ _ k j).trans ?_
  split <;> rfl

theorem liveId?_of_isLive (hlive : s.isLive k = true) (ht : s.site? k = some t) : s.liveId? k = some t.wire.id := by
  obtain ⟨x, hx, rfl⟩ := Option.map_eq_some_iff.1 ht
  have hpos : 0 < x.clones := by simpa [isLive, hx] using hlive
  simp [liveId?, hx, hpos]

/-- Dropping the last clone of a wire frees its identifier. -/
theorem Ids.dropWire (h : s.Ids) (ht : s.site? k = some t) (hlive : s.isLive k = true)
    (hlast : ∀ x, s.wires[k]? = some x → x.clones ≤ 1) : (s.dropWire k).Ids := by
  have hk := liveId?_of_isLive hlive ht
  have hid : ∀ j, (s.dropWire k).liveId? j = if j = k then none else s.liveId? j := by
    intro j
    rw [dropWire_eq ht, liveId?_setClones]
    show ((s.wires.modify k _)[j]?).bind _ = _
    rw [List.getElem?_modify]
    by_cases hjk : j = k
    · subst hjk
      obtain ⟨x, hx, -⟩ := Option.map_eq_some_iff.1 ht
      -- the last clone is gone with it
      have hle := hlast x hx
      simp [hx, hle]
    · cases hx : s.wires[j]? <;> simp [hjk, Ne.symm hjk, liveId?, hx]
  have hqueue : (s.dropWire k).interface.wireIdQueue = s.interface.wireIdQueue.relinquish t.wire.id.idx := by
    rw [dropWire_eq ht]
    show (t.markTerminated.interface.wireIdQueue.relinquish t.wire.id.idx) = _
    rw [(Site.markTerminated_fixed t).1.wireIds, (wire?_of_site? ht).2]
  constructor
  · rw [hqueue]
    refine (RoiQueue.relinquish_inUse h.inUse ⟨k, hk⟩).congr fun id => ?_
    constructor
    · rintro ⟨⟨j, hj⟩, hne⟩
      refine ⟨j, ?_⟩
      rw [hid, if_neg, hj]
      rintro rfl
      rw [hk] at hj
      exact hne (congrArg WireId.idx (Option.some.inj hj)).symm
    · rintro ⟨j, hj⟩
      rw [hid] at hj
      split at hj
      · cases hj
      · refine ⟨⟨j, hj⟩, ?_⟩
        rintro rfl
        exact ‹¬ j = k› (h.inj hj hk)
  · intro j i id hj hi
    rw [hid] at hj hi
    split at hj <;> split at hi
    · cases hj
    · cases hj
    · cases hi
    · exact h.inj hj hi

/-- A step that drops no wire of which another clone is live, and makes no wire while every identifier is in use. -/
def DropsLast (s : World w) : Action w → Prop
  | .dropWire k => ∀ x, s.wires[k]? = some x → x.clones ≤ 1
  | .newWire _ _ => s.liveCount < 2 ^ w.bits
  | _ => True

theorem Ids.step (h : s.Ids) {a : Action w} (ha : s.DropsLast a) : (s.step checks a).Ids := by
  have hshape := step_shape checks s a
  generalize s.step checks a = s' at hshape
  cases hshape with
  | addProcedure p procedure => exact h.congr rfl fun _ => rfl
  | newWire moduleStyle max => exact h.added ha moduleStyle max
  | cloneWire k hlive =>
    refine h.congr rfl fun j => ?_
    rw [liveId?_setClones]
    by_cases hkj : k = j
    · subst hkj
      cases hx : s.wires[k]? with
      | none => simp [liveId?, hx]
      | some x =>
        have hpos : 0 < x.clones := by simpa [isLive, hx] using hlive
        simp [liveId?, hx, hpos]
    · simp [hkj, liveId?]
  | dropWire k t hlive ht => exact h.dropWire ht hlive ha
  | dropReceiver n rx handles => exact h.congr rfl fun _ => rfl
  | handles a handles _ => exact h.congr rfl fun _ => rfl
  | move a k t t' handles _ ht hm => exact (h.setSite ht hm.fixed).congr rfl fun _ => rfl
  | serve a k b t _ ht _ => exact h.setSite ht (Site.serveStep_fixed t b)

end World

end Ipfi
