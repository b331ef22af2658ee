import Ipfi.WireIds

/-!
# Wires of one interface leave each other alone

Whatever comes in over a wire, and however the wire ends, the argument buffers and the responses of the other live wires
stay as they are.
-/

namespace Ipfi

variable {w : IntFeature}

open Interface (Same)

/-- The wire over which something comes in, or which ends. -/
def Action.incoming? : Action w → Option Nat
  | .receiveOne k _ | .fillStep k _ | .dropWire k => some k
  | _ => none

namespace World

variable {s s' : World w} {held : Nat → LockRef → Prop} {j k : Nat} {t t' : Site w} {checks : Bool}

/-- A step from `s` to `s'` leaves the wire `j` alone: its maps, its argument buffers and its responses. -/
structure Undisturbed (s s' : World w) (j : Nat) : Prop where
  wire : s'.wire? j = s.wire? j
  calls : ∀ {x p c}, s.wire? j = some x →
    s'.interface.callToBufferMap.lookup (p, c, x.id) = s.interface.callToBufferMap.lookup (p, c, x.id)
  args : ∀ {x p c b}, s.wire? j = some x → s.interface.callToBufferMap.lookup (p, c, x.id) = some b →
    Same s.interface s'.interface b
  responses : ∀ {x call b}, s.wire? j = some x → x.responseIdxMap.lookup call = some b → Same s.interface s'.interface b

theorem Undisturbed.rfl : Undisturbed s s j := ⟨Eq.refl _, fun _ => Eq.refl _, fun _ _ => Same.rfl, fun _ _ => Same.rfl⟩

/-- What a wire does within its confines disturbs no wire with another identifier. -/
theorem undisturbed_setSite (ht : s.site? k = some t) (hc : Site.Confines (s.around held k) t t') (hne : j ≠ k)
    (hid : ∀ x, s.wire? j = some x → x.id ≠ t.wire.id) : Undisturbed s (s.setSite k t') j := by
  have hi := (wire?_of_site? ht).2
  constructor
  · exact wire?_setSite_ne s t' hne
  · intro x p c hx
    exact (hc.calls (hid x hx)).trans (congrArg (fun i : Interface w => i.callToBufferMap.lookup _) hi)
  · intro x p c b hx hb
    have ho : t.own (s.around held k) (.args (p, c, x.id)) = some b := by
      rw [← hi] at hb
      exact hb
    exact hi ▸ hc.same ho (hid x hx)
  · intro x call b hx hb
    have ho : t.own (s.around held k) (.response j call) = some b := by
      apply (if_neg hne).trans
      show (s.wire? j).bind _ = _
      rw [hx]
      exact hb
    exact hi ▸ hc.same ho hne

theorem Undisturbed.congr {s'' : World w} (h : Undisturbed s s' j) (hw : s''.wire? j = s'.wire? j)
    (hcalls : s''.interface.callToBufferMap = s'.interface.callToBufferMap)
    (hm : s''.interface.messages = s'.interface.messages) (hl : s''.interface.locks = s'.interface.locks)
    (hc : s''.interface.chans = s'.interface.chans) : Undisturbed s s'' j := by
  have hsame : ∀ {b}, Same s.interface s'.interface b → Same s.interface s''.interface b := by
    intro b hb m hlook
    obtain ⟨hm', hl', hc'⟩ := hb m hlook
    exact ⟨hm ▸ hm', hl ▸ hl', hc ▸ hc'⟩
  exact ⟨hw.trans h.wire, fun hx => (congrArg (AList.lookup _) hcalls).trans (h.calls hx),
    fun hx hb => hsame (h.args hx hb), fun hx hb => hsame (h.responses hx hb)⟩

theorem InCustody.undisturbed (h : s.InCustody held) (hids : s.Ids) {a : Action w} (hroom : s.RoomFor a)
    (ha : a.incoming? = some k) (hne : j ≠ k) (hj : s.isLive j = true) : Undisturbed s (s.step checks a) j := by
  -- an action on a wire without a live clone does nothing
  cases hk : s.isLive k with
  | false =>
    have hstep : s.step checks a = s := by
      cases a <;> cases ha <;> exact if_neg (by simp [Action.wire?, hk])
    rw [hstep]
    exact .rfl
  | true =>
    obtain ⟨x, hx⟩ : ∃ x, s.wires[k]? = some x := by
      rw [← Option.isSome_iff_exists]
      by_contra hnone
      simp [isLive, Option.not_isSome_iff_eq_none.1 hnone] at hk
    have ht : s.site? k = some ⟨s.interface, x.wire⟩ := by simp [site?, hx]
    -- two live wires have different identifiers
    have hid : ∀ y, s.wire? j = some y → y.id ≠ x.wire.id := by
      intro y hy heq
      refine hne (hids.inj ?_ (liveId?_of_isLive hk ht))
      exact heq ▸ liveId?_of_isLive hj (site?_of_wire? hy)
    have hwire : a.wire?.any s.isLive = true := by
      cases a <;> cases ha <;> exact hk
    have hstep : s.step checks a = s.stepWire checks a := by
      cases a <;> cases ha <;> exact if_pos hwire
    have hsite := h.site ht
    have hserves : ∀ {b}, a.serve? = some (k, b) → ∀ m, b.message? _ = some m → Site.RoomFor _ m := fun hb =>
      hroom.serves (by simp [incoming?, hb, hk, ht]) ht
    rw [hstep]
    cases a with
    | receiveOne _ reader =>
      cases ha
      show Undisturbed s (s.onSite k (receiveOneFrom reader) fun _ s => s) j
      rw [onSite_state, ht]
      show Undisturbed s (s.setSite k _) j
      rw [receiveOneFrom_state]
      exact undisturbed_setSite ht (Site.serveStep_confines hsite (hserves rfl)) hne hid
    | fillStep _ reader =>
      cases ha
      show Undisturbed s (s.onSite k (fillStepFrom reader) fun _ s => s) j
      rw [onSite_state, ht]
      show Undisturbed s (s.setSite k _) j
      rw [fillStepFrom_state]
      exact undisturbed_setSite ht (Site.serveStep_confines hsite (hserves rfl)) hne hid
    | dropWire _ =>
      cases ha
      have hterm := undisturbed_setSite ht (Site.markTerminated_confines hsite) hne hid
      show Undisturbed s (s.dropWire k) j
      rw [dropWire_eq ht]
      exact hterm.congr (wire?_setClones _ _ _ _) rfl rfl rfl rfl
    | _ => cases ha

/-! ### Runs -/

/-- A step without clones, with identifiers left for the wires and the message buffers that are made. -/
structure Separate (s : World w) (a : Action w) : Prop where
  room : s.RoomFor a
  noClone : ∀ k, a ≠ .cloneWire k
  newWire : ∀ moduleStyle max, a = .newWire moduleStyle max → s.liveCount < 2 ^ w.bits

/-- A step at which wires are dropped with their last clone only, with identifiers left for what is made. -/
structure DropsWhole (s : World w) (a : Action w) : Prop where
  room : s.RoomFor a
  dropsLast : s.DropsLast a

/-- No wire has been cloned. -/
def Unshared (s : World w) : Prop := ∀ (k : Nat) (x : SharedWire w), s.wires[k]? = some x → x.clones ≤ 1

theorem Unshared.step (h : s.Unshared) {a : Action w} (ha : ∀ k, a ≠ .cloneWire k) : (s.step checks a).Unshared := by
  have hset : ∀ k (t : Site w), (s.setSite k t).Unshared := by
    intro k t j x hx
    replace hx : (s.wires.modify k _)[j]? = some x := hx
    rw [List.getElem?_modify] at hx
    obtain ⟨y, hy, rfl⟩ := Option.map_eq_some_iff.1 hx
    have := h j y hy
    split <;> exact this
  have hshape := step_shape checks s a
  generalize s.step checks a = s' at hshape
  cases hshape with
  | newWire moduleStyle max =>
    intro k x hx
    replace hx : (s.wires ++ [_])[k]? = some x := hx
    rw [List.getElem?_append] at hx
    split at hx
    · exact h k x hx
    · rw [List.mem_singleton.1 (List.mem_of_getElem? hx)]
  | cloneWire k hlive => exact absurd rfl (ha k)
  | dropWire k t hlive ht =>
    rw [dropWire_eq ht]
    intro j x hx
    replace hx : ((s.setSite k _).wires.modify k _)[j]? = some x := hx
    rw [List.getElem?_modify] at hx
    obtain ⟨y, hy, rfl⟩ := Option.map_eq_some_iff.1 hx
    have := hset k _ j y hy
    split
    · exact (Nat.sub_le _ _).trans this
    · exact this
  | move a k t t' handles _ ht hm => exact hset k t'
  | serve a k b t _ ht _ => exact hset k _
  | addProcedure p procedure => exact h
  | dropReceiver n rx handles => exact h
  | handles a handles _ => exact h

theorem Separate.dropsWhole {a : Action w} (h : s.Separate a) (hs : s.Unshared) : s.DropsWhole a := by
  refine ⟨h.room, ?_⟩
  cases a with
  | newWire moduleStyle max => exact h.newWire moduleStyle max rfl
  | dropWire k => exact hs k
  | _ => trivial

/-- What holds of runs in which wires are dropped with their last clone. -/
theorem inCustody_of_dropsWhole (hs : Reaches (step checks) DropsWhole new s) :
    s.InCustody (fun _ _ => False) ∧ s.Ids :=
  hs.invariant (I := fun s => s.InCustody (fun _ _ => False) ∧ s.Ids) ⟨new_inCustody, new_ids⟩
    fun _ _ h ha => ⟨h.1.step ha.room, h.2.step ha.dropsLast⟩

/-- Without clones every wire is dropped with its last clone. -/
theorem dropsWhole_of_separate (hs : Reaches (step checks) Separate new s) :
    Reaches (step checks) DropsWhole new s ∧ s.Unshared := by
  induction hs with
  | start => exact ⟨.start, fun k x hx => by simp [new] at hx⟩
  | next _ ha ih => exact ⟨.next ih.1 (ha.dropsWhole ih.2), ih.2.step ha.noClone⟩

/-- Without clones, what the wires hold is live and held once, and nothing that comes in over a wire and no end of it
disturbs another live wire. -/
theorem isolated (hs : Reaches (step checks) Separate new s) :
    (∀ o b, s.own o = some b → b ∈ s.interface.messages) ∧
    (∀ o o' b, s.own o = some b → s.own o' = some b → o = o') ∧
    ∀ a k j, a.incoming? = some k → j ≠ k → s.isLive j = true → s.RoomFor a → Undisturbed s (s.step checks a) j := by
  obtain ⟨hcustody, hids⟩ := inCustody_of_dropsWhole (dropsWhole_of_separate hs).1
  exact ⟨fun o b ho => (hcustody.opened ho).mem, fun o o' b ho ho' => hcustody.inj ho ho',
    fun a k j ha hne hj hroom => hcustody.undisturbed hids hroom ha hne hj⟩

/-- Dropped with their last clones only, live wires have different identifiers, those that wait to be reused belong to
no live wire, and the drop of a wire disturbs no other. -/
theorem ids_distinct (hs : Reaches (step checks) DropsWhole new s) :
    (∀ j k id, s.liveId? j = some id → s.liveId? k = some id → j = k) ∧
    (∀ id ∈ s.interface.wireIdQueue.relinquished, ∀ k, s.liveId? k ≠ some ⟨id⟩) ∧
    ∀ j k, j ≠ k → s.isLive j = true → s.DropsWhole (.dropWire k) → Undisturbed s (s.step checks (.dropWire k)) j := by
  obtain ⟨hcustody, hids⟩ := inCustody_of_dropsWhole hs
  exact ⟨fun j k id hj hk => hids.inj hj hk, fun id hid k hk => hids.inUse.not_live hid ⟨k, hk⟩,
    fun j k hne hj hdrop => hcustody.undisturbed hids hdrop.room rfl hne hj⟩

theorem separate_of_room {s : World .u32} {a : Action .u32} (hroom : s.interface.messages.size < 2 ^ 32)
    (hwires : s.liveCount < 2 ^ 32) (ha : ∀ k, a ≠ .cloneWire k) : s.Separate a :=
  ⟨fun _ => hroom, ha, fun _ _ _ => hwires⟩

private def firstPiece : List UInt8 := (Message.call ⟨1⟩ ⟨0⟩ .none ⟨[73], by decide⟩ : Message .u32).toBytes

/-- Two wires on an interface with a procedure. -/
private def pair : World .u32 :=
  ((new.step true (.addProcedure ⟨1⟩ (.standard fun _ => .ok .empty))).step true (.newWire false 4)).step true
    (.newWire false 4)

/-- Over the second wire, one call has begun to come in and another one has been made. -/
private def loaded : World .u32 := (pair.step true (.receiveOne 1 firstPiece)).step true (.callWithBytes 1 ⟨1⟩ .empty)

private theorem loaded_reaches : Reaches (step true) Separate new loaded := by
  have hpair : Reaches (step true) Separate new pair :=
    .next (.next (.next .start (separate_of_room (by decide) (by decide) nofun))
      (separate_of_room (by decide +kernel) (by decide +kernel) nofun))
      (separate_of_room (by decide +kernel) (by decide +kernel) nofun)
  exact .next (hpair.next (separate_of_room (by decide +kernel) (by decide +kernel) nofun))
    (separate_of_room (by decide +kernel) (by decide +kernel) nofun)

theorem isolated_loaded :
    loaded.own (.args (⟨1⟩, ⟨0⟩, ⟨1⟩)) = some 0 ∧ loaded.own (.response 1 (⟨1⟩, ⟨0⟩)) = some 1 ∧
      Undisturbed loaded (loaded.step true (.receiveOne 0 firstPiece)) 1 := by
  have hroom : loaded.Room := by show (_ : Nat) < 2 ^ 32; decide +kernel
  exact ⟨by decide +kernel, by decide +kernel,
    (isolated loaded_reaches).2.2 _ 0 1 rfl (by decide) (by decide +kernel) fun _ => hroom⟩

/-- The first wire has been dropped, a third one has its identifier, and the second one has been cloned. -/
private def renewed : World .u32 :=
  ((loaded.step true (.dropWire 0)).step true (.newWire false 4)).step true (.cloneWire 1)

private theorem renewed_reaches : Reaches (step true) DropsWhole new renewed := by
  obtain ⟨hloaded, hun⟩ := dropsWhole_of_separate loaded_reaches
  have hdropped : Reaches (step true) DropsWhole new (loaded.step true (.dropWire 0)) :=
    hloaded.next ⟨nofun, fun x hx => hun 0 x hx⟩
  exact .next (hdropped.next ⟨nofun, by show (_ : Nat) < 2 ^ 32; decide +kernel⟩) ⟨nofun, trivial⟩

theorem ids_distinct_renewed :
    renewed.liveId? 2 = some ⟨0⟩ ∧ renewed.liveId? 1 ≠ some ⟨0⟩ ∧
      Undisturbed renewed (renewed.step true (.dropWire 2)) 1 := by
  have hid : renewed.liveId? 2 = some ⟨0⟩ := by decide +kernel
  obtain ⟨hdistinct, -, hundisturbed⟩ := ids_distinct renewed_reaches
  have hclones : renewed.wires[2]?.map SharedWire.clones = some 1 := by decide +kernel
  refine ⟨hid, fun h => absurd (hdistinct 1 2 ⟨0⟩ h hid) (by decide), ?_⟩
  refine hundisturbed 1 2 (by decide) (by decide +kernel) ⟨nofun, fun x hx => ?_⟩
  rw [hx] at hclones
  exact (Option.some.inj hclones).le

/-- The end of a wire that has been cloned. -/
private def clonedRun : List (Action .u32) := [.newWire false 4, .cloneWire 0, .dropWire 0, .newWire false 4]

/-- A new wire gets the identifier of a wire of which a clone is still in use. -/
theorem not_ids_distinct_clone :
    ¬ ∀ s : World .u32, Reaches (step true) (fun _ _ => True) new s →
      ∀ j k id, s.liveId? j = some id → s.liveId? k = some id → j = k := by
  intro h
  have hrun := (Reaches.start : Reaches (step true) (fun _ _ => True) new new).foldl clonedRun fun _ _ _ => trivial
  exact absurd (h _ hrun 0 1 ⟨0⟩ (by decide +kernel) (by decide +kernel)) (by decide)

end World

end Ipfi
