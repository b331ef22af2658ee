import Ipfi.Isolation

/-!
# What an action means to each wire

An action serves one wire, ends one or creates one.  Whatever it does to that wire, to every other running wire of the
interface it changes nothing that the calls it receives depend on.
-/

namespace Ipfi

variable {w : IntFeature}

open Interface (Stays)

/-- The argument buffers of the wire `id` stay as they are. -/
def Site.ArgsStay (id : WireId w) (i i' : Interface w) : Prop :=
  ∀ p c, i'.callToBufferMap.lookup (p, c, id) = i.callToBufferMap.lookup (p, c, id) ∧
    ∀ b, i.callToBufferMap.lookup (p, c, id) = some b → Stays i i' b

namespace World

variable {s s' : World w} {held : Nat → LockRef → Prop} {j k : Nat} {t t' : Site w} {x y : Wire w} {checks : Bool}

/-! ### Live wires -/

theorem isLive_setSite (s : World w) (k : Nat) (t : Site w) (j : Nat) : (s.setSite k t).isLive j = s.isLive j := by
  show ((s.wires.modify k _)[j]?).any _ = _
  rw [List.getElem?_modify, isLive]
  cases s.wires[j]? <;> split <;> rfl

theorem isLive_added (s : World w) (moduleStyle : Bool) (max : IpfiInteger w) (j : Nat) :
    (s.added moduleStyle max).isLive j = (decide (j = s.wires.length) || s.isLive j) := by
  show ((s.wires ++ [_])[j]?).any _ = _
  rw [List.getElem?_append, isLive]
  split
  · simp [Nat.ne_of_lt ‹_›]
  · by_cases hj : j = s.wires.length
    · subst hj; simp
    · rw [List.getElem?_eq_none (by simp; omega), List.getElem?_eq_none (by omega)]
      simp [hj]

theorem isLive_setClones_ne (s : World w) (f : Nat → Nat) (hne : j ≠ k) : (s.setClones k f).isLive j = s.isLive j := by
  show ((s.wires.modify k _)[j]?).any _ = _
  rw [List.getElem?_modify, isLive]
  cases s.wires[j]? <;> simp [hne.symm]

theorem Ids.eq_of_isLive (h : s.Ids) (hj : s.isLive j = true) (hk : s.isLive k = true) (hx : s.wire? j = some x)
    (hy : s.wire? k = some y) (hid : x.id = y.id) : j = k := by
  have hj' := liveId?_of_isLive hj (site?_of_wire? hx)
  have hk' := liveId?_of_isLive hk (site?_of_wire? hy)
  refine h.inj hj' (hk'.trans ?_)
  exact congrArg some hid.symm

/-- A wire of which no clone is left is terminated. -/
def Ended (s : World w) : Prop := ∀ k x, s.wire? k = some x → s.isLive k = false → x.terminated = true

theorem new_ended : (new : World w).Ended := fun k x h => by simp [wire?, new] at h

theorem Ended.congr (h : s.Ended) (hwire : ∀ k, s'.wire? k = s.wire? k) (hlive : ∀ k, s'.isLive k = s.isLive k) :
    s'.Ended := fun k x hx hk => h k x ((hwire k).symm.trans hx) ((hlive k).symm.trans hk)

theorem Ended.setSite (h : s.Ended) (ht : s.site? k = some t)
    (hterm : t.wire.terminated = true → t'.wire.terminated = true) : (s.setSite k t').Ended := by
  intro j y hy hj
  rw [isLive_setSite] at hj
  by_cases hjk : j = k
  · subst hjk
    cases hy.symm.trans (wire?_setSite_self ht t')
    exact hterm (h j _ (wire?_of_site? ht).1 hj)
  · exact h j y ((wire?_setSite_ne s t' hjk).symm.trans hy) hj

theorem Ended.added (h : s.Ended) (moduleStyle : Bool) (max : IpfiInteger w) : (s.added moduleStyle max).Ended := by
  intro k x hx hk
  rw [isLive_added, Bool.or_eq_false_iff] at hk
  rw [wire?_added, if_neg (by simpa using hk.1)] at hx
  exact h k x hx hk.2

theorem Ended.dropWire (h : s.Ended) (ht : s.site? k = some t) : (s.dropWire k).Ended := by
  rw [dropWire_eq ht]
  intro j y hy hj
  rw [wire?_setClones] at hy
  by_cases hjk : j = k
  · subst hjk
    cases hy.symm.trans (wire?_setSite_self ht _)
    rfl
  · rw [isLive_setClones_ne _ _ hjk] at hj
    exact h.setSite ht (fun _ => rfl) j y hy hj

theorem Ended.step (h : s.Ended) (a : Action w) : (s.step checks a).Ended := by
  have hshape := step_shape checks s a
  generalize s.step checks a = s' at hshape
  cases hshape with
  | addProcedure p procedure => exact h
  | newWire moduleStyle max => exact h.added moduleStyle max
  | cloneWire k hlive =>
    intro j x hx hj
    rw [wire?_setClones] at hx
    by_cases hjk : j = k
    · subst hjk
      obtain ⟨y, hy, rfl⟩ := Option.map_eq_some_iff.1 hx
      have hclones : (s.setClones j (· + 1)).wires[j]? = some { y with clones := y.clones + 1 } := by
        show (s.wires.modify j _)[j]? = _
        simp [hy]
      rw [isLive, hclones] at hj
      simp at hj
    · exact h j x hx ((isLive_setClones_ne s _ hjk).symm.trans hj)
  | dropWire k t hlive ht => exact h.dropWire ht
  | dropReceiver n rx handles => exact h
  | handles a handles _ => exact h
  | move a k t t' handles _ ht hm =>
    have hset := h.setSite ht fun hterm => (congrArg (fun y => y.2.1) hm.serving.2 : t'.wire.terminated = _).trans hterm
    exact hset.congr (fun _ => rfl) fun _ => rfl
  | serve a k b t _ ht _ => exact h.setSite ht fun hterm => (Site.serveStep_of_terminated hterm b).symm ▸ hterm

/-! ### Other wires -/

/-- The buffers that are none of the wire `k` stay when it works within its confines. -/
private theorem argsStay_of_confines (hi : t.interface = s.interface) (hc : Site.Confines (s.around held k) t t')
    (hid : x.id ≠ t.wire.id) : Site.ArgsStay x.id s.interface t'.interface := by
  rw [← hi]
  exact fun p c => ⟨hc.calls hid, fun b hb => (hc.same (o := .args (p, c, x.id)) hb hid).stays⟩

theorem Ended.isLive (h : s.Ended) (hx : s.wire? k = some x) (hrun : x.terminated = false) : s.isLive k = true := by
  by_contra hdead
  rw [h k x hx (by simpa using hdead)] at hrun
  cases hrun

theorem argsStay_of_eq {i i' : Interface w} {id : WireId w} (hm : i'.messages = i.messages) (hl : i'.locks = i.locks)
    (hcalls : i'.callToBufferMap = i.callToBufferMap) : Site.ArgsStay id i i' :=
  fun p c => ⟨by rw [hcalls], fun b _ m hb _ => ⟨m, hm ▸ hb, rfl, rfl, congrFun hl _⟩⟩

/-- What an action makes of every wire, if it serves one, ends one or creates one, and leaves the others as they are. -/
theorem each_step {P Q : Nat → Site w → Prop} {a : Action w} (hcustody : s.InCustody held) (hids : s.Ids)
    (hended : s.Ended) (hroom : s.RoomFor a) (h : ∀ k x, s.wire? k = some x → P k ⟨s.interface, x⟩)
    (hstays : ∀ k t t', (∀ m, s.incoming? a ≠ some (k, m)) → P k t → Wire.serving t'.wire = Wire.serving t.wire →
      (t.wire.terminated = false → Site.ArgsStay t.wire.id t.interface t'.interface) → Q k t')
    (hends : ∀ k t, a = .dropWire k → P k t →
      Q k { t.markTerminated with interface := t.markTerminated.interface.relinquishId t.wire.id })
    (hserves : ∀ k b t, a.serve? = some (k, b) → s.site? k = some t →
      s.incoming? a = (b.message? t).map (fun m => (k, m)) → s.step checks a = s.setSite k (t.serveStep b) →
      P k t → Q k (t.serveStep b))
    (hnew : ∀ moduleStyle max, a = .newWire moduleStyle max →
      Q s.wires.length ⟨s.interface.getId.2, .new s.interface.getId.1 moduleStyle max⟩) :
    ∀ k x, (s.step checks a).wire? k = some x → Q k ⟨(s.step checks a).interface, x⟩ := by
  have hsite : ∀ {k t}, s.site? k = some t → P k t := by
    intro k t ht
    obtain ⟨hx, hi⟩ := wire?_of_site? ht
    have hP := h k t.wire hx
    rw [← hi] at hP
    exact hP
  -- a wire of which only the interface around it changes
  have hother : ∀ {i : Interface w} {k x}, (∀ m, s.incoming? a ≠ some (k, m)) → s.wire? k = some x →
      (x.terminated = false → Site.ArgsStay x.id s.interface i) → Q k ⟨i, x⟩ :=
    fun hin hx hargs => hstays _ ⟨s.interface, _⟩ _ hin (h _ _ hx) rfl hargs
  -- a running wire has an identifier of its own
  have hapart : ∀ {k t t' j x}, s.site? k = some t → s.isLive k = true → Site.Confines (s.around held k) t t' → j ≠ k →
      s.wire? j = some x → x.terminated = false → Site.ArgsStay x.id s.interface t'.interface := by
    intro k t t' j x ht hk hc hne hx hrun
    refine argsStay_of_confines (wire?_of_site? ht).2 hc fun hid => hne ?_
    exact hids.eq_of_isLive (hended.isLive hx hrun) hk hx (wire?_of_site? ht).1 hid
  intro k x hx
  have hquiet : a.serve? = none → ∀ m, s.incoming? a ≠ some (k, m) := fun ha m => by simp [incoming?_of_serve? ha]
  have hshape := step_shape checks s a
  generalize hstep : s.step checks a = s' at hshape hx ⊢
  cases hshape with
  | addProcedure p procedure => exact hother (hquiet rfl) hx fun _ => argsStay_of_eq rfl rfl rfl
  | newWire moduleStyle max =>
    replace hx : (s.added moduleStyle max).wire? k = some x := hx
    rw [wire?_added] at hx
    split at hx
    · subst_vars
      obtain rfl := Option.some.inj hx
      exact hnew moduleStyle max rfl
    · exact hother (hquiet rfl) hx fun _ => argsStay_of_eq rfl rfl rfl
  | cloneWire k' hk =>
    rw [wire?_setClones] at hx
    exact hother (hquiet rfl) hx fun _ => argsStay_of_eq rfl rfl rfl
  | dropWire k' t hk ht =>
    rw [dropWire_eq ht] at hx ⊢
    rw [wire?_setClones] at hx
    by_cases hkk : k = k'
    · subst hkk
      obtain rfl := Option.some.inj ((wire?_setSite_self ht _).symm.trans hx)
      exact hends k t rfl (hsite ht)
    · rw [wire?_setSite_ne s _ hkk] at hx
      refine hother (hquiet rfl) hx fun hrun => ?_
      exact hapart ht hk (Site.markTerminated_confines (hcustody.site ht)) hkk hx hrun
  | dropReceiver n rx handles => exact hother (hquiet rfl) hx fun _ => argsStay_of_eq rfl rfl rfl
  | handles a handles hnone => exact hother (by simp [hnone]) hx fun _ => argsStay_of_eq rfl rfl rfl
  | move a k' t t' handles hnone ht hm =>
    obtain ⟨hx', hi⟩ := wire?_of_site? ht
    have hstay := (hm.keepsCustody (fun hcalls => hroom.calls hcalls ht) (hcustody.site ht)).2
    -- local code changes no argument buffer, of whichever wire
    have hargs : ∀ id, Site.ArgsStay id t.interface t'.interface := fun id p c =>
      ⟨by rw [hm.serving.1.calls], fun b _ => hstay b⟩
    replace hx : (s.setSite k' t').wire? k = some x := hx
    by_cases hkk : k = k'
    · subst hkk
      obtain rfl := Option.some.inj ((wire?_setSite_self ht _).symm.trans hx)
      exact hstays k t t' (hquiet hnone) (hsite ht) hm.serving.2 fun _ => hargs _
    · rw [wire?_setSite_ne s _ hkk] at hx
      exact hother (hquiet hnone) hx fun _ => hi ▸ hargs _
  | serve a k' b t hserve ht hin =>
    by_cases hkk : k = k'
    · subst hkk
      obtain rfl := Option.some.inj ((wire?_setSite_self ht _).symm.trans hx)
      exact hserves k b t hserve ht hin hstep (hsite ht)
    · rw [wire?_setSite_ne s _ hkk] at hx
      refine hother (fun m hm => ?_) hx fun hrun => ?_
      · obtain ⟨m', -, hm'⟩ := Option.map_eq_some_iff.1 (hin.symm.trans hm)
        exact hkk (congrArg Prod.fst hm').symm
      -- a terminated wire serves nothing, so only a running one can get at other buffers
      · by_cases hrun' : t.wire.terminated = false
        · exact hapart ht (hended.isLive (wire?_of_site? ht).1 hrun')
            (Site.serveStep_confines (hcustody.site ht) (hroom.serves hin ht)) hkk hx hrun
        · show Site.ArgsStay x.id s.interface (t.serveStep b).interface
          rw [Site.serveStep_of_terminated (by simpa using hrun'), (wire?_of_site? ht).2]
          exact argsStay_of_eq rfl rfl rfl

end World

end Ipfi
