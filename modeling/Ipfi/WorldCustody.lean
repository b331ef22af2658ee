import Ipfi.Actions
import Ipfi.Calls

/-!
# Custody in a world

What each wire and the map of argument buffers hold, in the whole world.  No action of anybody breaks custody, as long
as there is an identifier left for every message buffer that is made.
-/

namespace Ipfi

variable {w : IntFeature}

namespace Site

variable {t t' : Site w} {x : Surroundings w} {checks : Bool}

theorem Move.keepsCustody {calls : Prop} (hm : Move checks calls t t')
    (hroom : calls → t.CanCall → t.interface.messages.size < 2 ^ w.bits) : KeepsCustody x t t' := by
  cases hm with
  | startCall p args hcalls => exact startCallWithPartialBytes_keepsCustody (hroom hcalls) checks p args
  | continueCall p c args => exact continueGivenCallWithBytes_keepsCustody t p c args
  | endCall p c => exact endGivenCall_keepsCustody t p c
  | callWithBytes p args hcalls => exact callWithBytes_keepsCustody (hroom hcalls) checks p args
  | queue queue => exact fun h => ⟨h.congr rfl rfl rfl, fun _ => .rfl⟩
  | idle => exact refl_of (KeepsCustody x) t
  | waitBytes hd => exact (waitBytes_waits hd t).keepsCustody
  | wait decodes hd => exact (wait_waits hd decodes t).keepsCustody
  | waitChunks decodes hd => exact (waitChunks_waits hd decodes t).keepsCustody
  | waitChunkStream hd => exact (waitChunkStream_waits hd t).keepsCustody
  | intoResponseIdx hd => exact (intoResponseIdx_waits hd t).keepsCustody
  | recvRaw r => exact (recvRaw_waits r t).keepsCustody

theorem serveStep_confines (h : t.InCustody x) {a : ServeAction w} (hroom : ∀ m, a.message? t = some m → t.RoomFor m) :
    Confines x t (t.serveStep a) := by
  refine serveStep_invariant (fun _ => .rfl h)
    (fun p c tm bytes hm => (receiveCall_works h (hroom _ hm) tm bytes).confines rfl)
    (fun p c tm bytes _ => (receiveResponse_works h p c tm bytes).confines rfl)
    (fun t' ht' => ht'.trans (markTerminated_confines ht'.custody)) fun e p c args fin bytes tm _ _ => ?_
  have hcalling := yielder_calling p c e bytes tm t.wire
  exact ⟨h.congr rfl (congrArg Prod.snd hcalling) (congrArg (fun y => y.1.2.2.2) hcalling),
    fun _ _ => Interface.Same.rfl, fun _ => rfl, congrArg (fun y => y.1.1.1) hcalling⟩

theorem serveStep_evolves (h : t.InCustody x) {a : ServeAction w} (hroom : ∀ m, a.message? t = some m → t.RoomFor m) :
    Interface.Evolves t.interface (t.serveStep a).interface fun _ => True :=
  serveStep_invariant (I := fun t' => Interface.Evolves t.interface t'.interface fun _ => True)
    (fun _ => .rfl h.wellFormed _)
    (fun p c tm bytes hm => receive_evolves (m := .call p c tm bytes) h (hroom _ hm))
    (fun p c tm bytes hm => receive_evolves (m := .response p c tm bytes) h (hroom _ hm))
    (fun _ ht' => ht'.trans (markTerminated_evolves ht'.wellFormed)) fun _ _ _ _ _ _ _ _ _ => .rfl h.wellFormed _

end Site

namespace World

variable {s : World w} {held : Nat → LockRef → Prop} {k j : Nat} {t t' : Site w} {checks : Bool}

/-! ### One site of the world -/

def wire? (s : World w) (k : Nat) : Option (Wire w) := s.wires[k]?.map SharedWire.wire

theorem wire?_of_site? (ht : s.site? k = some t) : s.wire? k = some t.wire ∧ t.interface = s.interface := by
  obtain ⟨x, hx, rfl⟩ := Option.map_eq_some_iff.1 ht
  exact ⟨Option.map_eq_some_iff.2 ⟨x, hx, rfl⟩, rfl⟩

theorem site?_of_wire? {x : Wire w} (hx : s.wire? k = some x) : s.site? k = some ⟨s.interface, x⟩ := by
  obtain ⟨y, hy, rfl⟩ := Option.map_eq_some_iff.1 hx
  exact Option.map_eq_some_iff.2 ⟨y, hy, rfl⟩

theorem wire?_setSite (s : World w) (k : Nat) (t : Site w) (j : Nat) :
    (s.setSite k t).wire? j = if k = j then (s.wire? j).map fun _ => t.wire else s.wire? j := by
  show ((s.wires.modify k _)[j]?).map _ = _
  rw [List.getElem?_modify, wire?]
  cases s.wires[j]? <;> split <;> rfl

theorem wire?_setSite_self (ht : s.site? k = some t) (t' : Site w) : (s.setSite k t').wire? k = some t'.wire := by
  rw [wire?_setSite, if_pos rfl, (wire?_of_site? ht).1]
  rfl

theorem wire?_setSite_ne (s : World w) (t : Site w) (hne : j ≠ k) : (s.setSite k t).wire? j = s.wire? j := by
  rw [wire?_setSite, if_neg hne.symm]

@[simp] theorem wire?_setClones (s : World w) (k : Nat) (f : Nat → Nat) (j : Nat) :
    (s.setClones k f).wire? j = s.wire? j := by
  show ((s.wires.modify k _)[j]?).map _ = _
  rw [List.getElem?_modify, wire?]
  cases s.wires[j]? <;> split <;> rfl

/-! ### Custody -/

def own (s : World w) : Owner w → Option (IpfiInteger w)
  | .args key => s.interface.callToBufferMap.lookup key
  | .response k call => (s.wire? k).bind fun x => x.responseIdxMap.lookup call

/-- The lock is known to the idle call handles of the wire. -/
def Idle (s : World w) (k : Nat) (l : LockRef) : Prop :=
  ∃ x, s.wire? k = some x ∧ l ∈ x.idleCallHandles.values

/-- Custody in the world, where the locks in `held` are known besides those of the idle call handles. -/
def InCustody (held : Nat → LockRef → Prop) (s : World w) : Prop :=
  Custody s.interface s.own fun k l => held k l ∨ s.Idle k l

/-- What is attached to the interface besides one of the wires. -/
def around (held : Nat → LockRef → Prop) (s : World w) (k : Nat) : Surroundings w where
  position := k
  responses j call := s.own (.response j call)
  locks j l := held j l ∨ j ≠ k ∧ s.Idle j l

/-- Custody depends on the messages and the wires only. -/
theorem InCustody.congr {s' : World w} (h : s.InCustody held) (hw : s'.interface.WellFormed)
    (hm : s'.interface.messages = s.interface.messages) (hl : s'.interface.locks = s.interface.locks)
    (hc : s.interface.lockCount ≤ s'.interface.lockCount)
    (hcalls : s'.interface.callToBufferMap = s.interface.callToBufferMap) (hwires : ∀ j, s'.wire? j = s.wire? j) :
    s'.InCustody held := by
  have hown : s'.own = s.own := by
    funext o
    cases o with
    | args key => exact congrArg (AList.lookup key) hcalls
    | response j call => simp only [own, hwires]
  have hidle : s'.Idle = s.Idle := by
    funext j l
    simp only [Idle, hwires]
  rw [InCustody, hown, hidle]
  exact h.of_messages hw hm hl hc

theorem setSite_inCustody (ht : s.site? k = some t) (t' : Site w) :
    (s.setSite k t').InCustody held ↔ t'.InCustody (s.around held k) := by
  have hself := wire?_setSite_self ht t'
  have hown : (s.setSite k t').own = t'.own (s.around held k) := by
    funext o
    cases o with
    | args key => rfl
    | response j call =>
      simp only [own, Site.own, around]
      by_cases hjk : j = k
      · subst hjk
        rw [hself]
        exact (if_pos rfl).symm
      · rw [wire?_setSite_ne s t' hjk]
        exact (if_neg hjk).symm
  have hknows : (fun j l => held j l ∨ (s.setSite k t').Idle j l) = t'.knows (s.around held k) := by
    funext j l
    simp only [Idle, Site.knows, around]
    by_cases hjk : j = k
    · subst hjk
      simp [hself]
    · simp [hjk, wire?_setSite_ne s t' hjk]
  rw [InCustody, Site.InCustody, hknows, hown]
  rfl

theorem wire?_setSite_same (ht : s.site? k = some t) (j : Nat) : (s.setSite k t).wire? j = s.wire? j := by
  by_cases hjk : j = k
  · subst hjk
    rw [wire?_setSite_self ht, (wire?_of_site? ht).1]
  · exact wire?_setSite_ne s t hjk

theorem InCustody.site (h : s.InCustody held) (ht : s.site? k = some t) : t.InCustody (s.around held k) := by
  have hi := (wire?_of_site? ht).2
  refine (setSite_inCustody ht t).1 (h.congr ?_ ?_ ?_ ?_ ?_ (wire?_setSite_same ht))
  · show t.interface.WellFormed
    rw [hi]
    exact h.wellFormed
  · exact congrArg _ hi
  · exact congrArg _ hi
  · exact (congrArg _ hi).ge
  · exact congrArg _ hi

theorem new_inCustody : (new : World w).InCustody fun _ _ => False where
  wellFormed := Interface.new_wellFormed
  opened {o b} ho := by cases o <;> simp [own, wire?, new, Interface.new] at ho
  inj {o o' b} ho := by cases o <;> simp [own, wire?, new, Interface.new] at ho
  lt {k l} hl := by simp [Idle, wire?, new] at hl
  mine {k o b m} hl := by simp [Idle, wire?, new] at hl
  apart {k k' l} hl := by simp [Idle, wire?, new] at hl

theorem InCustody.setSite (h : s.InCustody held) (ht : s.site? k = some t)
    (hmove : t.InCustody (s.around held k) → t'.InCustody (s.around held k)) : (s.setSite k t').InCustody held :=
  (setSite_inCustody ht t').2 (hmove (h.site ht))

theorem dropWire_eq (ht : s.site? k = some t) :
    s.dropWire k = (s.setSite k { t.markTerminated with
      interface := t.markTerminated.interface.relinquishId t.wire.id }).setClones k (· - 1) := by
  unfold World.dropWire
  rw [ht]
  rfl

theorem InCustody.dropWire (h : s.InCustody held) (ht : s.site? k = some t) : (s.dropWire k).InCustody held := by
  have hterm := h.setSite ht fun ht' => (Site.markTerminated_confines ht').custody
  rw [dropWire_eq ht]
  refine hterm.congr ?_ rfl rfl (Nat.le_refl _) rfl fun j => ?_
  · exact hterm.wellFormed.congr rfl rfl (Nat.le_refl _) (Nat.le_refl _) fun _ => id
  · rw [wire?_setClones]
    rfl

/-- A new wire with the identifier taken from the queue. -/
def added (s : World w) (moduleStyle : Bool) (max : IpfiInteger w) : World w :=
  { s with
    interface := s.interface.getId.2
    wires := s.wires ++ [⟨.new s.interface.getId.1 moduleStyle max, 1⟩] }

theorem wire?_added (s : World w) (moduleStyle : Bool) (max : IpfiInteger w) (j : Nat) :
    (s.added moduleStyle max).wire? j =
      if j = s.wires.length then some (.new s.interface.getId.1 moduleStyle max) else s.wire? j := by
  show ((s.wires ++ [_])[j]?).map _ = _
  rw [List.getElem?_append]
  split
  · rw [if_neg (by omega)]
    rfl
  · split
    · subst_vars; simp
    · rw [List.getElem?_eq_none (by simp; omega), wire?, List.getElem?_eq_none (by omega)]

theorem InCustody.added (h : s.InCustody held) (moduleStyle : Bool) (max : IpfiInteger w) :
    (s.added moduleStyle max).InCustody held := by
  have hnone : s.wire? s.wires.length = none := by simp [wire?]
  have hown : (s.added moduleStyle max).own = s.own := by
    funext o
    cases o with
    | args key => rfl
    | response j call =>
      simp only [own, wire?_added]
      split
      · subst_vars; rw [hnone]; rfl
      · rfl
  have hidle : (s.added moduleStyle max).Idle = s.Idle := by
    funext j l
    simp only [Idle, wire?_added]
    split
    · subst_vars
      simp [hnone, Wire.new, AList.mem_values]
    · rfl
  rw [InCustody, hown, hidle]
  exact Custody.of_messages h (h.wellFormed.congr rfl rfl (Nat.le_refl _) (Nat.le_refl _) fun _ => id) rfl rfl
    (Nat.le_refl _)

/-- A wire that is new awaits nothing. -/
theorem responses_of_new {a : Action w} {x : Wire w} (hx : (s.step checks a).wire? k = some x)
    (hnew : s.wire? k = none) : x.responseIdxMap = ∅ := by
  have hset : ∀ (j : Nat) (t : Site w), (s.setSite j t).wire? k = none := fun j t => by
    rw [wire?_setSite, hnew]
    split <;> rfl
  have hshape := step_shape checks s a
  generalize s.step checks a = s' at hshape hx
  cases hshape with
  | newWire moduleStyle max =>
    have hadded := (wire?_added s moduleStyle max k).symm.trans hx
    rw [hnew] at hadded
    split at hadded
    · obtain rfl := Option.some.inj hadded
      rfl
    · cases hadded
  | cloneWire j hlive => cases hnew.symm.trans ((wire?_setClones s j _ k).symm.trans hx)
  | dropWire j t hlive ht =>
    rw [dropWire_eq ht, wire?_setClones, hset] at hx
    cases hx
  | move a j t t' handles _ ht hm => cases (hset j t').symm.trans hx
  | serve a j b t _ ht _ => cases (hset j _).symm.trans hx
  | addProcedure | dropReceiver | handles => cases hnew.symm.trans hx

/-- There is an identifier left for a new message buffer. -/
def Room (s : World w) : Prop := s.interface.messages.size < 2 ^ w.bits

/-- The action makes a message buffer, for the response to a call or for the arguments of a call that begins. -/
inductive Allots (s : World w) (a : Action w) : Prop
  | calls {k : Nat} {t : Site w} : a.calls? = some k → s.site? k = some t → t.CanCall → Allots s a
  | begins {k : Nat} {t : Site w} {p : ProcedureIndex w} {c : CallIndex w} {tm : Terminator} {bytes : List UInt8} :
      s.incoming? a = some (k, .call p c tm bytes) → s.site? k = some t → t.Begins p c → Allots s a

/-- If the action makes a message buffer, there is an identifier left for it. -/
def RoomFor (s : World w) (a : Action w) : Prop := s.Allots a → s.Room

theorem RoomFor.calls {a : Action w} (h : s.RoomFor a) (ha : a.calls? = some k) (ht : s.site? k = some t)
    (hcan : t.CanCall) : t.interface.messages.size < 2 ^ w.bits :=
  (wire?_of_site? ht).2 ▸ h (.calls ha ht hcan)

theorem RoomFor.receives {a : Action w} (h : s.RoomFor a) {m : Incoming w} (ha : s.incoming? a = some (k, m))
    (ht : s.site? k = some t) : t.RoomFor m := by
  cases m with
  | call p c tm bytes => exact fun hbegins => (wire?_of_site? ht).2 ▸ h (.begins ha ht hbegins)
  | _ => trivial

theorem RoomFor.serves {a : Action w} (h : s.RoomFor a) {b : Site.ServeAction w}
    (ha : s.incoming? a = (b.message? t).map fun m => (k, m)) (ht : s.site? k = some t) :
    ∀ m, b.message? t = some m → t.RoomFor m :=
  fun m hm => h.receives (ha.trans (by rw [hm]; rfl)) ht

theorem InCustody.step (h : s.InCustody held) {a : Action w} (hroom : s.RoomFor a) :
    (s.step checks a).InCustody held := by
  have hw : ∀ i : Interface w, i.messageIdQueue = s.interface.messageIdQueue → i.messages = s.interface.messages →
      i.lockCount = s.interface.lockCount → i.chanCount = s.interface.chanCount → i.locks = s.interface.locks →
      i.WellFormed := fun i hq hm hl hc hs =>
    h.wellFormed.congr hq hm hl.ge hc.ge fun l hcomp => by rw [hs]; exact hcomp
  have hshape := step_shape checks s a
  generalize s.step checks a = s' at hshape
  cases hshape with
  | addProcedure p procedure =>
    exact h.congr (hw _ rfl rfl rfl rfl rfl) rfl rfl (Nat.le_refl _) rfl fun _ => rfl
  | newWire moduleStyle max => exact h.added moduleStyle max
  | cloneWire k hlive => exact h.congr h.wellFormed rfl rfl (Nat.le_refl _) rfl fun j => wire?_setClones _ _ _ j
  | dropWire k t hlive ht => exact h.dropWire ht
  | dropReceiver n rx handles => exact h.congr (hw _ rfl rfl rfl rfl rfl) rfl rfl (Nat.le_refl _) rfl fun _ => rfl
  | handles a handles _ => exact h.congr h.wellFormed rfl rfl (Nat.le_refl _) rfl fun _ => rfl
  | move a k t t' handles _ ht hm =>
    have hset := h.setSite ht fun ht' => (hm.keepsCustody (fun hcalls => hroom.calls hcalls ht) ht').1
    exact hset.congr hset.wellFormed rfl rfl (Nat.le_refl _) rfl fun _ => rfl
  | serve a k b t _ ht hin =>
    exact h.setSite ht fun ht' => (Site.serveStep_confines ht' (hroom.serves hin ht)).custody

end World

end Ipfi
