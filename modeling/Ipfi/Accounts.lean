import Ipfi.Leftovers

/-!
# Arguments of one wire only

What each wire has accepted since it was created, and the calls that were made of it.  As long as no wire leaves
anything behind, the procedures that a wire calls receive what that wire itself has accepted for the call, and nothing
else.
-/

namespace Ipfi

variable {w : IntFeature}

open Interface (Stays)

/-- What a wire has accepted for the calls that have not ended, and what its procedures have been called on. -/
structure Account (w : IntFeature) where
  pieces : ProcedureIndex w × CallIndex w → List UInt8
  calls : List (List UInt8)

namespace Account

def empty : Account w := ⟨fun _ => [], []⟩

/-- The account after a message of the call has been accepted, and its procedure has been called or not. -/
def message (l : Account w) (call : ProcedureIndex w × CallIndex w) (t : Terminator)
    (bytes : List UInt8) (called : Bool) : Account w where
  pieces := Function.update l.pieces call (if t = .complete then [] else l.pieces call ++ bytes)
  calls := if called then l.calls ++ [l.pieces call ++ bytes] else l.calls

/-- The account after a wire has received a message, which moved it from `s` to `s'`. -/
def received (l : Account w) (s s' : Site w) : Incoming w → Account w
  | .call p c t bytes =>
    if s.Rejects p c then l
    else l.message (p, c) t bytes (decide (s.wire.executions.length < s'.wire.executions.length))
  | _ => l

end Account

namespace Site

variable {s s' : Site w} {x : Surroundings w} {l : Account w} {a : ServeAction w}

/-- The wire has called its procedures on what the account says, and gathers what it says. -/
structure Agrees (s : Site w) (l : Account w) : Prop where
  calls : s.wire.calledOn = l.calls
  holds : s.wire.terminated = false → ∀ {p c}, s.Holds p c (l.pieces (p, c))

theorem Agrees.of_argsStay (h : s.Agrees l) (hcalled : s'.wire.calledOn = s.wire.calledOn)
    (hterm : s'.wire.terminated = s.wire.terminated) (hid : s'.wire.id = s.wire.id)
    (hargs : s.wire.terminated = false → ArgsStay s.wire.id s.interface s'.interface) : s'.Agrees l where
  calls := hcalled.trans h.calls
  holds ht {p c} := by
    rw [hterm] at ht
    exact (h.holds ht).of_stays hid (hargs ht p c).1 (hargs ht p c).2

theorem Agrees.receiveCall (h : s.Agrees l) (hcustody : s.InCustody x) {p : ProcedureIndex w} {c : CallIndex w}
    (hroom : s.Begins p c → s.interface.messages.size < 2 ^ w.bits) (hrun : s.wire.terminated = false) (t : Terminator)
    (bytes : List UInt8) :
    ((receiveCall p c t bytes).run s).state.Agrees
      (l.received s ((Site.receiveCall p c t bytes).run s).state (.call p c t bytes)) := by
  by_cases hrej : s.Rejects p c
  · rw [receiveCall_run, if_pos hrej]
    simp only [Account.received, if_pos hrej]
    exact h
  · simp only [Account.received, if_neg hrej]
    constructor
    · rw [receiveCall_calledOn hcustody hroom hrej (fun _ _ => h.holds hrun), h.calls]
      simp only [Account.message, decide_eq_true_eq]
    · intro _ p' c'
      by_cases hpc : (p', c') = (p, c)
      · obtain ⟨rfl, rfl⟩ := Prod.mk.inj hpc
        simp only [Account.message, Function.update_self]
        exact receiveCall_holds hcustody hroom hrej (fun _ => h.holds hrun) bytes
      · simp only [Account.message, Function.update_of_ne hpc]
        exact receiveCall_holds_ne hcustody hroom hpc (h.holds hrun) t bytes

/-- The account of the wire after it has served the action. -/
def accountAfter (s : Site w) (a : ServeAction w) (l : Account w) : Account w :=
  match a.message? s with
  | some m => l.received s (s.serveStep a) m
  | none => l

theorem accountAfter_call {p : ProcedureIndex w} {c : CallIndex w} {t : Terminator} {bytes : List UInt8}
    (hm : a.message? s = some (.call p c t bytes)) :
    s.accountAfter a l = l.received s ((Site.receiveCall p c t bytes).run s).state (.call p c t bytes) := by
  simp only [accountAfter, hm, Account.received, serveStep_executions hm]

theorem accountAfter_of_ne (hm : ∀ p c t bytes, a.message? s ≠ some (.call p c t bytes)) : s.accountAfter a l = l := by
  unfold accountAfter
  split
  · rename_i m hsome
    cases m with
    | call p c t bytes => exact absurd hsome (hm p c t bytes)
    | _ => rfl
  · rfl

theorem Agrees.serveStep (h : s.Agrees l) (hcustody : s.InCustody x) {a : ServeAction w}
    (hroom : ∀ m, a.message? s = some m → s.RoomFor m) : (s.serveStep a).Agrees (s.accountAfter a l) := by
  refine serveStep_invariant (I := fun s' => s'.Agrees (s.accountAfter a l)) (fun hm => ?_) (fun p c t bytes hm => ?_)
    (fun p c t bytes hm => ?_) (fun s' hs' => ⟨hs'.calls, fun ht => by cases ht⟩) fun e p c args f bytes t ha hex => ?_
  · rwa [accountAfter_of_ne hm]
  · rw [accountAfter_call hm]
    exact h.receiveCall hcustody (hroom _ hm) (ServeAction.running_of_message? hm) t bytes
  · rw [accountAfter_of_ne (by simp [hm])]
    have hframe := receiveResponse_answering p c t bytes s
    have hworks := receiveResponse_works hcustody p c t bytes
    have hne : ∀ key, Owner.args key ≠ .response x.position (p, c) := fun _ => nofun
    exact h.of_argsStay (congrArg (List.map Execution.args) hframe.serving_of_answering.executions)
      hframe.passive_of_answering.terminated hworks.id
      fun _ p' c' => ⟨hworks.own (hne _), fun b hb => (hworks.same (hne _) hb).stays⟩
  · subst ha
    rw [accountAfter_of_ne (by simp [ServeAction.message?])]
    have hcalling := yielder_calling p c e bytes t s.wire
    exact h.of_argsStay (Wire.yielder_calledOn p c e bytes t s.wire) (congrArg (fun y => y.1.2.1) hcalling)
      (congrArg (fun y => y.1.1.1) hcalling) fun _ _ _ => ⟨rfl, fun _ _ => .rfl⟩

end Site

namespace World

variable {s s' : World w} {held : Nat → LockRef → Prop} {j k : Nat} {t t' : Site w} {x : Wire w} {checks : Bool}
  {l l' : Nat → Account w}

/-- The accounts of the wires after an action has moved the world from `s` to `s'`. -/
def accountsAfter (s s' : World w) (a : Action w) (l : Nat → Account w) : Nat → Account w :=
  match s.incoming? a with
  | some (k, m) =>
    match s.site? k, s'.site? k with
    | some t, some t' => Function.update l k ((l k).received t t' m)
    | _, _ => l
  | none => l

def accountStep (checks : Bool) (y : World w × (Nat → Account w)) (a : Action w) : World w × (Nat → Account w) :=
  (y.1.step checks a, accountsAfter y.1 (y.1.step checks a) a y.2)

/-- Every wire agrees with its account. -/
structure Accounted (s : World w) (l : Nat → Account w) : Prop where
  agrees : ∀ {k x}, s.wire? k = some x → Site.Agrees ⟨s.interface, x⟩ (l k)
  fresh : ∀ {k}, s.wires.length ≤ k → l k = .empty

/-- The identifier of the next wire has no argument buffer. -/
theorem Tidy.getId_notMem (h : s.Tidy) (hids : s.Ids) (hroom : s.liveCount < 2 ^ w.bits) (p : ProcedureIndex w)
    (c : CallIndex w) : (p, c, s.interface.getId.1) ∉ s.interface.callToBufferMap := by
  intro hmem
  obtain ⟨k, x, hk, hx, hid, -⟩ := h.owned hmem
  apply hids.getId_notLive hroom k
  rw [liveId?_of_isLive hk (site?_of_wire? hx)]
  exact congrArg some hid

theorem accountsAfter_of_none {a : Action w} (ha : s.incoming? a = none) : accountsAfter s s' a l = l := by
  simp only [accountsAfter, ha]

theorem accountsAfter_of_serve {a : Action w} {b : Site.ServeAction w} (ht : s.site? k = some t)
    (ha : s.incoming? a = (b.message? t).map fun m => (k, m)) :
    accountsAfter s (s.setSite k (t.serveStep b)) a l = Function.update l k (t.accountAfter b (l k)) := by
  have ht' : (s.setSite k (t.serveStep b)).site? k = some (t.serveStep b) :=
    site?_of_wire? (wire?_setSite_self ht _)
  simp only [accountsAfter, ha, Site.accountAfter]
  cases b.message? t with
  | none => exact (Function.update_eq_self k l).symm
  | some m => simp only [Option.map_some, ht, ht']

/-- The wires of a world stay, and at most one is added. -/
theorem length_wires_le_step (checks : Bool) (s : World w) (a : Action w) :
    s.wires.length ≤ (s.step checks a).wires.length := by
  have hset : ∀ k (t : Site w), (s.setSite k t).wires.length = s.wires.length := fun k t => List.length_modify _ _ _
  have hshape := step_shape checks s a
  generalize s.step checks a = s' at hshape
  cases hshape with
  | newWire moduleStyle max => exact (by simp : s.wires.length ≤ (s.wires ++ [_]).length)
  | cloneWire k hlive => exact (List.length_modify _ _ _).ge
  | dropWire k t hlive ht =>
    rw [dropWire_eq ht]
    exact ((List.length_modify _ _ _).trans (hset k _)).ge
  | move a k t t' handles _ ht hm => exact (hset k t').ge
  | serve a k b t _ ht _ => exact (hset k _).ge
  | addProcedure p procedure => exact Nat.le_refl _
  | dropReceiver n rx handles => exact Nat.le_refl _
  | handles a handles _ => exact Nat.le_refl _

theorem lt_length_of_incoming? {a : Action w} {m : Incoming w} (ha : s.incoming? a = some (k, m)) :
    k < s.wires.length := by
  simp only [incoming?, Option.bind_eq_some_iff] at ha
  obtain ⟨⟨j, b⟩, -, hsome⟩ := ha
  split at hsome
  · obtain ⟨t, ht, hm⟩ := Option.bind_eq_some_iff.1 hsome
    obtain ⟨m', -, heq⟩ := Option.map_eq_some_iff.1 hm
    obtain ⟨x, hx, -⟩ := Option.map_eq_some_iff.1 ht
    obtain rfl : j = k := congrArg Prod.fst heq
    exact (List.getElem?_eq_some_iff.1 hx).1
  · cases hsome

/-- Only the account of the wire that receives a message changes. -/
theorem accountsAfter_of_ne {a : Action w} (hin : ∀ m, s.incoming? a ≠ some (k, m)) :
    accountsAfter s s' a l k = l k := by
  rcases hsome : s.incoming? a with _ | ⟨j, m⟩
  · rw [accountsAfter_of_none hsome]
  · have hne : k ≠ j := by
      rintro rfl
      exact hin m hsome
    rcases ht : s.site? j with _ | t <;> rcases ht' : s'.site? j with _ | t' <;>
      simp [accountsAfter, hsome, ht, ht', Function.update_of_ne hne]

theorem Accounted.step (h : s.Accounted l) (htidy : s.Tidy) (hcustody : s.InCustody held) (hids : s.Ids) {a : Action w}
    (ha : s.Clean a) : (s.step checks a).Accounted (accountsAfter s (s.step checks a) a l) := by
  constructor
  · refine fun {k x} => each_step (P := fun k t => t.Agrees (l k))
      (Q := fun k t => t.Agrees (accountsAfter s (s.step checks a) a l k)) hcustody hids (fun _ _ => htidy.ended)
      ha.separate.room (fun _ _ => h.agrees) ?_ ?_ ?_ ?_ k x
    · intro k t t' hin hagrees hserving hargs
      rw [accountsAfter_of_ne hin]
      exact hagrees.of_argsStay (congrArg (fun y => y.2.2.2.map Execution.args) hserving)
        (congrArg (fun y => y.2.1) hserving) (congrArg (fun y => y.1.1) hserving) hargs
    · intro k t hdrop hagrees
      rw [accountsAfter_of_none (by rw [hdrop]; rfl)]
      exact ⟨hagrees.calls, fun hrun => by cases hrun⟩
    · intro k b t hserve ht hin hstep hagrees
      rw [hstep, accountsAfter_of_serve ht hin, Function.update_self]
      exact hagrees.serveStep (hcustody.site ht) (ha.separate.room.serves hin ht)
    · intro moduleStyle max hnew
      rw [accountsAfter_of_none (by rw [hnew]; rfl), h.fresh (Nat.le_refl _)]
      refine ⟨rfl, fun _ {p c} => Site.holds_nil (AList.lookup_eq_none.2 ?_)⟩
      exact htidy.getId_notMem hids (ha.separate.newWire moduleStyle max hnew) p c
  · intro k hk
    have hlen : s.wires.length ≤ k := (length_wires_le_step checks s a).trans hk
    rw [accountsAfter_of_ne fun m hm => absurd (lt_length_of_incoming? hm) (Nat.not_lt.2 hlen)]
    exact h.fresh hlen

/-! ### Runs -/

/-- Of what the wire `t` held, nothing is left on the interface `i`. -/
def NoLeftovers (t : Site w) (i : Interface w) : Prop :=
  ∀ p c, (p, c, t.wire.id) ∉ i.callToBufferMap ∧
    ∀ b, t.interface.callToBufferMap.lookup (p, c, t.wire.id) = some b → b ∉ i.messages

theorem noLeftovers_markTerminated (h : t.Tidy) : NoLeftovers t t.markTerminated.interface :=
  fun _ _ => ⟨h.notMem_markTerminated, fun _ hb => h.args_notMem_markTerminated hb⟩

/-- A run of a world and its accounts whose steps are clean. -/
abbrev CleanRun (checks : Bool) : World w × (Nat → Account w) → Prop :=
  Reaches (accountStep checks) (fun y a => y.1.Clean a) (new, fun _ => .empty)

private theorem new_tidy : (new : World w).Tidy where
  owned h := by simp [new, Interface.new] at h
  ended h := by simp [wire?, new] at h

private theorem new_accounted : (new : World w).Accounted fun _ => .empty where
  agrees h := by simp [wire?, new] at h
  fresh _ := rfl

/-- In every state that clean steps lead to, every argument buffer belongs to a running wire that is working on the
call, a wire leaves none behind when it is terminated or dropped, the next wire starts without any, and the procedures
that a wire has called were called on what that wire has accepted. -/
theorem calledOn_eq_account {y : World w × (Nat → Account w)} (hy : CleanRun checks y) :
    (∀ key ∈ y.1.interface.callToBufferMap, y.1.Owned key) ∧
    (∀ k t, y.1.isLive k = true → y.1.site? k = some t →
      NoLeftovers t t.markTerminated.interface ∧ NoLeftovers t (y.1.dropWire k).interface) ∧
    (y.1.liveCount < 2 ^ w.bits → ∀ p c, (p, c, y.1.interface.getId.1) ∉ y.1.interface.callToBufferMap) ∧
    ∀ k x, y.1.wire? k = some x → x.calledOn = (y.2 k).calls := by
  have hinv : (y.1.Tidy ∧ y.1.Accounted y.2) ∧ (y.1.InCustody (fun _ _ => False) ∧ y.1.Ids) ∧ y.1.Unshared := by
    refine hy.invariant (I := fun y =>
      (y.1.Tidy ∧ y.1.Accounted y.2) ∧ (y.1.InCustody (fun _ _ => False) ∧ y.1.Ids) ∧ y.1.Unshared)
      ⟨⟨new_tidy, new_accounted⟩, ⟨new_inCustody, new_ids⟩, fun k x hx => by simp [new] at hx⟩ ?_
    rintro y a ⟨⟨htidy, hacc⟩, ⟨hcustody, hids⟩, hun⟩ ha
    have hdrops := ha.separate.dropsWhole hun
    exact ⟨⟨htidy.step hcustody hids hun ha, hacc.step htidy hcustody hids ha⟩,
      ⟨hcustody.step hdrops.room, hids.step hdrops.dropsLast⟩, hun.step ha.separate.noClone⟩
  obtain ⟨⟨htidy, hacc⟩, ⟨hcustody, hids⟩, hun⟩ := hinv
  refine ⟨fun key hkey => htidy.owned hkey, fun k t hk ht => ?_, fun hroom p c => htidy.getId_notMem hids hroom p c,
    fun k x hx => (hacc.agrees hx).calls⟩
  have hnone := noLeftovers_markTerminated (htidy.site hids hk ht)
  refine ⟨hnone, ?_⟩
  rw [dropWire_eq ht]
  exact hnone

/-- A wire with a procedure that returns nothing. -/
private def tenants : World .u32 × (Nat → Account .u32) :=
  [.addProcedure ⟨1⟩ (.standard fun _ => .ok .empty), .newWire false 4,
    .receiveOne 0 (Message.call ⟨1⟩ ⟨0⟩ .none ⟨[7], by decide⟩ : Message .u32).toBytes,
    .receiveOne 0 (Message.call ⟨1⟩ ⟨0⟩ .complete ⟨[8], by decide⟩ : Message .u32).toBytes].foldl (accountStep true)
    (new, fun _ => .empty)

private theorem clean_of_room {s : World .u32} {a : Action .u32} (hroom : s.interface.messages.size < 2 ^ 32)
    (hwires : s.liveCount < 2 ^ 32) (ha : ∀ k, a ≠ .cloneWire k) (hyield : ∀ k e bytes t, a ≠ .yield k e bytes t) :
    s.Clean a := by
  refine ⟨separate_of_room hroom hwires ha, fun {k b t} hserve _ e bytes p c args f hb => ?_⟩
  subst hb
  cases a <;> cases hserve
  exact absurd rfl (hyield _ _ _ _)

private theorem tenants_clean : CleanRun true tenants :=
  .next (.next (.next (.next .start
    (clean_of_room (by decide) (by decide) nofun nofun))
    (clean_of_room (by decide +kernel) (by decide +kernel) nofun nofun))
    (clean_of_room (by decide +kernel) (by decide +kernel) nofun nofun))
    (clean_of_room (by decide +kernel) (by decide +kernel) nofun nofun)

private def tenant : Wire .u32 := (tenants.1.wire? 0).get (by decide +kernel)

theorem calledOn_eq_account_tenant : tenant.calledOn = (tenants.2 0).calls :=
  (calledOn_eq_account tenants_clean).2.2.2 0 tenant (Option.some_get _).symm

/-- The peer reuses the index of a call whose streaming execution still runs, and goes before that execution ends. -/
private def leftoverRun : List (Action .u32) :=
  [.addProcedure ⟨1⟩ (.streaming fun _ => (.ok (), [])), .newWire false 4,
    .receiveOne 0 (Message.call ⟨1⟩ ⟨0⟩ .complete .empty : Message .u32).toBytes,
    .receiveOne 0 (Message.call ⟨1⟩ ⟨0⟩ .none ⟨[5], by decide⟩ : Message .u32).toBytes,
    .yield 0 0 .empty .complete, .dropWire 0, .newWire false 4,
    .receiveOne 1 (Message.call ⟨1⟩ ⟨0⟩ .complete ⟨[9], by decide⟩ : Message .u32).toBytes]

/-- A run without clones. -/
abbrev ClonelessRun : World .u32 × (Nat → Account .u32) → Prop :=
  Reaches (accountStep true) (fun _ a => ∀ k, a ≠ .cloneWire k) (new, fun _ => .empty)

private theorem leftover_reaches (n : Nat) :
    ClonelessRun ((leftoverRun.take n).foldl (accountStep true) (new, fun _ => .empty)) := by
  refine Reaches.start.foldl _ fun a ha s k hclone => ?_
  subst hclone
  have := List.mem_of_mem_take ha
  simp [leftoverRun] at this

/-- The execution that ends takes the call off the ongoing ones and leaves its next arguments behind, and they become
part of the arguments of a call on the next wire. -/
theorem not_calledOn_eq_account_leftover :
    (¬ ∀ y : World .u32 × (Nat → Account .u32), ClonelessRun y → ∀ key ∈ y.1.interface.callToBufferMap, y.1.Owned key) ∧
    ¬ ∀ y : World .u32 × (Nat → Account .u32), ClonelessRun y →
      ∀ k x, y.1.wire? k = some x → x.calledOn = (y.2 k).calls := by
  constructor
  · intro h
    obtain ⟨k, x, hk, hx, -, -, hongoing⟩ := h _ (leftover_reaches 5) (⟨1⟩, ⟨0⟩, ⟨0⟩) (by decide +kernel)
    have hone : ∀ z ∈ ((leftoverRun.take 5).foldl (accountStep true) (new, fun _ => .empty)).1.wires,
        (⟨1⟩, ⟨0⟩) ∉ z.wire.ongoingProcedures := by decide +kernel
    obtain ⟨z, hz, rfl⟩ := Option.map_eq_some_iff.1 hx
    exact hone z (List.mem_of_getElem? hz) hongoing
  · intro h
    have hx : (((leftoverRun.take 8).foldl (accountStep true) (new, fun _ => .empty)).1.wire? 1).map Wire.calledOn =
        some [[5, 9]] := by decide +kernel
    obtain ⟨x, hx, hcalled⟩ := Option.map_eq_some_iff.1 hx
    rw [h _ (leftover_reaches 8) 1 x hx] at hcalled
    exact absurd hcalled (by decide +kernel)

end World

end Ipfi
