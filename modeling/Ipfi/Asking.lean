import Ipfi.CallCounter
import Ipfi.Gathering
import Ipfi.Views

/-!
# Calls on their way to their procedures

A peer that has registered pure procedures, and hears only of pieces of calls of them: each piece adds to what is
gathered for its call and to no other, and the last one makes the procedure be called on all of them.
-/

namespace Ipfi

variable {w : IntFeature}

/-! ### A single call in a view -/

namespace Asked

variable {v : Asked w} {k k' : ProcedureIndex w × CallIndex w} {bytes args : List UInt8}

/-- The call has been opened with these bytes and not ended. -/
structure Open (v : Asked w) (k : ProcedureIndex w × CallIndex w) (args : List UInt8) : Prop where
  gathered : v.gathered k = args
  mem_opened : k ∈ v.opened
  notMem_pairs : k ∉ v.pairs

/-- The call has been ended with these arguments. -/
structure Ended (v : Asked w) (k : ProcedureIndex w × CallIndex w) (args : List UInt8) : Prop where
  mem_ended : (k, args) ∈ v.ended
  notMem_opened : k ∉ v.opened

/-- Nothing has been sent for the call. -/
structure Unheard (v : Asked w) (k : ProcedureIndex w × CallIndex w) : Prop where
  gathered : v.gathered k = []
  notMem_opened : k ∉ v.opened
  notMem_pairs : k ∉ v.pairs

theorem gathered_more_self (v : Asked w) (k : ProcedureIndex w × CallIndex w) (bytes : List UInt8) :
    (v.more k bytes).gathered k = v.gathered k ++ bytes := Function.update_self ..

theorem gathered_more_ne (hne : k' ≠ k) (v : Asked w) (bytes : List UInt8) :
    (v.more k bytes).gathered k' = v.gathered k' := Function.update_of_ne hne ..

theorem mem_pairs_last : k' ∈ (v.last k bytes).pairs ↔ k' ∈ v.pairs ∨ k' = k := by
  rw [pairs_last, List.mem_append, List.mem_singleton]

theorem Open.more_self (h : v.gathered k = args) (hk : k ∉ v.pairs) (bytes : List UInt8) :
    (v.more k bytes).Open k (args ++ bytes) := by
  refine ⟨?_, Finset.mem_insert_self _ _, hk⟩
  rw [gathered_more_self, h]

theorem Ended.last_self (h : v.gathered k = args) (bytes : List UInt8) : (v.last k bytes).Ended k (args ++ bytes) := by
  refine ⟨?_, Finset.notMem_erase _ _⟩
  rw [last, h]
  exact List.mem_append_right _ (List.mem_singleton_self _)

section

variable (hne : k' ≠ k)

include hne

theorem Open.more_ne (h : v.Open k' args) (bytes : List UInt8) : (v.more k bytes).Open k' args :=
  ⟨(gathered_more_ne hne v bytes).trans h.gathered, Finset.mem_insert_of_mem h.mem_opened, h.notMem_pairs⟩

theorem Open.last_ne (h : v.Open k' args) (bytes : List UInt8) : (v.last k bytes).Open k' args := by
  refine ⟨h.gathered, Finset.mem_erase.2 ⟨hne, h.mem_opened⟩, ?_⟩
  rw [mem_pairs_last, not_or]
  exact ⟨h.notMem_pairs, hne⟩

theorem Ended.more_ne (h : v.Ended k' args) (bytes : List UInt8) : (v.more k bytes).Ended k' args := by
  refine ⟨h.mem_ended, ?_⟩
  rw [more, Finset.mem_insert, not_or]
  exact ⟨hne, h.notMem_opened⟩

theorem Unheard.more_ne (h : v.Unheard k') (bytes : List UInt8) : (v.more k bytes).Unheard k' := by
  refine ⟨(gathered_more_ne hne v bytes).trans h.gathered, ?_, h.notMem_pairs⟩
  rw [more, Finset.mem_insert, not_or]
  exact ⟨hne, h.notMem_opened⟩

theorem Unheard.last_ne (h : v.Unheard k') (bytes : List UInt8) : (v.last k bytes).Unheard k' := by
  refine ⟨h.gathered, fun hmem => h.notMem_opened (Finset.mem_of_mem_erase hmem), ?_⟩
  rw [mem_pairs_last, not_or]
  exact ⟨h.notMem_pairs, hne⟩

end

theorem Ended.last (h : v.Ended k' args) (k : ProcedureIndex w × CallIndex w) (bytes : List UInt8) :
    (v.last k bytes).Ended k' args :=
  ⟨List.mem_append_left _ h.mem_ended, fun hmem => h.notMem_opened (Finset.mem_of_mem_erase hmem)⟩

end Asked

/-! ### A peer that serves -/

namespace Site

variable {t : Site w} {y : Surroundings w} {results : ProcedureIndex w → List UInt8 → Payload}
  {registered : ProcedureIndex w → Prop} {max : Nat} {v : Asked w} {p : ProcedureIndex w} {c : CallIndex w}
  {k : ProcedureIndex w × CallIndex w}

/-- A wire with pure procedures, once it has received the pieces and the ends of calls in the view. -/
structure Hears (t : Site w) (y : Surroundings w) (results : ProcedureIndex w → List UInt8 → Payload)
    (registered : ProcedureIndex w → Prop) (max : Nat) (v : Asked w) : Prop where
  custody : t.InCustody y
  running : t.wire.terminated = false
  limit : t.wire.maxOngoingProcedures.toNat = max
  procedures : ∀ p, registered p → t.interface.procedures.lookup p = some (.standard fun args => .ok (results p args))
  executed : t.wire.executed = v.ended
  ongoing : ∀ k ∈ t.wire.ongoingProcedures, k ∈ v.opened
  plain : ∀ e ∈ t.wire.started, e.streaming = false
  accepts : ∀ k, registered k.1 → k ∉ v.pairs →
    t.Accepts k.1 k.2 (.standard fun args => .ok (results k.1 args)) (v.gathered k)

namespace Hears

/-- A piece that was sent within the limit is received within it. -/
theorem not_rejects (h : t.Hears y results registered max v) (hcard : (insert k v.opened).card ≤ max) :
    ¬ t.Rejects k.1 k.2 := by
  rintro ⟨hk, hmax⟩
  -- what goes on at the peer is open in the view, and the call is not among it
  have hsub : t.wire.ongoingProcedures.keys.toFinset ⊆ v.opened.erase k := by
    intro k' hk'
    have hmem := AList.mem_keys.2 (List.mem_toFinset.1 hk')
    refine Finset.mem_erase.2 ⟨?_, h.ongoing k' hmem⟩
    rintro rfl
    exact hk hmem
  have hle := Finset.card_le_card hsub
  rw [List.toFinset_card_of_nodup (AList.keys_nodup _)] at hle
  have hlt := Finset.card_lt_card (Finset.erase_ssubset (Finset.mem_insert_self k v.opened))
  rw [Finset.erase_insert_eq_erase] at hlt
  have hsize : t.wire.ongoingProcedures.size = t.wire.ongoingProcedures.keys.length := rfl
  rw [h.limit, hsize] at hmax
  omega

/-- The rest of what it knows does not change with the calls. -/
private theorem receiveCall_keeps (h : t.Hears y results registered max v)
    (hroom : t.Begins p c → t.interface.messages.size < 2 ^ w.bits) (tm : Terminator) (bytes : List UInt8) :
    let t' := ((receiveCall p c tm bytes).run t).state
    t'.InCustody y ∧ t'.wire.maxOngoingProcedures.toNat = max ∧
      (∀ q, registered q → t'.interface.procedures.lookup q = some (.standard fun args => .ok (results q args))) ∧
      ∀ k, k ≠ (p, c) → registered k.1 → k ∉ v.pairs →
        t'.Accepts k.1 k.2 (.standard fun args => .ok (results k.1 args)) (v.gathered k) := by
  have hworks := receiveCall_works h.custody (p := p) (c := c) hroom tm bytes
  have hfollows := receive_follows Interface.later_serves.operates (.call p c tm bytes) t
  have hmax := congrArg (fun f => f.2.2) hfollows.2
  refine ⟨hworks.custody, ?_, fun q hq => ?_, fun k hk hreg hpairs => ?_⟩
  · rw [← h.limit]
    exact congrArg _ hmax
  · rw [← h.procedures q hq]
    exact congrArg _ hfollows.1.procedures
  · refine (h.accepts k hreg hpairs).of_works h.custody hworks (fun heq => hk ?_) hfollows.1.procedures
    have hkey : (k.1, k.2, t.wire.id) = (p, c, t.wire.id) := Owner.args.inj heq
    have hfst : k.1 = p := congrArg Prod.fst hkey
    have hsnd : k.2 = c := congrArg (fun key => key.2.1) hkey
    exact Prod.ext hfst hsnd

/-- A piece of a call that does not end it. -/
theorem piece (h : t.Hears y results registered max v)
    (hroom : t.Begins p c → t.interface.messages.size < 2 ^ w.bits) (hreg : registered p) (hpairs : (p, c) ∉ v.pairs) (hcard : (insert (p, c) v.opened).card ≤ max) {tm : Terminator}
    (htm : tm ≠ .complete) (bytes : List UInt8) :
    ∃ t', (receiveCall p c tm bytes).run t = .ok (some false) t' ∧
      t'.Hears y results registered max (v.more (p, c) bytes) := by
  obtain ⟨t', hr, hwire, hself⟩ := (h.accepts (p, c) hreg hpairs).piece (h.not_rejects hcard) htm bytes
  obtain ⟨hcustody, hmax, hprocedures, hothers⟩ := h.receiveCall_keeps (p := p) (c := c) hroom tm bytes
  rw [hr] at hcustody hmax hprocedures hothers
  refine ⟨t', hr, hcustody, ?_, hmax, hprocedures, ?_, fun k hk => ?_, fun e he => ?_, fun k hk hpk => ?_⟩
  · rw [hwire]
    exact h.running
  · rw [hwire]
    exact h.executed
  · rw [hwire] at hk
    rcases (AList.mem_insert _).1 hk with rfl | hk
    · exact Finset.mem_insert_self _ _
    · exact Finset.mem_insert_of_mem (h.ongoing k hk)
  · rw [hwire] at he
    exact h.plain e he
  · by_cases hkk : k = (p, c)
    · subst hkk
      rw [Asked.gathered_more_self]
      exact hself
    · rw [Asked.gathered_more_ne hkk]
      exact hothers k hkk hk hpk

/-- The last piece of a call. -/
theorem ends (h : t.Hears y results registered max v)
    (hroom : t.Begins p c → t.interface.messages.size < 2 ^ w.bits) (hreg : registered p) (hpairs : (p, c) ∉ v.pairs) (hcard : (insert (p, c) v.opened).card ≤ max)
    (bytes : List UInt8) :
    ∃ t', (receiveCall p c .complete bytes).run t = .ok (some true) t' ∧
      t'.Hears y results registered max (v.last (p, c) bytes) := by
  obtain ⟨i, hr⟩ := (h.accepts (p, c) hreg hpairs).complete (h.not_rejects hcard) bytes
  obtain ⟨hcustody, hmax, hprocedures, hothers⟩ := h.receiveCall_keeps (p := p) (c := c) hroom .complete bytes
  have hserved : (receiveCall p c .complete bytes).run t = .ok (some true) ⟨(i.pop (t.bufferOf p c)).2,
      (t.admitCall p c).wire.serve p c (.standard fun args => .ok (results p args)) (v.gathered (p, c) ++ bytes)⟩ := hr
  rw [hserved] at hcustody hmax hprocedures hothers
  refine ⟨_, hserved, hcustody, h.running, hmax, hprocedures, ?_, fun k hk => ?_, fun e he => ?_, fun k hk hpk => ?_⟩
  · show (Wire.serve _ _ _ _ _).executed = _
    rw [Wire.serve_executed]
    exact congrArg (· ++ _) h.executed
  · obtain ⟨hne, hk⟩ := AList.mem_erase.1 hk
    rcases (AList.mem_insert _).1 hk with rfl | hk
    · exact absurd rfl hne
    · exact Finset.mem_erase.2 ⟨hne, h.ongoing k hk⟩
  · replace he : e ∈ (Wire.serve _ _ _ _ _).started := he
    rw [Wire.serve_started] at he
    rcases List.mem_append.1 he with he | he
    · exact h.plain e he
    · rw [List.mem_singleton.1 he]
      rfl
  · rw [Asked.mem_pairs_last, not_or] at hpk
    exact hothers k hpk.2 hk hpk.1

/-- A message that the sender's view allows. -/
theorem receives (h : t.Hears y results registered max v) {m : Message w} (hroom : t.RoomFor m.incoming)
    (hm : Asked.Legal registered max v m) :
    ∃ b t', (receive m.incoming).run t = .ok b t' ∧ t'.Hears y results registered max (v.recv m) := by
  cases m with
  | call p c tm bytes =>
    obtain ⟨hreg, hpairs, hcard⟩ := hm
    rw [Asked.recv]
    split
    · rename_i htm
      subst htm
      obtain ⟨t', hr, h'⟩ := h.ends hroom hreg hpairs hcard bytes.val
      exact ⟨_, t', hr, h'⟩
    · rename_i htm
      obtain ⟨t', hr, h'⟩ := h.piece hroom hreg hpairs hcard htm bytes.val
      exact ⟨_, t', hr, h'⟩
  | endOfInput => exact ⟨_, t, rfl, h⟩
  | response => cases hm
  | termination => cases hm

/-- Only the interface and what the wire has received matter. -/
theorem congr {t' : Site w} (h : t.Hears y results registered max v) (hi : t'.interface = t.interface)
    (hw : t'.wire = { t.wire with queue := t'.wire.queue }) : t'.Hears y results registered max v := by
  have hid : t'.wire.id = t.wire.id := by rw [hw]
  refine ⟨h.custody.congr hi (by rw [hw]) (by rw [hw]), ?_, ?_, hi ▸ h.procedures, ?_, ?_, ?_,
    fun k hk hpk => (h.accepts k hk hpk).congr hi hid⟩
  · rw [hw]
    exact h.running
  · rw [hw]
    exact h.limit
  · rw [hw]
    exact h.executed
  · rw [hw]
    exact h.ongoing
  · rw [hw]
    exact h.plain

end Hears

end Site

/-! ### A caller that calls -/

/-- How a call stands in the view of its caller. -/
structure CallRecord.Told (r : CallRecord w) (u : Asked w) : Prop where
  opened : r.handle = none → u.Open r.pair r.args
  ended : r.handle ≠ none → u.Ended r.pair r.args

namespace CallRecord.Told

variable {r : CallRecord w} {u : Asked w} {k : ProcedureIndex w × CallIndex w}

theorem more_ne (h : r.Told u) (hne : r.pair ≠ k) (bytes : List UInt8) : r.Told (u.more k bytes) :=
  ⟨fun hn => (h.opened hn).more_ne hne bytes, fun hn => (h.ended hn).more_ne hne bytes⟩

theorem last_ne (h : r.Told u) (hne : r.pair ≠ k) (bytes : List UInt8) : r.Told (u.last k bytes) :=
  ⟨fun hn => (h.opened hn).last_ne hne bytes, fun hn => (h.ended hn).last k bytes⟩

end CallRecord.Told

/-- The number of calls of the procedure. -/
def callsTo (calls : List (CallRecord w)) (p : ProcedureIndex w) : Nat := calls.countP fun r => r.procedureIdx = p

/-- The number of calls that have not been ended. -/
def unfinished (calls : List (CallRecord w)) : Nat := calls.countP fun r => r.handle.isNone

theorem countP_modify_le {α : Type} {P : α → Bool} {f : α → α} (hf : ∀ a, P (f a) → P a) (as : List α) (n : Nat) :
    (as.modify n f).countP P ≤ as.countP P := by
  induction as generalizing n with
  | nil => simp
  | cons a as ih =>
    cases n with
    | zero =>
      simp only [List.modify_zero_cons, List.countP_cons]
      have := hf a
      split <;> split <;> simp_all
    | succ n =>
      simp only [List.modify_succ_cons, List.countP_cons]
      exact Nat.add_le_add_right (ih n) _

namespace Site

variable {t t' : Site w} {calls : List (CallRecord w)} {registered : ProcedureIndex w → Prop} {max : Nat} {u : Asked w}
  {p : ProcedureIndex w} {r : CallRecord w} {n : Nat}

/-- A caller with the given calls, whose pieces and ends amount to the view. -/
structure Asks (t : Site w) (calls : List (CallRecord w)) (registered : ProcedureIndex w → Prop)
    (max : Nat) (u : Asked w) : Prop where
  counted : t.Counted (callsTo calls)
  distinct : (calls.map CallRecord.pair).Nodup
  indices : ∀ r ∈ calls, r.callIdx.idx.toNat < callsTo calls r.procedureIdx
  registered : ∀ r ∈ calls, registered r.procedureIdx
  told : ∀ r ∈ calls, r.Told u
  unheard : ∀ k ∉ calls.map CallRecord.pair, u.Unheard k
  pairs : u.pairs.Nodup
  limit : unfinished calls ≤ max

namespace Asks

/-- The index of a new call has not been used. -/
theorem unused (h : t.Asks calls registered max u) (hp : callsTo calls p < 2 ^ w.bits) :
    (p, t.nextIdx p) ∉ calls.map CallRecord.pair := by
  intro hmem
  obtain ⟨r, hr, hpair⟩ := List.mem_map.1 hmem
  obtain ⟨rfl, hc⟩ := Prod.mk.inj hpair
  have hlt := h.indices r hr
  rw [hc, h.counted.nextIdx hp] at hlt
  exact Nat.lt_irrefl _ hlt

theorem exists_of_mem_pairs (h : t.Asks calls registered max u) {k : ProcedureIndex w × CallIndex w}
    (hk : k ∈ u.pairs) : ∃ r ∈ calls, r.pair = k ∧ r.handle ≠ none := by
  have hmem : k ∈ calls.map CallRecord.pair := by
    by_contra hnot
    exact (h.unheard k hnot).notMem_pairs hk
  obtain ⟨r, hr, rfl⟩ := List.mem_map.1 hmem
  exact ⟨r, hr, rfl, fun hnone => ((h.told r hr).opened hnone).notMem_pairs hk⟩

theorem pairs_last (h : t.Asks calls registered max u) {k : ProcedureIndex w × CallIndex w} (hk : k ∉ u.pairs)
    (bytes : List UInt8) : (u.last k bytes).pairs.Nodup := by
  rw [Asked.pairs_last, ← List.concat_eq_append]
  exact h.pairs.concat hk

/-- Only calls that have not been ended are open. -/
theorem card_opened (h : t.Asks calls registered max u) : u.opened.card ≤ unfinished calls := by
  have hsub : u.opened ⊆ ((calls.filter fun r => r.handle.isNone).map CallRecord.pair).toFinset := by
    intro k hk
    have hmem : k ∈ calls.map CallRecord.pair := by
      by_contra hnot
      exact (h.unheard k hnot).notMem_opened hk
    obtain ⟨r, hr, rfl⟩ := List.mem_map.1 hmem
    -- a call that has been ended is not open
    have hnone : r.handle = none := by
      by_contra hne
      exact ((h.told r hr).ended hne).notMem_opened hk
    rw [List.mem_toFinset]
    exact List.mem_map.2 ⟨r, List.mem_filter.2 ⟨hr, by rw [hnone]; rfl⟩, rfl⟩
  have hle := (Finset.card_le_card hsub).trans (List.toFinset_card_le _)
  rwa [List.length_map, ← List.countP_eq_length_filter] at hle

/-- A piece of a call that has not been ended may be sent. -/
theorem legal_of_open (h : t.Asks calls registered max u) (hr : r ∈ calls) (hnone : r.handle = none) (tm : Terminator)
    (bytes : Payload) : Asked.Legal registered max u (.call r.procedureIdx r.callIdx tm bytes) := by
  have hopen := (h.told r hr).opened hnone
  have hinsert : insert (r.procedureIdx, r.callIdx) u.opened = u.opened := Finset.insert_eq_of_mem hopen.mem_opened
  refine ⟨h.registered r hr, hopen.notMem_pairs, ?_⟩
  rw [hinsert]
  exact h.card_opened.trans h.limit

/-- So may be the first piece of a new one. -/
theorem legal_of_new (h : t.Asks calls registered max u) (hp : callsTo calls p < 2 ^ w.bits) (hreg : registered p)
    (hlimit : unfinished calls < max) (tm : Terminator) (bytes : Payload) :
    Asked.Legal registered max u (.call p (t.nextIdx p) tm bytes) := by
  refine ⟨hreg, (h.unheard _ (h.unused hp)).notMem_pairs, ?_⟩
  have hle := Finset.card_insert_le (p, t.nextIdx p) u.opened
  have hopened := h.card_opened
  omega

/-- Only the counter and the awaited responses matter. -/
theorem congr (h : t.Asks calls registered max u) (hcounted : t'.Counted (callsTo calls)) :
    t'.Asks calls registered max u :=
  ⟨hcounted, h.distinct, h.indices, h.registered, h.told, h.unheard, h.pairs, h.limit⟩

private theorem callsTo_concat (calls : List (CallRecord w)) (r : CallRecord w) :
    callsTo (calls ++ [r]) = Function.update (callsTo calls) r.procedureIdx (callsTo calls r.procedureIdx + 1) := by
  funext q
  rw [callsTo, List.countP_append, List.countP_singleton, Function.update_apply]
  by_cases hq : q = r.procedureIdx
  · subst hq
    simp [callsTo]
  · simp [callsTo, hq, Ne.symm hq]

/-- A new call. -/
theorem adds (h : t.Asks calls registered max u) {u' : Asked w} (hp : callsTo calls r.procedureIdx < 2 ^ w.bits)
    (hreg : registered r.procedureIdx) (hidx : r.callIdx = t.nextIdx r.procedureIdx)
    (hcounted : t'.Counted (Function.update (callsTo calls) r.procedureIdx (callsTo calls r.procedureIdx + 1)))
    (hlimit : unfinished calls < max) (hself : r.Told u') (hothers : ∀ r' ∈ calls, r'.pair ≠ r.pair → r'.Told u')
    (hunheard : ∀ k, k ≠ r.pair → u.Unheard k → u'.Unheard k) (hpairs : u'.pairs.Nodup) :
    t'.Asks (calls ++ [r]) registered max u' := by
  have hpair : r.pair = (r.procedureIdx, t.nextIdx r.procedureIdx) := congrArg _ hidx
  have hnew : r.pair ∉ calls.map CallRecord.pair := hpair ▸ h.unused hp
  have hne : ∀ r' ∈ calls, r'.pair ≠ r.pair := fun r' hr' heq => hnew (List.mem_map.2 ⟨r', hr', heq⟩)
  rw [← callsTo_concat] at hcounted
  refine ⟨hcounted, ?_, fun r' hr' => ?_, fun r' hr' => ?_, fun r' hr' => ?_, fun k hk => ?_, hpairs, ?_⟩
  · rw [List.map_append, List.map_singleton, ← List.concat_eq_append]
    exact h.distinct.concat hnew
  · rw [callsTo_concat, Function.update_apply]
    rcases List.mem_append.1 hr' with hr' | hr'
    · have hlt := h.indices r' hr'
      split
      · rename_i heq
        rw [heq] at hlt
        omega
      · exact hlt
    · obtain rfl := List.mem_singleton.1 hr'
      rw [if_pos rfl, hidx, h.counted.nextIdx hp]
      exact Nat.lt_succ_self _
  · rcases List.mem_append.1 hr' with hr' | hr'
    · exact h.registered r' hr'
    · rw [List.mem_singleton.1 hr']
      exact hreg
  · rcases List.mem_append.1 hr' with hr' | hr'
    · exact hothers r' hr' (hne r' hr')
    · rw [List.mem_singleton.1 hr']
      exact hself
  · rw [List.map_append, List.mem_append, not_or] at hk
    exact hunheard k (fun heq => hk.2 (List.mem_singleton.2 heq)) (h.unheard k hk.1)
  -- at most one call more is open
  · rw [unfinished, List.countP_append, List.countP_singleton]
    have hle : unfinished calls + 1 ≤ max := hlimit
    rw [unfinished] at hle
    split <;> omega

/-- One call may change, if its handle stays. -/
theorem changes (h : t.Asks calls registered max u) {u' : Asked w} {f : CallRecord w → CallRecord w}
    (hn : calls[n]? = some r) (hpair : ∀ r, (f r).pair = r.pair) (hhandle : ∀ r, (f r).handle = none → r.handle = none)
    (hcounted : t'.Counted (callsTo calls)) (hself : (f r).Told u')
    (hothers : ∀ r' ∈ calls, r'.pair ≠ r.pair → r'.Told u')
    (hunheard : ∀ k, k ≠ r.pair → u.Unheard k → u'.Unheard k) (hpairs : u'.pairs.Nodup) :
    t'.Asks (calls.modify n f) registered max u' := by
  have hr : r ∈ calls := List.mem_of_getElem? hn
  have hmap := CallRecord.map_pair_modify hpair calls n
  have hback : ∀ r' ∈ calls.modify n f, r' = f r ∨ r' ∈ calls ∧ r'.pair ≠ r.pair := fun r' hr' =>
    CallRecord.mem_modify h.distinct hn hr'
  -- the calls are still calls of the same procedures
  have hcallsTo : callsTo (calls.modify n f) = callsTo calls := by
    funext q
    have hcount : ∀ calls : List (CallRecord w),
        callsTo calls q = (calls.map CallRecord.pair).countP fun k => k.1 = q := by
      intro calls
      rw [List.countP_map]
      rfl
    rw [hcount, hcount, hmap]
  have hidx : (f r).procedureIdx = r.procedureIdx ∧ (f r).callIdx = r.callIdx := Prod.mk.inj (hpair r)
  refine ⟨hcallsTo ▸ hcounted, hmap ▸ h.distinct, fun r' hr' => ?_, fun r' hr' => ?_, fun r' hr' => ?_, fun k hk => ?_,
    hpairs, (countP_modify_le (fun r' hnone => ?_) calls n).trans h.limit⟩
  · rw [hcallsTo]
    rcases hback r' hr' with rfl | ⟨hr', -⟩
    · rw [hidx.1, hidx.2]
      exact h.indices r hr
    · exact h.indices r' hr'
  · rcases hback r' hr' with rfl | ⟨hr', -⟩
    · rw [hidx.1]
      exact h.registered r hr
    · exact h.registered r' hr'
  · rcases hback r' hr' with rfl | ⟨hr', hne⟩
    · exact hself
    · exact hothers r' hr' hne
  · rw [hmap] at hk
    refine hunheard k ?_ (h.unheard k hk)
    rintro rfl
    exact hk (List.mem_map.2 ⟨r, hr, rfl⟩)
  · rw [Option.isNone_iff_eq_none] at hnone ⊢
    exact hhandle r' hnone

end Asks

end Site

end Ipfi
