import Ipfi.Asking
import Ipfi.Serving

/-!
# A peer that attends to any procedures

The procedures of a peer may stream, so that a call goes on after it has ended, until its execution has yielded the
last of its response.  As long as the calls that have not gone that far are within the limit, each piece is gathered
for its call and the last one makes the procedure be called on all of them.
-/

namespace Ipfi

variable {w : IntFeature}

namespace Procedure

def returnsOk (procedure : Procedure w) (args : List UInt8) : Prop :=
  match procedure with
  | .standard closure => ∃ ret, closure args = .ok ret
  | .streaming closure => (closure args).1 = .ok ()

/-- The closure returns without an error, and has not yielded anything after the end of its response. -/
structure Succeeds (procedure : Procedure w) (args : List UInt8) : Prop where
  returns : procedure.returnsOk args
  last : ∀ y ∈ (procedure.replies args).dropLast, y.2 ≠ .complete

end Procedure

/-! ### Calls that are over -/

namespace Wire

variable {x x' : Wire w} {k : ProcedureIndex w × CallIndex w}

/-- The call has been executed, and its execution is over. -/
def isDone (x : Wire w) (k : ProcedureIndex w × CallIndex w) : Bool :=
  (x.executed.any fun e => decide (e.1 = k)) && !decide (k ∈ x.ongoingProcedures)

theorem isDone_eq_true : x.isDone k = true ↔ k ∈ x.executed.map Prod.fst ∧ k ∉ x.ongoingProcedures := by
  simp only [isDone, Bool.and_eq_true, List.any_eq_true, decide_eq_true_eq, Bool.not_eq_true', decide_eq_false_iff_not,
    List.mem_map]

theorem isDone_eq_false : x.isDone k = false ↔ (k ∈ x.executed.map Prod.fst → k ∈ x.ongoingProcedures) := by
  rw [← Bool.not_eq_true, isDone_eq_true, not_and_not_right]

theorem isDone_mono (hexec : x.executed <+: x'.executed)
    (hongoing : ∀ k ∈ x'.ongoingProcedures, k ∈ x.executed.map Prod.fst → k ∈ x.ongoingProcedures)
    (hk : x.isDone k = true) : x'.isDone k = true := by
  rw [isDone_eq_true] at hk ⊢
  exact ⟨(hexec.map Prod.fst).subset hk.1, fun hmem => hk.2 (hongoing k hmem hk.1)⟩

end Wire

namespace Asked

variable {services : ProcedureIndex w → Procedure w} {registered : ProcedureIndex w → Prop} {max : Nat}
  {done done' : ProcedureIndex w × CallIndex w → Bool}

/-- The number of calls in the view that have ended and are not over. -/
def pending (v : Asked w) (done : ProcedureIndex w × CallIndex w → Bool) : Nat := v.pairs.countP fun k => !done k

theorem pending_mono (v : Asked w) (h : ∀ k, done k = true → done' k = true) : v.pending done' ≤ v.pending done := by
  refine List.countP_mono_left fun k _ hk => ?_
  rw [Bool.not_eq_true'] at hk ⊢
  by_contra hne
  exact absurd (h k (by simpa using hne)) (by simp [hk])

/-- A caller that only calls sends pieces of calls that have not ended, of registered procedures.  It keeps the calls
that are not over within the limit, and its calls succeed. -/
def Admissible (services : ProcedureIndex w → Procedure w) (registered : ProcedureIndex w → Prop) (max : Nat)
    (done : ProcedureIndex w × CallIndex w → Bool) (v : Asked w) : Message w → Prop
  | .call p c t bytes => registered p ∧ (p, c) ∉ v.pairs ∧ (insert (p, c) v.opened).card + v.pending done ≤ max ∧
    (t = .complete → (services p).Succeeds (v.gathered (p, c) ++ bytes.val))
  | .endOfInput => True
  | _ => False

theorem Admissible.mono (h : ∀ k, done k = true → done' k = true) (v : Asked w) (m : Message w)
    (hm : Admissible services registered max done v m) : Admissible services registered max done' v m := by
  cases m with
  | call p c t bytes =>
    obtain ⟨hreg, hpairs, hcard, hok⟩ := hm
    exact ⟨hreg, hpairs, (Nat.add_le_add_left (v.pending_mono h) _).trans hcard, hok⟩
  | _ => exact hm

end Asked

/-! ### A peer that serves -/

namespace Site

variable {t t' : Site w} {y : Surroundings w} {services : ProcedureIndex w → Procedure w}
  {registered : ProcedureIndex w → Prop} {max : Nat} {v : Asked w} {p : ProcedureIndex w} {c : CallIndex w}
  {k : ProcedureIndex w × CallIndex w}

theorem served_ok {procedure : Procedure w} {args : List UInt8} (h : procedure.returnsOk args) (t : Site w)
    (p : ProcedureIndex w) (c : CallIndex w) (b : IpfiInteger w) :
    served t p c b procedure args = .ok (some true) ⟨(t.interface.pop b).2, t.wire.serve p c procedure args⟩ := by
  cases procedure with
  | standard closure =>
    obtain ⟨ret, hret⟩ := h
    simp [served, hret]
  | streaming closure => simp [served, show (closure args).1 = .ok () from h]

/-- A wire with any procedures, once it has received the pieces and the ends of calls in the view. -/
structure Attends (t : Site w) (y : Surroundings w) (services : ProcedureIndex w → Procedure w)
    (registered : ProcedureIndex w → Prop) (max : Nat) (v : Asked w) : Prop where
  custody : t.InCustody y
  running : t.wire.terminated = false
  limit : t.wire.maxOngoingProcedures.toNat = max
  procedures : ∀ p, registered p → t.interface.procedures.lookup p = some (services p)
  executed : t.wire.executed = v.ended
  succeeds : ∀ e ∈ v.ended, (services e.1.1).Succeeds e.2
  ongoing : ∀ k ∈ t.wire.ongoingProcedures, k ∈ v.opened ∨ k ∈ v.pairs
  accepts : ∀ k, registered k.1 → k ∉ v.pairs → t.Accepts k.1 k.2 (services k.1) (v.gathered k)

namespace Attends

theorem mem_executed (h : t.Attends y services registered max v) : k ∈ t.wire.executed.map Prod.fst ↔ k ∈ v.pairs := by
  rw [h.executed, Asked.pairs]

/-- A piece that was sent within the limit is received within it. -/
theorem not_rejects (h : t.Attends y services registered max v)
    (hcard : (insert k v.opened).card + v.pending t.wire.isDone ≤ max) : ¬ t.Rejects k.1 k.2 := by
  rintro ⟨hk, hmax⟩
  -- what goes on at the peer is open in the view or not over, and the call is not among it
  have hsub : t.wire.ongoingProcedures.keys.toFinset ⊆
      v.opened.erase k ∪ (v.pairs.filter fun k => !t.wire.isDone k).toFinset := by
    intro k' hk'
    have hmem := AList.mem_keys.2 (List.mem_toFinset.1 hk')
    rcases h.ongoing k' hmem with hopen | hpair
    · refine Finset.mem_union_left _ (Finset.mem_erase.2 ⟨?_, hopen⟩)
      rintro rfl
      exact hk hmem
    · refine Finset.mem_union_right _ (List.mem_toFinset.2 (List.mem_filter.2 ⟨hpair, ?_⟩))
      rw [Bool.not_eq_true', Wire.isDone_eq_false]
      exact fun _ => hmem
  have hle := (Finset.card_le_card hsub).trans (Finset.card_union_le _ _)
  rw [List.toFinset_card_of_nodup (AList.keys_nodup _)] at hle
  have hpending := List.toFinset_card_le (v.pairs.filter fun k => !t.wire.isDone k)
  rw [← List.countP_eq_length_filter] at hpending
  have hlt := Finset.card_lt_card (Finset.erase_ssubset (Finset.mem_insert_self k v.opened))
  rw [Finset.erase_insert_eq_erase] at hlt
  have hsize : t.wire.ongoingProcedures.size = t.wire.ongoingProcedures.keys.length := rfl
  rw [h.limit, hsize] at hmax
  rw [Asked.pending] at hcard
  omega

/-- What a message of a call leaves as it is. -/
private theorem receiveCall_keeps (h : t.Attends y services registered max v)
    (hroom : t.Begins p c → t.interface.messages.size < 2 ^ w.bits) (tm : Terminator) (bytes : List UInt8) :
    let t' := ((receiveCall p c tm bytes).run t).state
    t'.InCustody y ∧ t'.wire.terminated = false ∧ t'.wire.maxOngoingProcedures.toNat = max ∧
      (∀ q, registered q → t'.interface.procedures.lookup q = some (services q)) ∧
      ∀ k, k ≠ (p, c) → registered k.1 → k ∉ v.pairs → t'.Accepts k.1 k.2 (services k.1) (v.gathered k) := by
  have hworks := receiveCall_works h.custody (p := p) (c := c) hroom tm bytes
  have hfollows := receiveCall_calling p c tm bytes t
  refine ⟨hworks.custody, hfollows.passive_of_calling.terminated.trans h.running, ?_, fun q hq => ?_,
    fun k hk hreg hpairs => ?_⟩
  · rw [← h.limit]
    exact congrArg _ hfollows.passive_of_calling.fixed_of_passive.maxOngoingProcedures
  · rw [← h.procedures q hq]
    exact congrArg _ hfollows.1.procedures
  · refine (h.accepts k hreg hpairs).of_works h.custody hworks (fun heq => hk ?_) hfollows.1.procedures
    have hkey : (k.1, k.2, t.wire.id) = (p, c, t.wire.id) := Owner.args.inj heq
    have hfst : k.1 = p := congrArg Prod.fst hkey
    have hsnd : k.2 = c := congrArg (fun key => key.2.1) hkey
    exact Prod.ext hfst hsnd

/-- A piece of a call that does not end it. -/
theorem piece (h : t.Attends y services registered max v)
    (hroom : t.Begins p c → t.interface.messages.size < 2 ^ w.bits) (hreg : registered p) (hpairs : (p, c) ∉ v.pairs)
    (hcard : (insert (p, c) v.opened).card + v.pending t.wire.isDone ≤ max) {tm : Terminator} (htm : tm ≠ .complete)
    (bytes : List UInt8) :
    ∃ t', (receiveCall p c tm bytes).run t = .ok (some false) t' ∧
      t'.Attends y services registered max (v.more (p, c) bytes) ∧
      ∀ k, t.wire.isDone k = true → t'.wire.isDone k = true := by
  obtain ⟨t', hr, hwire, hself⟩ := (h.accepts (p, c) hreg hpairs).piece (h.not_rejects hcard) htm bytes
  obtain ⟨hcustody, hrunning, hmax, hprocedures, hothers⟩ := h.receiveCall_keeps (p := p) (c := c) hroom tm bytes
  rw [hr] at hcustody hrunning hmax hprocedures hothers
  have hexec : t'.wire.executed = t.wire.executed := by
    rw [hwire]
    rfl
  refine ⟨t', hr, ⟨hcustody, hrunning, hmax, hprocedures, hexec.trans h.executed, h.succeeds, fun k hk => ?_,
    fun k hk hpk => ?_⟩, fun k hk => Wire.isDone_mono (hexec ▸ List.prefix_refl _) (fun k hmem hdone => ?_) hk⟩
  · rw [hwire] at hk
    rcases (AList.mem_insert _).1 hk with rfl | hk
    · exact .inl (Finset.mem_insert_self _ _)
    · exact (h.ongoing k hk).imp_left Finset.mem_insert_of_mem
  · by_cases hkk : k = (p, c)
    · subst hkk
      rw [Asked.gathered_more_self]
      exact hself
    · rw [Asked.gathered_more_ne hkk]
      exact hothers k hkk hk hpk
  · rw [hwire] at hmem
    refine ((AList.mem_insert _).1 hmem).resolve_left fun heq => hpairs ?_
    exact h.mem_executed.1 (heq ▸ hdone)

/-- The last piece of a call. -/
theorem ends (h : t.Attends y services registered max v)
    (hroom : t.Begins p c → t.interface.messages.size < 2 ^ w.bits) (hreg : registered p) (hpairs : (p, c) ∉ v.pairs)
    (hcard : (insert (p, c) v.opened).card + v.pending t.wire.isDone ≤ max) {bytes : List UInt8}
    (hok : (services p).Succeeds (v.gathered (p, c) ++ bytes)) :
    ∃ t', (receiveCall p c .complete bytes).run t = .ok (some true) t' ∧
      t'.Attends y services registered max (v.last (p, c) bytes) ∧
      ∀ k, t.wire.isDone k = true → t'.wire.isDone k = true := by
  obtain ⟨i, hr⟩ := (h.accepts (p, c) hreg hpairs).complete (h.not_rejects hcard) bytes
  obtain ⟨hcustody, hrunning, hmax, hprocedures, hothers⟩ := h.receiveCall_keeps (p := p) (c := c) hroom .complete bytes
  rw [served_ok hok.returns] at hr
  rw [hr] at hcustody hrunning hmax hprocedures hothers
  have hexec := Wire.serve_executed (t.admitCall p c).wire p c (services p) (v.gathered (p, c) ++ bytes)
  -- only the call itself may become ongoing, and what is ongoing of the others stays
  have hongoing : ∀ k ∈ ((t.admitCall p c).wire.serve p c (services p) (v.gathered (p, c) ++ bytes)).ongoingProcedures,
      k ≠ (p, c) → k ∈ t.wire.ongoingProcedures := by
    intro k hk hne
    have hother : k ∈ Wire.others p c (t.admitCall p c).wire := by
      rw [← Wire.serve_others _ p c (services p) (v.gathered (p, c) ++ bytes)]
      exact ⟨hk, hne⟩
    exact ((AList.mem_insert _).1 hother.1).resolve_left hne
  refine ⟨_, hr, ⟨hcustody, hrunning, hmax, hprocedures, ?_, fun e he => ?_, fun k hk => ?_, fun k hk hpk => ?_⟩,
    fun k hk => Wire.isDone_mono ?_ (fun k hmem hdone => ?_) hk⟩
  · refine hexec.trans ?_
    exact congrArg (· ++ _) h.executed
  · rcases List.mem_append.1 he with he | he
    · exact h.succeeds e he
    · rw [List.mem_singleton.1 he]
      exact hok
  · by_cases hkk : k = (p, c)
    · exact .inr (Asked.mem_pairs_last.2 (.inr hkk))
    · refine (h.ongoing k (hongoing k hk hkk)).imp (fun hopen => ?_) fun hpair => Asked.mem_pairs_last.2 (.inl hpair)
      exact Finset.mem_erase.2 ⟨hkk, hopen⟩
  · rw [Asked.mem_pairs_last, not_or] at hpk
    exact hothers k hpk.2 hk hpk.1
  · exact hexec.symm ▸ List.prefix_append _ _
  · refine hongoing k hmem fun heq => hpairs ?_
    exact h.mem_executed.1 (heq ▸ hdone)

/-- A message that the sender's view allows. -/
theorem receives (h : t.Attends y services registered max v) {m : Message w} (hroom : t.RoomFor m.incoming)
    (hm : Asked.Admissible services registered max t.wire.isDone v m) :
    ∃ b t', (receive m.incoming).run t = .ok b t' ∧ t'.Attends y services registered max (v.recv m) ∧
      ∀ k, t.wire.isDone k = true → t'.wire.isDone k = true := by
  cases m with
  | call p c tm bytes =>
    obtain ⟨hreg, hpairs, hcard, hok⟩ := hm
    rw [Asked.recv]
    split
    · rename_i htm
      subst htm
      obtain ⟨t', hr, h'⟩ := h.ends hroom hreg hpairs hcard (hok rfl)
      exact ⟨_, t', hr, h'⟩
    · rename_i htm
      obtain ⟨t', hr, h'⟩ := h.piece hroom hreg hpairs hcard htm bytes.val
      exact ⟨_, t', hr, h'⟩
  | endOfInput => exact ⟨_, t, rfl, h, fun _ hk => hk⟩
  | response => cases hm
  | termination => cases hm

/-- Only the interface and what the wire has received matter, and ongoing calls may become fewer. -/
theorem congr (h : t.Attends y services registered max v) (hi : t'.interface = t.interface)
    (hw : t'.wire.calling = t.wire.calling) (hexec : t'.wire.executed = t.wire.executed)
    (hongoing : ∀ k ∈ t'.wire.ongoingProcedures, k ∈ t.wire.ongoingProcedures) :
    t'.Attends y services registered max v := by
  have hid : t'.wire.id = t.wire.id := congrArg (fun x => x.1.1.1) hw
  have hidle : t'.wire.idleCallHandles = t.wire.idleCallHandles := congrArg (fun x => x.1.2.2.2) hw
  have hlimit : t'.wire.maxOngoingProcedures = t.wire.maxOngoingProcedures := congrArg (fun x => x.1.1.2.2) hw
  have hterm : t'.wire.terminated = t.wire.terminated := congrArg (fun x => x.1.2.1) hw
  refine ⟨h.custody.congr hi (congrArg Prod.snd hw) hidle, hterm.trans h.running, ?_, hi ▸ h.procedures,
    hexec.trans h.executed, h.succeeds, fun k hk => h.ongoing k (hongoing k hk),
    fun k hk hpk => (h.accepts k hk hpk).congr hi hid⟩
  rw [hlimit]
  exact h.limit

end Attends

end Site

end Ipfi
