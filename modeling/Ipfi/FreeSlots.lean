import Ipfi.EachWire
import Ipfi.Gathering
import Ipfi.Slots

/-!
# Slots are freed

A pair stays in `ongoing_procedures` only while its arguments accumulate or an execution of it runs, so that a peer with
fewer unfinished calls than the limit has no call discarded.  What breaks this is a call that is accepted to its end and
finds no procedure, or one whose procedure fails.
-/

namespace Ipfi

variable {w : IntFeature}

/-- Called on the arguments, the procedure responds or goes on running: it does not fail, or it has ended its response
before it did. -/
def Procedure.Finishes (procedure : Procedure w) (args : List UInt8) : Prop :=
  match procedure with
  | .standard closure => ∃ ret, closure args = .ok ret
  | .streaming closure => (closure args).1 = .ok () ∨ ∃ y ∈ (closure args).2, y.2 = .complete

/-- Only the pair of the execution that is finished can leave the running ones. -/
theorem Execution.mem_running_modify {es : List (Execution w)} {e : Nat} {k : ProcedureIndex w × CallIndex w}
    (hk : k ∈ running es) (hne : ∀ a, es[e]? = some a → a.pair ≠ k) : k ∈ running (es.modify e finish) := by
  induction es generalizing e with
  | nil => cases hk
  | cons b es ih =>
    rw [running_cons] at hk
    cases e with
    | zero =>
      rw [List.modify_zero_cons, running_cons, if_pos (show b.finish.finished = true from rfl)]
      split at hk
      · exact hk
      · exact (List.mem_cons.1 hk).resolve_left fun heq => hne b rfl heq.symm
    | succ e =>
      rw [List.modify_succ_cons, running_cons]
      split at hk
      · rw [if_pos ‹_›]
        exact ih hk hne
      · rw [if_neg ‹_›, List.mem_cons]
        exact (List.mem_cons.1 hk).imp_right fun hk => ih hk hne

namespace Wire

variable {x x' : Wire w} {p : ProcedureIndex w} {c : CallIndex w} {k : ProcedureIndex w × CallIndex w} {e : Nat}
  {procedure : Procedure w} {args : List UInt8}

/-- The execution `e`, if there is one, is one of the pair. -/
def Runs (x : Wire w) (p : ProcedureIndex w) (c : CallIndex w) (e : Nat) : Prop :=
  ∀ a, x.executions[e]? = some a → a.pair = (p, c)

/-- What the execution `e` of the pair does to the wire ends no execution of another pair. -/
def EndsOnly (p : ProcedureIndex w) (c : CallIndex w) (e : Nat) (x x' : Wire w) : Prop :=
  x.Runs p c e → x'.Runs p c e ∧ ∀ k, k ≠ (p, c) → k ∈ x.running → k ∈ x'.running

instance (p : ProcedureIndex w) (c : CallIndex w) (e : Nat) : IsPreorder (Wire w) (EndsOnly p c e) where
  refl _ h := ⟨h, fun _ _ hk => hk⟩
  trans _ _ _ h h' hx := ⟨(h' (h hx).1).1, fun k hne hk => (h' (h hx).1).2 k hne ((h hx).2 k hne hk)⟩

theorem finishExecution_endsOnly (x : Wire w) (p : ProcedureIndex w) (c : CallIndex w) (e : Nat) :
    EndsOnly p c e x (x.finishExecution e) := by
  refine fun hruns => ⟨fun a ha => ?_, fun k hne hk => ?_⟩
  · obtain ⟨b, hb, rfl⟩ := Option.map_eq_some_iff.1 ((List.getElem?_modify_eq _ _ _).symm.trans ha)
    exact hruns b hb
  · exact Execution.mem_running_modify hk fun a ha => by rw [hruns a ha]; exact hne.symm

theorem yielder_endsOnly (p : ProcedureIndex w) (c : CallIndex w) (e : Nat) (bytes : Payload) (t : Terminator) :
    (yielder p c e bytes t).Within (EndsOnly p c e) :=
  yielder_within p c e bytes t (fun x _ => refl_of (EndsOnly p c e) x) (fun x => refl_of (EndsOnly p c e) x)
    fun x => finishExecution_endsOnly x p c e

/-- No yield makes a pair ongoing. -/
private theorem runYields_notMem (e : Nat) (ys : List Yield) (hk : k ∉ x.ongoingProcedures) :
    k ∉ (Site.runYields (yielder p c e) ys x).ongoingProcedures := by
  induction ys generalizing x with
  | nil => exact hk
  | cons y ys ih =>
    rw [Site.runYields_cons, yielder_run]
    apply ih
    split
    · exact hk
    · split
      · exact fun hm => hk (AList.mem_erase.1 hm).2
      · exact hk

/-- The end of a response takes its pair off the ongoing ones. -/
private theorem runYields_complete (e : Nat) {ys : List Yield} (hx : x.terminated = false)
    (hys : ∃ y ∈ ys, y.2 = .complete) : (p, c) ∉ (Site.runYields (yielder p c e) ys x).ongoingProcedures := by
  induction ys generalizing x with
  | nil => simp at hys
  | cons y ys ih =>
    have hrun := yielder_run x p c e y.1 y.2
    rw [hx, if_neg Bool.false_ne_true] at hrun
    rw [Site.runYields_cons, hrun]
    split
    · exact runYields_notMem e ys fun hm => (AList.mem_erase.1 hm).1 rfl
    · refine ih hx ?_
      obtain ⟨y', hy', hcomplete⟩ := hys
      rcases List.mem_cons.1 hy' with rfl | hy'
      · contradiction
      · exact ⟨y', hy', hcomplete⟩

/-- Yields that do not end the response finish no execution. -/
private theorem runYields_executions (e : Nat) {ys : List Yield} (hys : ∀ y ∈ ys, y.2 ≠ .complete) :
    (Site.runYields (yielder p c e) ys x).executions = x.executions := by
  induction ys generalizing x with
  | nil => rfl
  | cons y ys ih =>
    rw [Site.runYields_cons, ih fun y' hy' => hys y' (by simp [hy']), yielder_run, if_neg (hys y (by simp))]
    split <;> rfl

/-- After a yield that leaves its pair ongoing, the executions are those before it. -/
theorem yielder_executions {bytes : Payload} {t : Terminator}
    (hk : (p, c) ∈ ((yielder p c e bytes t).run x).state.ongoingProcedures) :
    (p, c) ∈ x.ongoingProcedures ∧ ((yielder p c e bytes t).run x).state.executions = x.executions := by
  revert hk
  rw [yielder_run]
  split
  · exact fun hk => ⟨hk, rfl⟩
  · split
    · exact fun hk => absurd rfl (AList.mem_erase.1 hk).1
    · exact fun hk => ⟨hk, rfl⟩

/-- Calling a procedure ends no execution of another pair. -/
theorem serve_running (hk : k ∈ x.running) (hne : k ≠ (p, c)) (procedure : Procedure w) (args : List UInt8) :
    k ∈ (x.serve p c procedure args).running := by
  have hrecord : ∀ str fin, k ∈ (x.recordExecution ⟨p, c, args, str, fin⟩).running := by
    intro str fin
    simp only [running, recordExecution, Execution.running_append, List.mem_append]
    exact .inl hk
  cases procedure with
  | standard closure =>
    simp only [serve]
    split <;> exact hrecord false true
  | streaming closure =>
    have hruns : (x.recordExecution ⟨p, c, args, true, false⟩).Runs p c x.executions.length := by
      intro a ha
      simp only [recordExecution, List.getElem?_concat_length] at ha
      cases ha
      rfl
    have hyields := Site.runYields_within (yielder_endsOnly p c x.executions.length) (closure args).2 _ hruns
    simp only [serve]
    split
    · exact hyields.2 k hne (hrecord true false)
    · exact (finishExecution_endsOnly _ p c _ hyields.1).2 k hne (hyields.2 k hne (hrecord true false))

/-- Once a procedure that finishes has been called, its pair is ongoing only as long as it runs. -/
theorem serve_finishes (hx : x.terminated = false) (hfin : procedure.Finishes args)
    (hmem : (p, c) ∈ (x.serve p c procedure args).ongoingProcedures) :
    (p, c) ∈ (x.serve p c procedure args).running := by
  cases procedure with
  | standard closure =>
    obtain ⟨ret, hret⟩ := hfin
    simp only [serve, hret] at hmem
    exact absurd rfl (AList.mem_erase.1 hmem).1
  | streaming closure =>
    by_cases hys : ∃ y ∈ (closure args).2, y.2 = .complete
    · have hnot := runYields_complete (p := p) (c := c) (x := x.recordExecution ⟨p, c, args, true, false⟩)
        x.executions.length hx hys
      simp only [serve] at hmem
      split at hmem <;> exact absurd hmem hnot
    · have hex := runYields_executions (p := p) (c := c) (x := x.recordExecution ⟨p, c, args, true, false⟩)
        x.executions.length (fun y hy hc => hys ⟨y, hy, hc⟩)
      simp only [serve, hfin.resolve_right hys, running]
      rw [hex]
      simp [recordExecution, Execution.running, Execution.pair]

end Wire

/-! ### One wire -/

/-- Every argument buffer holds one chunk and can be written to. -/
def Interface.GathersArgs (i : Interface w) : Prop :=
  ∀ key b, i.callToBufferMap.lookup key = some b → ∃ acc, Site.Gathers i b acc

namespace Site

variable {s : Site w} {x : Surroundings w} {p : ProcedureIndex w} {c : CallIndex w} {t : Terminator}
  {bytes acc : List UInt8} {a : ServeAction w}

/-- What the messages of the call have brought so far. -/
def gatheredArgs (s : Site w) (p : ProcedureIndex w) (c : CallIndex w) : List UInt8 :=
  (do
    let b ← s.interface.callToBufferMap.lookup (p, c, s.wire.id)
    let m ← s.interface.messages.lookup b
    m.chunks.head?).getD []

theorem Holds.gatheredArgs_eq (h : s.Holds p c acc) : s.gatheredArgs p c = acc := by
  unfold Holds at h
  unfold gatheredArgs
  split at h
  · rename_i b hb
    obtain ⟨m, hm, -, hc⟩ := h
    simp [hb, hm, hc]
  · rename_i hb
    simp [hb, h]

/-- The last message of the call, with the given bytes, finds a procedure that finishes on all that was gathered. -/
def EndsCall (s : Site w) (p : ProcedureIndex w) (c : CallIndex w) (bytes : List UInt8) : Prop :=
  s.Unstreamed p c ∧ ∃ procedure, s.interface.procedures.lookup p = some procedure ∧
    procedure.Finishes (s.gatheredArgs p c ++ bytes)

/-- Every ongoing pair has arguments that accumulate or an execution that runs. -/
def Occupied (s : Site w) : Prop :=
  ∀ k ∈ s.wire.ongoingProcedures, s.HasBuffer k ∨ k ∈ s.wire.running

/-- The calls of the wire that have not ended. -/
def unfinished (s : Site w) : List (ProcedureIndex w × CallIndex w) := (s.accumulating ++ s.wire.running).dedup

theorem mem_accumulating {k : ProcedureIndex w × CallIndex w} : k ∈ s.accumulating ↔ s.HasBuffer k := by
  simp only [accumulating, HasBuffer, List.mem_map, List.mem_filter, decide_eq_true_eq]
  constructor
  · rintro ⟨⟨p, c, id⟩, ⟨hmem, rfl⟩, rfl⟩
    exact AList.mem_keys.2 hmem
  · exact fun h => ⟨(k.1, k.2, s.wire.id), ⟨AList.mem_keys.1 h, rfl⟩, rfl⟩

/-- A wire with fewer unfinished calls than its limit discards none. -/
theorem Occupied.not_rejects (h : s.Occupied) (hlt : s.unfinished.length < s.wire.maxOngoingProcedures.toNat)
    (p : ProcedureIndex w) (c : CallIndex w) : ¬ s.Rejects p c := by
  rintro ⟨-, hfull⟩
  have hsub : s.wire.ongoingProcedures.keys ⊆ s.unfinished := by
    intro k hk
    rw [unfinished, List.mem_dedup, List.mem_append, mem_accumulating]
    exact h k (AList.mem_keys.2 hk)
  have hle := (List.subperm_of_subset s.wire.ongoingProcedures.keys_nodup hsub).length_le
  have hsize : s.wire.ongoingProcedures.size = s.wire.ongoingProcedures.keys.length := by
    simp [AList.size, AList.keys, List.keys]
  omega

/-- What does not touch the calls of the wire keeps its ongoing pairs occupied. -/
theorem Occupied.of_serving {s' : Site w} (h : s.Occupied) (hserving : Wire.serving s'.wire = Wire.serving s.wire)
    (hlook : ∀ p c, s'.interface.callToBufferMap.lookup (p, c, s.wire.id) =
      s.interface.callToBufferMap.lookup (p, c, s.wire.id)) : s'.Occupied := by
  have hid : s'.wire.id = s.wire.id := congrArg (fun y => y.1.1) hserving
  have hongoing : s'.wire.ongoingProcedures = s.wire.ongoingProcedures := congrArg (fun y => y.2.2.1) hserving
  have hexecutions : s'.wire.executions = s.wire.executions := congrArg (fun y => y.2.2.2) hserving
  have hrunning : s'.wire.running = s.wire.running := congrArg Execution.running hexecutions
  intro k hk
  rw [hongoing] at hk
  refine (h k hk).imp (fun hb => ?_) fun hrun => hrunning ▸ hrun
  rw [HasBuffer, hid, ← AList.lookup_isSome, hlook]
  exact AList.lookup_isSome.2 hb

/-- The argument buffers of other calls stay on the map. -/
theorem HasBuffer.receiveCall_ne {k : ProcedureIndex w × CallIndex w} (h : s.HasBuffer k) (hne : k ≠ (p, c))
    (hcustody : s.InCustody x) (hroom : s.Begins p c → s.interface.messages.size < 2 ^ w.bits) (t : Terminator)
    (bytes : List UInt8) : ((receiveCall p c t bytes).run s).state.HasBuffer k := by
  have hworks := receiveCall_works hcustody hroom t bytes
  have hkey : Owner.args (k.1, k.2, s.wire.id) ≠ .args (p, c, s.wire.id) := by
    intro heq
    have hargs := Owner.args.inj heq
    simp only [Prod.mk.injEq, and_true] at hargs
    exact hne (Prod.ext hargs.1 hargs.2)
  rw [HasBuffer, hworks.id, ← AList.lookup_isSome]
  exact (congrArg Option.isSome (hworks.own hkey)).trans (AList.lookup_isSome.2 h)

/-- A message that does not end its call leaves it with its argument buffer. -/
theorem receiveCall_hasBuffer (hcustody : s.InCustody x)
    (hroom : s.Begins p c → s.interface.messages.size < 2 ^ w.bits) (hrej : ¬ s.Rejects p c) (ht : t ≠ .complete)
    (bytes : List UInt8) :
    ((receiveCall p c t bytes).run s).state.wire = (s.admitCall p c).wire ∧
      ((receiveCall p c t bytes).run s).state.HasBuffer (p, c) := by
  obtain ⟨i, hr, he, -⟩ :=
    receiveCall_continue hcustody.wellFormed (fun hnew => hroom ⟨hrej, hnew⟩)
      (fun b hb => hcustody.args_open hb) hrej ht bytes
  rw [hr]
  refine ⟨rfl, ?_⟩
  have hlook : i.callToBufferMap.lookup (p, c, s.wire.id) = some (s.bufferOf p c) := by
    rw [he.steady.calls, lookup_admitCall, if_pos rfl]
  exact AList.mem_of_lookup hlook

/-- Receiving a call keeps the ongoing pairs occupied. -/
theorem Occupied.receiveCall (h : s.Occupied) (hcustody : s.InCustody x)
    (hroom : s.Begins p c → s.interface.messages.size < 2 ^ w.bits) (hrun : s.wire.terminated = false)
    (hh : s.Holds p c acc)
    (hends : t = .complete → ¬ s.Rejects p c → s.EndsCall p c bytes) :
    ((Site.receiveCall p c t bytes).run s).state.Occupied := by
  by_cases hrej : s.Rejects p c
  · rw [receiveCall_run, if_pos hrej]
    exact h
  have hold : ∀ {k}, k ∈ (s.admitCall p c).wire.ongoingProcedures → k ≠ (p, c) →
      s.HasBuffer k ∨ k ∈ (s.admitCall p c).wire.running :=
    fun hk hne => h _ (((AList.mem_insert _).1 hk).resolve_left hne)
  intro k hk
  by_cases ht : t = .complete
  · subst ht
    obtain ⟨hun, procedure, hp, hfin⟩ := hends rfl hrej
    rw [hh.gatheredArgs_eq] at hfin
    obtain ⟨i, -, hr⟩ := receiveCall_served hcustody.wellFormed (fun hnew => hroom ⟨hrej, hnew⟩) hrej hp hh hun bytes
    have hwire : ((Site.receiveCall p c .complete bytes).run s).state.wire =
        (s.admitCall p c).wire.serve p c procedure (acc ++ bytes) := by rw [hr]
    by_cases hkpc : k = (p, c)
    · subst hkpc
      rw [hwire] at hk ⊢
      exact .inr (Wire.serve_finishes hrun hfin hk)
    · have hothers : k ∈ Wire.others p c (s.admitCall p c).wire := by
        rw [← Wire.serve_others _ p c procedure (acc ++ bytes), ← hwire]
        exact ⟨hk, hkpc⟩
      refine (hold hothers.1 hkpc).imp (fun hb => hb.receiveCall_ne hkpc hcustody hroom .complete bytes) fun hk' => ?_
      rw [hwire]
      exact Wire.serve_running hk' hkpc procedure _
  · obtain ⟨hwire, hbuf⟩ := receiveCall_hasBuffer hcustody hroom hrej ht bytes
    by_cases hkpc : k = (p, c)
    · exact .inl (hkpc ▸ hbuf)
    · rw [hwire] at hk
      refine (hold hk hkpc).imp (fun hb => hb.receiveCall_ne hkpc hcustody hroom t bytes) fun hk' => ?_
      rw [hwire]
      exact hk'

/-- An execution that yields ends no call of another pair. -/
theorem Occupied.yield (h : s.Occupied) {e : Nat} {fin : Bool} {args : List UInt8}
    (hex : s.wire.executions[e]? = some ⟨p, c, args, true, fin⟩) (bytes : Payload) (t : Terminator) :
    Occupied { s with wire := ((Wire.yielder p c e bytes t).run s.wire).state } := by
  have hruns : s.wire.Runs p c e := fun a ha => by
    obtain rfl := Option.some.inj (hex.symm.trans ha)
    rfl
  have hid : ((Wire.yielder p c e bytes t).run s.wire).state.id = s.wire.id :=
    congrArg (fun y => y.1.1.1) (yielder_calling p c e bytes t s.wire)
  have hbuf : ∀ {k : ProcedureIndex w × CallIndex w}, s.HasBuffer k →
      HasBuffer { s with wire := ((Wire.yielder p c e bytes t).run s.wire).state } k := by
    intro k hk
    rw [HasBuffer, hid]
    exact hk
  intro k hk
  by_cases hkpc : k = (p, c)
  · subst hkpc
    obtain ⟨hk', hexecutions⟩ := Wire.yielder_executions hk
    refine (h _ hk').imp hbuf fun hrun => ?_
    show _ ∈ Execution.running _
    rw [hexecutions]
    exact hrun
  · have hothers : k ∈ Wire.others p c s.wire := by
      rw [← show _ = _ from Wire.yielder_others p c e bytes t s.wire]
      exact ⟨hk, hkpc⟩
    exact (h k hothers.1).imp hbuf fun hk' => (Wire.yielder_endsOnly p c e bytes t s.wire hruns).2 k hkpc hk'

/-! ### What is gathered -/

/-- Whatever step keeps the argument buffers that stay on the map keeps what they hold. -/
theorem GathersArgs.of_stays {i i' : Interface w} (h : i.GathersArgs)
    (hstays : ∀ key b, i'.callToBufferMap.lookup key = some b → i.callToBufferMap.lookup key = some b ∧
      Interface.Stays i i' b) : i'.GathersArgs := by
  intro key b hb
  obtain ⟨hb', hstay⟩ := hstays key b hb
  exact (h key b hb').imp fun _ hg => hg.stays hstay

theorem GathersArgs.holds (h : s.interface.GathersArgs) (p : ProcedureIndex w) (c : CallIndex w) :
    ∃ acc, s.Holds p c acc := by
  unfold Holds
  split
  · exact h _ _ ‹_›
  · exact ⟨[], rfl⟩

theorem GathersArgs.receiveCall (h : s.interface.GathersArgs) (hcustody : s.InCustody x)
    (hroom : s.Begins p c → s.interface.messages.size < 2 ^ w.bits) (t : Terminator) (bytes : List UInt8) :
    ((receiveCall p c t bytes).run s).state.interface.GathersArgs := by
  have hworks := receiveCall_works hcustody hroom t bytes
  intro key b hb
  by_cases hkey : key = (p, c, s.wire.id)
  · subst hkey
    obtain ⟨acc, hacc⟩ : ∃ acc, ((Site.receiveCall p c t bytes).run s).state.Holds p c acc := by
      by_cases hrej : s.Rejects p c
      · rw [receiveCall_run, if_pos hrej]
        exact GathersArgs.holds h p c
      · obtain ⟨acc, hacc⟩ := GathersArgs.holds h p c
        exact ⟨_, receiveCall_holds hcustody hroom hrej (fun _ => hacc) bytes⟩
    unfold Holds at hacc
    rw [hworks.id, hb] at hacc
    exact ⟨acc, hacc⟩
  · have hne : Owner.args key ≠ .args (p, c, s.wire.id) := fun heq => hkey (Owner.args.inj heq)
    have hb' : s.interface.callToBufferMap.lookup key = some b := (hworks.own hne).symm.trans hb
    exact (h key b hb').imp fun _ hg => hg.stays (hworks.same hne hb').stays

theorem GathersArgs.markTerminated (h : s.interface.GathersArgs) (hcustody : s.InCustody x) :
    s.markTerminated.interface.GathersArgs := by
  refine GathersArgs.of_stays h fun key b hb => ?_
  rw [lookup_markTerminated] at hb
  split at hb
  · cases hb
  · rename_i hnot
    refine ⟨hb, (markTerminated_same hcustody (o := .args key) hb ?_ fun _ => nofun).stays⟩
    rintro ⟨call, hcall, hb'⟩
    have heq := Owner.args.inj (hcustody.inj (o := .args key) hb hb')
    exact hnot ⟨by rw [heq]; exact hcall, by rw [heq]⟩

theorem GathersArgs.serveStep (h : s.interface.GathersArgs) (hcustody : s.InCustody x)
    (hroom : ∀ m, a.message? s = some m → s.RoomFor m) : (s.serveStep a).interface.GathersArgs := by
  have hboth : (s.serveStep a).InCustody x ∧ (s.serveStep a).interface.GathersArgs := by
    refine serveStep_invariant (I := fun s => s.InCustody x ∧ s.interface.GathersArgs) (fun _ => ⟨hcustody, h⟩)
      (fun p c t bytes hm => ?_) (fun p c t bytes _ => ?_) (fun s' hs' => ?_) fun e p c args f bytes t _ _ => ?_
    · exact ⟨(receiveCall_works hcustody (hroom _ hm) t bytes).custody,
        GathersArgs.receiveCall h hcustody (hroom _ hm) t bytes⟩
    · have hworks := receiveResponse_works hcustody p c t bytes
      refine ⟨hworks.custody, GathersArgs.of_stays h fun key b hb => ?_⟩
      have hne : Owner.args key ≠ .response x.position (p, c) := nofun
      have hb' : s.interface.callToBufferMap.lookup key = some b := (hworks.own hne).symm.trans hb
      exact ⟨hb', (hworks.same hne hb').stays⟩
    · exact ⟨(markTerminated_confines hs'.1).custody, GathersArgs.markTerminated hs'.2 hs'.1⟩
    · have hcalling := yielder_calling p c e bytes t s.wire
      exact ⟨hcustody.congr rfl (congrArg Prod.snd hcalling) (congrArg (fun y => y.1.2.2.2) hcalling), h⟩
  exact hboth.2

/-- Serving keeps the ongoing pairs of a running wire occupied. -/
theorem Occupied.serveStep (h : s.wire.terminated = false → s.Occupied) (hcustody : s.InCustody x)
    (hroom : ∀ m, a.message? s = some m → s.RoomFor m) (hgathers : s.interface.GathersArgs)
    (hends : ∀ p c bytes, a.message? s = some (.call p c .complete bytes) → ¬ s.Rejects p c → s.EndsCall p c bytes)
    (hrun : (s.serveStep a).wire.terminated = false) : (s.serveStep a).Occupied := by
  revert hrun
  refine serveStep_invariant (I := fun s => s.wire.terminated = false → s.Occupied) (fun _ => h)
    (fun p c t bytes hm _ => ?_) (fun p c t bytes hm _ => ?_) (fun s' _ hrun => by cases hrun)
    fun e p c args f bytes t _ hex hrun => ?_
  · have hrun := ServeAction.running_of_message? hm
    obtain ⟨acc, hacc⟩ := GathersArgs.holds hgathers p c
    refine (h hrun).receiveCall hcustody (hroom _ hm) hrun hacc fun ht => ?_
    subst ht
    exact hends p c bytes hm
  · refine (h (ServeAction.running_of_message? hm)).of_serving
      (receiveResponse_answering p c t bytes s).serving_of_answering.2 fun p' c' => ?_
    exact (receiveResponse_works hcustody p c t bytes).own (o := .args (p', c', s.wire.id)) nofun
  · have hterm : ((Wire.yielder p c e bytes t).run s.wire).state.terminated = s.wire.terminated :=
      congrArg (fun y => y.1.2.1) (yielder_calling p c e bytes t s.wire)
    exact (h (hterm.symm.trans hrun)).yield hex bytes t

end Site

namespace World

variable {s : World w} {held : Nat → LockRef → Prop} {k : Nat} {t t' : Site w} {checks : Bool} {a : Action w}

/-- Every argument buffer is as its wire left it, whatever anybody does on the interface. -/
theorem gathersArgs_step (h : s.interface.GathersArgs) (hcustody : s.InCustody held) (hroom : s.RoomFor a) :
    (s.step checks a).interface.GathersArgs := by
  have hsite : ∀ {k t}, s.site? k = some t → t.interface.GathersArgs := fun ht => (wire?_of_site? ht).2.symm ▸ h
  have hshape := step_shape checks s a
  generalize s.step checks a = s' at hshape
  cases hshape with
  | addProcedure p procedure => exact h
  | newWire moduleStyle max => exact h
  | cloneWire k hlive => exact h
  | dropWire k t hlive ht =>
    rw [dropWire_eq ht]
    exact Site.GathersArgs.markTerminated (hsite ht) (hcustody.site ht)
  | dropReceiver n rx handles => exact h
  | handles a handles _ => exact h
  | move a k t t' handles _ ht hm =>
    have hstays := (hm.keepsCustody (fun hcalls => hroom.calls hcalls ht) (hcustody.site ht)).2
    refine Site.GathersArgs.of_stays (hsite ht) fun key b hb => ⟨?_, hstays b⟩
    rw [← hm.serving.1.calls]
    exact hb
  | serve a k b t _ ht hin =>
    exact Site.GathersArgs.serveStep (hsite ht) (hcustody.site ht) (hroom.serves hin ht)

/-- A step at which wires are dropped with their last clone only, and at which every call that a wire accepts to its end
finds a procedure that finishes. -/
structure FreesSlots (s : World w) (a : Action w) : Prop where
  dropsWhole : s.DropsWhole a
  ends : ∀ {k t p c bytes}, s.site? k = some t → s.incoming? a = some (k, .call p c .complete bytes) → ¬ t.Rejects p c →
    t.EndsCall p c bytes

/-- The ongoing pairs of all running wires are occupied. -/
def Occupied (s : World w) : Prop :=
  ∀ k x, s.wire? k = some x → x.terminated = false → Site.Occupied ⟨s.interface, x⟩

theorem Occupied.step (h : s.Occupied) (hgathers : s.interface.GathersArgs) (hcustody : s.InCustody held) (hids : s.Ids)
    (hended : s.Ended) (ha : s.FreesSlots a) : (s.step checks a).Occupied := by
  refine each_step (P := fun _ t => t.wire.terminated = false → t.Occupied)
    (Q := fun _ t => t.wire.terminated = false → t.Occupied) hcustody hids hended ha.dropsWhole.room h ?_ ?_ ?_ ?_
  · intro k t t' _ hocc hserving hargs hrun
    have hterm : t'.wire.terminated = t.wire.terminated := congrArg (fun y => y.2.1) hserving
    rw [hterm] at hrun
    exact (hocc hrun).of_serving hserving fun p c => (hargs hrun p c).1
  · intro k t _ _ hrun
    cases hrun
  · intro k b t hserve ht hin _ hocc
    have hi := (wire?_of_site? ht).2
    refine Site.Occupied.serveStep hocc (hcustody.site ht) (ha.dropsWhole.room.serves hin ht) (hi.symm ▸ hgathers)
      fun p c bytes hm => ha.ends ht ?_
    rw [hin, hm]
    rfl
  · intro moduleStyle max _ _ k hk
    cases hk

/-- In every state that steps lead to at which every call that is accepted to its end finds a procedure that finishes, a
running wire has a pair in `ongoing_procedures` only while its arguments accumulate or an execution of it runs, and
discards no call while its unfinished calls are fewer than the limit. -/
theorem slots_freed (hs : Reaches (step checks) FreesSlots new s) (ht : s.site? k = some t)
    (hrun : t.wire.terminated = false) :
    (∀ call ∈ t.wire.ongoingProcedures, call ∈ t.accumulating ∨ call ∈ t.wire.running) ∧
    (t.unfinished.length < t.wire.maxOngoingProcedures.toNat → ∀ p c, ¬ t.Rejects p c) := by
  have hinv : (s.Occupied ∧ s.interface.GathersArgs) ∧ (s.InCustody (fun _ _ => False) ∧ s.Ids) ∧ s.Ended := by
    refine hs.invariant (I := fun s => (s.Occupied ∧ s.interface.GathersArgs) ∧
      (s.InCustody (fun _ _ => False) ∧ s.Ids) ∧ s.Ended) ⟨⟨?_, ?_⟩, ⟨new_inCustody, new_ids⟩, new_ended⟩ ?_
    · intro k x hx
      simp [wire?, new] at hx
    · intro key b hb
      cases hb
    · rintro s a ⟨⟨hocc, hgathers⟩, ⟨hcustody, hids⟩, hended⟩ ha
      exact ⟨⟨hocc.step hgathers hcustody hids hended ha, gathersArgs_step hgathers hcustody ha.dropsWhole.room⟩,
        ⟨hcustody.step ha.dropsWhole.room, hids.step ha.dropsWhole.dropsLast⟩, hended.step a⟩
  obtain ⟨hx, hi⟩ := wire?_of_site? ht
  have hocc : t.Occupied := by
    have := hinv.1.1 k t.wire hx hrun
    rwa [← hi] at this
  refine ⟨fun call hcall => ?_, hocc.not_rejects⟩
  rw [Site.mem_accumulating]
  exact hocc call hcall

/-- A wire that serves one call at a time, on an interface with a procedure. -/
private def single : World .u32 :=
  (new.step true (.addProcedure ⟨1⟩ (.standard fun _ => .ok .empty))).step true (.newWire false 1)

/-- A whole call of the procedure, with the call index 0. -/
private def callOnce : Action .u32 := .fillStep 0 (Message.call ⟨1⟩ ⟨0⟩ .complete .empty : Message .u32).toBytes

private theorem freesSlots_of_room {s : World .u32} {a : Action .u32} (hroom : s.interface.messages.size < 2 ^ 32)
    (hdrops : s.DropsLast a) (hin : s.incoming? a = none) : s.FreesSlots a :=
  ⟨⟨fun _ => hroom, hdrops⟩, fun _ h => by rw [hin] at h; cases h⟩

private theorem single_reaches : Reaches (step true) FreesSlots new single :=
  .next (.next .start (freesSlots_of_room (by decide) trivial rfl))
    (freesSlots_of_room (by decide +kernel) (by show (_ : Nat) < 2 ^ 32; decide +kernel) rfl)

private theorem callOnce_freesSlots : single.FreesSlots callOnce := by
  refine ⟨⟨fun _ => by show (_ : Nat) < 2 ^ 32; decide +kernel, trivial⟩, fun {k t p c bytes} ht hin _ => ?_⟩
  have hcall : single.incoming? callOnce = some (0, .call ⟨1⟩ ⟨0⟩ .complete []) := by rfl
  cases hcall.symm.trans hin
  obtain rfl := Option.some.inj ((rfl : single.site? 0 = some _).symm.trans ht)
  refine ⟨fun b m ch hb => ?_, .standard fun _ => .ok .empty, rfl, .empty, rfl⟩
  cases hb

/-- The wire once the call has been answered. -/
private def answered : Site .u32 := ((single.step true callOnce).site? 0).get (by decide +kernel)

theorem slots_freed_answered : ¬ answered.Rejects ⟨1⟩ ⟨1⟩ :=
  (slots_freed (.next single_reaches callOnce_freesSlots) (Option.some_get _).symm (by decide +kernel)).2
    (by decide +kernel) ⟨1⟩ ⟨1⟩

/-- On an interface without procedures a call fails with `NoSuchProcedure` and keeps its slot, and the next one is
discarded. -/
theorem not_slots_freed_unregistered :
    ¬ ∀ s : World .u32, Reaches (step true) DropsWhole new s → ∀ k t, s.site? k = some t → t.wire.terminated = false →
      (∀ call ∈ t.wire.ongoingProcedures, call ∈ t.accumulating ∨ call ∈ t.wire.running) ∧
      (t.unfinished.length < t.wire.maxOngoingProcedures.toNat → ∀ p c, ¬ t.Rejects p c) := by
  intro h
  have hrun : Reaches (step true) DropsWhole new ((new.step true (.newWire false 1)).step true callOnce) :=
    .next (.next .start ⟨fun _ => by show (_ : Nat) < 2 ^ 32; decide, by show (_ : Nat) < 2 ^ 32; decide⟩)
      ⟨fun _ => by show (_ : Nat) < 2 ^ 32; decide +kernel, trivial⟩
  obtain ⟨-, hfree⟩ := h _ hrun 0 _ rfl (by decide +kernel)
  exact absurd (by decide +kernel) (hfree (by decide +kernel) ⟨1⟩ ⟨1⟩)

end World

end Ipfi
