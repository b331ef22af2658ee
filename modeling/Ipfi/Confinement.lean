import Ipfi.Custody
import Ipfi.Waiting

/-!
# What a wire does to what others hold

Every operation on a wire keeps custody, whatever else is attached to the interface.  What comes in over the wire, and
its termination, touch no buffer that somebody else holds and no argument buffer of another wire's calls.
-/

namespace Ipfi

variable {w : IntFeature}

open Interface (Evolves Edits Open Same Preserves)

/-- What is attached to an interface besides the wire at `position`: the calls of the other wires, and the locks known
to all handles and to the other wires. -/
structure Surroundings (w : IntFeature) where
  position : Nat
  responses : Nat → ProcedureIndex w × CallIndex w → Option (IpfiInteger w)
  locks : Nat → LockRef → Prop

namespace Site

variable {s s' s'' : Site w} {x : Surroundings w}

def own (s : Site w) (x : Surroundings w) : Owner w → Option (IpfiInteger w)
  | .args key => s.interface.callToBufferMap.lookup key
  | .response k call => if k = x.position then s.wire.responseIdxMap.lookup call else x.responses k call

/-- The locks a wire knows: those of its idle call handles, and what is known around it. -/
def knows (s : Site w) (x : Surroundings w) (k : Nat) (l : LockRef) : Prop :=
  x.locks k l ∨ k = x.position ∧ l ∈ s.wire.idleCallHandles.values

abbrev InCustody (s : Site w) (x : Surroundings w) : Prop := Custody s.interface (s.own x) (s.knows x)

/-- What the wire holds itself. -/
def Mine (s : Site w) (x : Surroundings w) : Owner w → Prop
  | .args key => key.2.2 = s.wire.id
  | .response k _ => k = x.position

/-- A step of the wire that leaves alone what others hold. -/
structure Confines (x : Surroundings w) (s s' : Site w) : Prop where
  custody : s'.InCustody x
  same : ∀ {o b}, s.own x o = some b → ¬ s.Mine x o → Same s.interface s'.interface b
  calls : ∀ {key}, key.2.2 ≠ s.wire.id →
    s'.interface.callToBufferMap.lookup key = s.interface.callToBufferMap.lookup key
  id : s'.wire.id = s.wire.id

/-- A step of the wire on what `o₀` holds and nothing else. -/
structure Works (x : Surroundings w) (o₀ : Owner w) (s s' : Site w) : Prop where
  custody : s'.InCustody x
  own : ∀ {o}, o ≠ o₀ → s'.own x o = s.own x o
  same : ∀ {o b}, o ≠ o₀ → s.own x o = some b → Same s.interface s'.interface b
  id : s'.wire.id = s.wire.id

theorem Works.confines {o₀ : Owner w} (h : Works x o₀ s s') (hmine : s.Mine x o₀) : Confines x s s' where
  custody := h.custody
  same ho hn := h.same (by rintro rfl; exact hn hmine) ho
  calls {key} hkey := by
    have hne : Owner.args key ≠ o₀ := by
      rintro rfl
      exact hkey hmine
    exact h.own hne
  id := h.id

theorem Works.rfl {o₀ : Owner w} (h : s.InCustody x) : Works x o₀ s s :=
  ⟨h, fun _ => Eq.refl _, fun _ _ => Same.rfl, Eq.refl _⟩

theorem Confines.rfl (h : s.InCustody x) : Confines x s s :=
  ⟨h, fun _ _ => Same.rfl, fun _ => Eq.refl _, Eq.refl _⟩

theorem Confines.trans (h : Confines x s s') (h' : Confines x s' s'') : Confines x s s'' where
  custody := h'.custody
  same {o b} ho hmine := by
    refine (h.same ho hmine).trans (h'.same (o := o) ?_ ?_)
    · cases o with
      | args key => exact (h.calls hmine).trans ho
      | response k call => exact (if_neg hmine).trans ((if_neg hmine).symm.trans ho)
    · cases o with
      | args key => exact fun hk => hmine (hk.trans h.id)
      | response k call => exact hmine
  calls hne := (h'.calls (h.id.symm ▸ hne)).trans (h.calls hne)
  id := h'.id.trans h.id

/-- Only the map of argument buffers, the calls of the wire and its handles matter for custody. -/
theorem InCustody.congr {s' : Site w} (h : s.InCustody x) (hi : s'.interface = s.interface)
    (hr : s'.wire.responseIdxMap = s.wire.responseIdxMap) (hh : s'.wire.idleCallHandles = s.wire.idleCallHandles) :
    s'.InCustody x := by
  have hown : s'.own x = s.own x := by
    funext o
    cases o with
    | args key => exact congrArg (fun i : Interface w => i.callToBufferMap.lookup key) hi
    | response k call => simp only [own, hr]
  have hknows : s'.knows x = s.knows x := by
    funext k l
    simp only [knows, hh]
  rw [InCustody, hi, hown, hknows]
  exact h

/-- A new wire on an interface without argument buffers, where nothing else holds a buffer. -/
theorem new_inCustody {i : Interface w} (hi : i.WellFormed) (hcalls : i.callToBufferMap = ∅) (id : WireId w)
    (moduleStyle : Bool) (max : IpfiInteger w) :
    InCustody ⟨i, .new id moduleStyle max⟩ ⟨0, fun _ _ => none, fun _ _ => False⟩ := by
  have hown : ∀ o b, own ⟨i, .new id moduleStyle max⟩ ⟨0, fun _ _ => none, fun _ _ => False⟩ o ≠ some b := by
    intro o b ho
    cases o with
    | args key => simp [own, hcalls] at ho
    | response k call => simp [own, Wire.new] at ho
  have hknows : ∀ k l, ¬ knows ⟨i, .new id moduleStyle max⟩ ⟨0, fun _ _ => none, fun _ _ => False⟩ k l := by
    simp [knows, Wire.new, AList.mem_values]
  exact ⟨hi, fun ho => absurd ho (hown _ _), fun ho => absurd ho (hown _ _), fun hl => absurd hl (hknows _ _),
    fun hl => absurd hl (hknows _ _), fun hl => absurd hl (hknows _ _)⟩

/-! ### Receiving a call -/

variable {p : ProcedureIndex w} {c : CallIndex w} {t : Terminator} {bytes : List UInt8}

theorem InCustody.args_open (h : s.InCustody x) {key : CallKey w} {b : IpfiInteger w}
    (hb : s.interface.callToBufferMap.lookup key = some b) : s.interface.Open b :=
  h.opened (show s.own x (.args key) = some b from hb)

theorem InCustody.response_open (h : s.InCustody x) {call : ProcedureIndex w × CallIndex w} {b : IpfiInteger w}
    (hb : s.wire.responseIdxMap.lookup call = some b) : s.interface.Open b :=
  h.opened (show s.own x (.response x.position call) = some b from (if_pos rfl).trans hb)

/-- A message of the call is accepted, and there is no argument buffer for it yet. -/
def Begins (s : Site w) (p : ProcedureIndex w) (c : CallIndex w) : Prop :=
  ¬ s.Rejects p c ∧ (p, c, s.wire.id) ∉ s.interface.callToBufferMap

/-- The buffer of a call is the one it has, or a new one. -/
theorem bufferOf_cases (hw : s.interface.WellFormed)
    (hroom : (p, c, s.wire.id) ∉ s.interface.callToBufferMap → s.interface.messages.size < 2 ^ w.bits) :
    s.interface.callToBufferMap.lookup (p, c, s.wire.id) = some (s.bufferOf p c) ∨
      s.interface.callToBufferMap.lookup (p, c, s.wire.id) = none ∧ s.bufferOf p c ∉ s.interface.messages := by
  unfold bufferOf Interface.getCallBuffer
  split
  · rename_i b hb
    exact .inl hb
  · rename_i hb
    exact .inr ⟨hb, Interface.push_notMem hw (hroom (AList.lookup_eq_none.1 hb))⟩

/-- Only the call itself holds its buffer. -/
theorem InCustody.eq_of_bufferOf (h : s.InCustody x)
    (hroom : (p, c, s.wire.id) ∉ s.interface.callToBufferMap → s.interface.messages.size < 2 ^ w.bits) {o : Owner w}
    (ho : s.own x o = some (s.bufferOf p c)) : o = .args (p, c, s.wire.id) := by
  rcases bufferOf_cases h.wellFormed hroom with hb | ⟨-, hnew⟩
  · exact h.inj ho hb
  · exact absurd (h.opened ho).mem hnew

/-- A step on the buffer of the call alone. -/
private theorem works_of_bufferOf (h : s.InCustody x)
    (hroom : (p, c, s.wire.id) ∉ s.interface.callToBufferMap → s.interface.messages.size < 2 ^ w.bits)
    (he : Evolves s.interface s'.interface (· = s.bufferOf p c)) (hcalling : Wire.calling s'.wire = Wire.calling s.wire)
    (hcalls : ∀ {key}, key ≠ (p, c, s.wire.id) →
      s'.interface.callToBufferMap.lookup key = s.interface.callToBufferMap.lookup key)
    (hself : ∀ {b}, s'.interface.callToBufferMap.lookup (p, c, s.wire.id) = some b →
      b = s.bufferOf p c ∧ s'.interface.Open b) : Works x (.args (p, c, s.wire.id)) s s' := by
  have hr : s'.wire.responseIdxMap = s.wire.responseIdxMap := congrArg Prod.snd hcalling
  have hh : s'.wire.idleCallHandles = s.wire.idleCallHandles := congrArg (fun y => y.1.2.2.2) hcalling
  have hown : ∀ {o}, o ≠ .args (p, c, s.wire.id) → s'.own x o = s.own x o := by
    intro o ho
    cases o with
    | args key => exact hcalls fun hk => ho (congrArg _ hk)
    | response k call => simp only [own, hr]
  have hother : ∀ {o b}, o ≠ .args (p, c, s.wire.id) → s.own x o = some b → b ≠ s.bufferOf p c := by
    rintro o b ho hob rfl
    exact ho (h.eq_of_bufferOf hroom hob)
  have hknows : s'.knows x = s.knows x := by
    funext k l
    simp only [knows, hh]
  refine ⟨?_, hown, fun ho hob => he.same _ (hother ho hob), congrArg (fun y => y.1.1.1) hcalling⟩
  · rw [InCustody, hknows]
    refine h.evolve he fun {o b} ho => ?_
    by_cases hargs : o = .args (p, c, s.wire.id)
    · subst hargs
      obtain ⟨rfl, hopen⟩ := hself ho
      rcases bufferOf_cases h.wellFormed hroom with hb | ⟨-, hnew⟩
      · exact .inl ⟨hb, fun _ => hopen⟩
      · refine .inr ⟨hnew, hopen, fun {o'} ho' => ?_⟩
        by_contra hne'
        exact hother hne' ((hown hne').symm.trans ho') rfl
    · have hob := (hown hargs).symm.trans ho
      exact .inl ⟨hob, fun hb => absurd hb (hother hargs hob)⟩

/-- Receiving a part of a call works on the buffer of the call, and leaves it open if it leaves it to the call. -/
theorem receiveCall_buffer (h : s.InCustody x) (hroom : s.Begins p c → s.interface.messages.size < 2 ^ w.bits)
    (t : Terminator) (bytes : List UInt8) :
    Evolves s.interface ((receiveCall p c t bytes).run s).state.interface (· = s.bufferOf p c) ∧
    (∀ {key}, key ≠ (p, c, s.wire.id) →
      ((receiveCall p c t bytes).run s).state.interface.callToBufferMap.lookup key =
        s.interface.callToBufferMap.lookup key) ∧
    ∀ {b}, ((receiveCall p c t bytes).run s).state.interface.callToBufferMap.lookup (p, c, s.wire.id) = some b →
      b = s.bufferOf p c ∧ ((receiveCall p c t bytes).run s).state.interface.Open b := by
  have hopen : ∀ b, s.interface.callToBufferMap.lookup (p, c, s.wire.id) = some b → s.interface.Open b :=
    fun b hb => h.args_open hb
  by_cases hrej : s.Rejects p c
  · rw [receiveCall_run, if_pos hrej]
    refine ⟨.rfl h.wellFormed _, fun _ => rfl, fun {b} hb => ⟨?_, hopen b hb⟩⟩
    unfold bufferOf Interface.getCallBuffer
    rw [show s.interface.callToBufferMap.lookup (p, c, s.wire.id) = some b from hb]
  · replace hroom := fun hnew => hroom ⟨hrej, hnew⟩
    have hadmitted := admitCall_evolves h.wellFormed hroom (· = s.bufferOf p c)
    by_cases ht : t = .complete
    · subst ht
      obtain ⟨i, he, hcalls, hstate⟩ := receiveCall_complete h.wellFormed hroom hopen hrej bytes
      have hi : ((receiveCall p c .complete bytes).run s).state.interface = i := by
        rcases hstate with ⟨e, hr⟩ | ⟨_, _, -, hr, -⟩
        · rw [hr]; rfl
        · rw [hr]
      rw [hi]
      refine ⟨hadmitted.trans he, fun {key} hkey => ?_, fun {b} hb => ?_⟩
      · rw [hcalls, AList.lookup_erase_eq, if_neg hkey, lookup_admitCall, if_neg hkey]
      · rw [hcalls, AList.lookup_erase_eq, if_pos rfl] at hb
        cases hb
    · obtain ⟨i, hr, he, ho, -⟩ := receiveCall_continue h.wellFormed hroom hopen hrej ht bytes
      rw [hr]
      refine ⟨hadmitted.trans he.evolves, fun {key} hkey => ?_, fun {b} hb => ?_⟩
      · show i.callToBufferMap.lookup key = _
        rw [he.steady.calls, lookup_admitCall, if_neg hkey]
      · replace hb : i.callToBufferMap.lookup (p, c, s.wire.id) = some b := hb
        rw [he.steady.calls, lookup_admitCall, if_pos rfl] at hb
        cases hb
        exact ⟨rfl, ho⟩

theorem receiveCall_works (h : s.InCustody x) (hroom : s.Begins p c → s.interface.messages.size < 2 ^ w.bits)
    (t : Terminator) (bytes : List UInt8) :
    Works x (.args (p, c, s.wire.id)) s ((receiveCall p c t bytes).run s).state := by
  by_cases hrej : s.Rejects p c
  · rw [receiveCall_run, if_pos hrej]
    exact .rfl h
  · obtain ⟨he, hcalls, hself⟩ := receiveCall_buffer h hroom t bytes
    exact works_of_bufferOf h (fun hnew => hroom ⟨hrej, hnew⟩) he (receiveCall_calling p c t bytes s).2 hcalls hself

/-! ### Receiving a response -/

theorem receiveResponse_works (h : s.InCustody x) (p : ProcedureIndex w) (c : CallIndex w) (t : Terminator)
    (bytes : List UInt8) :
    Works x (.response x.position (p, c)) s ((receiveResponse p c t bytes).run s).state := by
  rcases receiveResponse_cases h.wellFormed (fun b hb => h.response_open hb) t bytes with ⟨e, hr⟩ |
    ⟨b, i, ha, hr, he, ho⟩
  · rw [hr]
    exact .rfl h
  · rw [hr, EStateM.Result.state_ok]
    have hb : s.own x (.response x.position (p, c)) = some b := (if_pos rfl).trans ha.mapped
    have hwire : (s.afterPart p c t i).wire.idleCallHandles = s.wire.idleCallHandles ∧
        (s.afterPart p c t i).wire.id = s.wire.id := by
      unfold afterPart
      split <;> exact ⟨rfl, rfl⟩
    have hmap : ∀ {call}, call ≠ (p, c) →
        (s.afterPart p c t i).wire.responseIdxMap.lookup call = s.wire.responseIdxMap.lookup call := by
      intro call hcall
      unfold afterPart
      split
      · exact (AList.lookup_erase_eq _ _ _).trans (if_neg hcall)
      · rfl
    -- the call keeps its buffer unless this was the last part
    have hself : ∀ {b'}, (s.afterPart p c t i).wire.responseIdxMap.lookup (p, c) = some b' →
        b' = b ∧ t ≠ .complete := by
      intro b' hb'
      unfold afterPart at hb'
      split at hb'
      · rw [AList.lookup_erase_eq, if_pos rfl] at hb'
        cases hb'
      · exact ⟨Option.some.inj (hb'.symm.trans ha.mapped), ‹_›⟩
    have hown : ∀ {o}, o ≠ .response x.position (p, c) → (s.afterPart p c t i).own x o = s.own x o := by
      intro o ho
      cases o with
      | args key => exact congrArg (AList.lookup key) he.steady.calls
      | response k call =>
        simp only [own]
        split
        · exact hmap fun hcall => ho (by rw [hcall, ‹k = _›])
        · rfl
    have hother : ∀ {o b'}, o ≠ .response x.position (p, c) → s.own x o = some b' → b' ≠ b := by
      rintro o b' hne hob rfl
      exact hne (h.inj hob hb)
    refine ⟨?_, hown, fun ho hob => he.same _ (hother ho hob), hwire.2⟩
    have hknows : (s.afterPart p c t i).knows x = s.knows x := by
      funext k l
      simp only [knows, hwire.1]
    rw [InCustody, hknows]
    refine h.evolve he.evolves fun {o b'} ho' => ?_
    by_cases hresp : o = .response x.position (p, c)
    · subst hresp
      obtain ⟨rfl, hne⟩ := hself ((if_pos rfl).symm.trans ho')
      exact .inl ⟨hb, fun _ => ho hne⟩
    · have hob := (hown hresp).symm.trans ho'
      exact .inl ⟨hob, fun hb' => absurd hb' (hother hresp hob)⟩

/-! ### Termination -/

/-- The buffers a wire deletes when it is terminated. -/
def Dropped (s : Site w) (b : IpfiInteger w) : Prop :=
  ∃ call ∈ s.wire.ongoingProcedures, s.interface.callToBufferMap.lookup (call.1, call.2, s.wire.id) = some b

private theorem dropAssociatedCallMessage_evolves {i : Interface w} (hw : i.WellFormed) (key : CallKey w) :
    Evolves i (i.dropAssociatedCallMessage key) fun b => i.callToBufferMap.lookup key = some b := by
  unfold Interface.dropAssociatedCallMessage
  split
  · rename_i b hb
    have hcalls := Interface.withCalls_evolves hw (i.callToBufferMap.erase key) fun b =>
      i.callToBufferMap.lookup key = some b
    refine hcalls.trans ((Interface.pop_edits hcalls.wellFormed b).evolves.mono ?_)
    rintro _ rfl
    exact hb
  · exact .rfl hw _

private theorem foldl_drop_evolves (id : WireId w) (calls : List (ProcedureIndex w × CallIndex w)) {i : Interface w}
    (hw : i.WellFormed) :
    Evolves i (calls.foldl (fun i pc => i.dropAssociatedCallMessage (pc.1, pc.2, id)) i)
      fun b => ∃ call ∈ calls, i.callToBufferMap.lookup (call.1, call.2, id) = some b := by
  induction calls generalizing i with
  | nil => exact .rfl hw _
  | cons call calls ih =>
    have hdrop := dropAssociatedCallMessage_evolves hw (call.1, call.2, id)
    refine (hdrop.mono fun b hb => ⟨call, by simp, hb⟩).trans ((ih hdrop.wellFormed).mono ?_)
    rintro b ⟨call', hcall, hb⟩
    rw [Interface.lookup_dropAssociatedCallMessage] at hb
    split at hb
    · cases hb
    · exact ⟨call', by simp [hcall], hb⟩

theorem markTerminatedSync_evolves (hw : s.interface.WellFormed) :
    Evolves s.interface s.markTerminatedSync.interface s.Dropped :=
  (foldl_drop_evolves s.wire.id s.wire.ongoingProcedures.keys hw).mono fun _ ⟨call, hcall, hb⟩ =>
    ⟨call, AList.mem_keys.2 hcall, hb⟩

/-- Poisoning touches only the messages whose locks are poisoned, and completes none. -/
private theorem foldl_poison_evolves (locks : List LockRef) {i : Interface w} (hw : i.WellFormed) :
    Evolves i (locks.foldl Interface.poison i)
      (fun b => ∃ m, i.messages.lookup b = some m ∧ m.completeLock ∈ locks) ∧
      ∀ b, i.Open b → (locks.foldl Interface.poison i).Open b := by
  induction locks generalizing i with
  | nil => exact ⟨.rfl hw _, fun _ hb => hb⟩
  | cons l locks ih =>
    obtain ⟨he, ho⟩ := ih (Interface.poison_wellFormed hw l)
    refine ⟨Evolves.trans ?_ (he.mono fun b ⟨m, hm, hl⟩ => ⟨m, hm, by simp [hl]⟩), fun b hb =>
      ho b (Interface.poison_open l hb)⟩
    refine ⟨Interface.poison_wellFormed hw l, (Interface.poison_steady i l).toLater,
      fun b hb m hm => ⟨hm, ?_, fun _ _ => rfl⟩, fun hm => .inl ⟨_, hm, rfl⟩⟩
    have hne : m.completeLock ≠ l := fun heq => hb ⟨m, hm, by simp [heq]⟩
    show (if i.locks l = .incomplete then Function.update i.locks l .poisoned else i.locks) m.completeLock = _
    split
    · exact Function.update_of_ne hne _ _
    · rfl

theorem markTerminatedSync_inCustody (h : s.InCustody x) : s.markTerminatedSync.InCustody x := by
  have hown : ∀ {o b}, s.markTerminatedSync.own x o = some b → s.own x o = some b ∧ ¬ s.Dropped b := by
    intro o b ho
    have hne : ∀ {call : ProcedureIndex w × CallIndex w}, call ∈ s.wire.ongoingProcedures →
        o ≠ .args (call.1, call.2, s.wire.id) := by
      rintro call hcall rfl
      replace ho := (lookup_markTerminatedSync s _).symm.trans ho
      rw [if_pos ⟨hcall, rfl⟩] at ho
      cases ho
    have hob : s.own x o = some b := by
      cases o with
      | args key =>
        replace ho := (lookup_markTerminatedSync s _).symm.trans ho
        split at ho
        · cases ho
        · exact ho
      | response k call => exact ho
    refine ⟨hob, ?_⟩
    rintro ⟨call, hcall, hb⟩
    exact hne hcall (h.inj hob hb)
  exact h.evolve_free (markTerminatedSync_evolves h.wellFormed) (fun ho => (hown ho).1) fun ho => (hown ho).2

/-- Termination leaves alone what it does not delete, apart from the responses the wire awaits. -/
theorem markTerminated_same (h : s.InCustody x) {o : Owner w} {b : IpfiInteger w} (ho : s.own x o = some b)
    (hfree : ¬ s.Dropped b) (hne : ∀ call, o ≠ .response x.position call) :
    Same s.interface s.markTerminated.interface b := by
  have hdrop := markTerminatedSync_evolves h.wellFormed
  have hsame := hdrop.same b hfree
  refine hsame.trans ((foldl_poison_evolves s.wire.idleCallHandles.values hdrop.wellFormed).1.same b ?_)
  rintro ⟨m', hm', hl⟩
  obtain ⟨m, hm⟩ := AList.mem_iff_lookup.1 (h.opened ho).mem
  obtain rfl := Option.some.inj ((hsame m hm).1.symm.trans hm')
  obtain ⟨call, rfl⟩ := h.mine (k := x.position) (.inr ⟨rfl, hl⟩) ho hm
  exact hne call rfl

theorem markTerminated_confines (h : s.InCustody x) : Confines x s s.markTerminated := by
  have hdrop := markTerminatedSync_evolves h.wellFormed
  have hsync := markTerminatedSync_inCustody h
  obtain ⟨hpoison, hopen⟩ := foldl_poison_evolves s.wire.idleCallHandles.values hdrop.wellFormed
  have hcalls : s.markTerminated.interface.callToBufferMap = s.markTerminatedSync.interface.callToBufferMap :=
    foldl_poison_calls _ _
  have hown : s.markTerminated.own x = s.markTerminatedSync.own x := by
    funext o
    cases o with
    | args key => exact congrArg (AList.lookup key) hcalls
    | response k call => rfl
  constructor
  · rw [InCustody, hown]
    exact hsync.evolve hpoison fun {o b} ho => .inl ⟨ho, fun _ => hopen b (hsync.opened ho)⟩
  · intro o b ho hmine
    refine markTerminated_same h ho ?_ ?_
    · rintro ⟨call, hcall, hb⟩
      have hargs : s.own x (.args (call.1, call.2, s.wire.id)) = some b := hb
      exact hmine (h.inj ho hargs ▸ rfl)
    · rintro call rfl
      exact hmine rfl
  · intro key hkey
    refine (lookup_markTerminated s key).trans (if_neg ?_)
    rintro ⟨-, hid⟩
    exact hkey hid
  · rfl

theorem markTerminated_evolves (hw : s.interface.WellFormed) :
    Evolves s.interface s.markTerminated.interface fun _ => True :=
  have hdrop := markTerminatedSync_evolves hw
  (hdrop.mono fun _ _ => trivial).trans ((foldl_poison_evolves _ hdrop.wellFormed).1.mono fun _ _ => trivial)

/-- If the message makes a new argument buffer, there is an identifier left for it. -/
def RoomFor (s : Site w) : Incoming w → Prop
  | .call p c _ _ => s.Begins p c → s.interface.messages.size < 2 ^ w.bits
  | _ => True

theorem RoomFor.of_lt (h : s.interface.messages.size < 2 ^ w.bits) (m : Incoming w) : s.RoomFor m := by
  cases m with
  | call p c t bytes => exact fun _ => h
  | _ => trivial

theorem receive_evolves (h : s.InCustody x) {m : Incoming w} (hroom : s.RoomFor m) :
    Evolves s.interface ((receive m).run s).state.interface fun _ => True := by
  cases m with
  | call p c t bytes => exact (receiveCall_buffer h hroom t bytes).1.mono fun _ _ => trivial
  | response p c t bytes =>
    show Evolves s.interface ((receiveResponse p c t bytes).run s).state.interface _
    rcases receiveResponse_cases h.wellFormed (fun b hb => h.response_open hb) t bytes with ⟨e, hr⟩ |
      ⟨b, i, -, hr, he, -⟩
    · rw [hr]
      exact .rfl h.wellFormed _
    · rw [hr]
      exact he.evolves.mono fun _ _ => trivial
  | endOfInput => exact .rfl h.wellFormed _
  | termination => exact markTerminated_evolves h.wellFormed
  | ignored => exact .rfl h.wellFormed _

theorem receive_confines (h : s.InCustody x) {m : Incoming w} (hroom : s.RoomFor m) :
    Confines x s ((receive m).run s).state := by
  cases m with
  | call p c t bytes => exact (receiveCall_works h hroom t bytes).confines rfl
  | response p c t bytes => exact (receiveResponse_works h p c t bytes).confines rfl
  | endOfInput => exact .rfl h
  | termination => exact markTerminated_confines h
  | ignored => exact .rfl h

/-! ### What nothing holds -/

/-- A buffer that is there and that nothing holds. -/
structure Unheld (s : Site w) (x : Surroundings w) (b : IpfiInteger w) : Prop where
  mem : b ∈ s.interface.messages
  free : ∀ o, s.own x o ≠ some b

theorem Unheld.mem_of_same {i : Interface w} {b : IpfiInteger w} (hb : s.Unheld x b) (hs : Same s.interface i b) :
    b ∈ i.messages := by
  obtain ⟨m, hm⟩ := AList.mem_iff_lookup.1 hb.mem
  exact AList.mem_of_lookup (hs m hm).1

private theorem receiveCall_unheld (h : s.InCustody x) (hroom : s.Begins p c → s.interface.messages.size < 2 ^ w.bits)
    (t : Terminator) (bytes : List UInt8) {b : IpfiInteger w} (hb : s.Unheld x b) :
    Same s.interface ((receiveCall p c t bytes).run s).state.interface b ∧
      ((receiveCall p c t bytes).run s).state.Unheld x b := by
  by_cases hrej : s.Rejects p c
  · rw [receiveCall_run, if_pos hrej]
    exact ⟨.rfl, hb⟩
  obtain ⟨he, -, hself⟩ := receiveCall_buffer h hroom t bytes
  have hworks := receiveCall_works h hroom t bytes
  have hne : b ≠ s.bufferOf p c := by
    rintro rfl
    rcases bufferOf_cases h.wellFormed (fun hnew => hroom ⟨hrej, hnew⟩) with hb' | ⟨-, hnew⟩
    · exact hb.free (.args (p, c, s.wire.id)) hb'
    · exact hnew hb.mem
  have hsame : Same s.interface ((receiveCall p c t bytes).run s).state.interface b := he.same b hne
  refine ⟨hsame, hb.mem_of_same hsame, fun o ho => ?_⟩
  by_cases ho' : o = .args (p, c, s.wire.id)
  · subst ho'
    exact hne (hself ho).1
  · exact hb.free o ((hworks.own ho').symm.trans ho)

theorem receiveResponse_unheld (h : s.InCustody x) (p : ProcedureIndex w) (c : CallIndex w) (t : Terminator)
    (bytes : List UInt8) {b : IpfiInteger w} (hb : s.Unheld x b) :
    Same s.interface ((receiveResponse p c t bytes).run s).state.interface b ∧
      ((receiveResponse p c t bytes).run s).state.Unheld x b := by
  have hworks := receiveResponse_works h p c t bytes
  rcases receiveResponse_cases h.wellFormed (fun b hb => h.response_open hb) t bytes with ⟨e, hr⟩ |
    ⟨b', i, ha, hr, he, -⟩
  · rw [hr]
    exact ⟨.rfl, hb⟩
  · have hown : s.own x (.response x.position (p, c)) = some b' := (if_pos rfl).trans ha.mapped
    have hne : b ≠ b' := by
      rintro rfl
      exact hb.free _ hown
    have hsame : Same s.interface ((receiveResponse p c t bytes).run s).state.interface b := by
      rw [hr]
      exact he.same b hne
    refine ⟨hsame, hb.mem_of_same hsame, fun o ho => ?_⟩
    by_cases ho' : o = .response x.position (p, c)
    · subst ho'
      replace ho : ((receiveResponse p c t bytes).run s).state.wire.responseIdxMap.lookup (p, c) = some b :=
        (if_pos rfl).symm.trans ho
      rw [hr] at ho
      simp only [EStateM.Result.state_ok, afterPart] at ho
      split at ho
      · rw [AList.lookup_erase_eq, if_pos rfl] at ho
        cases ho
      · exact hne (Option.some.inj (ho.symm.trans ha.mapped))
    · exact hb.free o ((hworks.own ho').symm.trans ho)

/-- What comes in leaves a buffer that nothing holds alone. -/
theorem receive_unheld (h : s.InCustody x) {m : Incoming w} (hroom : s.RoomFor m) (hm : m ≠ .termination)
    {b : IpfiInteger w} (hb : s.Unheld x b) :
    Same s.interface ((receive m).run s).state.interface b ∧ ((receive m).run s).state.Unheld x b := by
  cases m with
  | call p c t bytes => exact receiveCall_unheld h hroom t bytes hb
  | response p c t bytes => exact receiveResponse_unheld h p c t bytes hb
  | endOfInput => exact ⟨.rfl, hb⟩
  | termination => exact absurd rfl hm
  | ignored => exact ⟨.rfl, hb⟩

/-- A completed lock is not poisoned. -/
private theorem foldl_poison_same (locks : List LockRef) {i : Interface w} {b : IpfiInteger w} {m : MessageBuffer}
    (hm : i.messages.lookup b = some m) (hl : i.locks m.completeLock = .complete) :
    Same i (locks.foldl Interface.poison i) b := by
  induction locks generalizing i with
  | nil => exact .rfl
  | cons l locks ih =>
    have hlock : (i.poison l).locks m.completeLock = .complete := by
      show (if i.locks l = .incomplete then Function.update i.locks l .poisoned else i.locks) m.completeLock = _
      split
      · rw [Function.update_of_ne, hl]
        rintro rfl
        simp_all
      · exact hl
    have hsame : Same i (i.poison l) b := by
      intro m' hm'
      obtain rfl := Option.some.inj (hm.symm.trans hm')
      exact ⟨hm, hlock.trans hl.symm, fun _ _ => rfl⟩
    exact hsame.trans (ih hm hlock)

theorem own_markTerminated {o : Owner w} {b : IpfiInteger w} (ho : s.markTerminated.own x o = some b) :
    s.own x o = some b := by
  cases o with
  | args key =>
    have hb := (lookup_markTerminated s key).symm.trans ho
    split at hb
    · cases hb
    · exact hb
  | response k call => exact ho

/-- Termination leaves a completed message that nothing holds alone. -/
theorem markTerminated_unheld (h : s.InCustody x) {b : IpfiInteger w} {m : MessageBuffer} (hb : s.Unheld x b)
    (hm : s.interface.messages.lookup b = some m) (hl : s.interface.locks m.completeLock = .complete) :
    Same s.interface s.markTerminated.interface b ∧ s.markTerminated.Unheld x b := by
  have hfree : ¬ s.Dropped b := by
    rintro ⟨call, -, hcall⟩
    exact hb.free (.args (call.1, call.2, s.wire.id)) hcall
  have hdrop := (markTerminatedSync_evolves h.wellFormed).same b hfree
  obtain ⟨hm', hl', -⟩ := hdrop m hm
  have hsame := hdrop.trans (foldl_poison_same s.wire.idleCallHandles.values hm' (hl'.trans hl))
  exact ⟨hsame, hb.mem_of_same hsame, fun o ho => hb.free o (own_markTerminated ho)⟩

end Site

end Ipfi
