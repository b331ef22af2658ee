import Ipfi.CallSteps
import Ipfi.Lib.Reach
import Mathlib.Data.Fintype.Card

/-!
# Call indices of concurrent callers

The counter of a procedure is looked up and incremented in one atomic step, but its first entry is inserted in a step
of its own.  As long as no caller looks the counter up while another one is about to insert the first entry, every
call gets its own index and its own entry in the map of responses.
-/

namespace Ipfi

variable {w : IntFeature} {ι : Type} [DecidableEq ι]

/-- Threads in calling methods on the clones of one wire. -/
abbrev Callers (ι : Type) (w : IntFeature) : Type := Threads ι (Site w) (CallPlace w)

namespace CallPlace

/-- Whether the response of the call has its entry. -/
def mapped : CallPlace w → Bool
  | .queueMessage _ | .findResponse _ | .register _ _ | .returned _ _ | .failed (some _) _ => true
  | _ => false

private theorem mapped_failed {a : CallPlace w} (h : a.mapped = true) (e : Stop (Error w)) :
    (failed a.callIdx? e).mapped = true := by
  cases a with
  | failed c e' => cases c <;> [cases h; rfl]
  | begin | lookUpCounter | insertFirst | pushBuffer | mapResponse => cases h
  | queueMessage | findResponse | register | returned => rfl

/-- Whether the lookup of the counter has found nothing. -/
def missed : CallPlace w → Bool
  | .insertFirst => true
  | _ => false

end CallPlace

namespace CallMethod

variable {checks : Bool} {m : CallMethod w}

/-- What a step does to the counter and to the map of responses. -/
inductive NextShape (m : CallMethod w) (s : Site w) : CallPlace w → CallPlace w → Site w → Prop
  | other (a a' : CallPlace w) (s' : Site w) : a'.callIdx? = a.callIdx? → (a.mapped = true → a'.mapped = true) →
      a'.missed = false → s'.wire.remoteCallCounter = s.wire.remoteCallCounter →
      s'.wire.responseIdxMap = s.wire.responseIdxMap → NextShape m s a a' s'
  | found (last : IpfiInteger w) (s' : Site w) : s.wire.remoteCallCounter.lookup m.procedureIdx = some last →
      s'.wire.remoteCallCounter = s.wire.remoteCallCounter.insert m.procedureIdx (last + 1) →
      s'.wire.responseIdxMap = s.wire.responseIdxMap → NextShape m s .lookUpCounter (.pushBuffer ⟨last + 1⟩) s'
  | missed : s.wire.remoteCallCounter.lookup m.procedureIdx = none → NextShape m s .lookUpCounter .insertFirst s
  | inserted (s' : Site w) : s'.wire.remoteCallCounter = s.wire.remoteCallCounter.insert m.procedureIdx 0 →
      s'.wire.responseIdxMap = s.wire.responseIdxMap → NextShape m s .insertFirst (.pushBuffer ⟨0⟩) s'
  | mapped (c : CallIndex w) (b : IpfiInteger w) (s' : Site w) :
      s'.wire.remoteCallCounter = s.wire.remoteCallCounter →
      s'.wire.responseIdxMap = s.wire.responseIdxMap.insert (m.procedureIdx, c) b →
      NextShape m s (.mapResponse c b) (.queueMessage c) s'

theorem Moves.shape {s s' : Site w} {a a' : CallPlace w} (h : m.Moves checks s a a' s') (hm : m.allots = true) :
    NextShape m s a a' s' := by
  cases h with
  | fails h => exact .other _ _ _ rfl (fun h => CallPlace.mapped_failed h _) rfl rfl rfl
  | begins => cases m <;> first | exact .other _ _ _ rfl (absurd · Bool.false_ne_true) rfl rfl rfl | cases hm
  | found hl => exact .found _ _ hl rfl rfl
  | missed hl => exact .missed hl
  | inserted => exact .inserted _ rfl rfl
  | pushed => exact .other _ _ _ rfl (absurd · Bool.false_ne_true) rfl rfl rfl
  | mapped => exact .mapped _ _ _ rfl rfl
  | queued => cases m <;> exact .other _ _ _ rfl (fun _ => rfl) rfl rfl rfl
  | located => exact .other _ _ _ rfl (fun _ => rfl) rfl rfl rfl
  | registered => exact .other _ _ _ rfl (fun _ => rfl) rfl rfl rfl
  | returned => exact .other _ _ _ rfl (fun h => h) rfl rfl rfl
  | failed => exact .other _ _ _ rfl (fun h => h) rfl rfl rfl

end CallMethod

namespace Callers

variable {methods : ι → CallMethod w} {x : Callers ι w} {checks : Bool}

/-- All callers before their first steps. -/
def start (s : Site w) : Callers ι w := ⟨s, fun _ => .begin⟩

def step (checks : Bool) (methods : ι → CallMethod w) (x : Callers ι w) (t : ι) : Callers ι w :=
  Threads.step (fun t a s => (methods t).next checks a s) x t

/-- The call of a thread, once it has got its index. -/
def allotted (methods : ι → CallMethod w) (x : Callers ι w) (t : ι) : Option (ProcedureIndex w × CallIndex w) :=
  (x.place t).callIdx?.map fun c => ((methods t).procedureIdx, c)

/-- The number of calls of the procedure. -/
def callCount [Fintype ι] (methods : ι → CallMethod w) (x : Callers ι w) (p : ProcedureIndex w) : Nat :=
  (Finset.univ.filter fun t => (x.allotted methods t).map Prod.fst = some p).card

/-- No thread looks up the counter of a procedure while another one is about to insert the first entry. -/
def FirstAlone (methods : ι → CallMethod w) (x : Callers ι w) (t : ι) : Prop :=
  x.place t = .lookUpCounter → ∀ t', (methods t').procedureIdx = (methods t).procedureIdx → x.place t' ≠ .insertFirst

/-- The counters bound the indices handed out, which are all different. -/
structure Numbered [Fintype ι] (methods : ι → CallMethod w) (x : Callers ι w) : Prop where
  fresh : ∀ {t p c}, x.allotted methods t = some (p, c) →
    ∃ last, x.shared.wire.remoteCallCounter.lookup p = some last ∧ c.idx.toNat ≤ last.toNat
  bound : ∀ {p last}, x.shared.wire.remoteCallCounter.lookup p = some last → last.toNat < x.callCount methods p
  distinct : ∀ {t t' k}, x.allotted methods t = some k → x.allotted methods t' = some k → t = t'
  first : ∀ {t}, x.place t = .insertFirst → x.shared.wire.remoteCallCounter.lookup (methods t).procedureIdx = none
  alone : ∀ {t t'}, x.place t = .insertFirst → x.place t' = .insertFirst →
    (methods t).procedureIdx = (methods t').procedureIdx → t = t'
  mapped : ∀ {k}, k ∈ x.shared.wire.responseIdxMap → ∃ t, x.allotted methods t = some k ∧ (x.place t).mapped = true

variable [Fintype ι] {y : Callers ι w} {t : ι} {p : ProcedureIndex w} {c : CallIndex w}

omit [DecidableEq ι] in
theorem callCount_congr (h : ∀ t, y.allotted methods t = x.allotted methods t) (p : ProcedureIndex w) :
    y.callCount methods p = x.callCount methods p := by
  simp only [callCount, h]

/-- A call that gets its index is counted for its procedure. -/
theorem callCount_allot (hx : x.allotted methods t = none) (hy : y.allotted methods t = some (p, c))
    (hother : ∀ t' ≠ t, y.allotted methods t' = x.allotted methods t') (q : ProcedureIndex w) :
    y.callCount methods q = x.callCount methods q + if q = p then 1 else 0 := by
  have hmem : t ∉ Finset.univ.filter fun t => (x.allotted methods t).map Prod.fst = some q := by simp [hx]
  unfold callCount
  split
  · subst_vars
    rw [← Finset.card_insert_of_notMem hmem]
    congr 1
    ext t'
    by_cases ht : t' = t
    · subst ht; simp [hy]
    · simp [hother t' ht, ht]
  · rename_i hq
    rw [Nat.add_zero]
    congr 1
    ext t'
    by_cases ht : t' = t
    · subst ht; simp [hx, hy, Ne.symm hq]
    · simp [hother t' ht]

omit [DecidableEq ι] in
/-- A thread that has no index yet is not counted. -/
theorem callCount_lt_card (hx : x.allotted methods t = none) (p : ProcedureIndex w) :
    x.callCount methods p < Fintype.card ι :=
  Finset.card_lt_univ_of_notMem (x := t) (by simp [hx])

/-- A thread gets an index that is larger than all before. -/
private theorem Numbered.allot (h : x.Numbered methods) (hx : x.allotted methods t = none)
    (hy : y.allotted methods t = some ((methods t).procedureIdx, c))
    (hplace : ∀ t' ≠ t, y.place t' = x.place t') (hself : y.place t ≠ .insertFirst)
    (hfirst : ∀ t' ≠ t, (methods t').procedureIdx = (methods t).procedureIdx → x.place t' ≠ .insertFirst)
    (hcounter : y.shared.wire.remoteCallCounter = x.shared.wire.remoteCallCounter.insert (methods t).procedureIdx c.idx)
    (hmap : y.shared.wire.responseIdxMap = x.shared.wire.responseIdxMap) (hlt : ∀ last,
    x.shared.wire.remoteCallCounter.lookup (methods t).procedureIdx = some last → last.toNat < c.idx.toNat)
    (hbound : c.idx.toNat ≤ x.callCount methods (methods t).procedureIdx) : y.Numbered methods := by
  have hother : ∀ t' ≠ t, y.allotted methods t' = x.allotted methods t' := fun t' ht' => by
    simp only [allotted, hplace t' ht']
  have hlook : ∀ q, y.shared.wire.remoteCallCounter.lookup q =
      if q = (methods t).procedureIdx then some c.idx else x.shared.wire.remoteCallCounter.lookup q := fun q => by
    rw [hcounter, AList.lookup_insert_eq]
  -- what has been handed out for the procedure before is smaller
  have hold : ∀ {t' c'}, x.allotted methods t' = some ((methods t).procedureIdx, c') → c'.idx.toNat < c.idx.toNat := by
    intro t' c' ht'
    obtain ⟨last, hl, hle⟩ := h.fresh ht'
    exact hle.trans_lt (hlt last hl)
  constructor
  · intro t' q c' ht'
    rw [hlook]
    by_cases heq : t' = t
    · subst heq
      cases hy.symm.trans ht'
      exact ⟨c.idx, if_pos rfl, Nat.le_refl _⟩
    · rw [hother t' heq] at ht'
      split
      · subst_vars
        exact ⟨c.idx, rfl, (hold ht').le⟩
      · exact h.fresh ht'
  · intro q last hl
    rw [hlook] at hl
    rw [callCount_allot hx hy hother]
    split at hl
    · cases hl
      subst_vars
      rw [if_pos rfl]
      omega
    · rw [if_neg ‹_›]
      exact h.bound hl
  · intro t₁ t₂ k h₁ h₂
    by_cases ht₁ : t₁ = t <;> by_cases ht₂ : t₂ = t
    · rw [ht₁, ht₂]
    · subst ht₁
      cases hy.symm.trans h₁
      exact absurd (hold ((hother t₂ ht₂).symm.trans h₂)) (Nat.lt_irrefl _)
    · subst ht₂
      cases hy.symm.trans h₂
      exact absurd (hold ((hother t₁ ht₁).symm.trans h₁)) (Nat.lt_irrefl _)
    · exact h.distinct ((hother t₁ ht₁).symm.trans h₁) ((hother t₂ ht₂).symm.trans h₂)
  · intro t' ht'
    have hne : t' ≠ t := by rintro rfl; exact hself ht'
    have ht'' : x.place t' = .insertFirst := (hplace t' hne).symm.trans ht'
    rw [hlook, if_neg fun hp => hfirst t' hne hp ht'']
    exact h.first ht''
  · intro t₁ t₂ h₁ h₂ hp
    have hne₁ : t₁ ≠ t := by rintro rfl; exact hself h₁
    have hne₂ : t₂ ≠ t := by rintro rfl; exact hself h₂
    exact h.alone ((hplace t₁ hne₁).symm.trans h₁) ((hplace t₂ hne₂).symm.trans h₂) hp
  · intro k hk
    rw [hmap] at hk
    obtain ⟨t', ht', hmapped⟩ := h.mapped hk
    have hne : t' ≠ t := by rintro rfl; cases hx.symm.trans ht'
    exact ⟨t', (hother t' hne).trans ht', by rwa [hplace t' hne]⟩

/-- No thread gets an index, and at most `t` finds that a first entry is missing. -/
private theorem Numbered.stay (h : x.Numbered methods) (hallot : ∀ t', y.allotted methods t' = x.allotted methods t')
    (hcounter : y.shared.wire.remoteCallCounter = x.shared.wire.remoteCallCounter)
    (hins : ∀ t', y.place t' = .insertFirst → x.place t' = .insertFirst ∨
      t' = t ∧ x.shared.wire.remoteCallCounter.lookup (methods t).procedureIdx = none ∧
        ∀ t' ≠ t, (methods t').procedureIdx = (methods t).procedureIdx → x.place t' ≠ .insertFirst)
    (hmono : ∀ t', (x.place t').mapped = true → (y.place t').mapped = true)
    (hmap : ∀ k, k ∈ y.shared.wire.responseIdxMap → k ∈ x.shared.wire.responseIdxMap ∨
      ∃ t', y.allotted methods t' = some k ∧ (y.place t').mapped = true) : y.Numbered methods where
  fresh ht' := by
    rw [hcounter]
    exact h.fresh ((hallot _).symm.trans ht')
  bound hl := by
    rw [hcounter] at hl
    rw [callCount_congr hallot]
    exact h.bound hl
  distinct h₁ h₂ := h.distinct ((hallot _).symm.trans h₁) ((hallot _).symm.trans h₂)
  first {t'} ht' := by
    rw [hcounter]
    rcases hins t' ht' with ht' | ⟨rfl, hl, -⟩
    · exact h.first ht'
    · exact hl
  alone {t₁ t₂} h₁ h₂ hp := by
    rcases hins t₁ h₁ with h₁ | ⟨rfl, -, hno⟩ <;> rcases hins t₂ h₂ with h₂ | ⟨rfl, -, hno'⟩
    · exact h.alone h₁ h₂ hp
    · by_contra hne
      exact hno' t₁ hne hp h₁
    · by_contra hne
      exact hno t₂ (Ne.symm hne) hp.symm h₂
    · rfl
  mapped {k} hk := by
    rcases hmap k hk with hk | ht'
    · obtain ⟨t', ht', hm'⟩ := h.mapped hk
      exact ⟨t', (hallot t').trans ht', hmono t' hm'⟩
    · exact ht'

theorem Numbered.step (h : x.Numbered methods) (hm : ∀ t, (methods t).allots = true)
    (hcard : Fintype.card ι ≤ 2 ^ w.bits) (ha : x.FirstAlone methods t) :
    (x.step checks methods t).Numbered methods := by
  have hplace : ∀ t' ≠ t, (x.step checks methods t).place t' = x.place t' := fun t' ht' => Threads.step_place_of_ne ht'
  have hshape := (CallMethod.next_moves checks (methods t) (x.place t) x.shared).shape (hm t)
  have hself : (x.step checks methods t).place t = ((methods t).next checks (x.place t) x.shared).1 :=
    Threads.step_place_self ..
  have hshared : (x.step checks methods t).shared = ((methods t).next checks (x.place t) x.shared).2 := rfl
  rw [← hself, ← hshared] at hshape
  clear hself hshared
  generalize x.step checks methods t = y at *
  -- no other thread is about to insert a first entry for the procedure
  have hfirst : x.place t = .lookUpCounter ∨ x.place t = .insertFirst → ∀ t' ≠ t,
      (methods t').procedureIdx = (methods t).procedureIdx → x.place t' ≠ .insertFirst := by
    rintro (hp | hp) t' ht' hproc
    · exact ha hp t' hproc
    · exact fun hp' => ht' (h.alone hp' hp hproc)
  have hallot : (y.place t).callIdx? = (x.place t).callIdx? → ∀ t', y.allotted methods t' = x.allotted methods t' := by
    intro hidx t'
    by_cases ht' : t' = t
    · subst ht'; simp only [allotted, hidx]
    · simp only [allotted, hplace t' ht']
  have hmono : ((x.place t).mapped = true → (y.place t).mapped = true) →
      ∀ t', (x.place t').mapped = true → (y.place t').mapped = true := by
    intro hm t' hm'
    by_cases ht' : t' = t
    · subst ht'; exact hm hm'
    · rwa [hplace t' ht']
  have hins : (y.place t).missed = false → ∀ t', y.place t' = .insertFirst → x.place t' = .insertFirst := by
    intro hne t' ht'
    by_cases heq : t' = t
    · subst heq
      rw [ht'] at hne
      cases hne
    · exact (hplace t' heq).symm.trans ht'
  generalize hx : x.place t = a at hshape hfirst hallot hmono
  generalize hy : y.place t = a' at hshape hallot hmono hins
  generalize hs : y.shared = s' at hshape
  cases hshape with
  | other a a' s' hidx hmapped hne hcounter hmap =>
    refine h.stay (t := t) (hallot hidx) (hs ▸ hcounter) (fun t' ht' => .inl (hins hne t' ht'))
      (hmono hmapped) fun k hk => .inl ?_
    rwa [hs, hmap] at hk
  | found last s' hl hcounter hmap =>
    have hnone : x.allotted methods t = none := by simp only [allotted, hx]; rfl
    have hbound := h.bound hl
    -- there are fewer threads than indices, so the increment does not overflow
    have hnext : (last + 1).toNat = last.toNat + 1 := by
      have := callCount_lt_card hnone (methods t).procedureIdx
      exact IpfiInteger.toNat_succ (by omega)
    refine h.allot (c := ⟨last + 1⟩) hnone (by simp only [allotted, hy]; rfl) hplace (by rw [hy]; nofun)
      (hfirst (.inl rfl)) (hs ▸ hcounter) (hs ▸ hmap) (fun last' hl' => ?_) (hnext ▸ hbound)
    cases hl.symm.trans hl'
    exact hnext ▸ Nat.lt_succ_self _
  -- the thread is now about to insert the first entry, and nobody else is
  | missed hl =>
    refine h.stay (t := t) (hallot rfl) (by rw [hs]) (fun t' ht' => ?_) (hmono nofun) fun k hk => .inl (hs ▸ hk)
    by_cases heq : t' = t
    · exact .inr ⟨heq, hl, hfirst (.inl rfl)⟩
    · exact .inl ((hplace t' heq).symm.trans ht')
  | inserted s' hcounter hmap =>
    have hnone : x.allotted methods t = none := by simp only [allotted, hx]; rfl
    refine h.allot (c := ⟨0⟩) hnone (by simp only [allotted, hy]; rfl) hplace (by rw [hy]; nofun) (hfirst (.inr rfl))
      (hs ▸ hcounter) (hs ▸ hmap) (fun last hl => ?_) (by simp)
    cases (h.first hx).symm.trans hl
  | mapped c b s' hcounter hmap =>
    refine h.stay (t := t) (hallot rfl) (hs ▸ hcounter) (fun t' ht' => .inl (hins rfl t' ht'))
      (hmono fun _ => rfl) fun k hk => ?_
    rw [hs, hmap, AList.mem_insert] at hk
    rcases hk with rfl | hk
    · exact .inr ⟨t, by simp only [allotted, hy]; rfl, by rw [hy]; rfl⟩
    · exact .inl hk

/-- Where no counter is looked up while its first entry is about to be inserted, different calls of a procedure get
different indices, and no entry in the map of responses is overwritten. -/
theorem allotted_distinct (hm : ∀ t, (methods t).allots = true) (hcard : Fintype.card ι < 2 ^ w.bits) (i : Interface w)
    (id : WireId w) (moduleStyle : Bool) (max : IpfiInteger w)
    (hx : Reaches (step checks methods) (FirstAlone methods) (start ⟨i, .new id moduleStyle max⟩) x) :
    (∀ t t' k, x.allotted methods t = some k → x.allotted methods t' = some k → t = t') ∧
    ∀ t c b, x.place t = .mapResponse c b → ((methods t).procedureIdx, c) ∉ x.shared.wire.responseIdxMap := by
  have hstart : (start ⟨i, .new id moduleStyle max⟩ : Callers ι w).Numbered methods := by
    constructor
    · intro t p c ht; cases ht
    · intro p last hl; cases hl
    · intro t t' k ht; cases ht
    · intro t ht; cases ht
    · intro t t' ht; cases ht
    · intro k hk; cases hk
  have hnum : x.Numbered methods := hx.invariant hstart fun x t h ha => h.step hm hcard.le ha
  refine ⟨fun t t' k ht ht' => hnum.distinct ht ht', fun t c b ht hmem => ?_⟩
  obtain ⟨t', ht', hm'⟩ := hnum.mapped hmem
  obtain rfl := hnum.distinct (t := t) (by simp only [allotted, ht]; rfl) ht'
  rw [ht] at hm'
  cases hm'

/-- Two threads that call the same procedure. -/
private def twoCalls (t : Bool) : CallMethod .u16 :=
  if t then .callWithBytes ⟨1⟩ .empty else .startCallWithPartialBytes ⟨1⟩ ⟨[14], by decide⟩

private def newWire : Site .u16 := ⟨.new, .new ⟨0⟩ false 4⟩

private theorem twoCalls_allots (t : Bool) : (twoCalls t).allots = true := by cases t <;> rfl

/-- One thread up to its index, then the other. -/
private theorem twoCalls_reaches : Reaches (step true twoCalls) (FirstAlone twoCalls) (start newWire)
    ([true, true, true, false, false].foldl (step true twoCalls) (start newWire)) := by
  refine .next (.next (.next (.next (.next .start nofun) ?_) nofun) nofun) ?_
  all_goals
    intro _ t' _
    cases t' <;> nofun

theorem allotted_distinct_two :
    allotted twoCalls ([true, true, true, false, false].foldl (step true twoCalls) (start newWire)) false ≠
      allotted twoCalls ([true, true, true, false, false].foldl (step true twoCalls) (start newWire)) true := fun h =>
  absurd ((allotted_distinct twoCalls_allots (by decide) _ _ _ _ twoCalls_reaches).1 false true (⟨1⟩, ⟨1⟩) rfl
    (h.symm.trans rfl)) (by decide)

/-- Two first calls of a procedure get the same index. -/
theorem not_allotted_distinct_first :
    ¬ ∀ x : Callers Bool .u16, Reaches (step true twoCalls) (fun _ _ => True) (start newWire) x →
      ∀ t t' k, x.allotted twoCalls t = some k → x.allotted twoCalls t' = some k → t = t' := by
  intro h
  have hrun := (Reaches.start : Reaches (step true twoCalls) (fun _ _ => True) (start newWire) _).foldl
    [false, true, false, true, false, true] fun _ _ _ => trivial
  exact absurd (h _ hrun false true (⟨1⟩, ⟨0⟩) (by decide +kernel) (by decide +kernel)) (by decide)

end Callers

end Ipfi
