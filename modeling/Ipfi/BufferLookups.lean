import Ipfi.MessageStore
import Ipfi.Lib.Reach
import Ipfi.Lib.Threads
import Mathlib.Data.Fin.VecNotation
import Mathlib.Data.Fintype.Basic

/-!
# Argument buffers of concurrent readers

`get_call_buffer` looks the call up, and where it has found nothing it pushes a buffer and maps the call to it in
steps of their own.  As long as no reader looks a call up while another one is about to map it, each call has one
buffer, and each buffer made is the one of its call.
-/

namespace Ipfi

variable {w : IntFeature}

/-- Where a thread is in `get_call_buffer`. -/
inductive BufferPlace (w : IntFeature)
  | begin
  /-- The lookup has found nothing. -/
  | pushBuffer
  /-- The buffer has been made; before its insertion into the map. -/
  | mapBuffer (b : IpfiInteger w)
  | returned (b : IpfiInteger w)
  deriving DecidableEq

namespace BufferPlace

/-- The next atomic step of a thread that gets the buffer of the call. -/
def next (key : CallKey w) (a : BufferPlace w) (i : Interface w) : BufferPlace w × Interface w :=
  match a with
  | .begin =>
    match i.callToBufferMap.lookup key with
    | some b => (.returned b, i)
    | none => (.pushBuffer, i)
  | .pushBuffer => (.mapBuffer i.push.1, i.push.2)
  | .mapBuffer b => (.returned b, { i with callToBufferMap := i.callToBufferMap.insert key b })
  | .returned b => (.returned b, i)

variable {key : CallKey w} {i : Interface w} {b : IpfiInteger w}

/-- A call that no other comes in between of is `getCallBuffer`. -/
theorem next_alone (key : CallKey w) (i : Interface w) :
    let x := next key .begin i
    let y := next key x.1 x.2
    next key y.1 y.2 = (.returned (i.getCallBuffer key).1, (i.getCallBuffer key).2) := by
  cases hl : i.callToBufferMap.lookup key <;> simp [next, Interface.getCallBuffer, hl]

/-- Whether the thread has found nothing and has yet to map the call. -/
def missed : BufferPlace w → Bool
  | .pushBuffer | .mapBuffer _ => true
  | _ => false

inductive Moves (key : CallKey w) (i : Interface w) : BufferPlace w → BufferPlace w → Interface w → Prop
  | found (b : IpfiInteger w) : i.callToBufferMap.lookup key = some b → Moves key i .begin (.returned b) i
  | missed : i.callToBufferMap.lookup key = none → Moves key i .begin .pushBuffer i
  | pushed : Moves key i .pushBuffer (.mapBuffer i.push.1) i.push.2
  | mapped (b : IpfiInteger w) :
      Moves key i (.mapBuffer b) (.returned b) { i with callToBufferMap := i.callToBufferMap.insert key b }
  | returned (b : IpfiInteger w) : Moves key i (.returned b) (.returned b) i

theorem next_moves (key : CallKey w) (a : BufferPlace w) (i : Interface w) :
    Moves key i a (next key a i).1 (next key a i).2 := by
  cases a with
  | begin =>
    cases hl : i.callToBufferMap.lookup key with
    | some b =>
      have hn : next key .begin i = (.returned b, i) := by simp [next, hl]
      rw [hn]
      exact .found b hl
    | none =>
      have hn : next key .begin i = (.pushBuffer, i) := by simp [next, hl]
      rw [hn]
      exact .missed hl
  | pushBuffer => exact .pushed
  | mapBuffer b => exact .mapped b
  | returned b => exact .returned b

end BufferPlace

/-- Every call in the map has a buffer of its own. -/
structure Interface.Keyed (i : Interface w) : Prop where
  wellFormed : i.WellFormed
  live : ∀ {key b}, i.callToBufferMap.lookup key = some b → b ∈ i.messages
  inj : ∀ {key key' b}, i.callToBufferMap.lookup key = some b → i.callToBufferMap.lookup key' = some b → key = key'

theorem Interface.new_keyed : (new : Interface w).Keyed where
  wellFormed := new_wellFormed
  live h := by simp [new] at h
  inj h := by simp [new] at h

/-- Threads that get buffers from one interface. -/
abbrev BufferUsers (ι : Type) (w : IntFeature) : Type := Threads ι (Interface w) (BufferPlace w)

namespace BufferUsers

variable {ι : Type} [DecidableEq ι] {keys : ι → CallKey w} {i : Interface w} {x y : BufferUsers ι w} {t : ι}

/-- All threads before their first steps. -/
def start (i : Interface w) : BufferUsers ι w := ⟨i, fun _ => .begin⟩

def step (keys : ι → CallKey w) (x : BufferUsers ι w) (t : ι) : BufferUsers ι w :=
  Threads.step (fun t a s => BufferPlace.next (keys t) a s) x t

/-- Nobody looks up a call that another thread is about to map, and there is room for what is pushed. -/
def MapsAlone (keys : ι → CallKey w) (x : BufferUsers ι w) (t : ι) : Prop :=
  (x.place t = .begin → ∀ t', keys t' = keys t → (x.place t').missed = false) ∧
    (x.place t = .pushBuffer → x.shared.messages.size < 2 ^ w.bits)

/-- The buffer is that of the call, or about to become it. -/
def Assigned (keys : ι → CallKey w) (x : BufferUsers ι w) (key : CallKey w) (b : IpfiInteger w) : Prop :=
  x.shared.callToBufferMap.lookup key = some b ∨ ∃ t, keys t = key ∧ x.place t = .mapBuffer b

/-- Every buffer made is assigned to the call it was made for, and to no other. -/
structure OneEach (i : Interface w) (keys : ι → CallKey w) (x : BufferUsers ι w) : Prop where
  wellFormed : x.shared.WellFormed
  live : ∀ {key b}, x.Assigned keys key b → b ∈ x.shared.messages
  inj : ∀ {key key' b}, x.Assigned keys key b → x.Assigned keys key' b → key = key'
  unmapped : ∀ {t}, (x.place t).missed = true → x.shared.callToBufferMap.lookup (keys t) = none
  alone : ∀ {t t'}, (x.place t).missed = true → (x.place t').missed = true → keys t = keys t' → t = t'
  returned : ∀ {t b}, x.place t = .returned b → x.shared.callToBufferMap.lookup (keys t) = some b
  allocated : ∀ {b}, b ∈ x.shared.messages → b ∈ i.messages ∨ ∃ t, x.Assigned keys (keys t) b

omit [DecidableEq ι] in
theorem start_oneEach (h : i.Keyed) : (start i : BufferUsers ι w).OneEach i keys := by
  have hmapped : ∀ {key b}, (start i : BufferUsers ι w).Assigned keys key b →
      i.callToBufferMap.lookup key = some b := by
    rintro key b (hl | ⟨t, -, ht⟩)
    · exact hl
    · cases ht
  constructor
  · exact h.wellFormed
  · exact fun hb => h.live (hmapped hb)
  · exact fun hb hb' => h.inj (hmapped hb) (hmapped hb')
  · intro t ht; cases ht
  · intro t t' ht; cases ht
  · intro t b ht; cases ht
  · exact fun hb => .inl hb

/-! ### A step of one thread -/

section
variable (hother : ∀ t' ≠ t, y.place t' = x.place t')
include hother

/-- A thread that has no buffer in hand before and after its step. -/
private theorem assigned_congr (hmap : y.shared.callToBufferMap = x.shared.callToBufferMap)
    (hx : ∀ b, x.place t ≠ .mapBuffer b) (hy : ∀ b, y.place t ≠ .mapBuffer b) {key : CallKey w} {b : IpfiInteger w} :
    y.Assigned keys key b ↔ x.Assigned keys key b := by
  have hplace : ∀ t', y.place t' = .mapBuffer b ↔ x.place t' = .mapBuffer b := by
    intro t'
    by_cases he : t' = t
    · rw [he]; exact iff_of_false (hy b) (hx b)
    · rw [hother t' he]
  simp only [Assigned, hmap, hplace]

private theorem missed_of_step (ht : (y.place t).missed = true → (x.place t).missed = true) {t' : ι}
    (h : (y.place t').missed = true) : (x.place t').missed = true := by
  by_cases he : t' = t
  · subst he; exact ht h
  · rwa [← hother t' he]

private theorem OneEach.returned_step (h : x.OneEach i keys)
    (ht : ∀ b, y.place t = .returned b → y.shared.callToBufferMap.lookup (keys t) = some b)
    (hmono : ∀ key b, x.shared.callToBufferMap.lookup key = some b → y.shared.callToBufferMap.lookup key = some b)
    {t' : ι} {b : IpfiInteger w} (hb : y.place t' = .returned b) :
    y.shared.callToBufferMap.lookup (keys t') = some b := by
  by_cases he : t' = t
  · subst he; exact ht b hb
  · exact hmono _ _ (h.returned ((hother t' he).symm.trans hb))

/-- A thread that neither makes a buffer nor maps a call. -/
private theorem OneEach.look (h : x.OneEach i keys) (hs : y.shared = x.shared) (hx : ∀ b, x.place t ≠ .mapBuffer b)
    (hy : ∀ b, y.place t ≠ .mapBuffer b)
    (hret : ∀ b, y.place t = .returned b → y.shared.callToBufferMap.lookup (keys t) = some b)
    (hmiss : (y.place t).missed = true → x.shared.callToBufferMap.lookup (keys t) = none ∧
      ∀ t', keys t' = keys t → (x.place t').missed = false) : y.OneEach i keys := by
  have hassigned : ∀ {key b}, y.Assigned keys key b ↔ x.Assigned keys key b :=
    assigned_congr hother (by rw [hs]) hx hy
  -- nobody else has found the call of `t` unmapped
  have hnew : ∀ t', (y.place t').missed = true → t' = t ∨ (x.place t').missed = true := by
    intro t' ht'
    by_cases he : t' = t
    · exact .inl he
    · exact .inr (hother t' he ▸ ht')
  constructor
  · rw [hs]; exact h.wellFormed
  · exact fun hb => hs ▸ h.live (hassigned.1 hb)
  · exact fun hb hb' => h.inj (hassigned.1 hb) (hassigned.1 hb')
  · intro t' ht'
    rw [hs]
    rcases hnew t' ht' with rfl | hm
    · exact (hmiss ht').1
    · exact h.unmapped hm
  · intro t₁ t₂ h₁ h₂ hk
    rcases hnew t₁ h₁ with rfl | hm₁ <;> rcases hnew t₂ h₂ with rfl | hm₂
    · rfl
    · exact absurd hm₂ (by simp [(hmiss h₁).2 t₂ hk.symm])
    · exact absurd hm₁ (by simp [(hmiss h₂).2 t₁ hk])
    · exact h.alone hm₁ hm₂ hk
  · exact h.returned_step hother hret fun _ _ => hs ▸ id
  · exact fun hb => (h.allocated (hs ▸ hb)).imp_right fun ⟨t', ht'⟩ => ⟨t', hassigned.2 ht'⟩

private theorem OneEach.push (h : x.OneEach i keys) (hroom : x.shared.messages.size < 2 ^ w.bits)
    (hs : y.shared = x.shared.push.2) (hx : x.place t = .pushBuffer) (hy : y.place t = .mapBuffer x.shared.push.1) :
    y.OneEach i keys := by
  have hfresh := Interface.push_notMem h.wellFormed hroom
  have hmap : y.shared.callToBufferMap = x.shared.callToBufferMap := by rw [hs]; rfl
  have hmem : ∀ {b}, b ∈ y.shared.messages ↔ b = x.shared.push.1 ∨ b ∈ x.shared.messages := by
    intro b
    rw [hs, Interface.push, AList.mem_insert]
  have hmissed : ∀ {t'}, (y.place t').missed = true → (x.place t').missed = true :=
    missed_of_step hother fun _ => by rw [hx]; rfl
  -- the new identifier is assigned to the thread that is about to map it
  have hassigned : ∀ {key b}, y.Assigned keys key b ↔ x.Assigned keys key b ∨ key = keys t ∧ b = x.shared.push.1 := by
    intro key b
    constructor
    · rintro (hl | ⟨t', hk, hb⟩)
      · exact .inl (.inl (hmap ▸ hl))
      · by_cases he : t' = t
        · subst he
          cases hy.symm.trans hb
          exact .inr ⟨hk.symm, rfl⟩
        · exact .inl (.inr ⟨t', hk, (hother t' he).symm.trans hb⟩)
    · rintro ((hl | ⟨t', hk, hb⟩) | ⟨rfl, rfl⟩)
      · exact .inl (hmap ▸ hl)
      · have hne : t' ≠ t := by rintro rfl; cases hx.symm.trans hb
        exact .inr ⟨t', hk, (hother t' hne).trans hb⟩
      · exact .inr ⟨t, rfl, hy⟩
  constructor
  · rw [hs]
    exact Interface.push_wellFormed h.wellFormed hroom
  · intro key b hb
    rw [hmem]
    rcases hassigned.1 hb with hb | ⟨-, he⟩
    · exact .inr (h.live hb)
    · exact .inl he
  · intro key key' b hb hb'
    rcases hassigned.1 hb with hb | ⟨hk, he⟩ <;> rcases hassigned.1 hb' with hb' | ⟨hk', he'⟩
    · exact h.inj hb hb'
    · exact absurd (he' ▸ h.live hb) hfresh
    · exact absurd (he ▸ h.live hb') hfresh
    · rw [hk, hk']
  · exact fun ht => hmap ▸ h.unmapped (hmissed ht)
  · exact fun ht ht' => h.alone (hmissed ht) (hmissed ht')
  · exact h.returned_step hother (fun b hb => nomatch hy.symm.trans hb) fun _ _ => hmap ▸ id
  · intro b hb
    rcases hmem.1 hb with rfl | hb
    · exact .inr ⟨t, hassigned.2 (.inr ⟨rfl, rfl⟩)⟩
    · exact (h.allocated hb).imp_right fun ⟨t', ht'⟩ => ⟨t', hassigned.2 (.inl ht')⟩

private theorem OneEach.map (h : x.OneEach i keys) {b : IpfiInteger w}
    (hs : y.shared = { x.shared with callToBufferMap := x.shared.callToBufferMap.insert (keys t) b })
    (hx : x.place t = .mapBuffer b) (hy : y.place t = .returned b) : y.OneEach i keys := by
  have hmissed : ∀ {t'}, (y.place t').missed = true → (x.place t').missed = true :=
    missed_of_step hother fun _ => by rw [hx]; rfl
  have hlook : ∀ key, y.shared.callToBufferMap.lookup key =
      if key = keys t then some b else x.shared.callToBufferMap.lookup key := fun key => by
    rw [hs, AList.lookup_insert_eq]
  have hmessages : y.shared.messages = x.shared.messages := by rw [hs]
  have hun := h.unmapped (t := t) (by rw [hx]; rfl)
  have hmono : ∀ key b', x.shared.callToBufferMap.lookup key = some b' →
      y.shared.callToBufferMap.lookup key = some b' := by
    intro key b' hl
    have hne : key ≠ keys t := by rintro rfl; cases hun.symm.trans hl
    rw [hlook, if_neg hne, hl]
  -- what was assigned to the thread is assigned by the map now
  have hassigned : ∀ {key b'}, y.Assigned keys key b' ↔ x.Assigned keys key b' := by
    intro key b'
    constructor
    · rintro (hl | ⟨t', hk, hb'⟩)
      · rw [hlook] at hl
        split at hl
        · cases hl
          exact .inr ⟨t, Eq.symm ‹_›, hx⟩
        · exact .inl hl
      · have hne : t' ≠ t := by rintro rfl; cases hy.symm.trans hb'
        exact .inr ⟨t', hk, (hother t' hne).symm.trans hb'⟩
    · rintro (hl | ⟨t', hk, hb'⟩)
      · exact .inl (hmono _ _ hl)
      · by_cases he : t' = t
        · subst he
          cases hx.symm.trans hb'
          exact .inl (by rw [hlook, if_pos hk.symm])
        · exact .inr ⟨t', hk, (hother t' he).trans hb'⟩
  constructor
  · rw [hs]
    exact h.wellFormed.congr rfl rfl (Nat.le_refl _) (Nat.le_refl _) fun _ => id
  · exact fun hb => hmessages ▸ h.live (hassigned.1 hb)
  · exact fun hb hb' => h.inj (hassigned.1 hb) (hassigned.1 hb')
  · intro t' ht'
    have hne : keys t' ≠ keys t := by
      intro hk
      obtain rfl := h.alone (hmissed ht') (by rw [hx]; rfl) hk
      rw [hy] at ht'
      cases ht'
    rw [hlook, if_neg hne]
    exact h.unmapped (hmissed ht')
  · exact fun ht ht' => h.alone (hmissed ht) (hmissed ht')
  · refine h.returned_step hother (fun b' hb' => ?_) hmono
    cases hy.symm.trans hb'
    rw [hlook, if_pos rfl]
  · exact fun hb => (h.allocated (hmessages ▸ hb)).imp_right fun ⟨t', ht'⟩ => ⟨t', hassigned.2 ht'⟩

end

theorem OneEach.step (h : x.OneEach i keys) (ha : MapsAlone keys x t) : (x.step keys t).OneEach i keys := by
  have hmoves := BufferPlace.next_moves (keys t) (x.place t) x.shared
  have hself : (x.step keys t).place t = (BufferPlace.next (keys t) (x.place t) x.shared).1 :=
    Threads.step_place_self ..
  have hshared : (x.step keys t).shared = (BufferPlace.next (keys t) (x.place t) x.shared).2 := rfl
  have hother : ∀ t' ≠ t, (x.step keys t).place t' = x.place t' := fun t' ht' => Threads.step_place_of_ne ht'
  rw [← hself, ← hshared] at hmoves
  clear hself hshared
  generalize x.step keys t = y at *
  obtain ⟨hlone, hroom⟩ := ha
  generalize hx : x.place t = a at hmoves hlone hroom
  generalize hy : y.place t = a' at hmoves
  generalize hs : y.shared = i' at hmoves
  cases hmoves with
  | found b hl =>
    refine h.look hother hs (by rw [hx]; nofun) (by rw [hy]; nofun) ?_ (by rw [hy]; nofun)
    rw [hy, hs]
    rintro _ ⟨⟩
    exact hl
  | missed hl =>
    exact h.look hother hs (by rw [hx]; nofun) (by rw [hy]; nofun) (by rw [hy]; nofun) fun _ => ⟨hl, hlone rfl⟩
  | pushed => exact h.push hother (hroom rfl) hs hx hy
  | mapped b => exact h.map hother hs hx hy
  | returned b =>
    refine h.look hother hs (by rw [hx]; nofun) (by rw [hy]; nofun) ?_ (by rw [hy]; nofun)
    rw [hy, hs]
    rintro _ ⟨⟩
    exact h.returned hx

/-- Where no call is looked up while another thread is about to map it, each call gets one buffer of its own, and every
buffer made is that of its call. -/
theorem one_buffer_each (hi : i.Keyed) (hx : Reaches (step keys) (MapsAlone keys) (start i) x) :
    (∀ t t' b b', x.place t = .returned b → x.place t' = .returned b' → (b = b' ↔ keys t = keys t')) ∧
      (∀ t b, x.place t = .returned b → x.shared.callToBufferMap.lookup (keys t) = some b) ∧
      ∀ b ∈ x.shared.messages, b ∉ i.messages →
        ∃ t, x.place t = .mapBuffer b ∨ x.shared.callToBufferMap.lookup (keys t) = some b := by
  have h : x.OneEach i keys := hx.invariant (start_oneEach hi) fun _ _ h ha => h.step ha
  refine ⟨fun t t' b b' ht ht' => ⟨?_, fun hk => ?_⟩, fun t b ht => h.returned ht, fun b hb hnew => ?_⟩
  · rintro rfl
    exact h.inj (.inl (h.returned ht)) (.inl (h.returned ht'))
  · exact Option.some.inj ((h.returned ht).symm.trans (hk ▸ h.returned ht'))
  · rcases h.allocated hb with hb | ⟨t, hl | ⟨t', -, ht'⟩⟩
    · exact absurd hb hnew
    · exact ⟨t, .inr hl⟩
    · exact ⟨t', .inl ht'⟩

/-- Two readers of one wire that receive parts of the arguments of one call, and a third one of another call. -/
private def readers : Fin 3 → CallKey .u8 := ![(⟨0⟩, ⟨0⟩, ⟨0⟩), (⟨0⟩, ⟨0⟩, ⟨0⟩), (⟨0⟩, ⟨1⟩, ⟨0⟩)]

private theorem readers_reaches : Reaches (step readers) (MapsAlone readers) (start .new)
    ([0, 2, 0, 2, 0, 1, 2].foldl (step readers) (start .new)) := by
  refine .next (.next (.next (.next (.next (.next (.next .start ?_) ?_) ?_) ?_) ?_) ?_) ?_
  all_goals exact ⟨by decide +kernel, by decide +kernel⟩

theorem one_buffer_each_reused :
    ([0, 2, 0, 2, 0, 1, 2].foldl (step readers) (start .new)).shared.callToBufferMap.lookup (readers 1) =
      some (0 : IpfiInteger .u8) :=
  (one_buffer_each Interface.new_keyed readers_reaches).2.1 1 0 (by decide +kernel)

/-- Two readers that both look the call up before either has mapped it get different buffers. -/
theorem not_one_buffer_each :
    ¬ ∀ x : BufferUsers (Fin 3) .u8, Reaches (step readers) (fun _ _ => True) (start .new) x →
      ∀ t t' b b', x.place t = .returned b → x.place t' = .returned b' → readers t = readers t' → b = b' := by
  intro h
  have hrun := (Reaches.start : Reaches (step readers) (fun _ _ => True) (start .new) _).foldl
    [0, 1, 0, 1, 0, 1] fun _ _ _ => trivial
  exact absurd (h _ hrun 0 1 0 1 (by decide +kernel) (by decide +kernel) rfl) (by decide)

end BufferUsers

end Ipfi
