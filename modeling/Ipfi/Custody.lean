import Ipfi.CallBranch
import Ipfi.ResponseBranch

/-!
# Custody of message buffers

A buffer is held by a call that is being received or by a call whose response is awaited, and the handles of a wire
know the completion locks of its responses.  Custody says that what is held can be written to, that nothing is held
twice, and that a wire knows only its own locks.  It is what keeps the wires of an interface apart.
-/

namespace Ipfi

variable {w : IntFeature}

/-- What holds a message buffer: a call being received, or a call made by the `k`-th wire. -/
inductive Owner (w : IntFeature)
  | args (key : CallKey w)
  | response (k : Nat) (call : ProcedureIndex w × CallIndex w)

open Interface (Evolves Edits Open)

structure Custody (i : Interface w) (own : Owner w → Option (IpfiInteger w)) (marked : Nat → LockRef → Prop) :
    Prop where
  wellFormed : i.WellFormed
  opened : ∀ {o b}, own o = some b → i.Open b
  inj : ∀ {o o' b}, own o = some b → own o' = some b → o = o'
  lt : ∀ {k l}, marked k l → l < i.lockCount
  mine : ∀ {k o b m}, marked k m.completeLock → own o = some b → i.messages.lookup b = some m →
    ∃ call, o = .response k call
  apart : ∀ {k k' l}, marked k l → marked k' l → k = k'

namespace Custody

variable {i i' : Interface w} {own own' : Owner w → Option (IpfiInteger w)} {marked marked' : Nat → LockRef → Prop}

/-- Custody survives a step after which every owner has a buffer it had, still open, or a new one of its own. -/
theorem evolve {touched : IpfiInteger w → Prop} (h : Custody i own marked) (he : Evolves i i' touched)
    (hown : ∀ {o b}, own' o = some b → own o = some b ∧ (touched b → i'.Open b) ∨
      b ∉ i.messages ∧ i'.Open b ∧ ∀ {o'}, own' o' = some b → o' = o) : Custody i' own' marked := by
  have hold : ∀ {o b}, own o = some b → b ∈ i.messages := fun ho => (h.opened ho).mem
  constructor
  · exact he.wellFormed
  · intro o b ho
    rcases hown ho with ⟨hob, hopen⟩ | ⟨-, hopen, -⟩
    · by_cases hb : touched b
      · exact hopen hb
      · exact (he.same b hb).open (h.opened hob)
    · exact hopen
  · intro o o' b ho ho'
    rcases hown ho with ⟨hob, -⟩ | ⟨-, -, huniq⟩
    · rcases hown ho' with ⟨hob', -⟩ | ⟨hnew, -, -⟩
      · exact h.inj hob hob'
      · exact absurd (hold hob) hnew
    · exact (huniq ho').symm
  · intro k l hl
    exact (h.lt hl).trans_le he.later.lockCount
  · intro k o b m' hl ho hm'
    rcases he.kept hm' with ⟨m, hm, hlock⟩ | hfresh
    · rcases hown ho with ⟨hob, -⟩ | ⟨hnew, -, -⟩
      · exact h.mine (hlock ▸ hl) hob hm
      · exact absurd (AList.mem_of_lookup hm) hnew
    · exact absurd (h.lt hl) (Nat.not_lt.2 hfresh)
  · exact h.apart

/-- A step on buffers that nothing holds. -/
theorem evolve_free {touched : IpfiInteger w → Prop} (h : Custody i own marked) (he : Evolves i i' touched)
    (hsub : ∀ {o b}, own' o = some b → own o = some b) (hfree : ∀ {o b}, own' o = some b → ¬ touched b) :
    Custody i' own' marked :=
  h.evolve he fun ho => .inl ⟨hsub ho, fun hb => absurd hb (hfree ho)⟩

theorem mono (h : Custody i own marked) (hown : ∀ {o b}, own' o = some b → own o = some b)
    (hmarked : ∀ {k l}, marked' k l → marked k l) : Custody i own' marked' where
  wellFormed := h.wellFormed
  opened ho := h.opened (hown ho)
  inj ho ho' := h.inj (hown ho) (hown ho')
  lt hl := h.lt (hmarked hl)
  mine hl ho := h.mine (hmarked hl) (hown ho)
  apart hl hl' := h.apart (hmarked hl) (hmarked hl')

/-- Only the messages, their identifiers and their locks matter. -/
theorem of_messages (h : Custody i own marked) (hw : i'.WellFormed) (hm : i'.messages = i.messages)
    (hl : i'.locks = i.locks) (hc : i.lockCount ≤ i'.lockCount) : Custody i' own marked where
  wellFormed := hw
  opened ho := by
    obtain ⟨m, hb, hlock⟩ := h.opened ho
    exact ⟨m, hm ▸ hb, hl ▸ hlock⟩
  inj := h.inj
  lt hk := (h.lt hk).trans_le hc
  mine hk ho hb := h.mine hk ho (hm ▸ hb)
  apart := h.apart

/-- A wire may learn the lock of a response of its own. -/
theorem mark {k : Nat} {call : ProcedureIndex w × CallIndex w} {b : IpfiInteger w} {m : MessageBuffer}
    (h : Custody i own marked) (ho : own (.response k call) = some b) (hm : i.messages.lookup b = some m)
    (hmarked : ∀ {j l}, marked' j l → marked j l ∨ j = k ∧ l = m.completeLock) : Custody i own marked' := by
  -- whoever knows the lock already is the wire itself
  have hself : ∀ {j}, marked j m.completeLock → j = k := by
    intro j hl
    obtain ⟨call', heq⟩ := h.mine hl ho hm
    exact (Owner.response.inj heq).1.symm
  constructor
  · exact h.wellFormed
  · exact h.opened
  · exact h.inj
  · intro j l hl
    rcases hmarked hl with hl | ⟨-, rfl⟩
    · exact h.lt hl
    · exact h.wellFormed.lock_lt hm
  · intro j o b' m' hl ho' hm'
    rcases hmarked hl with hl | ⟨rfl, hlock⟩
    · exact h.mine hl ho' hm'
    · obtain rfl := h.wellFormed.lock_inj hm' hm hlock
      exact ⟨call, h.inj ho' ho⟩
  · intro j j' l hl hl'
    rcases hmarked hl with hl | ⟨rfl, rfl⟩ <;> rcases hmarked hl' with hl' | ⟨rfl, heq⟩
    · exact h.apart hl hl'
    · exact hself (heq ▸ hl)
    · exact (hself hl').symm
    · rfl

/-- A wire may learn the lock of a buffer that nothing holds. -/
theorem mark_free {k : Nat} {b : IpfiInteger w} {m : MessageBuffer} (h : Custody i own marked)
    (hm : i.messages.lookup b = some m) (hfree : ∀ o, own o ≠ some b) (hself : ∀ j, marked j m.completeLock → j = k)
    (hmarked : ∀ {j l}, marked' j l → marked j l ∨ j = k ∧ l = m.completeLock) : Custody i own marked' where
  wellFormed := h.wellFormed
  opened := h.opened
  inj := h.inj
  lt hl := by
    rcases hmarked hl with hl | ⟨-, rfl⟩
    · exact h.lt hl
    · exact h.wellFormed.lock_lt hm
  mine hl ho hm' := by
    rcases hmarked hl with hl | ⟨-, hlock⟩
    · exact h.mine hl ho hm'
    · exact absurd (h.wellFormed.lock_inj hm' hm hlock ▸ ho) (hfree _)
  apart hl hl' := by
    rcases hmarked hl with hl | ⟨rfl, rfl⟩ <;> rcases hmarked hl' with hl' | ⟨rfl, heq⟩
    · exact h.apart hl hl'
    · exact hself _ (heq ▸ hl)
    · exact (hself _ hl').symm
    · rfl

/-- A buffer that nothing holds and whose lock nobody knows may be taken into custody. -/
theorem give (o₀ : Owner w) {b : IpfiInteger w} {m : MessageBuffer} (h : Custody i own marked)
    (hb : i.messages.lookup b = some m) (hl : i.locks m.completeLock ≠ .complete) (hfree : ∀ o, own o ≠ some b)
    (hmarked : ∀ k, ¬ marked k m.completeLock)
    (hown : ∀ {o b'}, own' o = some b' → own o = some b' ∨ o = o₀ ∧ b' = b) : Custody i own' marked := by
  constructor
  · exact h.wellFormed
  · intro o b' ho
    rcases hown ho with ho | ⟨-, rfl⟩
    · exact h.opened ho
    · exact ⟨m, hb, hl⟩
  · intro o o' b' ho ho'
    rcases hown ho with ho | ⟨rfl, rfl⟩ <;> rcases hown ho' with ho' | ⟨rfl, heq⟩
    · exact h.inj ho ho'
    · exact absurd (heq ▸ ho) (hfree o)
    · exact absurd ho' (hfree o')
    · rfl
  · exact h.lt
  · intro k o b' m' hk ho hm'
    rcases hown ho with ho | ⟨rfl, rfl⟩
    · exact h.mine hk ho hm'
    · cases hb.symm.trans hm'
      exact absurd hk (hmarked k)
  · exact h.apart

/-- What is held has a lock that nothing else held has. -/
theorem lock_inj {o o' : Owner w} {b b' : IpfiInteger w} {m m' : MessageBuffer} (h : Custody i own marked)
    (ho : own o = some b) (ho' : own o' = some b') (hm : i.messages.lookup b = some m)
    (hm' : i.messages.lookup b' = some m') (hl : m.completeLock = m'.completeLock) : o = o' := by
  obtain rfl := h.wellFormed.lock_inj hm hm' hl
  exact h.inj ho ho'

end Custody

end Ipfi
