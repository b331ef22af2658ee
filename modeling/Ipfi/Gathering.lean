import Ipfi.Confinement
import Ipfi.Serving

/-!
# What is gathered for a call

A message of a call that is within the limit adds its bytes to what has been gathered for that call; the last message
calls the procedure on all of it, and then nothing is gathered any more.  What is gathered for other calls stays.
-/

namespace Ipfi

variable {w : IntFeature}

open Interface (Stays)

namespace Site

variable {s s' : Site w} {x : Surroundings w} {p p' : ProcedureIndex w} {c c' : CallIndex w} {t : Terminator}
  {bytes acc : List UInt8}

theorem Gathers.stays {i i' : Interface w} {b : IpfiInteger w} (h : Gathers i b acc) (hs : Stays i i' b) :
    Gathers i' b acc := by
  obtain ⟨m, hm, hl, hc⟩ := h
  obtain ⟨m', hm', hc', hlock, hl'⟩ := hs m hm hl
  exact ⟨m', hm', by rwa [hlock, hl'], hc'.trans hc⟩

/-- What has been gathered depends on the argument buffer only. -/
theorem Holds.of_stays (h : s.Holds p c acc) (hid : s'.wire.id = s.wire.id) (hlook : s'.interface.callToBufferMap.lookup
    (p, c, s.wire.id) = s.interface.callToBufferMap.lookup (p, c, s.wire.id))
    (hstays : ∀ b, s.interface.callToBufferMap.lookup (p, c, s.wire.id) = some b → Stays s.interface s'.interface b) :
    s'.Holds p c acc := by
  unfold Holds at h ⊢
  rw [hid, hlook]
  split at h
  · rename_i b hb
    exact h.stays (hstays b hb)
  · exact h

theorem Holds.of_works {o₀ : Owner w} (h : s.Holds p c acc) (hworks : Works x o₀ s s')
    (hne : .args (p, c, s.wire.id) ≠ o₀) : s'.Holds p c acc :=
  h.of_stays hworks.id (hworks.own hne) fun _ hb => (hworks.same hne hb).stays

theorem Holds.congr (h : s.Holds p c acc) (hi : s'.interface = s.interface) (hid : s'.wire.id = s.wire.id) :
    s'.Holds p c acc := by
  unfold Holds at h ⊢
  rwa [hi, hid]

theorem holds_nil (h : s.interface.callToBufferMap.lookup (p, c, s.wire.id) = none) : s.Holds p c [] := by
  unfold Holds
  rw [h]

theorem holds_of_gathers {b : IpfiInteger w} (hb : s.interface.callToBufferMap.lookup (p, c, s.wire.id) = some b)
    (h : Gathers s.interface b acc) : s.Holds p c acc := by
  unfold Holds
  rwa [hb]

/-! ### The argument buffer of one call -/

section

variable {procedure : Procedure w}

/-- The bytes have been gathered for the call of the procedure, in a buffer that nobody streams. -/
structure Accepts (s : Site w) (p : ProcedureIndex w) (c : CallIndex w) (procedure : Procedure w) (acc : List UInt8) :
    Prop where
  registered : s.interface.procedures.lookup p = some procedure
  holds : s.Holds p c acc
  unsent : ∀ {b m}, s.interface.callToBufferMap.lookup (p, c, s.wire.id) = some b →
    s.interface.messages.lookup b = some m → m.sender = none

theorem accepts_nil (hp : s.interface.procedures.lookup p = some procedure)
    (hkey : s.interface.callToBufferMap.lookup (p, c, s.wire.id) = none) : s.Accepts p c procedure [] :=
  ⟨hp, holds_nil hkey, fun hb => absurd (hkey.symm.trans hb) nofun⟩

theorem Accepts.congr (h : s.Accepts p c procedure acc) (hi : s'.interface = s.interface)
    (hid : s'.wire.id = s.wire.id) : s'.Accepts p c procedure acc := by
  refine ⟨hi ▸ h.registered, h.holds.congr hi hid, ?_⟩
  rw [hi, hid]
  exact h.unsent

/-- A step on what others hold. -/
theorem Accepts.of_works {o₀ : Owner w} (h : s.Accepts p c procedure acc)
    (hs : s.InCustody x) (hworks : Works x o₀ s s') (hne : .args (p, c, s.wire.id) ≠ o₀)
    (hp : s'.interface.procedures = s.interface.procedures) : s'.Accepts p c procedure acc := by
  refine ⟨hp ▸ h.registered, h.holds.of_works hworks hne, fun {b m} hb hm => ?_⟩
  rw [hworks.id] at hb
  have hb' : s.interface.callToBufferMap.lookup (p, c, s.wire.id) = some b := (hworks.own hne).symm.trans hb
  obtain ⟨m', hm', -⟩ := hs.args_open hb'
  cases ((hworks.same hne hb') m' hm').1.symm.trans hm
  exact h.unsent hb' hm'

theorem Accepts.admitted (h : s.Accepts p c procedure acc) :
    ∃ m, (s.admitCall p c).interface.messages.lookup (s.bufferOf p c) = some m ∧
      (s.admitCall p c).interface.locks m.completeLock ≠ .complete ∧ m.chunks = [acc] ∧ m.sender = none := by
  obtain ⟨m, hm, hl, hc⟩ := admitCall_gathers h.holds
  refine ⟨m, hm, hl, hc, ?_⟩
  rcases admitCall_buffer hm with ⟨-, b, hb, hmb⟩ | hnone
  · exact h.unsent hb hmb
  · exact hnone

/-- A message that does not end the call. -/
theorem Accepts.piece (h : s.Accepts p c procedure acc) (hrej : ¬ s.Rejects p c) (ht : t ≠ .complete)
    (bytes : List UInt8) :
    ∃ s', (receiveCall p c t bytes).run s = .ok (some false) s' ∧ s'.wire = (s.admitCall p c).wire ∧
      s'.Accepts p c procedure (acc ++ bytes) := by
  obtain ⟨m, hm, hl, hc, hs⟩ := h.admitted
  have hc' : Interface.extendLast m.chunks bytes = some [acc ++ bytes] := by rw [hc, Interface.extendLast_singleton]
  have hr := Interface.sendMany_run hm hl hc'
  refine ⟨_, receiveCall_run_piece hrej ht hr, rfl, ?_⟩
  have hlook := Interface.lookup_setMessage (s.admitCall p c).interface (s.bufferOf p c) (s.bufferOf p c)
    { m with chunks := [acc ++ bytes] }
  rw [if_pos rfl] at hlook
  have hkey := lookup_admitCall s p c (p, c, s.wire.id)
  rw [if_pos rfl] at hkey
  refine ⟨?_, holds_of_gathers hkey ⟨_, hlook, hl, rfl⟩, fun {b m'} hb hm' => ?_⟩
  · rw [← h.registered]
    exact congrArg _ (Interface.getCallBuffer_later _ _).procedures
  · cases hkey.symm.trans hb
    cases hlook.symm.trans hm'
    exact hs

/-- The message that ends the call. -/
theorem Accepts.complete (h : s.Accepts p c procedure acc) (hrej : ¬ s.Rejects p c) (bytes : List UInt8) :
    ∃ i, (receiveCall p c .complete bytes).run s =
      served ⟨i, (s.admitCall p c).wire⟩ p c (s.bufferOf p c) procedure (acc ++ bytes) := by
  obtain ⟨m, hm, hl, hc, hs⟩ := h.admitted
  obtain ⟨i, -, hr⟩ := receiveCall_run_served hrej h.registered hm hl hc (by simp [hs]) (by simp [hs]) bytes
  exact ⟨i, hr⟩

theorem Accepts.executed (h : s.Accepts p c procedure acc) (hrej : ¬ s.Rejects p c) (bytes : List UInt8) :
    ((receiveCall p c .complete bytes).run s).state.wire.executed = s.wire.executed ++ [((p, c), acc ++ bytes)] := by
  obtain ⟨i, hr⟩ := h.complete hrej bytes
  obtain ⟨i', -, hstate⟩ := served_state ⟨i, (s.admitCall p c).wire⟩ p c (s.bufferOf p c) procedure (acc ++ bytes)
  rw [hr, hstate]
  exact Wire.serve_executed _ _ _ _ _

end

/-! ### Messages of calls -/

variable (h : s.InCustody x) (hroom : s.Begins p c → s.interface.messages.size < 2 ^ w.bits)

include h hroom

/-- A message that does not end its call. -/
theorem receiveCall_gathers (hrej : ¬ s.Rejects p c) (ht : t ≠ .complete) (bytes : List UInt8) :
    ((receiveCall p c t bytes).run s).state.wire.calledOn = s.wire.calledOn ∧
      ∀ acc, s.Holds p c acc → ((receiveCall p c t bytes).run s).state.Holds p c (acc ++ bytes) := by
  obtain ⟨i, hr, he, -, hg⟩ := receiveCall_continue h.wellFormed (fun hnew => hroom ⟨hrej, hnew⟩)
    (fun b hb => h.args_open hb) hrej ht bytes
  rw [hr]
  refine ⟨rfl, fun acc hh => ?_⟩
  have hlook : i.callToBufferMap.lookup (p, c, s.wire.id) = some (s.bufferOf p c) := by
    rw [he.steady.calls, lookup_admitCall, if_pos rfl]
  exact holds_of_gathers hlook (hg acc (admitCall_gathers hh))

/-- The last message of a call. -/
theorem receiveCall_calls (hrej : ¬ s.Rejects p c) (bytes : List UInt8) :
    ((receiveCall p c .complete bytes).run s).state.Holds p c [] ∧
      (((receiveCall p c .complete bytes).run s).state.wire.calledOn = s.wire.calledOn ∨
        p ∈ s.interface.procedures ∧ ∃ args,
          ((receiveCall p c .complete bytes).run s).state.wire.calledOn = s.wire.calledOn ++ [args] ∧
          ∀ acc, s.Holds p c acc → args = acc ++ bytes) := by
  have hid := (receiveCall_works h hroom .complete bytes).id
  obtain ⟨i, -, hcalls, hstate⟩ := receiveCall_complete h.wellFormed (fun hnew => hroom ⟨hrej, hnew⟩)
    (fun b hb => h.args_open hb) hrej bytes
  have hlook : i.callToBufferMap.lookup (p, c, s.wire.id) = none := by
    rw [hcalls, AList.lookup_erase_eq, if_pos rfl]
  rcases hstate with ⟨e, hr⟩ | ⟨procedure, args, hp, hr, hargs⟩ <;> rw [hr] at hid ⊢
  · exact ⟨holds_nil hlook, .inl rfl⟩
  · refine ⟨holds_nil (hid.symm ▸ hlook),
      .inr ⟨AList.mem_of_lookup hp, args, Wire.serve_calledOn _ _ _ _ _, fun acc hh => ?_⟩⟩
    exact hargs acc (admitCall_gathers hh)

/-- What is gathered for the call of a message that is within the limit. -/
theorem receiveCall_holds (hrej : ¬ s.Rejects p c) (hh : t ≠ .complete → s.Holds p c acc) (bytes : List UInt8) :
    ((receiveCall p c t bytes).run s).state.Holds p c (if t = .complete then [] else acc ++ bytes) := by
  by_cases ht : t = .complete
  · subst ht
    exact (receiveCall_calls h hroom hrej bytes).1
  · rw [if_neg ht]
    exact (receiveCall_gathers h hroom hrej ht bytes).2 _ (hh ht)

/-- What is gathered for the other calls stays. -/
theorem receiveCall_holds_ne (hne : (p', c') ≠ (p, c)) (hh : s.Holds p' c' acc) (t : Terminator) (bytes : List UInt8) :
    ((receiveCall p c t bytes).run s).state.Holds p' c' acc := by
  refine hh.of_works (receiveCall_works h hroom t bytes) fun heq => hne ?_
  have := Owner.args.inj heq
  rw [(Prod.mk.inj this).1, (Prod.mk.inj (Prod.mk.inj this).2).1]

/-- A procedure is called on what has been gathered, if one is called. -/
theorem receiveCall_calledOn (hrej : ¬ s.Rejects p c)
    (hh : t = .complete → p ∈ s.interface.procedures → s.Holds p c acc) (bytes : List UInt8) :
    ((receiveCall p c t bytes).run s).state.wire.calledOn =
      if s.wire.executions.length < ((receiveCall p c t bytes).run s).state.wire.executions.length
      then s.wire.calledOn ++ [acc ++ bytes] else s.wire.calledOn := by
  have hlen : ∀ {y : Wire w} {n : Nat}, y.calledOn.length = s.wire.calledOn.length + n →
      (s.wire.executions.length < y.executions.length ↔ 0 < n) := by
    intro y n hy
    simp only [Wire.calledOn, List.length_map] at hy
    omega
  by_cases ht : t = .complete
  · subst ht
    obtain ⟨-, hcalls | ⟨hp, args, hcalls, hargs⟩⟩ := receiveCall_calls h hroom hrej bytes
    · rw [if_neg ((hlen (n := 0) (by simp [hcalls])).not.2 (by simp)), hcalls]
    · rw [if_pos ((hlen (n := 1) (by simp [hcalls])).2 (by simp)), hcalls, hargs _ (hh rfl hp)]
  · obtain ⟨hcalls, -⟩ := receiveCall_gathers h hroom hrej ht bytes
    rw [if_neg ((hlen (n := 0) (by simp [hcalls])).not.2 (by simp)), hcalls]

end Site

end Ipfi
