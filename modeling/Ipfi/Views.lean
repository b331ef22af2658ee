import Ipfi.Link
import Ipfi.Lib.Transit

/-!
# What the two sides of a link have told each other

The messages from the caller to the peer amount to the arguments of calls, those from the peer to the caller to replies.
On either way the receiver's view lags behind the sender's by the messages that are still queued or flushed.
-/

namespace Ipfi

variable {w : IntFeature}

/-! ### Pipes -/

/-- The queue of a wire and the bytes flushed from it take the receiver from the view `r` to the sender's view `s`. -/
def Pipe {ρ : Type} (recv : ρ → Message w → ρ) (legal : ρ → Message w → Prop) (queue : List (List UInt8))
    (bytes : List UInt8) (r s : ρ) : Prop :=
  ∃ flushed queued, bytes = encode flushed ∧ queue = queued.map Message.toBytes ∧
    Transit recv legal r (flushed ++ queued) s

namespace Pipe

variable {ρ : Type} {recv : ρ → Message w → ρ} {legal legal' : ρ → Message w → Prop} {queue : List (List UInt8)}
  {bytes : List UInt8} {r s s' : ρ} {m : Message w} {ms : List (Message w)}

theorem empty (r : ρ) : Pipe recv legal [] [] r r := ⟨[], [], rfl, rfl, .nil r⟩

theorem sendAll (h : Pipe recv legal queue bytes r s) (hms : Transit recv legal s ms s') :
    Pipe recv legal (queue ++ ms.map Message.toBytes) bytes r s' := by
  obtain ⟨flushed, queued, rfl, rfl, ht⟩ := h
  refine ⟨flushed, queued ++ ms, rfl, List.map_append.symm, ?_⟩
  rw [← List.append_assoc]
  exact ht.append hms

theorem send (h : Pipe recv legal queue bytes r s) (hm : legal s m) :
    Pipe recv legal (queue ++ [m.toBytes]) bytes r (recv s m) := by
  have hms : Transit recv legal s [m] (recv s m) := .cons hm (.nil _)
  exact h.sendAll hms

theorem flush (h : Pipe recv legal queue bytes r s) : Pipe recv legal [] (bytes ++ queue.flatten) r s := by
  obtain ⟨flushed, queued, rfl, rfl, ht⟩ := h
  refine ⟨flushed ++ queued, [], (encode_append _ _).symm, rfl, ?_⟩
  rwa [List.append_nil]

/-- What has been flushed starts with a whole message. -/
theorem receive (h : Pipe recv legal queue bytes r s) (hne : bytes ≠ []) :
    ∃ m rest, bytes = m.toBytes ++ rest ∧ legal r m ∧ Pipe recv legal queue rest (recv r m) s := by
  obtain ⟨flushed, queued, rfl, rfl, ht⟩ := h
  cases flushed with
  | nil => exact absurd rfl hne
  | cons m flushed =>
    obtain ⟨hm, ht'⟩ := ht.receive
    exact ⟨m, encode flushed, rfl, hm, flushed, queued, rfl, rfl, ht'⟩

/-- With nothing on the way both sides have the same view. -/
theorem eq_of_nil (h : Pipe recv legal [] [] r s) : r = s := by
  obtain ⟨flushed, queued, hf, hq, ht⟩ := h
  obtain rfl : queued = [] := by simpa using hq.symm
  cases flushed with
  | nil => exact ht.eq_of_nil
  | cons m flushed =>
    have := congrArg List.length hf
    have hpos := List.length_pos_of_ne_nil (Message.toBytes_ne_nil m)
    simp at this
    omega

theorem mono (h : Pipe recv legal queue bytes r s) (himp : ∀ r m, legal r m → legal' r m) :
    Pipe recv legal' queue bytes r s := by
  obtain ⟨flushed, queued, hf, hq, ht⟩ := h
  exact ⟨flushed, queued, hf, hq, ht.mono himp⟩

theorem within {R : ρ → ρ → Prop} [IsPreorder ρ R] (h : Pipe recv legal queue bytes r s)
    (hR : ∀ r m, legal r m → R r (recv r m)) : R r s := by
  obtain ⟨_, _, -, -, ht⟩ := h
  exact ht.within hR

end Pipe

/-! ### Calls -/

/-- What has been sent for each call, the calls that have been opened and not ended, and those that have ended, with
their arguments. -/
structure Asked (w : IntFeature) where
  gathered : ProcedureIndex w × CallIndex w → List UInt8
  opened : Finset (ProcedureIndex w × CallIndex w)
  ended : List ((ProcedureIndex w × CallIndex w) × List UInt8)

namespace Asked

variable {v v' : Asked w} {registered : ProcedureIndex w → Prop} {max : Nat} {k : ProcedureIndex w × CallIndex w}

def none : Asked w := ⟨fun _ => [], ∅, []⟩

/-- A piece of a call. -/
def more (v : Asked w) (k : ProcedureIndex w × CallIndex w) (bytes : List UInt8) : Asked w where
  gathered := Function.update v.gathered k (v.gathered k ++ bytes)
  opened := insert k v.opened
  ended := v.ended

/-- The last piece of a call. -/
def last (v : Asked w) (k : ProcedureIndex w × CallIndex w) (bytes : List UInt8) : Asked w where
  gathered := v.gathered
  opened := v.opened.erase k
  ended := v.ended ++ [(k, v.gathered k ++ bytes)]

def recv (v : Asked w) : Message w → Asked w
  | .call p c t bytes => if t = .complete then v.last (p, c) bytes.val else v.more (p, c) bytes.val
  | _ => v

def pairs (v : Asked w) : List (ProcedureIndex w × CallIndex w) := v.ended.map Prod.fst

theorem pairs_last (v : Asked w) (k : ProcedureIndex w × CallIndex w) (bytes : List UInt8) :
    (v.last k bytes).pairs = v.pairs ++ [k] := by
  simp [pairs, last]

/-- A caller that only calls sends pieces of calls that have not ended, of registered procedures and within the
limit. -/
def Legal (registered : ProcedureIndex w → Prop) (max : Nat) (v : Asked w) : Message w → Prop
  | .call p c _ _ => registered p ∧ (p, c) ∉ v.pairs ∧ (insert (p, c) v.opened).card ≤ max
  | .endOfInput => True
  | _ => False

/-- What one view has seen end, the other has too. -/
def Before (v v' : Asked w) : Prop := v.ended <+: v'.ended

instance : IsPreorder (Asked w) Before where
  refl v := List.prefix_refl v.ended
  trans _ _ _ h h' := List.IsPrefix.trans h h'

theorem before_recv (v : Asked w) (m : Message w) : Before v (v.recv m) := by
  cases m with
  | call p c t bytes =>
    simp only [recv]
    split
    · exact List.prefix_append _ _
    · exact List.prefix_refl _
  | _ => exact List.prefix_refl _

end Asked

/-! ### Replies -/

/-- What has been replied to each call. -/
abbrev Replied (w : IntFeature) : Type := ProcedureIndex w × CallIndex w → List Yield

namespace Replied

variable {q : Replied w} {ended ended' : ProcedureIndex w × CallIndex w → Prop}

def recv (q : Replied w) : Message w → Replied w
  | .response p c t bytes => Function.update q (p, c) (q (p, c) ++ [(bytes, t)])
  | _ => q

/-- A peer that only serves replies to calls that have ended, and not beyond the end of a reply. -/
def Legal (ended : ProcedureIndex w × CallIndex w → Prop) (q : Replied w) : Message w → Prop
  | .response p c _ _ => ended (p, c) ∧ ∀ y ∈ q (p, c), y.2 ≠ .complete
  | .endOfInput => True
  | _ => False

theorem Legal.mono (himp : ∀ k, ended k → ended' k) (m : Message w) (h : Legal ended q m) : Legal ended' q m := by
  cases m with
  | response p c t bytes => exact ⟨himp _ h.1, h.2⟩
  | _ => exact h

/-- A list of replies to one call. -/
theorem transit_responses {p : ProcedureIndex w} {c : CallIndex w} (hended : ended (p, c))
    (yields : List Yield) (q : Replied w) (hq : yields ≠ [] → ∀ y ∈ q (p, c), y.2 ≠ .complete)
    (hlast : ∀ y ∈ yields.dropLast, y.2 ≠ .complete) :
    Transit recv (Legal ended) q (Wire.responses p c yields) (Function.update q (p, c) (q (p, c) ++ yields)) := by
  induction yields generalizing q with
  | nil =>
    rw [List.append_nil, Function.update_eq_self]
    exact .nil q
  | cons y yields ih =>
    have hrest := ih (Function.update q (p, c) (q (p, c) ++ [y])) (fun hne z hz => ?_) fun z hz => ?_
    · rw [Function.update_self, Function.update_idem, List.append_assoc] at hrest
      exact .cons ⟨hended, hq (by simp)⟩ hrest
    · rw [Function.update_self, List.mem_append, List.mem_singleton] at hz
      rcases hz with hz | rfl
      · exact hq (by simp) z hz
      · apply hlast z
        rw [List.dropLast_cons_of_ne_nil hne]
        exact List.mem_cons_self
    · apply hlast z
      rw [List.dropLast_cons_of_ne_nil (by rintro rfl; simp at hz)]
      exact List.mem_cons_of_mem _ hz

end Replied

end Ipfi
