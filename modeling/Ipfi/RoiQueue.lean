import Ipfi.Basic
import Ipfi.Lib.Supply

/-!
# The reuse-or-increment queue

`roi_queue.rs`: identifiers are reused in the order in which they were relinquished, and only when none waits is the
counter read and incremented, wrapping at the width of `IpfiInteger`.  The queue is a `Supply` whose enumeration is
counting, so it hands out an identifier in use only when all of them are in use.
-/

namespace Ipfi

variable {w : IntFeature}

structure RoiQueue (w : IntFeature) where
  counter : IpfiInteger w
  relinquished : List (IpfiInteger w)

namespace RoiQueue

def new : RoiQueue w := { counter := 0, relinquished := [] }

def get (q : RoiQueue w) : IpfiInteger w × RoiQueue w :=
  match q.relinquished with
  | id :: rest => (id, { q with relinquished := rest })
  | [] => (q.counter, { q with counter := q.counter + 1 })

def relinquish (q : RoiQueue w) (id : IpfiInteger w) : RoiQueue w :=
  { q with relinquished := q.relinquished ++ [id] }

/-- The identifiers in use are `live`: those drawn from the counter and not waiting for reuse. -/
def InUse (q : RoiQueue w) (live : IpfiInteger w → Prop) : Prop :=
  ∃ n ≤ 2 ^ w.bits, q.counter = BitVec.ofNat _ n ∧ Supply (BitVec.ofNat w.bits) n q.relinquished live

theorem ofNat_injOn {n : Nat} (hn : n ≤ 2 ^ w.bits) :
    Set.InjOn (BitVec.ofNat w.bits) {k | k < n} := by
  intro a ha b hb hab
  have := congrArg BitVec.toNat hab
  rwa [BitVec.toNat_ofNat, BitVec.toNat_ofNat, Nat.mod_eq_of_lt (lt_of_lt_of_le ha hn),
    Nat.mod_eq_of_lt (lt_of_lt_of_le hb hn)] at this

theorem new_inUse : (new : RoiQueue w).InUse fun _ => False :=
  ⟨0, Nat.zero_le _, rfl, Supply.empty _⟩

/-- While fewer than `2 ^ w` identifiers are in use, `get` returns one that is not. -/
theorem get_inUse {q : RoiQueue w} {live : IpfiInteger w → Prop} (h : q.InUse live)
    {L : Finset (IpfiInteger w)} (hL : ∀ i, i ∈ L ↔ live i) (hroom : L.card < 2 ^ w.bits) :
    ¬ live q.get.1 ∧ q.get.2.InUse fun i => i = q.get.1 ∨ live i := by
  obtain ⟨n, hn, hc, hs⟩ := h
  have hcard := hs.card (ofNat_injOn hn) hL
  cases hq : q.relinquished with
  | cons i rest =>
    rw [hq] at hs
    have hg : q.get = (i, { q with relinquished := rest }) := by simp [get, hq]
    rw [hg]
    exact ⟨hs.reuse.1, n, hn, hc, hs.reuse.2⟩
  | nil =>
    rw [hq] at hs hcard
    have hlt : n < 2 ^ w.bits := by simp at hcard; omega
    have hg : q.get = (q.counter, { q with counter := q.counter + 1 }) := by simp [get, hq]
    have hne : ∀ k < n, BitVec.ofNat w.bits k ≠ BitVec.ofNat w.bits n := by
      intro k hk he
      have := ofNat_injOn (n := n + 1) (by omega) (show k < n + 1 by omega) (Nat.lt_succ_self n) he
      omega
    rw [hg, hc]
    refine ⟨(hs.fresh hne).1, n + 1, hlt, ?_, ?_⟩
    · exact (BitVec.ofNat_add_ofNat n 1)
    · simpa [hq] using (hs.fresh hne).2

theorem relinquish_inUse {q : RoiQueue w} {live : IpfiInteger w → Prop} {i : IpfiInteger w}
    (h : q.InUse live) (hi : live i) : (q.relinquish i).InUse fun j => live j ∧ j ≠ i := by
  obtain ⟨n, hn, hc, hs⟩ := h
  exact ⟨n, hn, hc, hs.giveBack hi⟩

theorem InUse.congr {q : RoiQueue w} {live live' : IpfiInteger w → Prop} (h : q.InUse live)
    (he : ∀ i, live i ↔ live' i) : q.InUse live' := by
  obtain ⟨n, hn, hc, hs⟩ := h
  exact ⟨n, hn, hc, hs.congr he⟩

/-- An identifier that waits for reuse is not in use. -/
theorem InUse.not_live {q : RoiQueue w} {live : IpfiInteger w → Prop} (h : q.InUse live)
    {i : IpfiInteger w} (hi : i ∈ q.relinquished) : ¬ live i := by
  obtain ⟨n, hn, hc, hs⟩ := h
  exact hs.disjoint i hi

/-! ### Counters that may have come round -/

/-- The identifiers in use are those drawn and not waiting for reuse, however often the counter has come round. -/
def Drawn (q : RoiQueue w) (live : IpfiInteger w → Prop) : Prop :=
  ∃ n, q.counter = BitVec.ofNat _ n ∧ Supply (BitVec.ofNat w.bits) n q.relinquished live

variable {q : RoiQueue w} {live live' : IpfiInteger w → Prop}

theorem new_drawn : (new : RoiQueue w).Drawn fun _ => False := ⟨0, rfl, Supply.empty _⟩

theorem Drawn.congr (h : q.Drawn live) (he : ∀ i, live i ↔ live' i) : q.Drawn live' := by
  obtain ⟨n, hc, hs⟩ := h
  exact ⟨n, hc, hs.congr he⟩

theorem Drawn.relinquish (h : q.Drawn live) {i : IpfiInteger w} (hi : live i) :
    (q.relinquish i).Drawn fun j => live j ∧ j ≠ i := by
  obtain ⟨n, hc, hs⟩ := h
  exact ⟨n, hc, hs.giveBack hi⟩

theorem Drawn.get (h : q.Drawn live) : q.get.2.Drawn fun i => i = q.get.1 ∨ live i := by
  obtain ⟨n, hc, hs⟩ := h
  cases hq : q.relinquished with
  | cons i rest =>
    rw [hq] at hs
    have hg : q.get = (i, { q with relinquished := rest }) := by simp [RoiQueue.get, hq]
    rw [hg]
    exact ⟨n, hc, hs.reuse.2⟩
  | nil =>
    rw [hq] at hs
    have hg : q.get = (q.counter, { q with counter := q.counter + 1 }) := by simp [RoiQueue.get, hq]
    rw [hg, hc]
    exact ⟨n + 1, BitVec.ofNat_add_ofNat n 1, by simpa [hq] using hs.next⟩

/-- Every identifier has been drawn before the counter comes round. -/
private theorem drawn_of_le {n : Nat} (hn : 2 ^ w.bits ≤ n) (i : IpfiInteger w) :
    ∃ k < n, BitVec.ofNat w.bits k = i :=
  ⟨i.toNat, i.isLt.trans_le hn, by rw [BitVec.ofNat_toNat, BitVec.setWidth_eq]⟩

/-- What `get` returns is in use if and only if everything is. -/
theorem Drawn.get_live_iff (h : q.Drawn live) : live q.get.1 ↔ ∀ i, live i := by
  refine ⟨fun hl => ?_, fun hall => hall _⟩
  obtain ⟨n, hc, hs⟩ := h
  cases hq : q.relinquished with
  | cons i rest =>
    rw [hq] at hs
    have hg : q.get = (i, { q with relinquished := rest }) := by simp [RoiQueue.get, hq]
    rw [hg] at hl
    exact absurd hl hs.reuse.1
  | nil =>
    rw [hq] at hs
    have hg : q.get = (q.counter, { q with counter := q.counter + 1 }) := by simp [RoiQueue.get, hq]
    rw [hg, hc] at hl
    obtain ⟨k, hk, he⟩ := hs.live_iff.1 hl
    -- two draws of one identifier are a whole round of the counter apart
    have hn : 2 ^ w.bits ≤ n := by
      by_contra hlt
      have := ofNat_injOn (n := n + 1) (by omega) (show k < n + 1 by omega) (Nat.lt_succ_self n) he
      omega
    intro i
    simpa using (hs.drawn i).2 (drawn_of_le hn i)

end RoiQueue

end Ipfi
