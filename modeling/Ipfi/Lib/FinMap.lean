import Mathlib.Data.List.AList
import Mathlib.Data.Fintype.Card

/-!
# Finite maps and finite sets

Finite maps are Mathlib's association lists without repeated keys, with a constant type of values; finite sets are
maps into `Unit`.  This file states what a lookup sees after an insertion or a removal in one equation each, and
how the number of keys changes.
-/

/-- A finite map from `K` to `V`. -/
abbrev FinMap (K V : Type) : Type := AList fun _ : K => V

/-- A finite set, as a map into `Unit`. -/
abbrev FinKeys (K : Type) : Type := FinMap K Unit

namespace AList

variable {K V : Type} [DecidableEq K] {m : FinMap K V} {k k' : K} {v : V}

/-- The number of keys. -/
def size (m : FinMap K V) : Nat := m.keys.length

/-- The values of a map, in the order of its entries. -/
def values (m : FinMap K V) : List V := m.entries.map fun e => e.2

theorem lookup_insert_eq (m : FinMap K V) (k k' : K) (v : V) :
    (m.insert k v).lookup k' = if k' = k then some v else m.lookup k' := by
  split
  · subst_vars; exact AList.lookup_insert m
  · exact AList.lookup_insert_ne ‹_›

theorem lookup_erase_eq (m : FinMap K V) (k k' : K) :
    (m.erase k).lookup k' = if k' = k then none else m.lookup k' := by
  split
  · subst_vars; exact AList.lookup_erase _ m
  · exact AList.lookup_erase_ne ‹_›

theorem mem_iff_lookup : k ∈ m ↔ ∃ v, m.lookup k = some v := by
  rw [← AList.lookup_isSome, Option.isSome_iff_exists]

theorem mem_of_lookup (h : m.lookup k = some v) : k ∈ m := mem_iff_lookup.2 ⟨v, h⟩

theorem mem_values : v ∈ m.values ↔ ∃ k, m.lookup k = some v := by
  simp only [values, List.mem_map, Sigma.exists, exists_eq_right]
  exact exists_congr fun k => AList.mem_lookup_iff.symm

theorem mem_values_insert {v' : V} (h : v ∈ (m.insert k v').values) : v ∈ m.values ∨ v = v' := by
  obtain ⟨k', hk'⟩ := mem_values.1 h
  rw [lookup_insert_eq] at hk'
  split at hk'
  · exact .inr (Option.some.inj hk').symm
  · exact .inl (mem_values.2 ⟨k', hk'⟩)

theorem mem_values_erase (h : v ∈ (m.erase k).values) : v ∈ m.values := by
  obtain ⟨k', hk'⟩ := mem_values.1 h
  rw [lookup_erase_eq] at hk'
  split at hk' <;> [cases hk'; exact mem_values.2 ⟨k', hk'⟩]

theorem size_insert_of_notMem (h : k ∉ m) : (m.insert k v).size = m.size + 1 := by
  have hk : k ∉ m.keys := fun hk => h (AList.mem_keys.2 hk)
  rw [size, AList.keys_insert, List.erase_of_not_mem hk]; rfl

theorem size_insert_of_mem (h : k ∈ m) : (m.insert k v).size = m.size := by
  have hk : k ∈ m.keys := AList.mem_keys.1 h
  have hpos := List.length_pos_of_mem hk
  rw [size, AList.keys_insert, List.length_cons, List.length_erase_of_mem hk]
  exact Nat.sub_add_cancel hpos

theorem size_erase_le (m : FinMap K V) (k : K) : (m.erase k).size ≤ m.size := by
  rw [size, AList.keys_erase]; exact List.length_erase_le

/-- The keys as a `Finset`, to count them. -/
def keySet (m : FinMap K V) : Finset K := m.keys.toFinset

@[simp] theorem mem_keySet : k ∈ m.keySet ↔ k ∈ m := by
  rw [keySet, List.mem_toFinset, AList.mem_keys]

theorem card_keySet (m : FinMap K V) : m.keySet.card = m.size :=
  List.toFinset_card_of_nodup m.keys_nodup

/-- Some key is free if and only if there are fewer entries than keys. -/
theorem exists_notMem_iff [Fintype K] : (∃ k, k ∉ m) ↔ m.size < Fintype.card K := by
  rw [← card_keySet]
  constructor
  · rintro ⟨k, hk⟩
    exact Finset.card_lt_univ_of_notMem (mt mem_keySet.1 hk)
  · intro hlt
    by_contra hall
    rw [not_exists_not] at hall
    rw [Finset.eq_univ_iff_forall.2 fun k => mem_keySet.2 (hall k), Finset.card_univ] at hlt
    exact lt_irrefl _ hlt

end AList
