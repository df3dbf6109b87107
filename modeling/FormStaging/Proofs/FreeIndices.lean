import FormStaging.Proofs.Graph.Profile
import FormStaging.Proofs.Repeats
import FormStaging.Proofs.Staging.Outcome
import Mathlib.Algebra.Ring.Parity
import Mathlib.Data.Finset.SymmDiff
import Mathlib.Data.List.Nodup

/-!
# Free indices

The list of free indices of an expression has no repeats, whatever the expression is made of
(`Graph.nodup_free`), and each of its indices is an entry of a multi-index of the expression
(`Graph.exists_lists_of_mem_free`). Only where both lists are without repeats does the rule "what occurs
once is free" make the free indices of a product the symmetric difference of those of its factors. So a
product of several factors has the indices that are free in an odd number of them, in whatever way it is
put together (`free_indices_accounted`).
-/

set_option autoImplicit false

namespace FormStaging

open scoped symmDiff

/-! ## Combining lists of indices -/

namespace Index

variable {l l' : List Index} {ix : Index}

theorem nodup_uncontracted (l : List Index) : (uncontracted l).Nodup := by
  rw [List.nodup_iff_count_le_one]
  intro ix
  by_cases h : ix ∈ uncontracted l
  · calc (uncontracted l).count ix ≤ l.count ix := List.filter_sublist.count_le ix
      _ = 1 := mem_uncontracted.1 h
      _ ≤ 1 := Nat.le_refl 1
  · rw [List.count_eq_zero.2 h]
    exact Nat.zero_le 1

theorem uncontracted_subset (l : List Index) : uncontracted l ⊆ l :=
  List.filter_subset_self l

theorem nodup_distinct (l : List Index) : (distinct l).Nodup := nodup_eraseDups l

theorem mem_distinct : ix ∈ distinct l ↔ ix ∈ l := List.mem_eraseDups

/-- Of two lists without repeats, just what is in one of them is not contracted. -/
theorem mem_uncontracted_append (h : l.Nodup) (h' : l'.Nodup) :
    ix ∈ uncontracted (l ++ l') ↔ ix ∈ l ∧ ix ∉ l' ∨ ix ∈ l' ∧ ix ∉ l := by
  rw [mem_uncontracted, List.count_append, h.count, h'.count]
  by_cases hl : ix ∈ l <;> by_cases hl' : ix ∈ l' <;> simp [hl, hl']

end Index

/-! ## One layer -/

namespace Node

/-- No rule for a node lists an index twice, if the lists of the operands have no repeats. -/
theorem nodup_free_profile (n : Node Profile) (h : ∀ p ∈ n.operands, p.free.Nodup) :
    n.profile.free.Nodup := by
  cases n with
  | multiIndex items => exact Index.nodup_uncontracted _
  | sum lhs rhs => exact h lhs (by simp [operands])
  | product lhs rhs => exact Index.nodup_uncontracted _
  | division num den => exact Index.nodup_distinct _
  | power base exponent => exact Index.nodup_distinct _
  | indexed tensor selector => exact Index.nodup_uncontracted _
  | componentTensor component axes => exact (h component (by simp [operands])).filter _
  | listTensor parts =>
    cases parts with
    | nil => exact List.nodup_nil
    | cons first rest => exact h first (by simp [operands])
  | spatialDerivative operand directions => exact Index.nodup_uncontracted _
  | labelled content label => exact h content (by simp [operands])
  | _ => exact List.nodup_nil

/-- A free index of a node is an entry of it, a free index of an operand, or an entry of one. -/
theorem mem_free_profile {n : Node Profile} {ix : Index} (h : ix ∈ n.profile.free) :
    ix ∈ IndexItem.indices n.items ∨ ∃ p ∈ n.operands, ix ∈ p.free ∨ ix ∈ p.indices := by
  cases n with
  | multiIndex items => exact Or.inl (Index.uncontracted_subset _ h)
  | sum lhs rhs => exact Or.inr ⟨lhs, by simp [operands], Or.inl h⟩
  | product lhs rhs =>
    rcases List.mem_append.1 (Index.uncontracted_subset _ h) with h | h <;> simp [operands, h]
  | division num den =>
    rcases List.mem_append.1 (Index.mem_distinct.1 h) with h | h <;> simp [operands, h]
  | power base exponent =>
    rcases List.mem_append.1 (Index.mem_distinct.1 h) with h | h <;> simp [operands, h]
  | indexed tensor selector =>
    rcases List.mem_append.1 (Index.uncontracted_subset _ h) with h | h <;> simp [operands, h]
  | componentTensor component axes =>
    exact Or.inr ⟨component, by simp [operands], Or.inl (List.mem_of_mem_filter h)⟩
  | listTensor parts =>
    cases parts with
    | nil => exact absurd h List.not_mem_nil
    | cons first rest => exact Or.inr ⟨first, by simp [operands], Or.inl h⟩
  | spatialDerivative operand directions =>
    rcases List.mem_append.1 (Index.uncontracted_subset _ h) with h | h <;> simp [operands, h]
  | labelled content label => exact Or.inr ⟨content, by simp [operands], Or.inl h⟩
  | _ => exact absurd h List.not_mem_nil

end Node

/-! ## Expressions -/

namespace Graph

variable {g g' : Graph} {i m p q a b : NodeId} {ix : Index} {l l' : List NodeId}

/-- The free indices of an expression are listed once each. -/
theorem nodup_free (g : Graph) : ∀ i, (g.profile i).free.Nodup := by
  refine g.induction fun i ih => ?_
  rw [profile_eq]
  refine Node.nodup_free_profile _ fun p hp => ?_
  rw [Node.operands_map] at hp
  obtain ⟨j, hj, rfl⟩ := List.mem_map.1 hp
  exact ih j hj

/-- Node `m` is a multi-index with the entry `ix`. -/
def Lists (g : Graph) (m : NodeId) (ix : Index) : Prop :=
  ∃ items, g.node m = .multiIndex items ∧ .free ix ∈ items

/-- The free entries of a node are those that it lists as a multi-index. -/
theorem lists_iff : g.Lists m ix ↔ ix ∈ IndexItem.indices (g.items m) := by
  have hentry : ∀ items : List IndexItem, .free ix ∈ items ↔ ix ∈ IndexItem.indices items := by
    intro items
    rw [IndexItem.indices, List.mem_filterMap]
    constructor
    · intro h
      exact ⟨.free ix, h, rfl⟩
    · rintro ⟨item, h, hix⟩
      cases item with
      | fixed => cases hix
      | free =>
        obtain rfl := Option.some.inj hix
        exact h
  rw [Lists, items]
  cases g.node m <;> simp [Node.items, hentry, IndexItem.indices]

/-- A free index is listed by a multi-index of the expression. -/
theorem exists_lists_of_mem_free (g : Graph) : ∀ i, ix ∈ (g.profile i).free →
    ∃ m, g.Reaches i m ∧ g.Lists m ix := by
  refine g.induction fun i ih h => ?_
  rw [profile_eq] at h
  rcases Node.mem_free_profile h with h | ⟨p, hp, h⟩
  · rw [Node.items_map] at h
    exact ⟨i, Reaches.refl g i, lists_iff.2 h⟩
  · rw [Node.operands_map] at hp
    obtain ⟨j, hj, rfl⟩ := List.mem_map.1 hp
    rcases h with h | h
    · obtain ⟨m, hm, hlists⟩ := ih j hj h
      exact ⟨m, hm.head hj, hlists⟩
    · rw [Profile.indices, items_profile] at h
      exact ⟨j, Reaches.operand hj, lists_iff.2 h⟩

/-! ## Products -/

/-- The set of the free indices of an expression. -/
def freeIndices (g : Graph) (i : NodeId) : Finset Index := (g.profile i).free.toFinset

theorem mem_freeIndices : ix ∈ g.freeIndices i ↔ ix ∈ (g.profile i).free := List.mem_toFinset

/-- The free indices of a product are those that are free in one factor only. -/
theorem freeIndices_product (h : g.node p = .product a b) :
    g.freeIndices p = g.freeIndices a ∆ g.freeIndices b := by
  have hfree : (g.profile p).free =
      Index.uncontracted ((g.profile a).free ++ (g.profile b).free) := by
    rw [profile_eq, h]
    rfl
  ext ix
  rw [Finset.mem_symmDiff, mem_freeIndices, mem_freeIndices, mem_freeIndices, hfree,
    Index.mem_uncontracted_append (nodup_free g a) (nodup_free g b)]

/-- Node `p` is a product of the listed factors, from left to right, with brackets anywhere. A factor
may be a product itself. -/
inductive Multiplies (g : Graph) : NodeId → List NodeId → Prop where
  | factor (i : NodeId) : Multiplies g i [i]
  | product {p a b : NodeId} {l l' : List NodeId} (h : g.node p = .product a b)
      (ha : Multiplies g a l) (hb : Multiplies g b l') : Multiplies g p (l ++ l')

/-- An index is free in a product if it is free in an odd number of factors, and only then. -/
theorem Multiplies.mem_freeIndices_iff (h : g.Multiplies p l) :
    ix ∈ g.freeIndices p ↔ Odd (l.countP fun i => ix ∈ g.freeIndices i) := by
  induction h with
  | factor i => by_cases hix : ix ∈ g.freeIndices i <;> simp [hix]
  | @product p a b l l' h _ _ iha ihb =>
    rw [freeIndices_product h, Finset.mem_symmDiff, iha, ihb, List.countP_append, Nat.odd_add,
      ← Nat.not_odd_iff_even]
    tauto

/-- Products of the same factors have the same free indices, in whatever order and with whatever
brackets. Only the free indices of the factors matter. -/
theorem Multiplies.freeIndices_eq (h : g.Multiplies p l) (h' : g'.Multiplies q l')
    (hperm : (l.map g.freeIndices).Perm (l'.map g'.freeIndices)) :
    g.freeIndices p = g'.freeIndices q := by
  ext ix
  have hcount := hperm.countP_eq fun s => decide (ix ∈ s)
  rw [List.countP_map, List.countP_map] at hcount
  rw [h.mem_freeIndices_iff, h'.mem_freeIndices_iff]
  exact iff_of_eq (congrArg Odd hcount)

end Graph

/-! ## The theorem -/

/-- The free indices of the expressions of a graph are accounted for. -/
structure AccountsForIndices (g : Graph) : Prop where
  /-- No index is listed twice. -/
  nodup : ∀ i, (g.profile i).free.Nodup
  /-- Each index is a free entry of a multi-index of the expression. -/
  listed : ∀ i, ∀ ix ∈ (g.profile i).free,
    ∃ m items, g.Reaches i m ∧ g.node m = .multiIndex items ∧ .free ix ∈ items
  /-- A product has the indices of one factor that the other factor does not have. -/
  product : ∀ p a b, g.node p = .product a b →
    g.freeIndices p = g.freeIndices a ∆ g.freeIndices b
  /-- A product of any number of factors has the indices that are free in an odd number of them. -/
  odd : ∀ p factors, g.Multiplies p factors → ∀ ix,
    ix ∈ g.freeIndices p ↔ Odd (factors.countP fun i => ix ∈ g.freeIndices i)
  /-- Another order of the factors, and other brackets, give the same indices. -/
  rearranged : ∀ p q factors factors', g.Multiplies p factors → g.Multiplies q factors' →
    factors.Perm factors' → g.freeIndices p = g.freeIndices q

/-- Free indices are accounted for. -/
theorem free_indices_accounted (g : Graph) : AccountsForIndices g where
  nodup := g.nodup_free
  listed i ix h := by
    obtain ⟨m, hm, items, hn, hitem⟩ := g.exists_lists_of_mem_free i h
    exact ⟨m, items, hm, hn, hitem⟩
  product _ _ _ h := Graph.freeIndices_product h
  odd _ _ h _ := h.mem_freeIndices_iff
  rearranged _ _ _ _ h h' hperm := h.freeIndices_eq h' (hperm.map g.freeIndices)

/-- The components of three vectors with one index, multiplied from the left, and the other way round from
the right. -/
def threeComponents : Graph :=
  .ofNodes [.argument ⟨0, [2]⟩, .argument ⟨1, [2]⟩, .coefficient ⟨0, none, [2]⟩,
    .multiIndex [.free ⟨0, 2⟩], .indexed 0 3, .indexed 1 3, .indexed 2 3, .product 4 5, .product 7 6,
    .product 5 4, .product 6 9]

/-- The index is contracted in the product of two of them and is free in the product of all three. -/
theorem free_indices_accounted_threeComponents :
    AccountsForIndices threeComponents ∧ threeComponents.Multiplies 8 [4, 5, 6] ∧
      threeComponents.Multiplies 10 [6, 5, 4] ∧
      threeComponents.freeIndices 8 = threeComponents.freeIndices 10 ∧
      (threeComponents.profile 7).free = [] ∧ (threeComponents.profile 8).free = [⟨0, 2⟩] := by
  have haccounts := free_indices_accounted threeComponents
  have hleft : threeComponents.Multiplies 8 [4, 5, 6] :=
    .product (by cbv) (.product (by cbv) (.factor 4) (.factor 5)) (.factor 6)
  have hright : threeComponents.Multiplies 10 [6, 5, 4] :=
    .product (by cbv) (.factor 6) (.product (by cbv) (.factor 5) (.factor 4))
  exact ⟨haccounts, hleft, hright, haccounts.rearranged _ _ _ _ hleft hright (by decide), by cbv,
    by cbv⟩

end FormStaging
