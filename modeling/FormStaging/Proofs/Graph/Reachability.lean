import FormStaging.Graph.Unfold
import Mathlib.Logic.Relation

/-!
# Reachability and growth of a graph

`Graph.Reaches g i j` says that node `j` is node `i` or lies below it. Operands have smaller numbers,
so a node below another one has a smaller number too (`Reaches.le`).

A graph only grows. `Graph.Extends g g'` says that `g'` has the nodes of `g` and perhaps more. What
is said of an old node stays true: its operands, its label, what it reaches and what it unfolds to
(`Extends.reaches_iff`, `Extends.unfold_eq`).
-/

set_option autoImplicit false

namespace FormStaging.Graph

variable {g g' : Graph} {i j k : NodeId}

/-- Node `j` is node `i` or lies below it. -/
def Reaches (g : Graph) : NodeId → NodeId → Prop :=
  Relation.ReflTransGen fun i j => j ∈ g.operands i

namespace Reaches

theorem refl (g : Graph) (i : NodeId) : g.Reaches i i := Relation.ReflTransGen.refl

theorem trans (h : g.Reaches i j) (h' : g.Reaches j k) : g.Reaches i k :=
  Relation.ReflTransGen.trans h h'

/-- An operand is reached. -/
theorem operand (h : j ∈ g.operands i) : g.Reaches i j := Relation.ReflTransGen.single h

/-- What an operand reaches is reached. -/
theorem head (h : j ∈ g.operands i) (h' : g.Reaches j k) : g.Reaches i k :=
  Relation.ReflTransGen.head h h'

/-- The operands of a reached node are reached. -/
theorem tail (h : g.Reaches i j) (h' : k ∈ g.operands j) : g.Reaches i k :=
  Relation.ReflTransGen.tail h h'

/-- A reached node is the start or is reached from an operand of it. -/
theorem cases_head (h : g.Reaches i j) : j = i ∨ ∃ k ∈ g.operands i, g.Reaches k j := by
  rcases Relation.ReflTransGen.cases_head h with rfl | ⟨k, hk, hkj⟩
  · exact Or.inl rfl
  · exact Or.inr ⟨k, hk, hkj⟩

/-- Reached nodes have smaller numbers. -/
theorem le (h : g.Reaches i j) : j ≤ i := by
  induction h with
  | refl => exact Nat.le_refl _
  | tail _ hstep ih => exact Nat.le_trans (Nat.le_of_lt (lt_of_mem_operands hstep)) ih

/-- What an operand reaches has a smaller number. -/
theorem lt_of_operand (h : g.Reaches k j) (hk : k ∈ g.operands i) : j < i :=
  Nat.lt_of_le_of_lt h.le (lt_of_mem_operands hk)

/-- A node without operands reaches only itself. -/
theorem eq_of_operands_eq_nil (h : g.Reaches i j) (hi : g.operands i = []) : j = i := by
  rcases h.cases_head with rfl | ⟨k, hk, -⟩
  · rfl
  · rw [hi] at hk
    exact absurd hk List.not_mem_nil

/-- Reached nodes belong to the graph. -/
theorem mem (h : g.Reaches i j) (hi : i ∈ g) : j ∈ g := Nat.lt_of_le_of_lt h.le hi

end Reaches

/-- Every operand of a node belongs to the graph. -/
theorem mem_of_mem_operands (h : j ∈ g.operands i) (hi : i ∈ g) : j ∈ g :=
  Nat.lt_trans (lt_of_mem_operands h) hi

theorem reaches_iff : g.Reaches i j ↔ j = i ∨ ∃ k ∈ g.operands i, g.Reaches k j := by
  constructor
  · exact Reaches.cases_head
  · rintro (rfl | ⟨k, hk, hkj⟩)
    · exact Reaches.refl g _
    · exact Reaches.head hk hkj

/-- Some reached node has a property if the start has it, or a node that an operand reaches. -/
theorem exists_reaches_iff {P : NodeId → Prop} : (∃ j, g.Reaches i j ∧ P j) ↔
    P i ∨ ∃ k ∈ g.operands i, ∃ j, g.Reaches k j ∧ P j := by
  constructor
  · rintro ⟨j, hj, hP⟩
    rcases hj.cases_head with rfl | ⟨k, hk, hkj⟩
    · exact Or.inl hP
    · exact Or.inr ⟨k, hk, j, hkj, hP⟩
  · rintro (hP | ⟨k, hk, j, hj, hP⟩)
    · exact ⟨i, Reaches.refl g i, hP⟩
    · exact ⟨j, Reaches.head hk hj, hP⟩

/-! ## The operands of layers -/

section Layers

variable {a b c : NodeId} {l : Label} {items : List IndexItem}

theorem operands_of_labelled (h : g.node i = .labelled c l) : g.operands i = [c] := by
  rw [operands, h, Node.operands]

theorem operands_of_derivative (h : g.node i = .spatialDerivative a b) :
    g.operands i = [a, b] := by
  rw [operands, h, Node.operands]

theorem operands_of_multiIndex (h : g.node i = .multiIndex items) : g.operands i = [] := by
  rw [operands, h, Node.operands]

theorem label?_of_labelled (h : g.node i = .labelled c l) : g.label? i = some l := by
  rw [label?, h, Node.label?]

end Layers

theorem contentAndLabel?_eq_none (h : g.label? i = none) : (g.node i).contentAndLabel? = none := by
  rw [label?] at h
  cases hn : g.node i with
  | labelled c l =>
    rw [hn] at h
    cases h
  | _ => rfl

/-- A node with a label has its content as its only operand. -/
theorem operands_of_label? {l : Label} (h : g.label? i = some l) :
    ∃ c, g.node i = .labelled c l ∧ g.operands i = [c] := by
  rw [label?] at h
  cases hn : g.node i with
  | labelled c l' =>
    rw [hn] at h
    obtain rfl : l' = l := Option.some.inj h
    exact ⟨c, rfl, by rw [operands, hn]; rfl⟩
  | _ =>
    rw [hn] at h
    simp [Node.label?] at h

/-- A number past the end has no label. -/
theorem mem_of_label? {l : Label} (h : g.label? i = some l) : i ∈ g := by
  by_cases hi : i ∈ g
  · exact hi
  · rw [label?, node_of_not_mem hi] at h
    simp [Node.label?, default] at h

/-! ## Growth -/

/-- `g'` has the nodes of `g` and perhaps more. -/
structure Extends (g g' : Graph) : Prop where
  size_le : g.size ≤ g'.size
  node_eq : ∀ i ∈ g, g'.node i = g.node i

namespace Extends

theorem refl (g : Graph) : g.Extends g := ⟨Nat.le_refl _, fun _ _ => rfl⟩

theorem mem (h : g.Extends g') (hi : i ∈ g) : i ∈ g' := Nat.lt_of_lt_of_le hi h.size_le

theorem trans {g'' : Graph} (h : g.Extends g') (h' : g'.Extends g'') : g.Extends g'' :=
  ⟨Nat.le_trans h.size_le h'.size_le,
    fun i hi => (h'.node_eq i (h.mem hi)).trans (h.node_eq i hi)⟩

theorem push (g : Graph) (n : Node NodeId) (hn : ∀ j ∈ n.operands, j ∈ g) :
    g.Extends (g.push n hn) :=
  ⟨by rw [size_push]; exact Nat.le_succ _, fun _ hi => node_push_of_mem n hn hi⟩

theorem operands_eq (h : g.Extends g') (hi : i ∈ g) : g'.operands i = g.operands i := by
  rw [operands, operands, h.node_eq i hi]

theorem label?_eq (h : g.Extends g') (hi : i ∈ g) : g'.label? i = g.label? i := by
  rw [label?, label?, h.node_eq i hi]

/-- A label is kept. -/
theorem label?_eq_some {l : Label} (h : g.Extends g') (hl : g.label? i = some l) :
    g'.label? i = some l := by
  rw [h.label?_eq (mem_of_label? hl)]
  exact hl

/-- An old node reaches what it reached. -/
theorem reaches_iff (h : g.Extends g') (hi : i ∈ g) : g'.Reaches i j ↔ g.Reaches i j := by
  constructor
  · intro hr
    induction hr with
    | refl => exact Reaches.refl g i
    | tail _ hstep ih =>
      rw [h.operands_eq (ih.mem hi)] at hstep
      exact ih.tail hstep
  · intro hr
    induction hr with
    | refl => exact Reaches.refl g' i
    | @tail a b hab hstep ih =>
      rw [← h.operands_eq (Reaches.mem hab hi)] at hstep
      exact ih.tail hstep

theorem reaches (h : g.Extends g') (hi : i ∈ g) (hr : g.Reaches i j) : g'.Reaches i j :=
  (h.reaches_iff hi).2 hr

/-- An old node unfolds to what it unfolded to. -/
theorem unfold_eq (h : g.Extends g') : ∀ i, i ∈ g → g'.unfold i = g.unfold i := by
  refine g.induction fun i ih hi => ?_
  rw [Graph.unfold_eq, Graph.unfold_eq, h.node_eq i hi]
  refine congrArg Term.mk (Node.map_congr fun j hj => ?_)
  exact ih j hj (mem_of_mem_operands hj hi)

end Extends

end FormStaging.Graph
