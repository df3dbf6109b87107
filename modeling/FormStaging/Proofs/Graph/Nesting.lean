import FormStaging.Proofs.Graph.PostOrder
import FormStaging.Proofs.Staging.Runs

/-!
# Nested nodes

Staging enters the operands of a node, but not the content of a variable nor the directions of a
derivative (`Graph.entered`). A chain of nodes, each entered from the one before, has no more nodes
than there are below its start (`Graph.Nests.le_length`).
-/

set_option autoImplicit false

namespace FormStaging

/-- The operands that are staged with a node: a variable is not entered, and directions are kept. -/
def Graph.entered (g : Graph) (i : NodeId) : List NodeId :=
  match g.node i with
  | .labelled _ _ => []
  | .spatialDerivative operand _ => [operand]
  | node => node.operands

/-- A chain of nodes starts at a node, each of them entered from the one before. -/
inductive Graph.Nests (g : Graph) : NodeId → Nat → Prop where
  | one (i : NodeId) : Nests g i 1
  | under {i j : NodeId} {length : Nat} (hj : j ∈ g.entered i) (h : Nests g j length) :
      Nests g i (length + 1)

namespace Graph

variable {g : Graph} {i j : NodeId} {length : Nat}

theorem entered_subset (g : Graph) (i : NodeId) : g.entered i ⊆ g.operands i := by
  intro j hj
  rw [entered] at hj
  rw [operands]
  cases hn : g.node i <;> rw [hn] at hj <;> simp only at hj
  case labelled => exact absurd hj List.not_mem_nil
  case spatialDerivative a b =>
    rw [List.mem_singleton.1 hj]
    exact List.mem_cons_self
  all_goals exact hj

theorem entered_of_isPlain (h : Staging.isPlain (g.node i) = true) :
    g.entered i = g.operands i := by
  rw [entered, operands]
  cases hn : g.node i <;> rw [hn] at h <;> simp only [Staging.isPlain, Bool.false_eq_true] at h

theorem entered_of_derivative {a b : NodeId} (h : g.node i = .spatialDerivative a b) :
    g.entered i = [a] := by
  rw [entered, h]

/-- A variable is not entered. -/
theorem entered_of_label? {l : Label} (h : g.label? i = some l) : g.entered i = [] := by
  obtain ⟨c, hc, -⟩ := operands_of_label? h
  rw [entered, hc]

theorem Extends.entered_eq {g' : Graph} (h : g.Extends g') (hi : i ∈ g) :
    g'.entered i = g.entered i := by
  rw [entered, entered, h.node_eq i hi]

/-- Where nothing is entered, a chain ends. -/
theorem Nests.eq_one (h : g.Nests i length) (hi : g.entered i = []) : length = 1 := by
  cases h with
  | one => rfl
  | under hj =>
    rw [hi] at hj
    exact absurd hj List.not_mem_nil

/-- The chains at an old node are the old ones. -/
theorem Extends.nests {g' : Graph} (h : g.Extends g') (hi : i ∈ g) (hn : g'.Nests i length) :
    g.Nests i length := by
  induction hn with
  | one i => exact .one i
  | under hj _ ih =>
    rw [h.entered_eq hi] at hj
    exact .under hj (ih (mem_of_mem_operands (entered_subset g _ hj) hi))

/-- A chain has no more nodes than there are below its start. -/
theorem Nests.le_length (h : g.Nests i length) (hi : i ∈ g) : length ≤ (g.postOrder i).length := by
  induction h with
  | one i => exact List.length_pos_of_mem ((mem_postOrder hi).2 (Reaches.refl g i))
  | @under i j length hj _ ih =>
    have hj' := entered_subset g i hj
    have hlt := length_postOrder_lt hi hj'
    have hle := ih (mem_of_mem_operands hj' hi)
    omega

end Graph

end FormStaging
