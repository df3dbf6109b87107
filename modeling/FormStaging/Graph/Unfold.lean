import FormStaging.Graph.Basic
import FormStaging.Term

/-!
# Unfolding a node to a term

`Graph.unfold` forgets sharing. The recursion follows the operands, whose numbers descend. The
profile kept with a node is the profile of its term (`Graph.profile_eq_profile_unfold`), and adding
nodes does not change what the old ones unfold to (`Graph.unfold_push`).
-/

set_option autoImplicit false

namespace FormStaging.Graph

variable {g : Graph} {i : NodeId}

/-- The term of a node. -/
def unfold (g : Graph) (i : NodeId) : Term :=
  .mk ((g.node i).attach.map fun j => g.unfold j.1)
termination_by i
decreasing_by exact lt_of_mem_operands j.2

/-- A node unfolds layer by layer. -/
theorem unfold_eq (g : Graph) (i : NodeId) : g.unfold i = .mk ((g.node i).map g.unfold) := by
  rw [unfold]
  exact congrArg Term.mk (Node.map_attach (g.node i) g.unfold)

/-- The stored profile is the profile of the term. -/
theorem profile_eq_profile_unfold (g : Graph) : ∀ i, g.profile i = (g.unfold i).profile := by
  refine g.induction fun i ih => ?_
  rw [profile_eq, unfold_eq, Term.profile_mk, Node.map_map]
  exact congrArg Node.profile (Node.map_congr ih)

/-- Adding a node changes no old term. -/
theorem unfold_push (n : Node NodeId) (h : ∀ j ∈ n.operands, j ∈ g) :
    ∀ i, i ∈ g → (g.push n h).unfold i = g.unfold i := by
  refine g.induction fun i ih hi => ?_
  rw [unfold_eq, unfold_eq, node_push_of_mem n h hi]
  refine congrArg Term.mk (Node.map_congr fun j hj => ?_)
  exact ih j hj (Nat.lt_trans (lt_of_mem_operands hj) hi)

/-! ## The size of the term -/

/-- The sum of a list of sizes. -/
def totalSize (sizes : List Nat) : Nat := sizes.foldr (· + ·) 0

@[simp] theorem totalSize_nil : totalSize [] = 0 := rfl

@[simp] theorem totalSize_cons (n : Nat) (sizes : List Nat) :
    totalSize (n :: sizes) = n + totalSize sizes := rfl

@[simp] theorem totalSize_append (sizes sizes' : List Nat) :
    totalSize (sizes ++ sizes') = totalSize sizes + totalSize sizes' := by
  induction sizes with
  | nil => simp
  | cons n sizes ih => simp [ih, Nat.add_assoc]

/-- Part of a list of sizes has no larger sum. -/
theorem totalSize_le_of_sublist {sizes sizes' : List Nat} (h : sizes.Sublist sizes') :
    totalSize sizes ≤ totalSize sizes' := by
  induction h with
  | slnil => exact Nat.le_refl _
  | cons n _ ih => exact Nat.le_trans ih (by simp)
  | cons_cons n _ ih => simpa using ih

/-- The number of layers of the term of a node. It can be exponential in the number of nodes. -/
def unfoldedSize (g : Graph) (i : NodeId) : Nat :=
  totalSize ((g.operands i).attach.map fun j => g.unfoldedSize j.1) + 1
termination_by i
decreasing_by exact lt_of_mem_operands j.2

theorem unfoldedSize_eq (g : Graph) (i : NodeId) :
    g.unfoldedSize i = totalSize ((g.operands i).map g.unfoldedSize) + 1 := by
  rw [unfoldedSize, List.attach_map_val]

end FormStaging.Graph
