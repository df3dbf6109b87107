import FormStaging.Proofs.Graph.Reachability

/-!
# Profiles of nodes

What a node shows to the node above it is computed when the node is made, and nodes that are added later
do not change it (`Extends.profile_eq`).
-/

set_option autoImplicit false

namespace FormStaging.Graph

variable {g g' : Graph} {i c : NodeId} {l : Label}

/-- The profiles of the old nodes do not depend on what else the graph holds. -/
theorem Extends.profile_eq (h : g.Extends g') (hi : i ∈ g) : g'.profile i = g.profile i := by
  rw [profile_eq_profile_unfold, profile_eq_profile_unfold, h.unfold_eq i hi]

/-- A variable shows the shape and the free indices of its content, and no entries. -/
theorem profile_of_labelled (h : g.node i = .labelled c l) :
    g.profile i = ⟨(g.profile c).shape, (g.profile c).free, []⟩ := by
  rw [Graph.profile_eq, h]
  rfl

/-- Only a multi-index shows entries. -/
theorem items_profile (g : Graph) (i : NodeId) : (g.profile i).items = g.items i := by
  rw [Graph.profile_eq, Node.items_profile, Node.items_map, items]

end FormStaging.Graph
