import FormStaging.Graph.Basic
import Std.Data.HashMap

/-!
# Structural equality of nodes

Two nodes are structurally equal if they unfold to one term. Unfolding takes exponential time on a
graph with much sharing, so equality is decided by numbering: in one pass over the table, every
node is given as representative the first node that has the same layer over the same
representatives.
-/

set_option autoImplicit false

namespace FormStaging

/-- A numbering of the first nodes of a table. -/
structure Numbering where
  /-- The representative of each node numbered so far. -/
  representatives : Array NodeId := #[]
  /-- The node that first showed a layer over representatives. -/
  first : Std.HashMap (Node NodeId) NodeId := ∅

namespace Numbering

/-- The representative of a node; a node that was not numbered represents itself. -/
def representative (ν : Numbering) (i : NodeId) : NodeId := ν.representatives.getD i i

/-- Numbers the next node of the table. -/
def add (ν : Numbering) (n : Node NodeId) : Numbering :=
  let layer := n.map ν.representative
  let next := ν.representatives.size
  match ν.first[layer]? with
  | some i => { ν with representatives := ν.representatives.push i }
  | none => ⟨ν.representatives.push next, ν.first.insert layer next⟩

end Numbering

namespace Graph

/-- The numbering of all nodes of a graph. -/
def numbering (g : Graph) : Numbering := g.entries.foldl (fun ν e => ν.add e.node) {}

/-- Whether two nodes are structurally equal. A node is equal to itself without further ado. -/
def equal (g : Graph) (i j : NodeId) : Bool :=
  i == j || g.numbering.representative i == g.numbering.representative j

end Graph

end FormStaging
