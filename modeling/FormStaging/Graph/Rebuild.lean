import FormStaging.Diagnostic

/-!
# Rebuilding a node

`Graph.rebuild` gives the node of the same kind over other operands. A terminal stands for
itself. Any other node is made anew, even if the operands are the old ones.
-/

set_option autoImplicit false

namespace FormStaging.Graph

/-- Rebuilds a node over the given operands. The operands must belong to the graph. -/
def rebuild (g : Graph) (i : NodeId) (operands : List NodeId) :
    Except Failure (Graph × NodeId) :=
  let node := g.node i
  match node.withOperands? operands with
  | none =>
    .error (.error
      ⟨.operandCount node.kind node.operands.length operands.length, []⟩)
  | some rebuilt =>
    if operands.isEmpty then .ok (g, i)
    else
      match g.push? rebuilt with
      | some added => .ok added
      | none => .error (.misuse .foreignOperand)

end FormStaging.Graph
