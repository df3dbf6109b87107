import FormStaging.Graph.Basic

/-!
# Components, tensors and derivatives

A component of a tensor, a tensor of components and a derivative each take a list of indices. The list is
a node of its own, a multi-index, which is made along with the node over it.
-/

set_option autoImplicit false

namespace FormStaging.Graph

/-- Adds a multi-index and a layer over it. Gives `none` if another operand of the layer does not belong
to the graph. -/
def addOver? (g : Graph) (layer : NodeId → Node NodeId) (items : List IndexItem) :
    Option (Graph × NodeId) :=
  match g.push? (.multiIndex items) with
  | some (g, ii) => g.push? (layer ii)
  | none => none

/-- Adds the part of a tensor that the entries select. -/
def index? (g : Graph) (tensor : NodeId) (items : List IndexItem) : Option (Graph × NodeId) :=
  g.addOver? (.indexed tensor) items

/-- Adds the tensor of components whose axes are the given indices. -/
def asTensor? (g : Graph) (component : NodeId) (axes : List Index) : Option (Graph × NodeId) :=
  g.addOver? (.componentTensor component) (axes.map .free)

/-- Adds the derivative in the directions that the entries select. -/
def derivative? (g : Graph) (operand : NodeId) (directions : List IndexItem) :
    Option (Graph × NodeId) :=
  g.addOver? (.spatialDerivative operand) directions

end FormStaging.Graph
