import FormStaging.DependencySet
import FormStaging.Graph.Walk
import FormStaging.SlotTable

/-!
# Form data

`FormData` gives slots to the arguments and to the coefficients of a form. The slot of an argument
selects its dependency declaration and its flag in a dependency set; the slot of a coefficient
selects its declaration.

`FormData.ofExpression` numbers the terminals below a node: arguments in ascending order, and of the
coefficients with one count the one met first, in ascending order of the counts. The numbering does
not depend on where a terminal stands in the expression.
-/

set_option autoImplicit false

namespace FormStaging

namespace Graph

/-- The arguments below a node, each once. -/
def arguments (g : Graph) (root : NodeId) : List Argument :=
  firstPer some ((g.postOrder root).filterMap fun i => (g.node i).argument?)

/-- The coefficients below a node, the first of each count. -/
def coefficients (g : Graph) (root : NodeId) : List Coefficient :=
  firstPer (fun c => some c.count) ((g.postOrder root).filterMap fun i => (g.node i).coefficient?)

end Graph

/-- The slots of the arguments and coefficients of a form. -/
structure FormData where
  arguments : SlotTable Argument := {}
  coefficients : SlotTable Coefficient := {}
deriving Repr

namespace FormData

/-- Numbers the arguments and coefficients below a node. -/
def ofExpression (g : Graph) (root : NodeId) : FormData where
  arguments := .numbering (ascendingBy id (g.arguments root))
  coefficients := .numbering (ascendingBy Coefficient.count (g.coefficients root))

/-- The number of arguments. -/
def rank (form : FormData) : Nat := form.arguments.size

/-- The names of the coefficients in the order of their slots. -/
def coefficientNames (form : FormData) : List String :=
  form.coefficients.bySlot.map fun e => e.1.text

/-- The conservative declarations for arguments: each depends on itself and on the coordinates. -/
def defaultArgumentDeps (form : FormData) : List DependencySet :=
  (List.range form.rank).map fun slot => (DependencySet.single form.rank slot).withCoordinates

/-- The conservative declarations for coefficients: each depends on run-time values and on the
coordinates. -/
def defaultCoefficientDeps (form : FormData) : List DependencySet :=
  List.replicate form.coefficients.size
    (DependencySet.empty form.rank).withRuntime.withCoordinates

end FormData

end FormStaging
