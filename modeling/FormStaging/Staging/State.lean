import FormStaging.CodeStructure
import FormStaging.Graph.Rebuild
import FormStaging.Graph.Walk
import FormStaging.Staging.Settings

/-!
# The state of a run

A `State` is what a run has built so far: the graph with the nodes it added, the registered
variables, the labels it may still mint, and two memos. `staged` gives the result for a node that
was staged, `named` the variable that names an operand. Both are keyed by the node itself, so equal
nodes made apart are treated apart.

An `Action` changes the state and gives a result or fails. What was built before a failure stays.
-/

set_option autoImplicit false

namespace FormStaging.Staging

/-- The node that stands for a node of the expression, with its dependency set. -/
structure Staged where
  node : NodeId
  deps : DependencySet
deriving DecidableEq, Repr

/-- What a run has built so far. -/
structure State where
  graph : Graph
  code : CodeStructure := {}
  labels : LabelSupply := {}
  /-- The result for each node that was staged. -/
  staged : Std.HashMap NodeId Staged := ∅
  /-- The variable of each operand that was named. -/
  named : Std.HashMap NodeId NodeId := ∅

/-- A step of a run. -/
abbrev Action := EStateM Failure State

/-- What stays the same during a run: the settings, and the expression that the places of an error
refer to. -/
structure Context where
  settings : Settings
  source : Option NodeId := none

/-- The places of a node in the source. A node that does not occur there is blamed on the whole
source; without a source there are no places. -/
def Context.places (ctx : Context) (g : Graph) (i : NodeId) : List Span :=
  match ctx.source with
  | none => []
  | some root =>
    let r := g.rendering .inline root (some i)
    if r.spans.isEmpty then [⟨0, r.text.utf8ByteSize⟩] else r.spans

/-- The failure with the given cause at a node of a graph. -/
def Context.failure (ctx : Context) (g : Graph) (i : NodeId) (cause : Cause) : Failure :=
  .error ⟨cause, ctx.places g i⟩

/-- Fails at a node. -/
def failAt {α : Type} (ctx : Context) (i : NodeId) (cause : Cause) : Action α := fun s =>
  .error (ctx.failure s.graph i cause) s

/-- Goes on with a result, unless a promise was broken. -/
def keepPromise {α : Type} : Except Misuse α → Action α
  | .ok a => pure a
  | .error m => throw (.misuse m)

/-- Adds a node whose operands belong to the graph. -/
def addNode (n : Node NodeId) : Action NodeId := fun ⟨graph, code, labels, staged, named⟩ =>
  match graph.push? n with
  | some (graph, i) => .ok i ⟨graph, code, labels, staged, named⟩
  | none => .error (.misuse .foreignOperand) ⟨graph, code, labels, staged, named⟩

/-- Rebuilds a node over the given operands. -/
def rebuildNode (i : NodeId) (operands : List NodeId) : Action NodeId :=
  fun ⟨graph, code, labels, staged, named⟩ =>
    match graph.rebuild i operands with
    | .ok (graph, j) => .ok j ⟨graph, code, labels, staged, named⟩
    | .error e => .error e ⟨graph, code, labels, staged, named⟩

/-- Keeps a label from being minted. -/
def reserveLabel (label : Label) : Action Unit := fun s =>
  match s.labels.reserve? label with
  | some labels => .ok () { s with labels := labels }
  | none => .error .labelOverflow s

/-- Keeps labels from being minted, one after the other. -/
def reserveEach : List Label → Action Unit
  | [] => pure ()
  | label :: rest => do
    reserveLabel label
    reserveEach rest

/-- Keeps the labels of the variables below a node from being minted. -/
def reserveLabels (i : NodeId) : Action Unit := do
  reserveEach ((← get).graph.labels i)

/-- Mints a label. -/
def mintLabel : Action Label := fun s =>
  match s.labels.mint? with
  | some (label, labels) => .ok label { s with labels := labels }
  | none => .error .labelOverflow s

end FormStaging.Staging
