import FormStaging.Staging.Expression

/-!
# Splitting expressions by dependency

`stageVariable` stages the content of a variable and registers the variable. `splitExpression`
splits a whole expression: it stages the variables of the expression in post-order, so that a
variable comes after those it refers to, then the expression itself, which is wrapped in a variable
unless it is one. `split` does so from the beginning, and `splitAll` splits several expressions
apart from each other.
-/

set_option autoImplicit false

namespace FormStaging

namespace Staging

/-- Stages the content of a variable and registers the variable, unless its label is registered. -/
def stageVariable (ctx : Context) (i : NodeId) : Action RegisteredVariable := do
  let g := (← get).graph
  match (g.node i).contentAndLabel? with
  | none => failAt ctx i (.notVariable (g.namedText i))
  | some (content, label) =>
    match (← get).code.get? label with
    | some info => pure info
    | none =>
      -- labels minted below must differ from this label and from those it refers to
      reserveLabels i
      let staged ← stage ctx ctx.settings.maxDepth content
      let node ← if staged.node = content then pure i else addNode (.labelled staged.node label)
      register ctx node staged.deps (some label)

/-- Stages variables one after the other. -/
def stageVariables (ctx : Context) : List NodeId → Action Unit
  | [] => pure ()
  | i :: rest => do
    let _ ← stageVariable ctx i
    stageVariables ctx rest

/-- The variable around an expression: the expression itself if it is a variable, and otherwise a
new one with a minted label. -/
def wrap (i : NodeId) : Action NodeId := do
  match (← get).graph.label? i with
  | some _ => pure i
  | none =>
    let label ← mintLabel
    addNode (.labelled i label)

/-- Splits an expression and gives its variable. At the end the variables are put into the order in
which the variable of the expression needs them. -/
def splitExpression (settings : Settings) (i : NodeId) : Action RegisteredVariable := do
  let ctx : Context := ⟨settings, some i⟩
  reserveLabels i
  let root ← wrap i
  stageVariables ctx ((← get).graph.variables root)
  let info ← stageVariable ctx root
  modify fun s => { s with code := s.code.reorder (s.graph.labels info.node) }
  pure info

end Staging

/-- A split expression: its variable and all registered variables, in the graph that holds their
nodes. -/
structure SplitResult where
  graph : Graph
  root : RegisteredVariable
  code : CodeStructure

/-- Splits an expression into variables that are grouped by what they depend on. -/
def split (settings : Settings) (g : Graph) (root : NodeId) : Except Failure SplitResult := do
  settings.check
  match (Staging.splitExpression settings root).run { graph := g } with
  | .ok info s => .ok ⟨s.graph, info, s.code⟩
  | .error e _ => .error e

/-- Splits several expressions of one form, each for itself. -/
def splitAll (settings : Settings) (g : Graph) (roots : List NodeId) :
    List (Except Failure SplitResult) :=
  roots.map (split settings g)

end FormStaging
