import FormStaging.Staging.Registration
import FormStaging.Text.EditDistance

/-!
# Staging an expression

`stage` walks an expression bottom-up. It finds the dependency set of every node and the node that
stands for it in the result. Where the operands of a node depend on different things, each of them
is named by a variable, so that it can be computed in a block of its own; literals and multi-indices
are cheaper to repeat than to name. A node whose operands stay the same stands for itself.

A variable stands for what is registered under its label and is not entered. The directions of a
derivative are kept as they are.
-/

set_option autoImplicit false

namespace FormStaging.Staging

/-- Whether a node is worth a name of its own. -/
def worthNaming {α : Type} : Node α → Bool
  | .multiIndex _ | .zero _ | .float _ | .int _ => false
  | _ => true

/-- The coefficients of the form whose names differ from `name` in one character at most. -/
def suggestions (form : FormData) (name : String) : List String :=
  form.coefficientNames.filter fun other => editDistance other name < 2

/-- The dependency set of an argument. -/
def argumentDeps (ctx : Context) (i : NodeId) (arg : Argument) : Action DependencySet :=
  match ctx.settings.form.arguments.slot? arg with
  | some slot => keepPromise (declaration ctx.settings.argumentDeps slot)
  | none => failAt ctx i (.unknownArgument arg.text ctx.settings.form.rank)

/-- The dependency set of a coefficient. -/
def coefficientDeps (ctx : Context) (i : NodeId) (coeff : Coefficient) : Action DependencySet :=
  match ctx.settings.form.coefficients.slot? coeff with
  | some slot => keepPromise (declaration ctx.settings.coefficientDeps slot)
  | none =>
    failAt ctx i (.unknownCoefficient coeff.text (suggestions ctx.settings.form coeff.text))

/-- What is registered under the label of a variable. -/
def registered (ctx : Context) (i : NodeId) (label : Label) : Action Staged := do
  match (← get).code.get? label with
  | some info => pure ⟨info.node, info.deps⟩
  | none => failAt ctx i (.unprocessedVariable label.text)

/-- Stages the nodes of a list from left to right. -/
def stageEach (stage : NodeId → Action Staged) : List NodeId → Action (List Staged)
  | [] => pure []
  | i :: rest => do
    let first ← stage i
    let others ← stageEach stage rest
    pure (first :: others)

/-- Names the operands that are worth it, from left to right. -/
def nameEach (ctx : Context) : List Staged → Action (List NodeId)
  | [] => pure []
  | operand :: rest => do
    let node ← if worthNaming ((← get).graph.node operand.node) then nameOperand ctx operand
      else pure operand.node
    let others ← nameEach ctx rest
    pure (node :: others)

/-- Whether an operand that is worth a name depends on something else than the node above it. -/
def isMixed (g : Graph) (operands : List Staged) (deps : DependencySet) : Bool :=
  operands.any fun operand => worthNaming (g.node operand.node) && operand.deps != deps

/-- The node over new operands: the node itself if they are the old ones. -/
def withOperands (i : NodeId) (old new : List NodeId) (deps : DependencySet) : Action Staged :=
  if new = old then pure ⟨i, deps⟩
  else do
    let node ← rebuildNode i new
    pure ⟨node, deps⟩

/-- Stages a node that depends on what its operands depend on. -/
def stageOperator (ctx : Context) (stage : NodeId → Action Staged) (i : NodeId)
    (operands : List NodeId) : Action Staged := do
  let staged ← stageEach stage operands
  let deps ← keepPromise (ctx.settings.constant.unionAll (staged.map Staged.deps))
  let new ← if isMixed (← get).graph staged deps then nameEach ctx staged
    else pure (staged.map Staged.node)
  withOperands i operands new deps

/-- Stages a derivative. Derivatives are evaluated at run time. -/
def stageDerivative (stage : NodeId → Action Staged) (i operand directions : NodeId) :
    Action Staged := do
  let staged ← stage operand
  withOperands i [operand, directions] [staged.node, directions] staged.deps.withRuntime

/-- Stages a node, given how to stage the nodes below it. -/
def stageNode (ctx : Context) (stage : NodeId → Action Staged) (i : NodeId) : Action Staged := do
  match (← get).graph.node i with
  | .argument arg =>
    let deps ← argumentDeps ctx i arg
    pure ⟨i, deps⟩
  | .coefficient coeff =>
    let deps ← coefficientDeps ctx i coeff
    pure ⟨i, deps⟩
  | .facetNormal _ => pure ⟨i, ctx.settings.constant.withRuntime⟩
  | .labelled _ label => registered ctx i label
  | .spatialDerivative operand directions => stageDerivative stage i operand directions
  | node => stageOperator ctx stage i node.operands

/-- The result for a node: the one already there, or else the one that `compute` gives, which is
kept for later. -/
def remember (i : NodeId) (compute : Action Staged) : Action Staged := do
  match (← get).staged[i]? with
  | some result => pure result
  | none =>
    let result ← compute
    modify fun s => { s with staged := s.staged.insert i result }
    pure result

/-- Stages the expression below a node. `room` is how many levels of nodes may still be entered. -/
def stage (ctx : Context) : (room : Nat) → NodeId → Action Staged
  | 0, i => remember i (throw (.error ⟨.tooDeep ctx.settings.maxDepth, []⟩))
  | room + 1, i => remember i (stageNode ctx (stage ctx room) i)

end FormStaging.Staging
