import FormStaging.Proofs.Graph.Nesting

/-!
# Staging in two parts

To stage a node is to stage the nodes entered from it, from left to right, and then to finish the node
with their results (`run_stageNode`). To stage a variable is to stage its content and then to register
the variable (`run_stageVariable_of_new`). The second parts enter no node any more.
-/

set_option autoImplicit false

namespace FormStaging.Staging

/-- The node over results of its operands, which are named where they are worth it and depend on
something else than the node. -/
def nameAndRebuild (ctx : Context) (i : NodeId) (operands : List NodeId) (staged : List Staged)
    (deps : DependencySet) : Action Staged := do
  let new ← if isMixed (← get).graph staged deps then nameEach ctx staged
    else pure (staged.map Staged.node)
  withOperands i operands new deps

/-- What is left to do for node `i` with the given layer after the nodes entered from it were staged. -/
def finishNode (ctx : Context) (i : NodeId) (layer : Node NodeId) (staged : List Staged) :
    Action Staged :=
  match layer with
  | .argument arg => do
    let deps ← argumentDeps ctx i arg
    pure ⟨i, deps⟩
  | .coefficient coeff => do
    let deps ← coefficientDeps ctx i coeff
    pure ⟨i, deps⟩
  | .facetNormal _ => pure ⟨i, ctx.settings.constant.withRuntime⟩
  | .labelled _ label => registered ctx i label
  | .spatialDerivative operand directions =>
    -- there is one result, that for the operand
    let result := staged.headD ⟨operand, ctx.settings.constant⟩
    withOperands i [operand, directions] [result.node, directions] result.deps.withRuntime
  | layer => do
    let deps ← keepPromise (ctx.settings.constant.unionAll (staged.map Staged.deps))
    nameAndRebuild ctx i layer.operands staged deps

/-- Registers a variable with the result for its content. -/
def registerContent (ctx : Context) (i content : NodeId) (label : Label) (staged : Staged) :
    Action RegisteredVariable := do
  let node ← if staged.node = content then pure i else addNode (.labelled staged.node label)
  register ctx node staged.deps (some label)

variable {ctx : Context} {stage : NodeId → Action Staged} {i a b : NodeId} {s : State}
  {layer : Node NodeId} {rs : List Staged}

/-- A layer is staged in two parts. -/
theorem run_stageNode : (stageNode ctx stage i).run s =
    (stageEach stage (s.graph.entered i) >>= finishNode ctx i (s.graph.node i)).run s := by
  rw [stageNode, run_get_bind, Graph.entered]
  cases s.graph.node i with
  | argument | coefficient | facetNormal | labelled =>
    simp only [Node.operands, stageEach, pure_bind, finishNode]
  | spatialDerivative a b =>
    simp only [stageDerivative, stageEach, bind_assoc, pure_bind, finishNode, List.headD_cons]
  | _ => rfl

theorem finishNode_of_isPlain (h : isPlain layer = true) : finishNode ctx i layer rs =
    (do
      let deps ← keepPromise (ctx.settings.constant.unionAll (rs.map Staged.deps))
      nameAndRebuild ctx i layer.operands rs deps) := by
  cases layer <;> first | rfl | simp [isPlain] at h

/-- A variable with a new label is staged in two parts. -/
theorem run_stageVariable_of_new {c : NodeId} {l : Label} (hi : s.graph.node i = .labelled c l)
    (hnew : s.code.get? l = none) : (stageVariable ctx i).run s =
      (do
        reserveLabels i
        let staged ← FormStaging.Staging.stage ctx ctx.settings.maxDepth c
        registerContent ctx i c l staged).run s := by
  rw [stageVariable, run_get_bind]
  simp only [hi, Node.contentAndLabel?]
  rw [run_get_bind, hnew]
  rfl

end FormStaging.Staging
