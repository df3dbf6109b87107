import FormStaging.Staging.State

/-!
# Registering variables

`register` puts an expression under a label and gives the variable that stands for it. A variable
keeps its own label, any other expression is wrapped. A label is registered once: doing it again
with the same content and dependency set gives the first registration, and doing it with others is
a collision. No variable is added in either case.

`nameOperand` registers an operand under a minted label, once for each operand.
-/

set_option autoImplicit false

namespace FormStaging.Staging

/-- The node of a variable to register, in the graph that holds it. -/
structure Candidate where
  graph : Graph
  node : NodeId
  label : Label

/-- The variable that an expression is registered as: the expression itself if it is a variable, and
otherwise a new variable around it with the given label. -/
def candidate? (g : Graph) (i : NodeId) (label : Label) : Option Candidate :=
  match g.label? i with
  | some own => some ⟨g, i, own⟩
  | none => (g.push? (.labelled i label)).map fun added => ⟨added.1, added.2, label⟩

/-- The cause of a collision between a registered variable and another one with its label. -/
def collision (g : Graph) (existing other : RegisteredVariable) : Cause :=
  .registrationCollision other.label.text
    (g.namedText (g.content existing.node)) existing.deps.text
    (g.namedText (g.content other.node)) other.deps.text

/-- The label for an expression that is no variable: the given one, or else a new one. -/
def chooseLabel : Option Label → Action Label
  | some label => pure label
  | none => mintLabel

/-- Registers a variable whose label is reserved, unless the label is registered. -/
def settleCandidate (ctx : Context) (c : Candidate) (deps : DependencySet) :
    Action RegisteredVariable := fun s =>
  let info : RegisteredVariable := ⟨c.label, c.node, deps⟩
  match s.code.get? c.label with
  | none => .ok info { s with graph := c.graph, code := s.code.insert info }
  | some existing =>
    if c.graph.equal existing.node c.node ∧ existing.deps = deps then .ok existing s
    else
      match ctx.settings.collisions with
      | .warn => .ok existing s
      | .error => .error (ctx.failure c.graph c.node (collision c.graph existing info)) s

/-- Reserves the label of a variable and registers the variable, unless the label is registered. -/
def registerCandidate (ctx : Context) (c : Candidate) (deps : DependencySet) :
    Action RegisteredVariable := do
  reserveLabel c.label
  settleCandidate ctx c deps

/-- Registers an expression with its dependency set. The given label is for an expression that is no
variable; without one a label is minted. -/
def register (ctx : Context) (i : NodeId) (deps : DependencySet) (label : Option Label) :
    Action RegisteredVariable := do
  let label ← match (← get).graph.label? i with
    | some own => pure own
    | none => chooseLabel label
  match candidate? (← get).graph i label with
  | some c => registerCandidate ctx c deps
  | none => throw (.misuse .foreignOperand)

/-- The variable that names an operand, registered when the operand is first named. -/
def nameOperand (ctx : Context) (operand : Staged) : Action NodeId := do
  match (← get).named[operand.node]? with
  | some node => pure node
  | none =>
    let info ← register ctx operand.node operand.deps none
    modify fun s => { s with named := s.named.insert operand.node info.node }
    pure info.node

end FormStaging.Staging
