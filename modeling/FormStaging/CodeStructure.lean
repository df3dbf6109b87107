import FormStaging.DependencySet
import FormStaging.FirstOccurrence
import FormStaging.Graph.Equality
import FormStaging.Rendering.Graph

/-!
# Code structures

A `CodeStructure` holds the named variables that an expression was split into, grouped by what they
depend on. A group is a `Stack`: its variables can be computed in one block of code, front to back.
The registry finds a variable by its label.

`CodeStructure.insert` puts a new variable on the stack of its dependency set, and
`CodeStructure.reorder` moves listed variables to the front.
-/

set_option autoImplicit false

namespace FormStaging

/-- A registered variable. -/
structure RegisteredVariable where
  label : Label
  /-- The node of the variable itself. -/
  node : NodeId
  deps : DependencySet
deriving DecidableEq, Repr

/-- The labels of the variables with one dependency set. -/
structure Stack where
  deps : DependencySet
  labels : List Label
deriving DecidableEq, Repr

namespace Graph

/-- What a variable stands for; any other node stands for itself. -/
def content (g : Graph) (i : NodeId) : NodeId :=
  match (g.node i).contentAndLabel? with
  | some (content, _) => content
  | none => i

end Graph

namespace Stack

/-- Puts a label at the end of the stack of a dependency set, on a new last stack if there is none. -/
def place (deps : DependencySet) (label : Label) : List Stack → List Stack
  | [] => [⟨deps, [label]⟩]
  | s :: rest =>
    if s.deps = deps then ⟨s.deps, s.labels ++ [label]⟩ :: rest else s :: place deps label rest

/-- The stacks of variables that are placed one after the other. -/
def group (infos : List RegisteredVariable) : List Stack :=
  infos.foldl (fun placed info => place info.deps info.label placed) []

end Stack

/-- Named variables, grouped by what they depend on. -/
structure CodeStructure where
  /-- The variable of each label. -/
  registry : Std.HashMap Label RegisteredVariable := ∅
  /-- The groups in the order in which they are first needed. -/
  «stacks» : List Stack := []

namespace CodeStructure

/-- The variable with a label. -/
def get? (code : CodeStructure) (label : Label) : Option RegisteredVariable := code.registry[label]?

/-- Whether a label is registered. -/
def contains (code : CodeStructure) (label : Label) : Bool := code.registry.contains label

/-- The number of variables. -/
def size (code : CodeStructure) : Nat := code.registry.size

/-- The variables of the registered labels of a list. -/
def resolve (code : CodeStructure) (labels : List Label) : List RegisteredVariable :=
  labels.filterMap code.get?

/-- The variables with exactly the given dependency set, in order. -/
def stack (code : CodeStructure) (deps : DependencySet) : List RegisteredVariable :=
  match code.stacks.find? fun s => s.deps = deps with
  | some s => code.resolve s.labels
  | none => []

/-- The labels, stack by stack. -/
def order (code : CodeStructure) : List Label := code.stacks.flatMap Stack.labels

/-- The variables, stack by stack. -/
def «variables» (code : CodeStructure) : List RegisteredVariable := code.resolve code.order

/-- Adds a variable at the end of its stack. Its label must be new. -/
def insert (code : CodeStructure) (info : RegisteredVariable) : CodeStructure where
  registry := code.registry.insert info.label info
  «stacks» := Stack.place info.deps info.label code.stacks

/-- Orders the stacks and their variables by the given list of labels. Variables that are not listed
come after the listed ones and keep their order. -/
def reorder (code : CodeStructure) (listed : List Label) : CodeStructure :=
  { code with «stacks» := Stack.group (code.resolve (firstPer some (listed ++ code.order))) }

/-- Whether two variables have one label, one dependency set and structurally equal nodes. -/
def sameVariable (ν : Numbering) (a b : RegisteredVariable) : Bool :=
  a.label == b.label && ν.representative a.node == ν.representative b.node && a.deps == b.deps

/-- Structural equality, the order of the stacks and of their variables included. -/
def equal (ν : Numbering) (a b : CodeStructure) : Bool :=
  a.size == b.size &&
    a.registry.toList.all (fun entry =>
      match b.get? entry.1 with
      | some other => sameVariable ν entry.2 other
      | none => false) &&
    a.stacks == b.stacks

/-- The line that defines a variable. -/
def definitionLine (g : Graph) (info : RegisteredVariable) : String :=
  "  " ++ info.label.text ++ " = " ++ g.namedText (g.content info.node) ++ "\n"

/-- The lines of a stack. -/
def stackText (g : Graph) (code : CodeStructure) (s : Stack) : String :=
  s.deps.text ++ ":\n" ++ String.join ((code.resolve s.labels).map (definitionLine g))

/-- The listing of all stacks, with an empty line between two of them. -/
def listing (g : Graph) (code : CodeStructure) : String :=
  "\n".intercalate (code.stacks.map (stackText g code))

end CodeStructure

end FormStaging
