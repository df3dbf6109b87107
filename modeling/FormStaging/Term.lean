import FormStaging.Node.Profile

/-!
# Terms

A `Term` is an expression as a tree: what a node of a graph unfolds to when sharing is forgotten.
Two nodes are structurally equal if they unfold to one term. Functions on terms are given layer by
layer through `Term.fold`, and `Term.fold_mk` is the equation by which they are used.
-/

set_option autoImplicit false

namespace FormStaging

/-- An expression without sharing. -/
inductive Term where
  | mk (node : Node Term)

namespace Term

variable {β : Type}

/-- The top layer. -/
def node : Term → Node Term
  | mk n => n

instance : Inhabited Term := ⟨mk default⟩

mutual

/-- Replaces every layer by the result of `rule` on the results for its operands. -/
def fold (rule : Node β → β) : Term → β
  | mk n => rule (foldLayer rule n)
termination_by structural t => t

/-- The fold under one layer. -/
def foldLayer (rule : Node β → β) : Node Term → Node β
  | .symbol name => .symbol name
  | .zero shape => .zero shape
  | .float value => .float value
  | .int value => .int value
  | .identity dim => .identity dim
  | .multiIndex items => .multiIndex items
  | .argument arg => .argument arg
  | .coefficient coeff => .coefficient coeff
  | .facetNormal dim => .facetNormal dim
  | .sum a b => .sum (fold rule a) (fold rule b)
  | .product a b => .product (fold rule a) (fold rule b)
  | .division a b => .division (fold rule a) (fold rule b)
  | .power a b => .power (fold rule a) (fold rule b)
  | .indexed a b => .indexed (fold rule a) (fold rule b)
  | .componentTensor a b => .componentTensor (fold rule a) (fold rule b)
  | .listTensor parts => .listTensor (foldParts rule parts)
  | .spatialDerivative a b => .spatialDerivative (fold rule a) (fold rule b)
  | .labelled a label => .labelled (fold rule a) label
termination_by structural n => n

/-- The fold on each term of a list. -/
def foldParts (rule : Node β → β) : List Term → List β
  | [] => []
  | t :: ts => fold rule t :: foldParts rule ts
termination_by structural ts => ts

end

theorem foldParts_eq_map (rule : Node β → β) (ts : List Term) :
    foldParts rule ts = ts.map (fold rule) := by
  induction ts with
  | nil => rfl
  | cons t ts ih => simp [foldParts, ih]

theorem foldLayer_eq_map (rule : Node β → β) (n : Node Term) :
    foldLayer rule n = n.map (fold rule) := by
  cases n with
  | listTensor parts => simp [foldLayer, Node.map, foldParts_eq_map]
  | _ => rfl

/-- A fold works layer by layer. -/
theorem fold_mk (rule : Node β → β) (n : Node Term) :
    fold rule (mk n) = rule (n.map (fold rule)) := by
  rw [fold, foldLayer_eq_map]

/-- What holds of a layer whenever it holds of the operands holds of every term. -/
theorem induction {P : Term → Prop} (layer : ∀ n : Node Term, (∀ t ∈ n.operands, P t) → P (mk n)) :
    ∀ t, P t := by
  intro t
  refine Term.rec (motive_1 := P) (motive_2 := fun n => ∀ t ∈ n.operands, P t)
    (motive_3 := fun ts => ∀ t ∈ ts, P t) (fun n ih => layer n ih) ?_ ?_ ?_ ?_ ?_ ?_ ?_ ?_ ?_ ?_ ?_
    ?_ ?_ ?_ ?_ ?_ ?_ ?_ ?_ ?_ t
  all_goals simp +contextual [Node.operands]

/-- Shape and free indices of a term. -/
def profile : Term → Profile := fold Node.profile

theorem profile_mk (n : Node Term) : (mk n).profile = (n.map profile).profile := fold_mk _ n

end Term

end FormStaging
