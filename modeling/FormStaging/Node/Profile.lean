import FormStaging.Node

/-!
# Tensor shape and free indices

A `Profile` is what an expression shows to the node above it: its shape, its free indices in order
of first occurrence, and, if it is a multi-index, its entries. `Node.profile` gives the rule for
every kind of node in terms of the profiles of the operands. The rules take well-formed operands
for granted and check nothing: a sum has the profile of its left operand, and an index list that
is no multi-index counts as empty.
-/

set_option autoImplicit false

namespace FormStaging

/-- What an expression shows to the node above it. -/
structure Profile where
  /-- The tensor shape; empty for a scalar. -/
  shape : Shape
  /-- The indices that are not summed over. -/
  free : List Index
  /-- The entries of a multi-index. -/
  items : List IndexItem
deriving DecidableEq, Repr

namespace Profile

/-- A tensor of the given shape without free indices. -/
def tensor (shape : Shape) : Profile := ⟨shape, [], []⟩

/-- A scalar without free indices. -/
def scalar : Profile := tensor []

instance : Inhabited Profile := ⟨scalar⟩

/-- The number of axes. -/
def rank (p : Profile) : Nat := p.shape.length

/-- The indices listed by a multi-index, repeats included. -/
def indices (p : Profile) : List Index := IndexItem.indices p.items

end Profile

namespace Node

/-- The profile of a node from the profiles of its operands. -/
def profile : Node Profile → Profile
  | symbol _ | float _ | int _ => .scalar
  | zero shape => .tensor shape
  | identity dim => .tensor [dim, dim]
  | multiIndex items => ⟨[], Index.uncontracted (IndexItem.indices items), items⟩
  | argument arg => .tensor arg.shape
  | coefficient coeff => .tensor coeff.shape
  | facetNormal dim => .tensor [dim]
  | sum lhs _ => ⟨lhs.shape, lhs.free, []⟩
  | product lhs rhs =>
    ⟨if lhs.rank = 0 then rhs.shape else lhs.shape, Index.uncontracted (lhs.free ++ rhs.free), []⟩
  | division num den => ⟨num.shape, Index.distinct (num.free ++ den.free), []⟩
  | power base exponent => ⟨[], Index.distinct (base.free ++ exponent.free), []⟩
  | indexed tensor selector =>
    ⟨tensor.shape.drop selector.items.length,
      Index.uncontracted (tensor.free ++ selector.indices), []⟩
  | componentTensor component axes =>
    ⟨axes.indices.map Index.dim, component.free.filter (· ∉ axes.indices), []⟩
  | listTensor [] => .tensor [0]
  | listTensor (first :: rest) => ⟨(rest.length + 1) :: first.shape, first.free, []⟩
  | spatialDerivative operand directions =>
    ⟨operand.shape, Index.uncontracted (operand.free ++ directions.indices), []⟩
  | labelled content _ => ⟨content.shape, content.free, []⟩

/-- Only a multi-index shows entries, and it shows its own. -/
@[simp] theorem items_profile (n : Node Profile) : n.profile.items = n.items := by
  cases n with
  | listTensor parts => cases parts <;> rfl
  | _ => rfl

end Node

end FormStaging
