import FormStaging.Decimal.Binary64
import FormStaging.FormArgument
import FormStaging.Label

/-!
# Expression nodes

A `Node` is one layer of an expression: a terminal with its data, or an operator with its operands
in order. The type of the operands is a parameter. Over the node numbers of a graph it gives the
entries of the graph, over itself it gives terms (`Term`), and over the results for the operands it
gives the input of a rule that works layer by layer.
-/

set_option autoImplicit false

namespace FormStaging

/-- The kinds of nodes. -/
inductive Kind where
  | symbol | zero | float | int | identity | multiIndex | argument | coefficient | facetNormal
  | sum | product | division | power | indexed | componentTensor | listTensor | spatialDerivative
  | labelled
deriving DecidableEq, Repr

/-- The name of a kind in messages. -/
def Kind.name : Kind → String
  | symbol => "Symbol"
  | zero => "Zero"
  | float => "FloatValue"
  | int => "IntValue"
  | identity => "Identity"
  | multiIndex => "MultiIndex"
  | argument => "BasisFunction"
  | coefficient => "Function"
  | facetNormal => "FacetNormal"
  | sum => "Sum"
  | product => "Product"
  | division => "Division"
  | power => "Power"
  | indexed => "Indexed"
  | componentTensor => "ComponentTensor"
  | listTensor => "ListTensor"
  | spatialDerivative => "SpatialDerivative"
  | labelled => "Variable"

/-- One layer of an expression over operands of type `α`. -/
inductive Node (α : Type) where
  /-- A named scalar. -/
  | symbol (name : String)
  /-- The zero tensor of a shape. -/
  | zero (shape : Shape)
  /-- A floating literal. -/
  | float (value : Binary64)
  /-- An integer literal. -/
  | int (value : Int)
  /-- The identity matrix. -/
  | identity (dim : Nat)
  /-- A list of components and indices, for indexing, tensor building and derivatives. -/
  | multiIndex (items : List IndexItem)
  /-- A basis function of the form. -/
  | argument (arg : Argument)
  /-- A coefficient of the form. -/
  | coefficient (coeff : Coefficient)
  /-- The normal of a facet. -/
  | facetNormal (dim : Nat)
  /-- The sum of two tensors of one shape. -/
  | sum (lhs rhs : α)
  /-- The product of two tensors, one of them a scalar. -/
  | product (lhs rhs : α)
  /-- A tensor divided by a scalar. -/
  | division (num den : α)
  /-- A scalar to the power of a scalar. -/
  | power (base exponent : α)
  /-- A part of a tensor, selected by a multi-index. -/
  | indexed (tensor selector : α)
  /-- The tensor whose axes are the indices of a multi-index. -/
  | componentTensor (component axes : α)
  /-- The tensor whose slices along the first axis are given. -/
  | listTensor (parts : List α)
  /-- A derivative in the directions of a multi-index. -/
  | spatialDerivative (operand directions : α)
  /-- A variable: a subexpression under a label. -/
  | labelled (content : α) (label : Label)
deriving DecidableEq, Hashable, Repr

namespace Node

variable {α β γ : Type}

instance : Inhabited (Node α) := ⟨symbol ""⟩

/-- The kind of the node. -/
def kind : Node α → Kind
  | symbol _ => .symbol
  | zero _ => .zero
  | float _ => .float
  | int _ => .int
  | identity _ => .identity
  | multiIndex _ => .multiIndex
  | argument _ => .argument
  | coefficient _ => .coefficient
  | facetNormal _ => .facetNormal
  | sum _ _ => .sum
  | product _ _ => .product
  | division _ _ => .division
  | power _ _ => .power
  | indexed _ _ => .indexed
  | componentTensor _ _ => .componentTensor
  | listTensor _ => .listTensor
  | spatialDerivative _ _ => .spatialDerivative
  | labelled _ _ => .labelled

/-- The operands in order; none for a terminal. -/
def operands : Node α → List α
  | symbol _ | zero _ | float _ | int _ | identity _ | multiIndex _ | argument _ | coefficient _
  | facetNormal _ => []
  | sum a b | product a b | division a b | power a b | indexed a b | componentTensor a b
  | spatialDerivative a b => [a, b]
  | listTensor parts => parts
  | labelled a _ => [a]

/-- The same layer over other operands. -/
def map (f : α → β) : Node α → Node β
  | symbol name => symbol name
  | zero shape => zero shape
  | float value => float value
  | int value => int value
  | identity dim => identity dim
  | multiIndex items => multiIndex items
  | argument arg => argument arg
  | coefficient coeff => coefficient coeff
  | facetNormal dim => facetNormal dim
  | sum a b => sum (f a) (f b)
  | product a b => product (f a) (f b)
  | division a b => division (f a) (f b)
  | power a b => power (f a) (f b)
  | indexed a b => indexed (f a) (f b)
  | componentTensor a b => componentTensor (f a) (f b)
  | listTensor parts => listTensor (parts.map f)
  | spatialDerivative a b => spatialDerivative (f a) (f b)
  | labelled a label => labelled (f a) label

/-- The same layer with a proof for each operand that it is one. -/
def attach : (n : Node α) → Node { a : α // a ∈ n.operands }
  | symbol name => symbol name
  | zero shape => zero shape
  | float value => float value
  | int value => int value
  | identity dim => identity dim
  | multiIndex items => multiIndex items
  | argument arg => argument arg
  | coefficient coeff => coefficient coeff
  | facetNormal dim => facetNormal dim
  | sum a b => sum ⟨a, by simp [operands]⟩ ⟨b, by simp [operands]⟩
  | product a b => product ⟨a, by simp [operands]⟩ ⟨b, by simp [operands]⟩
  | division a b => division ⟨a, by simp [operands]⟩ ⟨b, by simp [operands]⟩
  | power a b => power ⟨a, by simp [operands]⟩ ⟨b, by simp [operands]⟩
  | indexed a b => indexed ⟨a, by simp [operands]⟩ ⟨b, by simp [operands]⟩
  | componentTensor a b => componentTensor ⟨a, by simp [operands]⟩ ⟨b, by simp [operands]⟩
  | listTensor parts => listTensor parts.attach
  | spatialDerivative a b => spatialDerivative ⟨a, by simp [operands]⟩ ⟨b, by simp [operands]⟩
  | labelled a label => labelled ⟨a, by simp [operands]⟩ label

/-- The same layer over the given operands, or `none` if their number is not the node's own. -/
def withOperands? : Node α → List β → Option (Node β)
  | symbol name, [] => some (symbol name)
  | zero shape, [] => some (zero shape)
  | float value, [] => some (float value)
  | int value, [] => some (int value)
  | identity dim, [] => some (identity dim)
  | multiIndex items, [] => some (multiIndex items)
  | argument arg, [] => some (argument arg)
  | coefficient coeff, [] => some (coefficient coeff)
  | facetNormal dim, [] => some (facetNormal dim)
  | sum _ _, [a, b] => some (sum a b)
  | product _ _, [a, b] => some (product a b)
  | division _ _, [a, b] => some (division a b)
  | power _ _, [a, b] => some (power a b)
  | indexed _ _, [a, b] => some (indexed a b)
  | componentTensor _ _, [a, b] => some (componentTensor a b)
  | listTensor parts, new => if parts.length = new.length then some (listTensor new) else none
  | spatialDerivative _ _, [a, b] => some (spatialDerivative a b)
  | labelled _ label, [a] => some (labelled a label)
  | _, _ => none

/-- The entries of a multi-index; none for any other node. -/
def items : Node α → List IndexItem
  | multiIndex items => items
  | _ => []

/-- The argument of an argument node. -/
def argument? : Node α → Option Argument
  | argument arg => some arg
  | _ => none

/-- The coefficient of a coefficient node. -/
def coefficient? : Node α → Option Coefficient
  | coefficient coeff => some coeff
  | _ => none

/-- The label of a variable. -/
def label? : Node α → Option Label
  | labelled _ label => some label
  | _ => none

/-- The content and the label of a variable. -/
def contentAndLabel? : Node α → Option (α × Label)
  | labelled content label => some (content, label)
  | _ => none

/-! ## The layer and its operands -/

@[simp] theorem map_id (n : Node α) : n.map (fun a => a) = n := by cases n <;> simp [map]

@[simp] theorem map_map (f : α → β) (g : β → γ) (n : Node α) :
    (n.map f).map g = n.map fun a => g (f a) := by
  cases n <;> simp [map]

@[simp] theorem operands_map (f : α → β) (n : Node α) : (n.map f).operands = n.operands.map f := by
  cases n <;> rfl

@[simp] theorem kind_map (f : α → β) (n : Node α) : (n.map f).kind = n.kind := by cases n <;> rfl

@[simp] theorem items_map (f : α → β) (n : Node α) : (n.map f).items = n.items := by cases n <;> rfl

@[simp] theorem label?_map (f : α → β) (n : Node α) : (n.map f).label? = n.label? := by
  cases n <;> rfl

theorem map_attach (n : Node α) (f : α → β) : (n.attach.map fun a => f a.1) = n.map f := by
  cases n with
  | listTensor parts => exact congrArg listTensor List.attach_map_val
  | _ => rfl

/-- A layer depends on a function only through its values at the operands. -/
theorem map_congr {f g : α → β} {n : Node α} (h : ∀ a ∈ n.operands, f a = g a) :
    n.map f = n.map g := by
  cases n <;> simp_all [map, operands]

/-- New operands are accepted exactly if they are as many as the old ones. -/
theorem withOperands?_isSome (n : Node α) (new : List β) :
    (n.withOperands? new).isSome ↔ n.operands.length = new.length := by
  cases n with
  | listTensor parts => simp [withOperands?, operands]
  | _ =>
    rcases new with _ | ⟨a, _ | ⟨b, _ | ⟨c, l⟩⟩⟩ <;> simp [withOperands?, operands]

/-- A rebuilt layer has the new operands and is otherwise the old one. -/
theorem withOperands?_eq_some {n : Node α} {new : List β} {m : Node β}
    (h : n.withOperands? new = some m) :
    m.operands = new ∧ m.kind = n.kind ∧ m.items = n.items ∧ m.label? = n.label? := by
  cases n <;> rcases new with _ | ⟨a, _ | ⟨b, _ | ⟨c, l⟩⟩⟩ <;>
    simp only [withOperands?, Option.some.injEq, reduceCtorEq] at h <;>
    first
    | (subst h; exact ⟨rfl, rfl, rfl, rfl⟩)
    | (split at h <;> simp only [Option.some.injEq, reduceCtorEq] at h; subst h
       exact ⟨rfl, rfl, rfl, rfl⟩)

end Node

end FormStaging
