import FormStaging.Node

/-!
# The written form of a node

`Node.pieces` lays one node out as texts and operands in writing order. An operand is put into
parentheses exactly if it binds weaker than the minimum of its place. Sums, products and divisions
lean to the left and powers to the right, so the minimum on the other side is one higher. A
negative literal binds like a product: it is written with a sign, and a sign before a power or an
index would read as a sign of the whole.

The second operand of an indexing and of a derivative is not laid out as a node. Only its entries
are written.
-/

set_option autoImplicit false

namespace FormStaging

/-- How variables are written. -/
inductive VariableStyle where
  /-- The label, and the content in parentheses after it. -/
  | inline
  /-- The label alone. -/
  | byName
deriving DecidableEq, Repr

/-- A piece of the written form of a node: a text, or an operand with the least precedence that it
may have without parentheses. -/
inductive Piece (α : Type) where
  | text (s : String)
  | operand (a : α) (minimum : Nat)
deriving Repr

/-- The operand of a piece. -/
def Piece.operand? {α : Type} : Piece α → Option α
  | text _ => none
  | operand a _ => some a

/-- Puts a text into parentheses. -/
def parenthesized (s : String) : String := "(" ++ s ++ ")"

namespace Node

variable {α : Type}

/-- How strongly a node holds its written form together. -/
def precedence : Node α → Nat
  | sum _ _ => 1
  | product _ _ | division _ _ => 2
  | power _ _ => 3
  | float value => if value.isNegative then 2 else 4
  | int value => if value < 0 then 2 else 4
  | _ => 4

/-- Operands in a row, with commas between them. -/
def commaSeparated : List α → List (Piece α)
  | [] => []
  | [a] => [.operand a 0]
  | a :: rest => .operand a 0 :: .text ", " :: commaSeparated rest

/-- The zero tensor of a shape. -/
def zeroText (shape : Shape) : String :=
  if shape.isEmpty then "0" else "zero" ++ parenthesized (", ".intercalate (shape.map toString))

/-- The written form of a node, in order. The entries of a multi-index operand are asked for with
`items`. -/
def pieces (style : VariableStyle) (items : α → List IndexItem) : Node α → List (Piece α)
  | symbol name => [.text name]
  | zero shape => [.text (zeroText shape)]
  | float value => [.text value.text]
  | int value => [.text (toString value)]
  | identity _ => [.text "I"]
  | multiIndex entries => [.text (parenthesized (IndexItem.listText entries))]
  | argument arg => [.text arg.text]
  | coefficient coeff => [.text coeff.text]
  | facetNormal _ => [.text "n"]
  | sum a b => [.operand a 1, .text " + ", .operand b 2]
  | product a b => [.operand a 2, .text " * ", .operand b 3]
  | division a b => [.operand a 2, .text " / ", .operand b 3]
  | power a b => [.operand a 4, .text "^", .operand b 3]
  | indexed a selector => [.operand a 4, .text ("[" ++ IndexItem.listText (items selector) ++ "]")]
  | componentTensor a axes =>
    [.text "as_tensor(", .operand a 0, .text ", ", .operand axes 0, .text ")"]
  | listTensor parts => .text "[" :: commaSeparated parts ++ [.text "]"]
  | spatialDerivative a directions =>
    [.operand a 4, .text (".dx" ++ parenthesized (IndexItem.listText (items directions)))]
  | labelled a label =>
    match style with
    | .inline => [.text label.text, .text "(", .operand a 0, .text ")"]
    | .byName => [.text label.text]

/-! ## The operands that are written -/

theorem filterMap_operand?_commaSeparated :
    ∀ l : List α, (commaSeparated l).filterMap Piece.operand? = l
  | [] => rfl
  | [_] => rfl
  | a :: b :: rest => by
    have h := filterMap_operand?_commaSeparated (b :: rest)
    simp [commaSeparated, List.filterMap_cons, Piece.operand?, h]

/-- The operands of the written form are operands of the node, in order. -/
theorem operands_pieces_sublist (style : VariableStyle) (items : α → List IndexItem) (n : Node α) :
    ((n.pieces style items).filterMap Piece.operand?).Sublist n.operands := by
  cases n with
  | listTensor parts =>
    simp [pieces, List.filterMap_cons, Piece.operand?, filterMap_operand?_commaSeparated, operands]
  | labelled a label =>
    cases style <;> simp [pieces, List.filterMap_cons, Piece.operand?, operands]
  | _ => simp [pieces, List.filterMap_cons, Piece.operand?, operands]

end Node

end FormStaging
