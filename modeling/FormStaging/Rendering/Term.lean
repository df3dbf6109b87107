import FormStaging.Rendering.Layout
import FormStaging.Term

/-!
# The written form of a term

`Term.text` writes a term from the written forms of its operands. It is the rule for the text of an
expression; a graph is written without unfolding it first, by `Graph.rendering`.
-/

set_option autoImplicit false

namespace FormStaging

/-- What the node above needs to know of a written operand. -/
structure WrittenOperand where
  text : String
  precedence : Nat
  items : List IndexItem
deriving DecidableEq, Repr

/-- The text of a piece. -/
def Piece.write : Piece WrittenOperand → String
  | text s => s
  | operand a minimum => if a.precedence < minimum then parenthesized a.text else a.text

/-- The written form of a node from those of its operands. -/
def Node.written (style : VariableStyle) (n : Node WrittenOperand) : WrittenOperand where
  text := String.join ((n.pieces style WrittenOperand.items).map Piece.write)
  precedence := n.precedence
  items := n.items

/-- The written form of a term. -/
def Term.written (style : VariableStyle) : Term → WrittenOperand := fold (Node.written style)

/-- The text of a term. -/
def Term.text (style : VariableStyle) (t : Term) : String := (t.written style).text

theorem Term.written_mk (style : VariableStyle) (n : Node Term) :
    (mk n).written style = (n.map (written style)).written style := fold_mk _ n

end FormStaging
