import FormStaging.Proofs.Graph.Reachability
import FormStaging.Rendering.Graph
import FormStaging.Rendering.Term

/-!
# The text of a node

The text of a term is the pieces of its top layer one after the other, where an operand is put into
parentheses if it binds weaker than the minimum of its place (`Term.text_mk`, for the nodes of a graph
`Graph.text_unfold`). A multi-index that is not laid out as a node is read through the graph or through
the term alike. As a graph grows, its old nodes are written as they were (`Graph.Extends.rendering_eq`).
-/

set_option autoImplicit false

namespace FormStaging

variable {α β : Type}

/-- The piece with another operand. -/
def Piece.map (f : α → β) : Piece α → Piece β
  | text s => text s
  | operand a minimum => operand (f a) minimum

namespace Node

@[simp] theorem precedence_map (f : α → β) (n : Node α) : (n.map f).precedence = n.precedence := by
  cases n <;> rfl

theorem commaSeparated_map (f : α → β) :
    ∀ l : List α, commaSeparated (l.map f) = (commaSeparated l).map (Piece.map f)
  | [] => rfl
  | [_] => rfl
  | a :: b :: rest => by
    have h := commaSeparated_map f (b :: rest)
    simp only [List.map_cons] at h
    simp [commaSeparated, Piece.map, h]

/-- The written form does not depend on what the operands are. -/
theorem pieces_map (f : α → β) (style : VariableStyle) (items : β → List IndexItem) (n : Node α) :
    (n.map f).pieces style items = (n.pieces style fun a => items (f a)).map (Piece.map f) := by
  cases n with
  | listTensor parts => simp [map, pieces, Piece.map, commaSeparated_map]
  | labelled a l => cases style <;> rfl
  | _ => rfl

/-- Entries are asked for at operands only. -/
theorem pieces_congr {style : VariableStyle} {items items' : α → List IndexItem} {n : Node α}
    (h : ∀ a ∈ n.operands, items a = items' a) : n.pieces style items = n.pieces style items' := by
  cases n <;> simp_all [pieces, operands]

end Node

namespace Term

/-- The text of a piece whose operand is a term. -/
def pieceText (style : VariableStyle) : Piece Term → String
  | .text s => s
  | .operand t minimum =>
    if t.node.precedence < minimum then parenthesized (t.text style) else t.text style

@[simp] theorem pieceText_text (style : VariableStyle) (s : String) :
    pieceText style (.text s) = s := rfl

/-- What the node above sees of an operand. -/
theorem written_eq (style : VariableStyle) (t : Term) :
    t.written style = ⟨t.text style, t.node.precedence, t.node.items⟩ := by
  obtain ⟨n⟩ := t
  rw [text, written_mk]
  simp [Node.written, node]

/-- The text of a term, layer by layer. -/
theorem text_mk (style : VariableStyle) (n : Node Term) :
    (mk n).text style =
      String.join ((n.pieces style fun t => t.node.items).map (pieceText style)) := by
  rw [text, written_mk, Node.written, Node.pieces_map]
  simp only [written_eq, List.map_map]
  refine congrArg String.join (List.map_congr_left fun piece _ => ?_)
  cases piece <;> simp [Piece.map, Piece.write, pieceText, written_eq]

end Term

namespace Graph

/-- The text of a piece whose operand is a node. -/
def pieceText (g : Graph) (style : VariableStyle) (piece : Piece NodeId) : String :=
  Term.pieceText style (piece.map g.unfold)

/-- The text of a list of pieces. -/
def piecesText (g : Graph) (style : VariableStyle) (pieces : List (Piece NodeId)) : String :=
  String.join (pieces.map (g.pieceText style))

@[simp] theorem precedence_node_unfold (g : Graph) (j : NodeId) :
    (g.unfold j).node.precedence = (g.node j).precedence := by
  rw [unfold_eq, Term.node, Node.precedence_map]

@[simp] theorem pieceText_text (g : Graph) (style : VariableStyle) (s : String) :
    g.pieceText style (.text s) = s := rfl

theorem pieceText_operand (g : Graph) (style : VariableStyle) (j : NodeId) (minimum : Nat) :
    g.pieceText style (.operand j minimum) =
      if (g.node j).precedence < minimum then parenthesized ((g.unfold j).text style)
      else (g.unfold j).text style := by
  simp [pieceText, Piece.map, Term.pieceText]

theorem piecesText_cons (g : Graph) (style : VariableStyle) (piece : Piece NodeId)
    (rest : List (Piece NodeId)) :
    g.piecesText style (piece :: rest) = g.pieceText style piece ++ g.piecesText style rest := by
  simp [piecesText]

/-- The text of a node from the pieces it is laid out with. -/
theorem text_unfold (g : Graph) (style : VariableStyle) (i : NodeId) :
    (g.unfold i).text style = g.piecesText style ((g.node i).pieces style g.items) := by
  have hitems : (fun j => (g.unfold j).node.items) = g.items := by
    funext j
    rw [unfold_eq, Term.node, Node.items_map, items]
  rw [unfold_eq, Term.text_mk, Node.pieces_map, hitems, List.map_map]
  rfl

/-! ## Growth -/

section Growth

variable {g g' : Graph} {i : NodeId} {style : VariableStyle} {target : Option NodeId}

/-- An old node is laid out as it was. -/
theorem Extends.writeSteps_eq (h : g.Extends g') (hi : i ∈ g) (start : Nat) :
    g'.writeSteps style i start = g.writeSteps style i start := by
  have hitems : ∀ j ∈ (g.node i).operands, g'.items j = g.items j := by
    intro j hj
    rw [items, items, h.node_eq j (mem_of_mem_operands hj hi)]
  rw [writeSteps, writeSteps, h.node_eq i hi, Node.pieces_congr hitems]

/-- The nodes that a node is laid out with are in the graph. -/
theorem mem_of_mem_writeSteps (hi : i ∈ g) {start : Nat} {step : WriteStep} {j : NodeId}
    (hstep : step ∈ g.writeSteps style i start) (hj : j ∈ step.operand?) : j ∈ g := by
  have hmem : j ∈ (g.writeSteps style i start).filterMap WriteStep.operand? :=
    List.mem_filterMap.2 ⟨step, hstep, hj⟩
  rw [filterMap_operand?_writeSteps] at hmem
  exact mem_of_mem_operands ((Node.operands_pieces_sublist style g.items (g.node i)).subset hmem) hi

/-- Old nodes are written as they were. -/
theorem Extends.write_eq (h : g.Extends g') (steps : List WriteStep) (w : Writer)
    (hsteps : ∀ step ∈ steps, ∀ i ∈ step.operand?, i ∈ g) :
    g'.write style target steps w = g.write style target steps w := by
  fun_induction g.write style target steps w with
  | case1 w => rw [write]
  | case2 s rest w ih =>
    rw [write]
    exact ih fun step hstep => hsteps step (List.mem_cons_of_mem _ hstep)
  | case3 i minimum rest w hlt w' ih =>
    have hi : i ∈ g := hsteps _ List.mem_cons_self i rfl
    rw [write, h.node_eq i hi, if_pos hlt]
    simp only [h.writeSteps_eq hi]
    refine ih fun step hstep j hj => ?_
    rcases List.mem_append.1 hstep with hstep | hstep
    · exact mem_of_mem_writeSteps hi hstep hj
    · rcases List.mem_cons.1 hstep with rfl | hstep
      · cases hj
      · exact hsteps step (List.mem_cons_of_mem _ hstep) j hj
  | case4 i minimum rest w hlt ih =>
    have hi : i ∈ g := hsteps _ List.mem_cons_self i rfl
    rw [write, h.node_eq i hi, if_neg hlt, h.writeSteps_eq hi]
    refine ih fun step hstep j hj => ?_
    rcases List.mem_append.1 hstep with hstep | hstep
    · exact mem_of_mem_writeSteps hi hstep hj
    · exact hsteps step (List.mem_cons_of_mem _ hstep) j hj
  | case5 i start rest w ih =>
    rw [write]
    exact ih fun step hstep => hsteps step (List.mem_cons_of_mem _ hstep)

/-- An old node is rendered as it was. -/
theorem Extends.rendering_eq (h : g.Extends g') (hi : i ∈ g) :
    g'.rendering style i target = g.rendering style i target := by
  rw [rendering, rendering, h.write_eq]
  intro step hstep j hj
  rw [List.mem_singleton.1 hstep] at hj
  cases hj
  exact hi

end Growth

end Graph

end FormStaging
