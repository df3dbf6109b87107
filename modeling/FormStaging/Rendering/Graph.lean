import FormStaging.Graph.Unfold
import FormStaging.Rendering.Layout

/-!
# Writing a graph

`Graph.rendering` writes the expression below a node and records where a chosen node, the target,
stands in the text. The work that remains is kept on a list of steps, so the depth of an expression
is bounded by memory only. A span is recorded when the last piece of the target is written; the
parentheses around it do not belong to it.

Positions count bytes of the UTF-8 form.
-/

set_option autoImplicit false

namespace FormStaging

/-- A range of bytes in a text. -/
structure Span where
  start : Nat
  stop : Nat
deriving DecidableEq, Repr

/-- A text with the spans of the target, from left to right. -/
structure Rendering where
  text : String
  spans : List Span
deriving DecidableEq, Repr

/-- A pending step of writing. -/
inductive WriteStep where
  /-- To write a piece. -/
  | piece (p : Piece NodeId)
  /-- To note that the node whose written form began at `start` is complete. -/
  | finish (i : NodeId) (start : Nat)

/-- The node that a step is about to write. -/
def WriteStep.operand? : WriteStep → Option NodeId
  | piece p => p.operand?
  | finish _ _ => none

/-- What was written so far. -/
structure Writer where
  text : String := ""
  spans : Array Span := #[]

/-- Adds a text at the end. -/
def Writer.append (w : Writer) (s : String) : Writer := { w with text := w.text ++ s }

/-- Notes a span from `start` to the end of what was written. -/
def Writer.record (w : Writer) (start : Nat) : Writer :=
  { w with spans := w.spans.push ⟨start, w.text.utf8ByteSize⟩ }

namespace Graph

/-- The steps that write a node from the position `start` on. -/
def writeSteps (g : Graph) (style : VariableStyle) (i : NodeId) (start : Nat) : List WriteStep :=
  ((g.node i).pieces style g.items).map .piece ++ [.finish i start]

/-- The unfolded sizes of the nodes that the steps are about to write, added up. -/
def pendingSize (g : Graph) (steps : List WriteStep) : Nat :=
  totalSize ((steps.filterMap WriteStep.operand?).map g.unfoldedSize)

theorem pendingSize_append (g : Graph) (s t : List WriteStep) :
    g.pendingSize (s ++ t) = g.pendingSize s + g.pendingSize t := by
  simp [pendingSize]

theorem filterMap_operand?_writeSteps (g : Graph) (style : VariableStyle) (i : NodeId)
    (start : Nat) : ((g.writeSteps style i start).filterMap WriteStep.operand?) =
      ((g.node i).pieces style g.items).filterMap Piece.operand? := by
  have h : WriteStep.operand? ∘ WriteStep.piece = Piece.operand? := rfl
  simp [writeSteps, List.filterMap_map, List.filterMap_cons, WriteStep.operand?, h]

/-- Laying a node out makes the pending work smaller. -/
theorem pendingSize_writeSteps_lt (g : Graph) (style : VariableStyle) (i : NodeId) (start : Nat) :
    g.pendingSize (g.writeSteps style i start) < g.unfoldedSize i := by
  rw [pendingSize, filterMap_operand?_writeSteps, unfoldedSize_eq]
  have h := (Node.operands_pieces_sublist style g.items (g.node i)).map g.unfoldedSize
  exact Nat.lt_succ_of_le (totalSize_le_of_sublist h)

theorem pendingSize_operand_cons (g : Graph) (i : NodeId) (minimum : Nat)
    (rest : List WriteStep) :
    g.pendingSize (.piece (.operand i minimum) :: rest) = g.unfoldedSize i + g.pendingSize rest := by
  simp [pendingSize, WriteStep.operand?, Piece.operand?]

theorem pendingSize_text_cons (g : Graph) (s : String) (rest : List WriteStep) :
    g.pendingSize (.piece (.text s) :: rest) = g.pendingSize rest := by
  simp [pendingSize, List.filterMap_cons, WriteStep.operand?, Piece.operand?]

theorem pendingSize_finish_cons (g : Graph) (i : NodeId) (start : Nat) (rest : List WriteStep) :
    g.pendingSize (.finish i start :: rest) = g.pendingSize rest := by
  simp [pendingSize, List.filterMap_cons, WriteStep.operand?]

/-- Carries out the pending steps. -/
def write (g : Graph) (style : VariableStyle) (target : Option NodeId) :
    List WriteStep → Writer → Writer
  | [], w => w
  | .piece (.text s) :: rest, w => g.write style target rest (w.append s)
  | .piece (.operand i minimum) :: rest, w =>
    if (g.node i).precedence < minimum then
      let w := w.append "("
      g.write style target
        (g.writeSteps style i w.text.utf8ByteSize ++ .piece (.text ")") :: rest) w
    else g.write style target (g.writeSteps style i w.text.utf8ByteSize ++ rest) w
  | .finish i start :: rest, w =>
    g.write style target rest (if target = some i then w.record start else w)
termination_by steps _ => (g.pendingSize steps, steps.length)
decreasing_by
  · rw [pendingSize_text_cons]
    exact Prod.Lex.right _ (Nat.lt_succ_self _)
  · refine Prod.Lex.left _ _ ?_
    rw [pendingSize_append, pendingSize_operand_cons, pendingSize_text_cons]
    exact Nat.add_lt_add_right (g.pendingSize_writeSteps_lt style i _) _
  · refine Prod.Lex.left _ _ ?_
    rw [pendingSize_append, pendingSize_operand_cons]
    exact Nat.add_lt_add_right (g.pendingSize_writeSteps_lt style i _) _
  · rw [pendingSize_finish_cons]
    exact Prod.Lex.right _ (Nat.lt_succ_self _)

/-- The written form of the expression below `root`, and where the target stands in it. -/
def rendering (g : Graph) (style : VariableStyle) (root : NodeId) (target : Option NodeId) :
    Rendering :=
  let w := g.write style target [.piece (.operand root 0)] {}
  ⟨w.text, w.spans.toList⟩

/-- The written form of the expression below a node, variables with their contents. -/
def text (g : Graph) (root : NodeId) : String := (g.rendering .inline root none).text

/-- The written form of the expression below a node, variables by name. -/
def namedText (g : Graph) (root : NodeId) : String := (g.rendering .byName root none).text

/-- The spans of a node in the written form of the expression below another one. -/
def spansOf (g : Graph) (root target : NodeId) : List Span :=
  (g.rendering .inline root (some target)).spans

end Graph

end FormStaging
