import FormStaging.FirstOccurrence
import FormStaging.Graph.Basic
import Std.Data.TreeMap

/-!
# Walking a graph

`Graph.postOrder` lists every node below a root once: operands before the nodes that use them, left
to right, each at the place of its first occurrence. The walk keeps its pending work on a list, so
its depth is bounded by memory only, and it marks a node when it is entered, so a shared node is
expanded once. Operands that are marked by then are not put on the list; one that is marked later is
skipped when its turn comes. The variables and the index dimensions of an expression are read off the
post-order.
-/

set_option autoImplicit false

namespace FormStaging

/-- A pending piece of work of the walk: to enter a node, or to list it once its operands are. -/
inductive WalkStep where
  | enter (i : NodeId)
  | leave (i : NodeId)
deriving DecidableEq, Repr

/-- Marking an unmarked place leaves fewer unmarked ones. -/
theorem count_false_set_lt {marks : Array Bool} {i : Nat} (h : marks[i]? = some false) :
    (marks.setIfInBounds i true).count false < marks.count false := by
  obtain ⟨hi, hv⟩ := Array.getElem?_eq_some_iff.1 h
  have hpos : 0 < marks.count false := Array.count_pos_iff.2 (hv ▸ Array.getElem_mem hi)
  rw [Array.setIfInBounds, dif_pos hi, Array.count_set]
  simp only [hv, beq_self_eq_true, if_true, Bool.true_beq, Bool.false_eq_true, if_false]
  omega

/-- The nodes of a list that are not marked. -/
def unmarked (marks : Array Bool) (is : List NodeId) : List NodeId :=
  is.filter fun i => marks[i]? = some false

namespace Graph

/-- Carries out the pending steps, given which nodes were entered and which were listed. -/
def walk (g : Graph) : List WalkStep → Array Bool → Array NodeId → Array NodeId
  | [], _, listed => listed
  | .leave i :: rest, entered, listed => g.walk rest entered (listed.push i)
  | .enter i :: rest, entered, listed =>
    if entered[i]? = some false then
      let entered := entered.setIfInBounds i true
      g.walk ((unmarked entered (g.operands i)).map .enter ++ .leave i :: rest) entered listed
    else g.walk rest entered listed
termination_by steps entered _ => (entered.count false, steps.length)
decreasing_by
  · exact Prod.Lex.right _ (Nat.lt_succ_self _)
  · rename_i h
    exact Prod.Lex.left _ _ (count_false_set_lt h)
  · exact Prod.Lex.right _ (Nat.lt_succ_self _)

/-- Every node below the root once, operands first and left to right; the root comes last. -/
def postOrder (g : Graph) (root : NodeId) : List NodeId :=
  (g.walk [.enter root] (Array.replicate g.size false) #[]).toList

/-- The variables below the root in post-order, the first node of each label. The variables that a
variable refers to stand before it. -/
def «variables» (g : Graph) (root : NodeId) : List NodeId := firstPer g.label? (g.postOrder root)

/-- The labels of the variables below the root, in the same order. -/
def labels (g : Graph) (root : NodeId) : List Label := (g.variables root).filterMap g.label?

/-- The dimension of every index identifier that a multi-index below the root mentions, free or
summed. If an identifier is mentioned with several dimensions, the last in post-order counts. -/
def indexDimensions (g : Graph) (root : NodeId) : Std.TreeMap Nat Nat :=
  (g.postOrder root).foldl
    (fun dims i =>
      (IndexItem.indices (g.items i)).foldl (fun dims ix => dims.insert ix.id ix.dim) dims)
    ∅

end Graph

end FormStaging
