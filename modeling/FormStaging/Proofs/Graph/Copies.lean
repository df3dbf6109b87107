import FormStaging.Proofs.Graph.Equality
import FormStaging.Proofs.Graph.Occurrences
import FormStaging.Proofs.Graph.Variables

/-!
# Copies under other labels

`Node.relabel` and `Term.relabel` replace labels and nothing else. `Graph.Copies g g' φ r part` says that
the graph `g'` has a copy of the nodes `part` of `g`: node `φ j` is a copy of node `j`, with label `r l`
for label `l`. Different nodes have different copies, so the copy shares what the expression shares.

All that is read off an expression by walking it is read off its copy, renamed: the post-order, the
variables and their labels, and the term (`Copies.postOrder_eq`, `Copies.variables_eq`,
`Copies.unfold_eq`). For this no two labels of the expression may become one. Then nodes are
structurally equal exactly if their copies are (`Copies.equal_eq`).
-/

set_option autoImplicit false

namespace FormStaging

/-! ## Other labels -/

namespace Node

variable {α β γ δ : Type}

/-- The same layer with label `r l` for label `l`. -/
def relabel (r : Label → Label) : Node α → Node α
  | labelled content label => labelled content (r label)
  | n => n

@[simp] theorem operands_relabel (r : Label → Label) (n : Node α) :
    (n.relabel r).operands = n.operands := by
  cases n <;> rfl

@[simp] theorem kind_relabel (r : Label → Label) (n : Node α) : (n.relabel r).kind = n.kind := by
  cases n <;> rfl

@[simp] theorem label?_relabel (r : Label → Label) (n : Node α) :
    (n.relabel r).label? = n.label?.map r := by
  cases n <;> rfl

@[simp] theorem map_relabel (r : Label → Label) (f : α → β) (n : Node α) :
    (n.relabel r).map f = (n.map f).relabel r := by
  cases n <;> rfl

@[simp] theorem relabel_relabel (r r' : Label → Label) (n : Node α) :
    (n.relabel r).relabel r' = n.relabel fun l => r' (r l) := by
  cases n <;> rfl

theorem relabel_eq_self {r : Label → Label} {n : Node α} (h : ∀ l, n.label? = some l → r l = l) :
    n.relabel r = n := by
  cases n with
  | labelled content label => rw [relabel, h label rfl]
  | _ => rfl

/-- A copy of a layer over copies of new operands is a copy of the layer over these. -/
theorem withOperands?_copy (r : Label → Label) (f : α → β) (h : γ → δ) (n : Node α) (new : List γ) :
    ((n.map f).relabel r).withOperands? (new.map h) =
      (n.withOperands? new).map fun m => (m.map h).relabel r := by
  cases n with
  | listTensor parts =>
    simp only [map, relabel, withOperands?, List.length_map]
    split <;> rfl
  | _ =>
    rcases new with _ | ⟨a, _ | ⟨b, _ | ⟨c, l⟩⟩⟩ <;> rfl

end Node

/-- The term with label `r l` for label `l`. -/
def Term.relabel (r : Label → Label) : Term → Term := fold fun n => mk (n.relabel r)

theorem Term.relabel_mk (r : Label → Label) (n : Node Term) :
    (mk n).relabel r = mk ((n.map (relabel r)).relabel r) := fold_mk _ n

namespace Graph

variable {g g' : Graph} {φ : NodeId → NodeId} {r : Label → Label} {part part' : Set NodeId}
  {i j : NodeId}

theorem mem_push_iff {n : Node NodeId} {hn : ∀ j ∈ n.operands, j ∈ g} :
    i ∈ g.push n hn ↔ i ≤ g.size := by
  rw [mem_iff, size_push]
  exact Nat.lt_succ_iff

/-- Past the new node there is none. -/
theorem node_push_of_gt {n : Node NodeId} (hn : ∀ j ∈ n.operands, j ∈ g) (h : g.size < i) :
    (g.push n hn).node i = default := by
  apply node_of_not_mem
  rw [mem_push_iff]
  exact Nat.not_le_of_lt h

/-- Nothing is below a number past the end. -/
theorem postOrder_of_not_mem (h : i ∉ g) : g.postOrder i = [] := by
  have hnone : (Array.replicate g.size false)[i]? = none := by
    rw [Array.getElem?_eq_none_iff, Array.size_replicate]
    exact Nat.le_of_not_lt h
  rw [postOrder, walk, if_neg (by simp [hnone]), walk]

/-! ## Copies -/

/-- Graph `g'` has a copy of the nodes `part` of graph `g`. The copy of node `j` is node `φ j`, and it has
label `r l` for label `l`. -/
structure Copies (g g' : Graph) (φ : NodeId → NodeId) (r : Label → Label) (part : Set NodeId) :
    Prop where
  /-- With a node its operands are copied. -/
  closed : ∀ j ∈ part, ∀ k ∈ g.operands j, k ∈ part
  node_eq : ∀ j ∈ part, g'.node (φ j) = ((g.node j).map φ).relabel r
  mem_iff : ∀ j ∈ part, φ j ∈ g' ↔ j ∈ g
  /-- The copy shares no more than the expression. -/
  injOn : Set.InjOn φ part

/-- The nodes of an expression. -/
def below (g : Graph) (i : NodeId) : Set NodeId := {j | g.Reaches i j}

/-- The labels of some nodes. -/
def labelsOf (g : Graph) (part : Set NodeId) : Set Label := {l | ∃ j ∈ part, g.label? j = some l}

namespace Copies

theorem operands_eq (h : Copies g g' φ r part) (hi : i ∈ part) :
    g'.operands (φ i) = (g.operands i).map φ := by
  rw [operands, h.node_eq i hi, Node.operands_relabel, Node.operands_map, operands]

theorem label?_eq (h : Copies g g' φ r part) (hi : i ∈ part) :
    g'.label? (φ i) = (g.label? i).map r := by
  rw [label?, h.node_eq i hi, Node.label?_relabel, Node.label?_map, label?]

/-- A node is a variable exactly if its copy is one, and then the label is renamed. -/
theorem label?_cases (h : Copies g g' φ r part) (hi : i ∈ part) :
    (g.label? i = none ∧ g'.label? (φ i) = none) ∨
      ∃ l, g.label? i = some l ∧ g'.label? (φ i) = some (r l) := by
  have hlabel := h.label?_eq hi
  cases hl : g.label? i with
  | none =>
    rw [hl, Option.map_none] at hlabel
    exact Or.inl ⟨rfl, hlabel⟩
  | some l =>
    rw [hl, Option.map_some] at hlabel
    exact Or.inr ⟨l, rfl, hlabel⟩

/-- With a node all nodes below it are copied. -/
theorem mem_of_reaches (h : Copies g g' φ r part) (hi : i ∈ part) (hr : g.Reaches i j) :
    j ∈ part := by
  induction hr with
  | refl => exact hi
  | tail _ hstep ih => exact h.closed _ ih _ hstep

theorem occurrences_eq (h : Copies g g' φ r part) :
    ∀ i, i ∈ part → g'.occurrences (φ i) = (g.occurrences i).map φ := by
  refine g.induction fun i ih hi => ?_
  rw [Graph.occurrences_eq, Graph.occurrences_eq, h.operands_eq hi, List.flatMap_map, List.map_append,
    List.map_flatMap]
  refine congrArg (· ++ [φ i]) (List.flatMap_congr fun j hj => ?_)
  exact ih j hj (h.closed i hi j hj)

/-- Below a copied node all nodes are copied. -/
theorem mem_of_mem_postOrder (h : Copies g g' φ r part) (hi : i ∈ part) (hj : j ∈ g.postOrder i) :
    j ∈ part := by
  by_cases hg : i ∈ g
  · exact h.mem_of_reaches hi ((mem_postOrder hg).1 hj)
  · rw [postOrder_of_not_mem hg] at hj
    exact absurd hj List.not_mem_nil

/-- The post-order of a copy consists of the copies in the same order. -/
theorem postOrder_eq (h : Copies g g' φ r part) (hi : i ∈ part) :
    g'.postOrder (φ i) = (g.postOrder i).map φ := by
  by_cases hg : i ∈ g
  · have hinj : Set.InjOn φ {j | j ∈ g.occurrences i} := by
      apply h.injOn.mono
      intro j hj
      exact h.mem_of_reaches hi ((mem_occurrences_iff g i).1 hj)
    rw [postOrder_eq_eraseDups_occurrences ((h.mem_iff i hi).2 hg),
      postOrder_eq_eraseDups_occurrences hg, h.occurrences_eq i hi, ← firstPer_some_eq_eraseDups,
      ← firstPer_some_eq_eraseDups, firstPer_some_map hinj]
  · rw [postOrder_of_not_mem hg, postOrder_of_not_mem fun hg' => hg ((h.mem_iff i hi).1 hg'),
      List.map_nil]

theorem mem_of_mem_variables (h : Copies g g' φ r part) (hi : i ∈ part) (hj : j ∈ g.variables i) :
    j ∈ part :=
  h.mem_of_mem_postOrder hi ((firstPer_sublist _ _).subset hj)

/-- The labels below a copied node are those of copied nodes. -/
theorem mem_labelsOf (h : Copies g g' φ r part) (hi : i ∈ part) {l : Label} (hl : l ∈ g.labels i) :
    l ∈ g.labelsOf part := by
  obtain ⟨j, hj, hlj⟩ := List.mem_filterMap.1 hl
  exact ⟨j, h.mem_of_mem_variables hi hj, hlj⟩

/-- The variables of a copy are the copies of the variables. -/
theorem variables_eq (h : Copies g g' φ r part) (hr : Set.InjOn r (g.labelsOf part))
    (hi : i ∈ part) : g'.variables (φ i) = (g.variables i).map φ := by
  have hlabels : Set.InjOn r {l | HasKey g.label? (g.postOrder i) l} := by
    apply hr.mono
    rintro l ⟨j, hj, hl⟩
    exact ⟨j, h.mem_of_mem_postOrder hi hj, hl⟩
  rw [Graph.variables, Graph.variables, h.postOrder_eq hi, firstPer_map g'.label? fun _ => rfl]
  apply congrArg (List.map φ)
  exact firstPer_of_key_map (fun j hj => h.label?_eq (h.mem_of_mem_postOrder hi hj)) hlabels

theorem labels_eq (h : Copies g g' φ r part) (hr : Set.InjOn r (g.labelsOf part))
    (hi : i ∈ part) : g'.labels (φ i) = (g.labels i).map r := by
  rw [labels, labels, h.variables_eq hr hi, List.filterMap_map, List.map_filterMap]
  apply List.filterMap_congr
  intro v hv
  exact h.label?_eq (h.mem_of_mem_variables hi hv)

/-! ## Terms -/

/-- The term of a copy is the term under the other labels. -/
theorem unfold_eq (h : Copies g g' φ r part) :
    ∀ i, i ∈ part → g'.unfold (φ i) = (g.unfold i).relabel r := by
  refine g.induction fun i ih hi => ?_
  rw [Graph.unfold_eq, Graph.unfold_eq, Term.relabel_mk, h.node_eq i hi, Node.map_relabel,
    Node.map_map, Node.map_map]
  refine congrArg (fun n => Term.mk (Node.relabel r n)) (Node.map_congr fun j hj => ?_)
  exact ih j hj (h.closed i hi j hj)

/-- The term is that of the copy with the old labels put back. -/
theorem relabel_unfold {back : Label → Label} (h : Copies g g' φ r part)
    (hback : ∀ l ∈ g.labelsOf part, back (r l) = l) :
    ∀ i, i ∈ part → (g'.unfold (φ i)).relabel back = g.unfold i := by
  refine g.induction fun i ih hi => ?_
  rw [Graph.unfold_eq, Term.relabel_mk, h.node_eq i hi, Node.map_relabel, Node.map_relabel,
    Node.map_map, Node.map_map, Node.relabel_relabel, Node.relabel_eq_self, Graph.unfold_eq]
  · refine congrArg Term.mk (Node.map_congr fun j hj => ?_)
    exact ih j hj (h.closed i hi j hj)
  · intro l hl
    rw [Node.label?_map] at hl
    exact hback l ⟨i, hi, hl⟩

/-- Nodes have one term exactly if their copies have. -/
theorem unfold_eq_iff (h : Copies g g' φ r part) (hr : Set.InjOn r (g.labelsOf part)) (hi : i ∈ part)
    (hj : j ∈ part) : g'.unfold (φ i) = g'.unfold (φ j) ↔ g.unfold i = g.unfold j := by
  constructor
  · intro heq
    have : Nonempty Label := ⟨⟨0⟩⟩
    have hback := hr.leftInvOn_invFunOn
    rw [← h.relabel_unfold hback i hi, heq, h.relabel_unfold hback j hj]
  · intro heq
    rw [h.unfold_eq i hi, h.unfold_eq j hj, heq]

/-- Nodes are structurally equal exactly if their copies are. -/
theorem equal_eq (h : Copies g g' φ r part) (hr : Set.InjOn r (g.labelsOf part)) (hi : i ∈ part)
    (hj : j ∈ part) (hgi : i ∈ g) (hgj : j ∈ g) : g'.equal (φ i) (φ j) = g.equal i j := by
  rw [Bool.eq_iff_iff, equal_iff ((h.mem_iff i hi).2 hgi) ((h.mem_iff j hj).2 hgj),
    equal_iff hgi hgj]
  exact h.unfold_eq_iff hr hi hj

end Copies

end Graph

end FormStaging
