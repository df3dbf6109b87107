import FormStaging.Proofs.Staging.NormalForm

/-!
# The result of a split is canonical

Where variables with equal labels have equal contents, the result of a split is in normal form. So
no registered variable is dead: the registered labels are those of the variables below the root. A
variable is written with one node only, the registered one, also where the input has several equal
nodes. And the stacks are fixed by the list of these variables: they group it by dependency set
(`split_canonical`).
-/

set_option autoImplicit false

namespace FormStaging

open Staging

/-- The grouping of a list of variables by dependency set: the sets in the order of their first
occurrence, each with the labels of its variables in list order. -/
def groupedByDeps (listed : List RegisteredVariable) : List Stack :=
  (listed.map RegisteredVariable.deps).eraseDups.map fun d =>
    ⟨d, (listed.filter fun info => info.deps = d).map RegisteredVariable.label⟩

theorem Stack.group_eq_groupedByDeps (listed : List RegisteredVariable) :
    Stack.group listed = groupedByDeps listed := by
  rw [Stack.group_eq, Stack.keys, firstPer_some_eq_eraseDups]
  rfl

/-- The code structure of a result is what the variable of the expression shows. -/
structure Canonical (r : SplitResult) : Prop where
  /-- The registered labels are those of the variables below the root. -/
  registered_iff : ∀ l, r.code.contains l = true ↔ l ∈ r.graph.labels r.root.node
  /-- Every variable below the root is the registered node. -/
  node_eq : ∀ j l, r.graph.Reaches r.root.node j → r.graph.label? j = some l →
    ∃ info, r.code.get? l = some info ∧ info.node = j
  /-- The variables below the root, in post-order, are found under their labels. -/
  resolve_labels : (r.code.resolve (r.graph.labels r.root.node)).map RegisteredVariable.node =
    r.graph.variables r.root.node
  /-- The stacks group these variables. -/
  stacks_eq : r.code.stacks = groupedByDeps (r.code.resolve (r.graph.labels r.root.node))

/-- The result of a split is canonical. -/
theorem split_canonical {settings : Settings} {g : Graph} {i : NodeId} {r : SplitResult}
    (h : split settings g i = .ok r) (hc : g.Consistent i) (hgiven : g.DirectionsGiven i) :
    Canonical r := by
  obtain ⟨src, root, infos, ho⟩ := outcome_of_split h
  have hnormal := ho.normalForm hgiven
  have hplaced := ho.groups_resolve hc hgiven
  refine ⟨fun l => ?_, fun j l hj hl => ?_, ?_, ?_⟩
  · rw [CodeStructure.contains_iff, hnormal.labels_eq, List.mem_map]
    exact exists_congr fun info => hplaced.get?_iff l info
  · obtain ⟨info, hinfo, rfl, rfl⟩ :=
      ho.registered_of_reaches hgiven ho.root_registered hj hl
    exact ⟨info, ho.get?_iff.2 ⟨hinfo, rfl⟩, rfl⟩
  · exact hnormal.variables_eq.symm
  · rw [hplaced.stacks_eq, Stack.group_eq_groupedByDeps]

/-- A product that is a variable, written with two equal nodes over two equal products. The second
variable stands in another one. -/
def writtenTwice : Graph :=
  .ofNodes [.argument ⟨0, []⟩, .coefficient ⟨0, none, []⟩, .product 0 1, .labelled 2 ⟨7⟩,
    .product 0 1, .labelled 4 ⟨7⟩, .sum 5 0, .labelled 6 ⟨9⟩, .product 3 7]

/-- Both nodes are replaced by one. -/
theorem split_canonical_writtenTwice :
    ∃ r, split (.ofForm (.ofExpression writtenTwice 8)) writtenTwice 8 = .ok r ∧
      writtenTwice.Consistent 8 ∧ writtenTwice.DirectionsGiven 8 ∧ Canonical r := by
  have hok : (split (.ofForm (.ofExpression writtenTwice 8)) writtenTwice 8).isOk = true := by cbv
  obtain ⟨r, hr⟩ := Except.exists_eq_ok hok
  have hmem : 8 ∈ writtenTwice := by cbv
  have hgiven : writtenTwice.DirectionsGiven 8 := Graph.directionsGiven_of_all hmem (by cbv)
  have hlabelled : (writtenTwice.postOrder 8).filter (fun j => (writtenTwice.label? j).isSome) =
      [3, 5, 7] := by
    cbv
  have hc : writtenTwice.Consistent 8 := by
    -- the two nodes of the product have equal layers, and so have the two variables around them
    have hproducts : writtenTwice.unfold 2 = writtenTwice.unfold 4 := by
      refine Graph.unfold_eq_of_map_eq (congrArg _ ?_)
      cbv
    have h₃ : writtenTwice.node 3 = .labelled 2 ⟨7⟩ := by cbv
    have h₅ : writtenTwice.node 5 = .labelled 4 ⟨7⟩ := by cbv
    have h₇ : writtenTwice.node 7 = .labelled 6 ⟨9⟩ := by cbv
    have hvariables : writtenTwice.unfold 3 = writtenTwice.unfold 5 := by
      refine Graph.unfold_eq_of_map_eq ?_
      rw [h₃, h₅, Node.map, Node.map, hproducts]
    refine Graph.consistent_of_unfold_eq hmem ?_
    rw [hlabelled]
    simp [Graph.label?_of_labelled h₃, Graph.label?_of_labelled h₅, Graph.label?_of_labelled h₇,
      hvariables]
  exact ⟨r, hr, hc, hgiven, split_canonical hr hc hgiven⟩

end FormStaging
