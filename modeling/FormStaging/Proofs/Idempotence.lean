import FormStaging.Proofs.Staging.Replay

/-!
# Splitting twice

The result of a split is in normal form, and a run on a normal form gives it back. So a split of the
variable of the result, with the same settings, succeeds and gives this result again
(`split_idempotent`). It neither mints a label nor adds a node, and the stacks are in the same order,
with their variables in the same order.

The settings bound the nesting of an expression. The number of nodes of the result is enough room.
-/

set_option autoImplicit false

namespace FormStaging

open Staging

/-- A run on the variable of a result `r` ends in the state `s` and gives `r` again. -/
structure GivesAgain (settings : Settings) (r : SplitResult) (s : State) : Prop where
  run_eq : (splitExpression settings r.root.node).run { graph := r.graph } = .ok r.root s
  split_eq : split settings r.graph r.root.node = .ok ⟨r.graph, r.root, s.code⟩
  /-- No node is rebuilt or added. -/
  graph_eq : s.graph = r.graph
  /-- No label is minted. -/
  labels_eq : LabelSupply.reserveAll? {} (r.graph.labels r.root.node) = some s.labels
  /-- The same variables are registered. -/
  get?_eq : ∀ l, s.code.get? l = r.code.get? l
  /-- They are in the same stacks, in the same order. -/
  stacks_eq : s.code.stacks = r.code.stacks
  equal : s.code.equal r.graph.numbering r.code = true

/-- Splitting is idempotent. -/
theorem split_idempotent {settings : Settings} {g : Graph} {i : NodeId} {r : SplitResult}
    (h : split settings g i = .ok r) (hc : g.Consistent i) (hgiven : g.DirectionsGiven i)
    (hroom : (r.graph.postOrder r.root.node).length ≤ settings.maxDepth) :
    ∃ s, GivesAgain settings r s := by
  obtain ⟨src, root, infos, ho⟩ := outcome_of_split h
  have hok : settings.fault? = none := (split_eq_ok.1 h).1
  have hplaced := ho.groups_resolve hc hgiven
  obtain ⟨labels, hlabels⟩ := ho.exists_reserveAll? hgiven
  obtain ⟨s, hrun, hgraph, rfl, hgroups⟩ :=
    (ho.normalForm hgiven).run_splitExpression (ho.root_mem_resolve hgiven) rfl hlabels hroom
  refine ⟨s, hrun, ?_, hgraph, hlabels, fun l => ?_, ?_, hgroups.equal hplaced _⟩
  · exact split_eq_ok.2 ⟨hok, s, hrun, hgraph.symm, rfl⟩
  · refine Option.ext fun info => ?_
    exact (hgroups.get?_iff l info).trans (hplaced.get?_iff l info).symm
  · rw [hgroups.stacks_eq, hplaced.stacks_eq]

/-- A sum over a product that is a variable and a derivative of it, so that both are named. -/
def namedProduct : Graph :=
  .ofNodes [.argument ⟨0, []⟩, .coefficient ⟨0, none, []⟩, .product 0 1, .labelled 2 ⟨7⟩,
    .multiIndex [.fixed 0], .spatialDerivative 3 4, .sum 5 3]

theorem split_idempotent_namedProduct :
    ∃ r s, split (.ofForm (.ofExpression namedProduct 6)) namedProduct 6 = .ok r ∧
      namedProduct.Consistent 6 ∧ namedProduct.DirectionsGiven 6 ∧
      (r.graph.postOrder r.root.node).length ≤ 512 ∧
      GivesAgain (.ofForm (.ofExpression namedProduct 6)) r s := by
  have hok : (split (.ofForm (.ofExpression namedProduct 6)) namedProduct 6).isOk = true := by cbv
  obtain ⟨r, hr⟩ := Except.exists_eq_ok hok
  have hsize : (split (.ofForm (.ofExpression namedProduct 6)) namedProduct 6).toOption.map
      (fun r => decide ((r.graph.postOrder r.root.node).length ≤ 512)) = some true := by
    cbv
  simp only [hr, Except.toOption, Option.map_some, Option.some.injEq, decide_eq_true_eq] at hsize
  have hmem : 6 ∈ namedProduct := by cbv
  have hc : namedProduct.Consistent 6 :=
    Graph.consistent_of_nodup hmem (of_decide_eq_true (by cbv))
  have hgiven : namedProduct.DirectionsGiven 6 := Graph.directionsGiven_of_all hmem (by cbv)
  obtain ⟨s, hs⟩ := split_idempotent hr hc hgiven hsize
  exact ⟨r, s, hr, hc, hgiven, hsize, hs⟩

end FormStaging
