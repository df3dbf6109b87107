import FormStaging.Proofs.Failures
import FormStaging.Proofs.Staging.Replay

/-!
# Splitting a result under the same depth limit

The settings bound how deep staging goes, not how deep an expression is nested: a node that was staged
before is found without entering it again. A second run meets the nodes in another order, since
the variables that the first run made are staged first, so it may go deeper than the first run
did (`not_split_again_deepSum`).

It never goes deeper than the input is nested. A chain of nodes that staging would enter in the result
comes from a chain of the input that is at least as long (`Staging.Stands.nests`). And it fails for want
of this room only, since a run on a normal form that has room enough succeeds
(`Outcome.isTooDeep_of_split_again`). So there is a second split if no chain of the input is longer
than allowed (`split_splits_again`).
-/

set_option autoImplicit false

namespace FormStaging

open Staging

/-! ## Chains of the result -/

namespace Staging

variable {settings : Settings} {src g : Graph} {i : NodeId} {r : Staged} {length : Nat}
  {infos : List RegisteredVariable}

/-- What stands for a node has no longer chains than the node. Operands that are replaced by their
names end a chain early. -/
theorem Stands.nests (h : Stands settings src g infos i r) (hsrc : src.Extends g) (hi : i ∈ src)
    (hlabels : Labels g infos) (hn : g.Nests r.node length) : src.Nests i length := by
  induction h generalizing length with
  | leaf => exact hsrc.nests hi hn
  | @labelled i info _ hinfo =>
    rw [hn.eq_one (Graph.entered_of_label? (hlabels info hinfo))]
    exact .one i
  | @derivative i a b n r h ha hb hmem hnode ih =>
    have hops := Graph.operands_of_derivative h
    cases hn with
    | one => exact .one i
    | under hj hn =>
      rw [Graph.entered_of_derivative hnode, List.mem_singleton] at hj
      subst hj
      have hentered : a ∈ src.entered i := by simp [Graph.entered_of_derivative h]
      exact .under hentered (ih (Graph.mem_of_mem_operands (by simp [hops]) hi) hn)
  | @operator i n deps staged new h hops hdeps hnew hmem hnode ih =>
    cases hn with
    | one => exact .one i
    | @under _ k m hk hn =>
      have hplain : isPlain (g.node n) = true := by rw [hnode, isPlain_map, h]
      rw [Graph.entered_of_isPlain hplain, Graph.operands, hnode, Node.operands_map,
        List.mem_map] at hk
      obtain ⟨j, hj, rfl⟩ := hk
      have hentered : j ∈ src.entered i := by rwa [Graph.entered_of_isPlain h]
      have hstaged : g.Nests (staged j).node m → src.Nests j m :=
        ih j hj (Graph.mem_of_mem_operands hj hi)
      refine .under hentered ?_
      cases hnew with
      | uniform hnew => exact hstaged ((hnew j hj).1 ▸ hn)
      | named hnew =>
        have hname := hnew j hj
        split at hname
        · -- the name is a variable
          obtain ⟨info, hinfo, hv, -⟩ := hname
          rw [← hv] at hn
          rw [hn.eq_one (Graph.entered_of_label? (hlabels info hinfo))]
          exact .one j
        · exact hstaged (hname ▸ hn)

end Staging

section Chains

variable {settings : Settings} {g src : Graph} {i root : NodeId} {r : SplitResult} {length : Nat}
  {infos : List RegisteredVariable}

/-- The variable around an expression adds no chains but the one of itself. -/
theorem Wraps.exists_nests (h : Wraps g i src root) {j : NodeId} (hj : src.Reaches root j)
    (hn : src.Nests j length) : ∃ k, g.Reaches i k ∧ g.Nests k length := by
  rcases h.eq_or_reaches hj with rfl | hgj
  · obtain ⟨l, hl⟩ := h.exists_label
    rw [hn.eq_one (Graph.entered_of_label? hl)]
    exact ⟨i, Graph.Reaches.refl g i, .one i⟩
  · exact ⟨j, hgj, h.grows.nests (hgj.mem h.mem) hn⟩

/-- A chain in the content of a registered variable comes from one of the input. -/
theorem Outcome.exists_nests (h : Outcome settings g i r src root infos)
    {info : RegisteredVariable} (hinfo : info ∈ infos) {c : NodeId} {l : Label}
    (hc : r.graph.node info.node = .labelled c l) (hn : r.graph.Nests c length) :
    ∃ k, g.Reaches i k ∧ g.Nests k length := by
  obtain ⟨j, s, hj, hstands, hnode, -⟩ :=
    h.built.exists_stands h.grows h.wraps.root_mem hinfo
  rw [hc] at hnode
  obtain ⟨rfl, -⟩ := Node.labelled.inj hnode
  exact h.wraps.exists_nests hj
    (hstands.nests h.grows (hj.mem h.wraps.root_mem) h.built.labels hn)

end Chains

/-! ## The second run -/

/-- The variable of the result `r` of splitting node `i` of `g` is split again, if there is room. -/
structure SplitsAgain (settings : Settings) (g : Graph) (i : NodeId) (r : SplitResult) : Prop where
  /-- With room for every chain of the input, the second split succeeds. -/
  succeeds : (∀ j length, g.Reaches i j → g.Nests j length → length ≤ settings.maxDepth) →
    ∃ r', split settings r.graph r.root.node = .ok r'
  /-- Otherwise it succeeds too, or it reports the nesting. -/
  cause : ∀ e, split settings r.graph r.root.node = .error e →
    e = .error ⟨.tooDeep settings.maxDepth, []⟩

namespace Staging

variable {settings : Settings} {g : Graph} {i root : NodeId} {d : DependencySet}
  {infos : List RegisteredVariable}

/-- The depth limit does not matter to what is settled. -/
theorem Settled.withDepth (h : Settled settings g infos i d) (depth : Nat) :
    Settled (settings.withDepth depth) g infos i d := by
  induction h with
  | leaf h => exact .leaf h
  | labelled hinfo hi hd h _ ih => exact .labelled hinfo hi hd h ih
  | derivative h hb _ ih => exact .derivative h hb ih
  | operator deps h _ hdeps hnames ih => exact .operator deps h ih hdeps hnames

theorem NormalForm.withDepth (h : NormalForm settings g root infos) (depth : Nat) :
    NormalForm (settings.withDepth depth) g root infos := by
  refine ⟨h.mem, h.variables_eq, fun info hinfo => ?_⟩
  obtain ⟨c, hc, hsettled⟩ := h.settled info hinfo
  exact ⟨c, hc, hsettled.withDepth depth⟩

end Staging

section SecondRun

variable {settings : Settings} {g src : Graph} {i root : NodeId} {r : SplitResult}
  {infos : List RegisteredVariable} {e : Failure}

/-- A split of a result fails for the nesting only, as it succeeds under a limit that leaves room for
all nodes of the result. -/
theorem Outcome.isTooDeep_of_split_again (h : Outcome settings g i r src root infos)
    (hok : settings.fault? = none) (hgiven : g.DirectionsGiven i)
    (he : split settings r.graph r.root.node = .error e) : e.IsTooDeep := by
  obtain ⟨labels, hlabels⟩ := h.exists_reserveAll? hgiven
  have hle := Nat.le_max_left settings.maxDepth (r.graph.postOrder r.root.node).length
  have hroom := Nat.le_max_right settings.maxDepth (r.graph.postOrder r.root.node).length
  generalize max settings.maxDepth (r.graph.postOrder r.root.node).length = depth at hle hroom
  obtain ⟨s, hrun, -⟩ := ((h.normalForm hgiven).withDepth depth).run_splitExpression
    (h.root_mem_resolve hgiven) rfl hlabels hroom
  have hdeep : split (settings.withDepth depth) r.graph r.root.node = .ok ⟨s.graph, r.root, s.code⟩ :=
    split_eq_ok.2 ⟨hok, s, hrun, rfl, rfl⟩
  rcases split_withDepth settings hle r.graph r.root.node with hsame | ⟨e', he', htooDeep⟩
  · rw [he, hdeep] at hsame
    cases hsame
  · rw [he] at he'
    cases he'
    exact htooDeep

/-- A split of a result fails only where the input has a chain that is longer than allowed. -/
theorem Outcome.nests_of_split_again (h : Outcome settings g i r src root infos)
    (hok : settings.fault? = none) (hgiven : g.DirectionsGiven i)
    (he : split settings r.graph r.root.node = .error e) :
    e = .error ⟨.tooDeep settings.maxDepth, []⟩ ∧
      ∃ j, g.Reaches i j ∧ g.Nests j (settings.maxDepth + 1) := by
  have hlabel := h.built.labels r.root h.root_registered
  obtain ⟨depth, places, rfl⟩ := h.isTooDeep_of_split_again hok hgiven he
  obtain ⟨s, hrun⟩ := split_eq_error hok he
  cases splitExpression_refuses hok (Graph.mem_of_label? hlabel) _ s hrun with
  | wrapped hwraps _ hrefusal =>
    cases hwraps with
    | wrapper hnone =>
      rw [hlabel] at hnone
      cases hnone
    | itself =>
      cases hrefusal with
      | slot hslot => exact absurd (h.hasSlots hgiven) hslot.not_hasSlots
      | @deep v c l hv hc hn =>
        -- the variable whose content is nested too deeply is a registered one
        have hreach := Graph.reaches_of_firstVariable? (Graph.mem_of_label? hlabel) hv
        obtain ⟨info, hinfo, rfl, -⟩ :=
          h.registered_of_reaches hgiven h.root_registered hreach (Graph.label?_of_labelled hc)
        exact ⟨rfl, h.exists_nests hinfo hc hn⟩

end SecondRun

/-- What was split can be split again, if the input is not nested more deeply than allowed. -/
theorem split_splits_again {settings : Settings} {g : Graph} {i : NodeId} {r : SplitResult}
    (h : split settings g i = .ok r) (hgiven : g.DirectionsGiven i) :
    SplitsAgain settings g i r := by
  obtain ⟨src, root, infos, ho⟩ := outcome_of_split h
  have hok : settings.fault? = none := (split_eq_ok.1 h).1
  refine ⟨fun hroom => ?_, fun e he => (ho.nests_of_split_again hok hgiven he).1⟩
  cases hsplit : split settings r.graph r.root.node with
  | ok r' => exact ⟨r', rfl⟩
  | error e =>
    obtain ⟨-, j, hj, hn⟩ := ho.nests_of_split_again hok hgiven hsplit
    exact absurd (hroom j _ hj hn) (Nat.not_succ_le_self _)

/-- Four sums, each over the one before, and above the last one a product and a sum with the second
one. -/
def deepSum : Graph :=
  .ofNodes [.argument ⟨0, []⟩, .sum 0 0, .sum 1 0, .sum 2 0, .sum 3 0, .symbol "c", .product 4 5,
    .sum 2 6]

theorem split_splits_again_deepSum :
    ∃ r r', split (.ofForm (.ofExpression deepSum 7)) deepSum 7 = .ok r ∧
      deepSum.DirectionsGiven 7 ∧ SplitsAgain (.ofForm (.ofExpression deepSum 7)) deepSum 7 r ∧
      split (.ofForm (.ofExpression deepSum 7)) r.graph r.root.node = .ok r' := by
  have hmem : 7 ∈ deepSum := by cbv
  have hgiven : deepSum.DirectionsGiven 7 := Graph.directionsGiven_of_all hmem (by cbv)
  have hok : (split (.ofForm (.ofExpression deepSum 7)) deepSum 7).isOk = true := by cbv
  obtain ⟨r, hr⟩ := Except.exists_eq_ok hok
  have hagain := split_splits_again hr hgiven
  -- the whole expression has fewer nodes than there are levels
  have hsize : (deepSum.postOrder 7).length ≤ 512 := of_decide_eq_true (by cbv)
  obtain ⟨r', hr'⟩ := hagain.succeeds fun j length hj hn =>
    ((hn.le_length (hj.mem hmem)).trans (Graph.length_postOrder_le hmem hj)).trans hsize
  exact ⟨r, r', hr, hgiven, hagain, hr'⟩

/-- Four levels are enough for a split of this expression and not for a split of the result. -/
def fourLevels : Settings := { Settings.ofForm (.ofExpression deepSum 7) with maxDepth := 4 }

/-- The first run has staged the second sum when it enters the product. The second run stages the
variable of the fourth sum first, and would meet the argument on the fifth level. -/
theorem not_split_again_deepSum :
    ∃ r, split fourLevels deepSum 7 = .ok r ∧ deepSum.Consistent 7 ∧ deepSum.DirectionsGiven 7 ∧
      split fourLevels r.graph r.root.node = .error (.error ⟨.tooDeep 4, []⟩) := by
  have hmem : 7 ∈ deepSum := by cbv
  have hok : (split fourLevels deepSum 7).isOk = true := by cbv
  obtain ⟨r, hr⟩ := Except.exists_eq_ok hok
  have hagain : (split fourLevels deepSum 7 >>= fun r => split fourLevels r.graph r.root.node) =
      .error (.error ⟨.tooDeep 4, []⟩) := by cbv
  rw [hr] at hagain
  exact ⟨r, hr, Graph.consistent_of_nodup hmem (of_decide_eq_true (by cbv)),
    Graph.directionsGiven_of_all hmem (by cbv), hagain⟩

end FormStaging
