import FormStaging.Proofs.Graph.Expansion

/-!
# Layers of an expression

`Term.any p t` says that some layer of the term `t` has the property `p`. For the term of a node this
is a property of the nodes below it (`any_unfold`). A property that no variable has does not see
whether variables are erased (`Term.any_erase`), so expressions that differ in their variables only
have the same layers otherwise (`Graph.exists_reaches_iff_of_erase_eq`).
-/

set_option autoImplicit false

namespace FormStaging

/-- Whether some layer of a term has a property. -/
def Term.any (p : Node Unit → Bool) : Term → Bool :=
  fold fun n => p (n.map fun _ => ()) || n.operands.any id

namespace Term

variable {p : Node Unit → Bool}

theorem any_mk (p : Node Unit → Bool) (n : Node Term) :
    (mk n).any p = (p (n.map fun _ => ()) || n.operands.any (any p)) := by
  rw [any, fold_mk, Node.map_map, Node.operands_map, List.any_map]
  rfl

/-- Erasing the variables leaves every other layer. -/
theorem any_erase (hp : ∀ a l, p (.labelled a l) = false) : ∀ t : Term, t.erase.any p = t.any p := by
  refine Term.induction fun n ih => ?_
  cases hl : n.label? with
  | some l =>
    cases n with
    | labelled t l =>
      rw [erase_labelled, any_mk, Node.map, hp, Bool.false_or, ih t (List.mem_singleton.2 rfl)]
      simp [Node.operands]
    | _ => simp [Node.label?] at hl
  | none =>
    rw [erase_mk hl, any_mk, any_mk, Node.map_map, Node.operands_map, List.any_map]
    congr 1
    rw [Bool.eq_iff_iff, List.any_eq_true, List.any_eq_true]
    refine exists_congr fun t => and_congr_right fun ht => ?_
    rw [Function.comp_apply, ih t ht]

end Term

namespace Graph

variable {g g' : Graph} {i i' : NodeId} {p : Node Unit → Bool}

/-- The layers of the term of a node are the nodes below it. -/
theorem any_unfold (g : Graph) (p : Node Unit → Bool) : ∀ i, (g.unfold i).any p = true ↔
    ∃ j, g.Reaches i j ∧ p ((g.node j).map fun _ => ()) = true := by
  refine g.induction fun i ih => ?_
  rw [unfold_eq, Term.any_mk, Node.map_map, Node.operands_map, List.any_map, Bool.or_eq_true,
    List.any_eq_true, exists_reaches_iff]
  exact or_congr_right (exists_congr fun k => and_congr_right fun hk => ih k hk)

/-- Equal expressions but for their variables have the same layers otherwise. -/
theorem exists_reaches_iff_of_erase_eq (hp : ∀ a l, p (.labelled a l) = false)
    (h : (g.unfold i).erase = (g'.unfold i').erase) :
    (∃ j, g.Reaches i j ∧ p ((g.node j).map fun _ => ()) = true) ↔
      ∃ j, g'.Reaches i' j ∧ p ((g'.node j).map fun _ => ()) = true := by
  rw [← any_unfold, ← any_unfold, ← Term.any_erase hp (g.unfold i),
    ← Term.any_erase hp (g'.unfold i'), h]

end Graph

end FormStaging
