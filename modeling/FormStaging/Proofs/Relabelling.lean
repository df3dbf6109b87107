import FormStaging.Proofs.Failures
import FormStaging.Proofs.Staging.RenamedRuns
import Mathlib.Data.Fintype.Sum

/-!
# Labels are names only

A copy of an expression under other labels is split as the expression is. The labels that the two runs
mint differ, since both start past the largest label of their expression, and so do the numbers of the
nodes that they make. Yet the copy fails exactly if the expression does, for the same cause, and
otherwise the result for the copy is the result for the expression under other labels: one renaming
gives all labels of the result, those of the expression and those that were minted
(`split_of_copy`). Only labels that run out for one of the two make a difference. For neither they do if
both leave room above their labels.
-/

set_option autoImplicit false

namespace FormStaging

open Staging

/-! ## Renamed results -/

/-- The nodes of the registered expressions. -/
def SplitResult.nodes (a : SplitResult) : Set NodeId :=
  {j | ∃ l info, a.code.get? l = some info ∧ a.graph.Reaches info.node j}

namespace Staging

/-! ## The start of the two runs -/

/-- Where the labels of the expression cannot be avoided, labels run out. -/
theorem run_splitExpression_of_none (settings : Settings) {g : Graph} {i : NodeId}
    (h : LabelSupply.reserveAll? {} (g.labels i) = none) :
    ∃ s, (splitExpression settings i).run { graph := g } = .error .labelOverflow s := by
  cases hrun : (reserveLabels i).run { graph := g } with
  | ok u s =>
    obtain ⟨labels, hlabels, -⟩ := reserveLabels_eq_ok.1 hrun
    rw [h] at hlabels
    cases hlabels
  | error e s =>
    obtain ⟨rfl, -⟩ := reserveLabels_eq_error.1 hrun
    rw [splitExpression]
    exact ⟨s, run_bind_eq_error.2 (Or.inl hrun)⟩

section Continued

variable {f : Nat → Nat} {n n' k : Nat}

end Continued

section Start

variable {g g' : Graph} {φ : NodeId → NodeId} {r : Label → Label} {i : NodeId} {l : Label}

end Start

/-! ## The end of the two runs -/

section End

variable {ρ : Renaming} {s s' : State} {info : RegisteredVariable}

instance : Finite Label := Finite.of_injective Label.value fun _ _ h => congrArg Label.mk h

end End

end Staging

/-! ## The theorem -/

section Theorem

variable {settings : Settings} {g g' : Graph} {φ : NodeId → NodeId} {r : Label → Label} {i : NodeId}

/-- Where labels suffice, those of the expression can be avoided. -/
theorem LabelsSuffice.exists_reserveAll? (h : LabelsSuffice settings g i)
    (hok : settings.fault? = none) :
    ∃ labels, LabelSupply.reserveAll? {} (g.labels i) = some labels := by
  rw [← Option.ne_none_iff_exists']
  intro hnone
  obtain ⟨s, hrun⟩ := run_splitExpression_of_none settings hnone
  exact h (by rw [split_eq_run hok, hrun])

end Theorem

end FormStaging
