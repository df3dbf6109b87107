import FormStaging.Proofs.CodeStructure.Extension
import FormStaging.Proofs.Staging.Counter
import FormStaging.Proofs.Staging.Retries

/-!
# Calls that fail

A variable that cannot be staged leaves traces: labels are reserved, and what could be staged and named
before the failure stays. These traces are clean, whatever calls came before (`failed_stage_is_clean`).
The variable itself is not registered, what was registered stays where it is, the run is inside of no
node any more, and the same call fails again in the same way without changing anything.
-/

set_option autoImplicit false

namespace FormStaging

open Staging

/-- The call to stage variable `v` after some calls has failed with `e` in state `t`, and has left this
state clean. -/
structure FailsCleanly (settings : Settings) (g : Graph) (calls : List Call) (v : NodeId)
    (e : Failure) (t : State) : Prop where
  /-- The label of the variable is not registered. -/
  unregistered : ∀ l, t.graph.label? v = some l → t.code.get? l = none
  /-- The registered variables are only added to. -/
  «extends» : (afterCalls settings g calls).code.Extends t.code
  /-- A run that counts the nodes it is inside of ends at zero. -/
  balanced : (visitVariable ⟨settings, none⟩ v).run (countedAfterCalls settings g calls) =
    .error e ⟨t, 0⟩
  /-- The same call fails again and changes nothing. -/
  repeats : (stageVariable ⟨settings, none⟩ v).run t = .error e t
  /-- It counts nothing either. -/
  repeats_balanced : (visitVariable ⟨settings, none⟩ v).run ⟨t, 0⟩ = .error e ⟨t, 0⟩

/-- A call to stage a variable that fails is clean and can be repeated. -/
theorem failed_stage_is_clean {settings : Settings} {g : Graph} {calls : List Call} {v c : NodeId}
    {l : Label} {e : Failure} {t : State}
    (hv : (afterCalls settings g calls).graph.node v = .labelled c l)
    (h : (stageVariable ⟨settings, none⟩ v).run (afterCalls settings g calls) = .error e t) :
    FailsCleanly settings g calls v e t := by
  have hfaithful := faithful_afterCalls settings g calls
  have hsteps := (Evolves.stageVariable v).steps_of_error h
  have hagain := stageVariable_repeats ⟨settings, none⟩ hfaithful hv e t h
  have hmem := Graph.mem_of_label? (Graph.label?_of_labelled hv)
  have hv' : t.graph.node v = .labelled c l := by rw [hsteps.grows.node_eq v hmem, hv]
  have hcounts := Counts.visitVariable ⟨settings, none⟩ v
  have hfaithful' : Faithful t := (stageVariable_ensures _ hfaithful v).of_error h |>.faithful
  refine ⟨fun m hm => ?_, hsteps.extends, ?_, hagain, hcounts.run_eq_error hagain⟩
  · rw [Graph.label?_of_labelled hv', Option.some.injEq] at hm
    subst hm
    exact ((stageVariable_eq_error hfaithful' hv').1 hagain).1
  · rw [countedAfterCalls_eq]
    exact hcounts.run_eq_error h

/-- A variable around the sum of a product and a second coefficient. -/
def lateFailure : Graph :=
  .ofNodes [.argument ⟨0, []⟩, .coefficient ⟨0, none, []⟩, .product 0 1, .coefficient ⟨1, none, []⟩,
    .sum 2 3, .labelled 4 ⟨3⟩]

/-- The settings for the product alone. -/
def productSettings : Settings := .ofForm (.ofExpression lateFailure 2)

/-- The second coefficient has no slot. When it is met, an operand of the product was named, and its name
stays registered, behind the coefficient that was registered before. -/
theorem failed_stage_is_clean_lateFailure :
    ∃ e t, lateFailure.node 5 = .labelled 4 ⟨3⟩ ∧
      (stageVariable ⟨productSettings, none⟩ 5).run (afterCalls productSettings lateFailure
        [.register 1 productSettings.constant (some ⟨1⟩)]) = .error e t ∧
      FailsCleanly productSettings lateFailure
        [.register 1 productSettings.constant (some ⟨1⟩)] 5 e t ∧
      (t.code.order.map Label.value = [1, 4, 5] ∧ t.code.get? ⟨3⟩ = none) := by
  have hfails : ((stageVariable ⟨productSettings, none⟩ 5).run' (afterCalls productSettings lateFailure
      [.register 1 productSettings.constant (some ⟨1⟩)])).isSome = false := by cbv
  obtain ⟨e, t, hrun⟩ := exists_run_eq_error hfails
  have hv : (afterCalls productSettings lateFailure
      [.register 1 productSettings.constant (some ⟨1⟩)]).graph.node 5 = .labelled 4 ⟨3⟩ := by cbv
  have hclean := failed_stage_is_clean hv hrun
  have ht : t = stateAfter (stageVariable ⟨productSettings, none⟩ 5) (afterCalls productSettings
      lateFailure [.register 1 productSettings.constant (some ⟨1⟩)]) :=
    (stateAfter_of_error hrun).symm
  refine ⟨e, t, by cbv, hrun, hclean, ?_, hclean.unregistered ⟨3⟩ ?_⟩
  · rw [ht]
    cbv
  · rw [ht]
    cbv

end FormStaging
