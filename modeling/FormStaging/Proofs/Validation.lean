import FormStaging.Proofs.Staging.Ranks

/-!
# Checked settings keep all promises

The settings are checked once, before a run. The check is exact: it accepts just those settings
whose declared sets have one flag per declared argument and whose slots are all declared. And it is
enough: in a run under accepted settings no slot is looked up that is not declared, no sets of
different ranks are combined, and no node is rebuilt over a wrong number of operands, whatever the
caller does and whatever has failed before (`check_exact`). The caller has to see to it that the sets
it registers have the rank of the run and that the nodes it names are in the graph.
-/

set_option autoImplicit false

namespace FormStaging

open Staging

/-! ## Calls -/

namespace Staging

variable {settings : Settings} {g : Graph} {ctx : Context} {s : State}

/-- The set that a call registers has the given rank. -/
def Call.HasRank (n : Nat) : Call → Prop
  | .register _ deps _ => deps.rank = n
  | .make _ | .stage _ => True

/-- The nodes that a call builds on are in the graph. -/
def Call.Fits (g : Graph) : Call → Prop
  | .make n => ∀ j ∈ n.operands, j ∈ g
  | .stage _ => True
  | .register i _ _ => i ∈ g

/-- A call keeps the rank of the stored sets, also if it fails. -/
theorem Call.keepsRank {call : Call} (hok : ctx.settings.fault? = none)
    (h : call.HasRank ctx.settings.rank) :
    KeepsRank ctx.settings.rank (fun _ => True) (call.action ctx) := by
  cases call with
  | make n => exact (KeepsRank.of_leaves (.addNode (fun _ _ => rfl) n)).bind fun _ _ => .pure trivial
  | stage i => exact (KeepsRank.stageVariable hok i).bind fun _ _ => .pure trivial
  | register i deps label => exact (KeepsRank.register i label h).bind fun _ _ => .pure trivial

theorem ranked_afterCalls {calls : List Call} (hok : settings.fault? = none)
    (h : ∀ call ∈ calls, call.HasRank settings.rank) :
    Ranked settings.rank (afterCalls settings g calls) := by
  induction calls using List.reverseRecOn with
  | nil => exact .fresh g
  | append_singleton calls call ih =>
    rw [afterCalls_concat]
    have hcall := h call (by simp)
    have hcalls := ih fun other hother => h other (List.mem_append_left _ hother)
    exact (@Call.keepsRank ⟨settings, none⟩ call hok hcall).stateAfter hcalls

/-- A call breaks no promise in a state with the invariants. -/
theorem Call.reports {call : Call} (hok : ctx.settings.fault? = none) (h : Faithful s)
    (hs : Ranked ctx.settings.rank s) (hfits : call.Fits s.graph) :
    Reports (call.action ctx) s := by
  cases call with
  | make n => exact (addNode_failsOnly hfits).bind fun _ _ _ => .pure ()
  | stage i => exact (stageVariable_reports hok h hs i).bind fun _ _ _ => .pure ()
  | register i deps label => exact (register_reports hfits deps label).bind fun _ _ _ => .pure ()

end Staging

/-! ## The theorem -/

/-- After the given calls no call and no split breaks a promise: what fails is reported. -/
structure KeepsPromises (settings : Settings) (g : Graph) (calls : List Call) : Prop where
  call : ∀ call : Call, call.Fits (afterCalls settings g calls).graph →
    FailsOnly (fun e => ¬ e.IsInternal) (call.action ⟨settings, none⟩) (afterCalls settings g calls)
  split : ∀ i ∈ (afterCalls settings g calls).graph,
    FailsOnly (fun e => ¬ e.IsInternal) (splitExpression settings i) (afterCalls settings g calls)

/-- The check of the settings is exact, and it is enough. -/
theorem check_exact (settings : Settings) :
    (settings.check = .ok () ↔ settings.Complete) ∧
      (settings.check = .ok () → ∀ (g : Graph) (calls : List Call),
        (∀ call ∈ calls, call.HasRank settings.rank) → KeepsPromises settings g calls) := by
  refine ⟨Settings.check_eq_ok_iff, fun hcheck g calls hranks => ?_⟩
  have hok := Settings.fault?_eq_none_iff.2 (Settings.check_eq_ok_iff.1 hcheck)
  have hfaithful := faithful_afterCalls settings g calls
  have hranked : Ranked settings.rank (afterCalls settings g calls) := ranked_afterCalls hok hranks
  exact ⟨fun call hfits => Call.reports hok hfaithful hranked hfits,
    fun i hi => splitExpression_reports hok hfaithful hranked hi⟩

/-- Two variables, around a product and around its sum with a second coefficient. -/
def nestedVariables : Graph :=
  .ofNodes [.argument ⟨0, []⟩, .coefficient ⟨0, none, []⟩, .product 0 1, .labelled 2 ⟨1⟩,
    .coefficient ⟨1, none, []⟩, .sum 3 4, .labelled 5 ⟨0⟩]

/-- The form data of the product have no slot for the second coefficient, so the second call fails. No
promise is broken, then or later. -/
theorem check_exact_nestedVariables :
    (Settings.ofForm (.ofExpression nestedVariables 2)).check = .ok () ∧
      (Settings.ofForm (.ofExpression nestedVariables 2)).Complete ∧
      KeepsPromises (.ofForm (.ofExpression nestedVariables 2)) nestedVariables
        [.stage 3, .stage 6, .register 4 (.empty 1) (some ⟨7⟩)] ∧
      (((Call.stage 6).action ⟨.ofForm (.ofExpression nestedVariables 2), none⟩).run'
        (afterCalls (.ofForm (.ofExpression nestedVariables 2)) nestedVariables
          [.stage 3])).isSome = false := by
  have hcheck : (Settings.ofForm (.ofExpression nestedVariables 2)).check = .ok () := by
    rw [Settings.check_eq_ok_iff, ← Settings.fault?_eq_none_iff]
    cbv
  obtain ⟨hiff, hkeeps⟩ := check_exact (.ofForm (.ofExpression nestedVariables 2))
  refine ⟨hcheck, hiff.1 hcheck, hkeeps hcheck nestedVariables _ ?_, by cbv⟩
  simp only [List.forall_mem_cons, Call.HasRank]
  refine ⟨trivial, trivial, by cbv, List.forall_mem_nil _⟩

end FormStaging
