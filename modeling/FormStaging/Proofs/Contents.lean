import FormStaging.Proofs.Meaning
import FormStaging.Proofs.Staging.Calls

/-!
# Variables stand for what is registered

A label is registered once. A variable whose label is registered stands for the first registration,
whatever its own content is, and no collision is reported (`stage_first_content_twoContents`). Apart
from this no variable is replaced by another one: a variable with a new label keeps its content up to
variables, provided that the variables met in the content agree with what is registered under their
labels, and so do all variables of an expression that is split, provided that its variables with
equal labels have equal contents (`variables_keep_contents`). No policy makes a difference.
-/

set_option autoImplicit false

namespace FormStaging

open Staging

/-- The result `info` of staging variable `v` in state `s`, and the state `s'` after it. -/
structure KeepsContent (s : State) (v : NodeId) (info : RegisteredVariable) (s' : State) : Prop where
  /-- The result is registered under the label of the variable. -/
  registered : s.graph.label? v = some info.label ∧ s'.code.get? info.label = some info
  /-- No registration is undone. -/
  kept : ∀ l other, s.code.get? l = some other → s'.code.get? l = some other
  /-- Under a new label the variable is kept up to variables, if those met in its content agree with
  what was registered under their labels. -/
  erase_eq : s.code.get? info.label = none → s.graph.AgreesBelow s.code (s.graph.content v) →
    (s'.graph.unfold info.node).erase = (s.graph.unfold v).erase

/-- No variable is replaced, but by the registered one with its label. The first two parts are
about staging a variable after any calls, the third one about splitting an expression. -/
theorem variables_keep_contents (settings : Settings) (g : Graph) :
    (∀ calls v l known, (afterCalls settings g calls).graph.label? v = some l →
        (afterCalls settings g calls).code.get? l = some known →
        (stageVariable ⟨settings, none⟩ v).run (afterCalls settings g calls) =
          .ok known (afterCalls settings g calls)) ∧
      (∀ calls v info s', (stageVariable ⟨settings, none⟩ v).run (afterCalls settings g calls) =
        .ok info s' → KeepsContent (afterCalls settings g calls) v info s') ∧
      ∀ i r, split settings g i = .ok r → g.ConsistentContents i →
        ∀ v l, g.Reaches i v → g.label? v = some l → ∃ info, r.code.get? l = some info ∧
          (r.graph.unfold info.node).erase = (g.unfold v).erase := by
  refine ⟨?_, ?_, ?_⟩
  · intro calls v l known hl hknown
    obtain ⟨c, hc, -⟩ := Graph.operands_of_label? hl
    exact run_stageVariable_of_registered hc hknown
  · intro calls v info s' hrun
    have hs := faithful_afterCalls settings g calls
    have hstages := (stageVariable_ensures ⟨settings, none⟩ hs v).of_ok hrun
    have hsteps : Steps (afterCalls settings g calls) s' := (Evolves.stageVariable v).steps hrun
    refine ⟨⟨hstages.label, hstages.get?_eq⟩, fun l other => hsteps.get?_eq_some, fun hnew => ?_⟩
    refine hstages.erase_eq ?_
    rintro ⟨other, hother⟩
    rw [hnew] at hother
    cases hother
  · intro i r hr hc v l hv hl
    obtain ⟨src, root, infos, ho⟩ := outcome_of_split hr
    have hI := ho.interpretation_erase (ho.wraps.consistentContents hc)
    obtain ⟨info, hinfo, hget, hreach, hlabel⟩ := ho.exists_registered hv hl
    -- the registered variable has the term of every variable with its label
    have hcarries := hI.carries_of_built ho.wraps.root_mem ho.grows ho.built info hinfo v _ hreach
      hlabel rfl
    refine ⟨info, hget, ?_⟩
    rw [← hcarries, ho.wraps.grows.unfold_eq v (hv.mem ho.wraps.mem)]

/-- Two symbols under one label, and a variable of the first one. -/
def twoContents : Graph :=
  .ofNodes [.symbol "a", .labelled 0 ⟨5⟩, .symbol "b", .labelled 2 ⟨5⟩, .sum 1 1, .labelled 4 ⟨6⟩]

/-- The settings under which a collision is an error. -/
def strictSettings : Settings := .ofForm (.ofExpression twoContents 0)

/-- The content of variable 5 agrees with what is registered after the first call. -/
theorem agreesBelow_twoContents :
    (afterCalls strictSettings twoContents [.stage 1]).graph.AgreesBelow
      (afterCalls strictSettings twoContents [.stage 1]).code 4 := by
  have hg := (steps_afterCalls strictSettings twoContents [.stage 1]).grows
  have hget : ((afterCalls strictSettings twoContents [.stage 1]).code.get? ⟨5⟩).map
      RegisteredVariable.node = some 1 := by cbv
  intro j l info hj hl hinfo
  have hmem : 4 ∈ twoContents := by cbv
  -- only node 1 is met below node 4
  obtain rfl : j = 1 := by
    rcases ((hg.meets_iff hmem).1 hj).cases_head with rfl | ⟨k, hk, hkj⟩
    · rw [hg.label?_eq hmem] at hl
      cases hl
    · have hentered : twoContents.entered 4 = [1, 1] := by cbv
      rw [hentered] at hk
      obtain rfl : k = 1 := by simpa using hk
      rcases hkj.cases_head with rfl | ⟨m, hm, -⟩
      · rfl
      · have hnone : twoContents.entered 1 = [] := by cbv
        rw [hnone] at hm
        exact absurd hm List.not_mem_nil
  have hlabel : twoContents.label? 1 = some ⟨5⟩ := by cbv
  rw [hg.label?_eq_some hlabel] at hl
  obtain rfl := Option.some.inj hl
  rw [hinfo, Option.map_some] at hget
  rw [Option.some.inj hget]

theorem variables_keep_contents_twoContents :
    ∃ known info s' r, (stageVariable ⟨strictSettings, none⟩ 3).run
        (afterCalls strictSettings twoContents [.stage 1]) =
          .ok known (afterCalls strictSettings twoContents [.stage 1]) ∧
      (stageVariable ⟨strictSettings, none⟩ 5).run
        (afterCalls strictSettings twoContents [.stage 1]) = .ok info s' ∧
      (s'.graph.unfold info.node).erase = (twoContents.unfold 5).erase ∧
      split strictSettings twoContents 5 = .ok r ∧ twoContents.ConsistentContents 5 ∧
      ∀ v l, twoContents.Reaches 5 v → twoContents.label? v = some l →
        ∃ info, r.code.get? l = some info ∧
          (r.graph.unfold info.node).erase = (twoContents.unfold v).erase := by
  have hkeeps := variables_keep_contents strictSettings twoContents
  have hg := (steps_afterCalls strictSettings twoContents [.stage 1]).grows
  have hmem : 5 ∈ twoContents := by cbv
  -- label 5 is registered for variable 1
  have hsecond : twoContents.label? 3 = some ⟨5⟩ := by cbv
  have hregistered : ((afterCalls strictSettings twoContents [.stage 1]).code.get? ⟨5⟩).isSome :=
    by cbv
  obtain ⟨known, hknown⟩ := Option.isSome_iff_exists.1 hregistered
  have hrunKnown := hkeeps.1 [.stage 1] 3 ⟨5⟩ known (hg.label?_eq_some hsecond) hknown
  -- variable 5 has a new label
  have hsome : ((stageVariable ⟨strictSettings, none⟩ 5).run'
      (afterCalls strictSettings twoContents [.stage 1])).isSome = true := by cbv
  obtain ⟨info, s', hrun⟩ := exists_run_eq_ok hsome
  have hcontent := hkeeps.2.1 _ _ _ _ hrun
  have hlabel : twoContents.label? 5 = some ⟨6⟩ := by cbv
  have hinfo := hcontent.registered.1
  rw [hg.label?_eq_some hlabel, Option.some.injEq] at hinfo
  have hnew : (afterCalls strictSettings twoContents [.stage 1]).code.get? ⟨6⟩ = none := by cbv
  have hfour : twoContents.content 5 = 4 := by cbv
  have herase := hcontent.erase_eq (hinfo ▸ hnew)
    (by rw [hg.content_eq hmem, hfour]; exact agreesBelow_twoContents)
  rw [hg.unfold_eq 5 hmem] at herase
  -- the whole expression is split
  have hok : (split strictSettings twoContents 5).isOk = true := by cbv
  obtain ⟨r, hr⟩ := Except.exists_eq_ok hok
  have hc : twoContents.Consistent 5 := Graph.consistent_of_nodup hmem (of_decide_eq_true (by cbv))
  exact ⟨known, info, s', r, hrunKnown, hrun, herase, hr, hc.contents, hkeeps.2.2 5 r hr hc.contents⟩

/-- The second symbol is not registered: its label stands for the first one. -/
theorem stage_first_content_twoContents :
    ∃ info, strictSettings.collisions = .error ∧
      (stageVariable ⟨strictSettings, none⟩ 3).run
        (afterCalls strictSettings twoContents [.stage 1]) =
          .ok info (afterCalls strictSettings twoContents [.stage 1]) ∧
      ((afterCalls strictSettings twoContents [.stage 1]).graph.unfold info.node).erase ≠
        ((afterCalls strictSettings twoContents [.stage 1]).graph.unfold 3).erase := by
  have hget : ((afterCalls strictSettings twoContents [.stage 1]).code.get? ⟨5⟩).map
      RegisteredVariable.node = some 1 := by cbv
  obtain ⟨info, hinfo, hnode⟩ := Option.map_eq_some_iff.1 hget
  have hg := (steps_afterCalls strictSettings twoContents [.stage 1]).grows
  have hone : 1 ∈ twoContents := by cbv
  have hthree : 3 ∈ twoContents := by cbv
  refine ⟨info, rfl, run_stageVariable_of_registered (c := 2) (l := ⟨5⟩) ?_ hinfo, ?_⟩
  · rw [hg.node_eq 3 hthree]
    cbv
  · rw [hnode, hg.unfold_eq 1 hone, hg.unfold_eq 3 hthree]
    have ha : (twoContents.unfold 1).erase = .mk (.symbol "a") := by cbv
    have hb : (twoContents.unfold 3).erase = .mk (.symbol "b") := by cbv
    rw [ha, hb]
    simp

end FormStaging
