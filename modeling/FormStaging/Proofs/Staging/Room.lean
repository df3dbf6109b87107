import FormStaging.Proofs.Staging.Outcome
import Mathlib.Data.List.Perm.Subperm
import Mathlib.Tactic.Choose

/-!
# Room for labels

A run mints one label for the variable around an expression that is none, and one for each operand that
it names. What is named is the result for an operand of a plain node, and no node has two results. So
when labels run out in a sound state, the labels from the first one on were used up for operands, each
for another one (`Sound.runsOut`).

No operand is the node of the expression itself. So if a label is left for each node of the expression
(`Graph.LeavesRoom`), then labels do not run out (`Wraps.not_leavesRoom`).
-/

set_option autoImplicit false

namespace FormStaging

/-- Above the labels of an expression there is one for each of its nodes. -/
def Graph.LeavesRoom (g : Graph) (i : NodeId) : Prop :=
  g.firstLabel i + (g.postOrder i).length < Label.count

instance (g : Graph) (i : NodeId) : Decidable (g.LeavesRoom i) :=
  inferInstanceAs (Decidable (g.firstLabel i + (g.postOrder i).length < Label.count))

namespace Staging

variable {settings : Settings} {g src : Graph} {i j root : NodeId} {s : State}
  {infos : List RegisteredVariable}

/-- All labels from the first one on are used up for operands, each for another one. -/
def RunsOut (src : Graph) (root : NodeId) : Prop :=
  ∃ js : List NodeId, js.Nodup ∧ (∀ j ∈ js, IsOperand src root j) ∧
    Label.count ≤ src.firstLabel root + js.length

/-- The labels of the expression are avoided. -/
theorem Sound.firstLabel_le (h : Sound settings src root s infos) :
    src.firstLabel root ≤ s.labels.next :=
  LabelSupply.nextAbove_le (Nat.zero_le _) h.source_lt

/-- Wrapping an expression takes one label at most. -/
theorem next_le_of_wrap {s' : State} (h : (wrap i).run s = .ok root s') :
    s'.labels.next.val ≤ s.labels.next.val + 1 := by
  cases hl : s.graph.label? i with
  | some l =>
    rw [run_wrap_of_label? hl] at h
    cases h
    exact Nat.le_succ _
  | none =>
    obtain ⟨labels, hmint, -, -, rfl⟩ := (wrap_fresh_eq_ok hl).1 h
    exact Nat.le_of_eq (LabelSupply.mint?_eq_some_iff.1 hmint).2

/-- A label is minted for the result for an operand. -/
theorem Sound.exists_operand (h : Sound settings src root s infos) :
    ∀ info ∈ minted src root infos, ∃ j, IsOperand src root j ∧
      ∃ r, s.staged[j]? = some r ∧ s.named[r.node]? = some info.node := by
  intro info hmem
  obtain ⟨hinfo, hminted⟩ := List.mem_filter.1 hmem
  obtain ⟨c, hc, -⟩ := Graph.operands_of_label? (h.built.labels info hinfo)
  have hnamed := h.named_minted info hinfo (of_decide_eq_true hminted) c hc
  obtain ⟨r, ⟨j, hj, hr⟩, rfl⟩ := h.named_operand c _ hnamed
  exact ⟨j, hj, r, hr, hnamed⟩

/-- Labels run out only when they are used up for operands. -/
theorem Sound.runsOut {operand : Staged} (h : Sound settings src root s infos)
    (hr : StagedOperand src root s operand) (hnone : s.named[operand.node]? = none)
    (hmint : s.labels.mint? = none) : RunsOut src root := by
  obtain ⟨k, hk, hoperand⟩ := hr
  choose! f hf using h.exists_operand
  have hnodup : (infos.map RegisteredVariable.label).Nodup := h.groups.nodup
  refine ⟨k :: (minted src root infos).map f, List.nodup_cons.2 ⟨fun hmem => ?_, ?_⟩, ?_, ?_⟩
  · -- the operand has no name yet
    obtain ⟨info, hinfo, rfl⟩ := List.mem_map.1 hmem
    obtain ⟨-, r, hr, hnamed⟩ := hf info hinfo
    rw [hoperand] at hr
    cases hr
    rw [hnone] at hnamed
    cases hnamed
  · -- one node has one result, and this has one name
    refine List.Nodup.map_on (fun info hinfo other hother heq => ?_) (hnodup.of_map.filter _)
    obtain ⟨-, r, hr, hnamed⟩ := hf info hinfo
    obtain ⟨-, r', hr', hnamed'⟩ := hf other hother
    rw [heq, hr'] at hr
    cases hr
    rw [hnamed', Option.some.injEq] at hnamed
    refine List.inj_on_of_nodup_map hnodup (List.mem_of_mem_filter hinfo)
      (List.mem_of_mem_filter hother) (Option.some.inj ?_)
    rw [← h.built.labels info (List.mem_of_mem_filter hinfo),
      ← h.built.labels other (List.mem_of_mem_filter hother), hnamed]
  · refine List.forall_mem_cons.2 ⟨hk, List.forall_mem_map.2 fun info hinfo => (hf info hinfo).1⟩
  · have hle := h.next_le
    have hlast := LabelSupply.mint?_eq_none_iff.1 hmint
    rw [List.length_cons, List.length_map]
    omega

end Staging

open Staging

variable {g src : Graph} {i j root : NodeId}

/-- An operand lies strictly below the expression. -/
theorem Wraps.reaches_of_isOperand (h : Wraps g i src root) (hj : IsOperand src root j) :
    g.Reaches i j ∧ j < i := by
  obtain ⟨k, hk, hplain, hkj⟩ := hj
  obtain ⟨hgk, -⟩ := h.reaches_of_label?_eq_none hk (label?_of_isPlain hplain)
  rw [h.grows.operands_eq (hgk.mem h.mem)] at hkj
  exact ⟨hgk.tail hkj, Nat.lt_of_lt_of_le (Graph.lt_of_mem_operands hkj) hgk.le⟩

/-- Where there is room, labels do not run out. The variable around the expression may have taken one
label. -/
theorem Wraps.not_leavesRoom (h : Wraps g i src root) (hout : RunsOut src root)
    (hle : src.firstLabel root ≤ g.firstLabel i + 1) : ¬ g.LeavesRoom i := by
  obtain ⟨js, hnodup, hjs, hcount⟩ := hout
  have hi : i ∉ js := fun hi => absurd (h.reaches_of_isOperand (hjs i hi)).2 (Nat.lt_irrefl i)
  have hlength : (i :: js).length ≤ (g.postOrder i).length := by
    refine (List.subperm_of_subset (List.nodup_cons.2 ⟨hi, hnodup⟩) ?_).length_le
    intro j hj
    rw [Graph.mem_postOrder h.mem]
    rcases List.mem_cons.1 hj with rfl | hj
    · exact Graph.Reaches.refl g j
    · exact (h.reaches_of_isOperand (hjs j hj)).1
  rw [Graph.LeavesRoom, Nat.not_lt]
  rw [List.length_cons] at hlength
  omega

end FormStaging
