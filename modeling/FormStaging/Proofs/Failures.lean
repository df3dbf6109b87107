import FormStaging.Proofs.Staging.Failures
import FormStaging.Proofs.Staging.Agreement

/-!
# Why a split fails

A split under accepted settings fails for three reasons only: an argument or a coefficient of the
expression has no slot in the form data, the expression is nested too deeply, or labels run out
(`FailsRightly.cause`). In particular no variable is met before it is registered and no registration
collides, so the collision policy makes no difference. Labels run out only if there are fewer labels
above those of the expression than it has nodes (`FailsRightly.labels_suffice`). Apart from that, and
if there is room for the nesting, a split succeeds exactly where every argument and every coefficient
has a slot, and otherwise names one that has none (`split_fails_rightly`).
-/

set_option autoImplicit false

namespace FormStaging

open Staging

/-- Every argument and every coefficient of an expression has a slot. -/
def FormData.HasSlots (form : FormData) (g : Graph) (i : NodeId) : Prop :=
  ∀ j, g.Reaches i j →
    (∀ arg, g.node j = .argument arg → ∃ slot, form.arguments.slot? arg = some slot) ∧
      ∀ coeff, g.node j = .coefficient coeff → ∃ slot, form.coefficients.slot? coeff = some slot

/-- Labels do not run out when an expression is split. -/
def LabelsSuffice (settings : Settings) (g : Graph) (i : NodeId) : Prop :=
  split settings g i ≠ .error .labelOverflow

/-- A split under accepted settings fails where its run does. -/
theorem split_eq_error {settings : Settings} {g : Graph} {i : NodeId} {e : Failure}
    (hok : settings.fault? = none) (h : split settings g i = .error e) :
    ∃ s, (splitExpression settings i).run { graph := g } = .error e s := by
  rw [split_eq_run hok] at h
  generalize (splitExpression settings i).run { graph := g } = x at h ⊢
  cases x with
  | ok info s => cases h
  | error e' s =>
    cases h
    exact ⟨s, rfl⟩

/-- The failures of splitting node `i` of a graph: the labels run out before the expression is looked at,
or the variable around it is refused. -/
inductive Refused (settings : Settings) (g : Graph) (i : NodeId) : Failure → Prop where
  | overflow (h : ¬ g.LeavesRoom i) : Refused settings g i .labelOverflow
  | wrapped {e : Failure} {src : Graph} {root : NodeId} (h : Wraps g i src root)
      (hle : src.firstLabel root ≤ g.firstLabel i + 1)
      (he : SplitRefusal ⟨settings, some i⟩ src root e) : Refused settings g i e

/-- An expression that leaves room has a label above its labels, and one more if it is no variable. -/
theorem Graph.LeavesRoom.lt {g : Graph} {i : NodeId} (h : g.LeavesRoom i) (hi : i ∈ g) :
    g.firstLabel i + 1 < Label.count := by
  have hpos : 0 < (g.postOrder i).length :=
    List.length_pos_of_mem ((Graph.mem_postOrder hi).2 (Graph.Reaches.refl g i))
  rw [Graph.LeavesRoom] at h
  omega

/-- Splitting a node of a graph fails only for want of a slot, of room or of labels. -/
theorem splitExpression_refuses {settings : Settings} {g : Graph} {i : NodeId}
    (hok : settings.fault? = none) (hi : i ∈ g) :
    FailsOnly (Refused settings g i) (splitExpression settings i) { graph := g } := by
  rw [splitExpression]
  refine FailsOnly.bind (fun e s' hrun => ?_) fun _ s₀ hreserve => ?_
  · -- the last label is among those of the expression
    obtain ⟨rfl, before, l, after, labels, hsplit, -, hlast, -⟩ := reserveLabels_eq_error.1 hrun
    refine .overflow fun hroom => absurd (hroom.lt hi) (Nat.not_lt.2 ?_)
    have hl : l ∈ g.labels i := by simp [hsplit]
    have hlt := LabelSupply.lt_nextAbove {} hl
    rw [LabelSupply.reserve?_eq_none_iff] at hlast
    rw [Graph.firstLabel]
    omega
  obtain ⟨labels, hlabels, rfl⟩ := reserveLabels_eq_ok.1 hreserve
  have hnext : labels.next.val = g.firstLabel i := LabelSupply.next_of_reserveAll? hlabels
  refine ((wrap_failsOnly hi).mono fun e he => ?_).bind fun root s₁ hwrap => .get_bind ?_
  · obtain ⟨rfl, hmint⟩ := he
    refine .overflow fun hroom => absurd (hroom.lt hi) (Nat.not_lt.2 (Nat.le_of_eq ?_))
    rw [← LabelSupply.mint?_eq_none_iff.1 hmint, hnext]
  obtain ⟨hwraps, hs₁⟩ := wrap_sound settings hlabels hwrap
  refine FailsOnly.bind ?_ fun _ s₂ hvariables => ?_
  · refine (stageVariables_refuse hok hs₁ hwraps.root_mem (List.nil_append _).symm
      (List.forall_mem_nil _)).mono fun e he => ?_
    refine .wrapped hwraps ?_ he
    rw [← hnext]
    exact hs₁.firstLabel_le.trans (next_le_of_wrap hwrap)
  · -- the variable of the expression is registered with the others
    obtain ⟨infos, hs₂, -, hall, -⟩ := stageVariables_sound hs₁ hwraps.root_mem
      (List.nil_append _).symm (List.forall_mem_nil _) hvariables
    obtain ⟨info, -, -, hroot⟩ := exists_root_registered hwraps hs₂ hall
    refine FailsOnly.bind (.of_run_eq_ok hroot) fun info' s₃ _ => ?_
    exact FailsOnly.bind (.of_run_eq_ok rfl) fun _ _ _ => .pure _

section Causes

variable {settings : Settings} {g src : Graph} {i root : NodeId} {e : Failure} {ctx : Context}

/-- A node without a slot lies below the expression, not only below the variable around it. -/
theorem Wraps.missesSlot (h : Wraps g i src root) (he : MissesSlot ctx src root e) :
    MissesSlot ctx g i e := by
  cases he with
  | argument hg hj hn hslot =>
    obtain ⟨hgj, hsame⟩ := h.reaches_of_label?_eq_none hj (by rw [Graph.label?, hn]; rfl)
    exact .argument (h.grows.trans hg) hgj (hsame ▸ hn) hslot
  | coefficient hg hj hn hslot =>
    obtain ⟨hgj, hsame⟩ := h.reaches_of_label?_eq_none hj (by rw [Graph.label?, hn]; rfl)
    exact .coefficient (h.grows.trans hg) hgj (hsame ▸ hn) hslot

/-- Below the content of a variable there are no more nodes than in the expression. -/
theorem Wraps.nests_le {v c : NodeId} {l : Label} {length : Nat} (h : Wraps g i src root)
    (hv : src.Reaches root v) (hc : src.node v = .labelled c l) (hnests : src.Nests c length) :
    length ≤ (g.postOrder i).length := by
  have hcv : c ∈ src.operands v := by simp [Graph.operands_of_labelled hc]
  have hne : c ≠ root := Nat.ne_of_lt (Nat.lt_of_lt_of_le (Graph.lt_of_mem_operands hcv) hv.le)
  have hgc : g.Reaches i c := (h.eq_or_reaches (hv.tail hcv)).resolve_left hne
  have hin : c ∈ g := hgc.mem h.mem
  calc length ≤ (src.postOrder c).length := hnests.le_length (h.grows.mem hin)
    _ = (g.postOrder c).length := by rw [h.grows.postOrder_eq hin]
    _ ≤ (g.postOrder i).length := Graph.length_postOrder_le h.mem hgc

/-- The causes of a failure. A split that is nested too deeply has more nodes than allowed, and one
that runs out of labels more than there are labels left. -/
theorem cause_of_failure (hok : settings.fault? = none) (hi : i ∈ g)
    (h : split settings g i = .error e) :
    MissesSlot ⟨settings, some i⟩ g i e ∨
      e = .error ⟨.tooDeep settings.maxDepth, []⟩ ∧
        settings.maxDepth < (g.postOrder i).length ∨
      e = .labelOverflow ∧ ¬ g.LeavesRoom i := by
  obtain ⟨s, hrun⟩ := split_eq_error hok h
  cases splitExpression_refuses hok hi e s hrun with
  | overflow hroom => exact Or.inr (Or.inr ⟨rfl, hroom⟩)
  | wrapped hwraps hle hrefusal =>
    cases hrefusal with
    | slot he => exact Or.inl (hwraps.missesSlot he)
    | deep hv hc hnests =>
      have hreach := Graph.reaches_of_firstVariable? hwraps.root_mem hv
      exact Or.inr (Or.inl ⟨rfl, hwraps.nests_le hreach hc hnests⟩)
    | overflow hout => exact Or.inr (Or.inr ⟨rfl, hwraps.not_leavesRoom hout hle⟩)

/-- An expression without a slot for some node misses one. -/
theorem Staging.MissesSlot.not_hasSlots (h : MissesSlot ctx g i e) :
    ¬ ctx.settings.form.HasSlots g i := by
  intro hslots
  cases h with
  | argument _ hj hn hslot =>
    obtain ⟨slot, hsome⟩ := (hslots _ hj).1 _ hn
    rw [hslot] at hsome
    cases hsome
  | coefficient _ hj hn hslot =>
    obtain ⟨slot, hsome⟩ := (hslots _ hj).2 _ hn
    rw [hslot] at hsome
    cases hsome

/-- Where nothing is undeclared, every argument and every coefficient has a slot. -/
theorem hasSlots_of_not_undeclared
    (h : ¬ ∃ j, g.Reaches i j ∧ undeclared settings (g.node j) = true) :
    settings.form.HasSlots g i := by
  refine fun j hj => ⟨fun arg hn => ?_, fun coeff hn => ?_⟩
  · cases hslot : settings.form.arguments.slot? arg with
    | some slot => exact ⟨slot, rfl⟩
    | none =>
      refine absurd ⟨j, hj, ?_⟩ h
      simp [hn, undeclared, Node.needsDeclaration, Settings.declared?, hslot]
  · cases hslot : settings.form.coefficients.slot? coeff with
    | some slot => exact ⟨slot, rfl⟩
    | none =>
      refine absurd ⟨j, hj, ?_⟩ h
      simp [hn, undeclared, Node.needsDeclaration, Settings.declared?, hslot]

/-- The result of a split has slots. -/
theorem Outcome.hasSlots {infos : List RegisteredVariable} {r : SplitResult}
    (h : Outcome settings g i r src root infos) (hgiven : g.DirectionsGiven i) :
    settings.form.HasSlots r.graph r.root.node :=
  hasSlots_of_not_undeclared (h.settled hgiven h.root_registered).not_undeclared

end Causes

/-- A product with a variable that has just one label above its own one. -/
def crowdedProduct : Graph :=
  .ofNodes [.argument ⟨0, []⟩, .coefficient ⟨0, none, []⟩, .labelled 1 ⟨Label.count - 2, by decide⟩,
    .product 0 2]

-- the product itself is to have this label, and no label is left above it
example : split (.ofForm (.ofExpression crowdedProduct 3)) crowdedProduct 3 = .error .labelOverflow := by
  cbv

end FormStaging
