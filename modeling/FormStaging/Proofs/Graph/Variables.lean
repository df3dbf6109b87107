import FormStaging.Proofs.FirstOccurrence
import FormStaging.Proofs.Graph.PostOrder
import Mathlib.Data.List.Basic

/-!
# The variables of an expression

`Graph.firstVariable? g root l` is the first node with label `l` in the post-order of an expression.
The variables of the expression are these nodes (`mem_variables_iff`), one for each label that occurs
(`mem_labels_iff`, `nodup_labels`). A variable stands after the variables it refers to, under
whatever node these are written (`exists_mem_before`): what is below a node comes before it, and the
first node with a label is not later than any other.
-/

set_option autoImplicit false

namespace FormStaging.Graph

variable {g g' : Graph} {root i j v : NodeId} {l m : Label}

/-- The first node with a label in the post-order of an expression. -/
def firstVariable? (g : Graph) (root : NodeId) (l : Label) : Option NodeId :=
  (g.postOrder root).find? fun i => g.label? i = some l

theorem reaches_of_firstVariable? (h : root ∈ g) (hv : g.firstVariable? root l = some v) :
    g.Reaches root v :=
  (mem_postOrder h).1 (List.mem_of_find?_eq_some hv)

theorem label?_of_firstVariable? (hv : g.firstVariable? root l = some v) :
    g.label? v = some l := by
  simpa using List.find?_some hv

/-- Every label that occurs has a first node. -/
theorem exists_firstVariable? (h : root ∈ g) (hi : g.Reaches root i) (hl : g.label? i = some l) :
    ∃ v, g.firstVariable? root l = some v := by
  refine Option.isSome_iff_exists.1 (List.find?_isSome.2 ⟨i, (mem_postOrder h).2 hi, ?_⟩)
  simpa using hl

/-- The variables of an expression are the first nodes of their labels. -/
theorem mem_variables_iff (hl : g.label? v = some l) :
    v ∈ g.variables root ↔ g.firstVariable? root l = some v := by
  rw [Graph.variables, mem_firstPer_iff hl, firstVariable?]

theorem mem_variables_of_firstVariable? (hv : g.firstVariable? root l = some v) :
    v ∈ g.variables root :=
  (mem_variables_iff (label?_of_firstVariable? hv)).2 hv

/-- Every variable of an expression is the first node of its label. -/
theorem firstVariable?_of_mem_variables (hv : v ∈ g.variables root) :
    ∃ l, g.label? v = some l ∧ g.firstVariable? root l = some v := by
  obtain ⟨l, hl⟩ := isSome_key_of_mem_firstPer hv
  exact ⟨l, hl, (mem_variables_iff hl).1 hv⟩

theorem reaches_of_mem_variables (h : root ∈ g) (hv : v ∈ g.variables root) :
    g.Reaches root v := by
  obtain ⟨l, -, hf⟩ := firstVariable?_of_mem_variables hv
  exact reaches_of_firstVariable? h hf

/-- The labels are those of the reachable variables. -/
theorem mem_labels_iff (h : root ∈ g) :
    l ∈ g.labels root ↔ ∃ i, g.Reaches root i ∧ g.label? i = some l := by
  rw [labels, List.mem_filterMap]
  constructor
  · rintro ⟨v, hv, hl⟩
    exact ⟨v, reaches_of_mem_variables h hv, hl⟩
  · rintro ⟨i, hi, hl⟩
    obtain ⟨v, hv⟩ := exists_firstVariable? h hi hl
    exact ⟨v, mem_variables_of_firstVariable? hv, label?_of_firstVariable? hv⟩

theorem nodup_labels (g : Graph) (root : NodeId) : (g.labels root).Nodup :=
  nodup_keys_firstPer g.label? (g.postOrder root)

theorem nodup_variables (h : root ∈ g) : (g.variables root).Nodup :=
  (nodup_postOrder h).sublist (firstPer_sublist g.label? (g.postOrder root))

/-- The variables before a variable of an expression are the ones of what comes before it in the
post-order. -/
theorem variables_before {before after early late : List NodeId} (h : root ∈ g)
    (hv : g.variables root = before ++ v :: after) (hpost : g.postOrder root = early ++ v :: late) :
    before = firstPer g.label? early := by
  have hmem : v ∈ g.variables root := by simp [hv]
  obtain ⟨l, hl, hfirst⟩ := firstVariable?_of_mem_variables hmem
  -- no earlier node has the label of `v`
  have hnodup := nodup_postOrder h
  have hvars := nodup_variables h
  rw [hpost] at hnodup
  have hnew : ¬ HasKey g.label? early l := by
    rintro ⟨w, hw, hwl⟩
    rw [firstVariable?, hpost, List.find?_append] at hfirst
    cases hf : early.find? fun i => g.label? i = some l with
    | none => exact absurd (by simpa using hwl) (List.find?_eq_none.1 hf w hw)
    | some x =>
      rw [hf, Option.some_or, Option.some.injEq] at hfirst
      have hx : v ∈ early := hfirst ▸ List.mem_of_find?_eq_some hf
      exact (List.nodup_append.1 hnodup).2.2 v hx v (by simp) rfl
  obtain ⟨rest, hrest⟩ := firstPer_prefix g.label? (early ++ [v]) late
  have hsplit : g.variables root = firstPer g.label? early ++ v :: rest := by
    rw [Graph.variables, hpost, List.append_cons, ← hrest, firstPer_concat_of_not_hasKey hl hnew]
    simp
  -- `v` stands once in the list, so the two ways to cut the list there are the same
  rw [hv] at hsplit hvars
  obtain ⟨-, hafter, hdisjoint⟩ := List.nodup_append.1 hvars
  have hnot : v ∉ before := fun hb => hdisjoint v hb v (by simp) rfl
  have hnot' : v ∉ after := (List.nodup_cons.1 hafter).1
  exact ((List.append_cons_inj_of_notMem hnot hnot').1 hsplit).1

/-- A variable stands after those it refers to. -/
theorem exists_mem_before {before after : List NodeId} (h : root ∈ g)
    (hv : g.variables root = before ++ v :: after) (hr : g.Reaches v j) (hne : j ≠ v)
    (hl : g.label? j = some l) : ∃ w ∈ before, g.label? w = some l := by
  have hmem : v ∈ g.variables root := by simp [hv]
  obtain ⟨early, late, hpost⟩ := List.append_of_mem
    ((firstPer_sublist g.label? (g.postOrder root)).subset hmem)
  have htop := topological_postOrder h
  rw [hpost] at htop
  rw [variables_before h hv hpost]
  exact hasKey_firstPer.2 ⟨j, htop.mem_before hr hne, hl⟩

/-! ## Mentioned labels -/

/-- Label `l` occurs in the expression below node `i`, not looking inside variables. -/
inductive Mentions (g : Graph) : NodeId → Label → Prop where
  | here {i : NodeId} {l : Label} (h : g.label? i = some l) : Mentions g i l
  | under {i j : NodeId} {l : Label} (h : g.label? i = none) (hj : j ∈ g.operands i)
      (hl : Mentions g j l) : Mentions g i l

/-- A mentioned label is the label of a node below. -/
theorem Mentions.exists_reaches (h : g.Mentions i l) : ∃ j, g.Reaches i j ∧ g.label? j = some l := by
  induction h with
  | here h => exact ⟨_, Reaches.refl g _, h⟩
  | under _ hj _ ih =>
    obtain ⟨k, hk, hl⟩ := ih
    exact ⟨k, Reaches.head hj hk, hl⟩

/-! ## Growth -/

theorem Extends.firstVariable?_eq (h : g.Extends g') (hr : root ∈ g) (l : Label) :
    g'.firstVariable? root l = g.firstVariable? root l := by
  rw [firstVariable?, firstVariable?, h.postOrder_eq hr, ← List.head?_filter, ← List.head?_filter]
  refine congrArg List.head? (List.filter_congr fun i hi => ?_)
  rw [h.label?_eq (((mem_postOrder hr).1 hi).mem hr)]

/-- The variables of an expression do not depend on what else the graph holds. -/
theorem Extends.variables_eq (h : g.Extends g') (hr : root ∈ g) :
    g'.variables root = g.variables root := by
  rw [Graph.variables, Graph.variables, h.postOrder_eq hr]
  refine firstPer_congr fun i hi => ?_
  exact h.label?_eq (((mem_postOrder hr).1 hi).mem hr)

theorem Extends.labels_eq (h : g.Extends g') (hr : root ∈ g) :
    g'.labels root = g.labels root := by
  rw [labels, labels, h.variables_eq hr]
  refine List.filterMap_congr fun v hv => ?_
  exact h.label?_eq ((reaches_of_mem_variables hr hv).mem hr)

end FormStaging.Graph
