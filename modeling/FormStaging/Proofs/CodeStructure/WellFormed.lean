import FormStaging.Proofs.Staging.Evolution
import Mathlib.Data.List.Nodup

/-!
# Code structures are well formed

A code structure keeps its variables twice, in the registry and by label in the stacks. It is
`WellFormed` if the two agree: the labels in the stacks are the registered ones, each stands in one
place, and the stack it stands in is that of its dependency set. What this says of labels and sets alone,
without the nodes of the variables, is `Grouped`.

The list of the registered variables in the order of their registration decides all of this
(`Groups.wellFormed`), and every call of a run only adds to the list. So the structure is well formed
after any calls, failed ones among them, and after a final split, which puts the variables into
another order (`wellFormed_afterCalls`).
-/

set_option autoImplicit false

namespace FormStaging

/-- The registry and the stacks of a code structure agree, over the nodes of a graph. -/
structure CodeStructure.WellFormed (g : Graph) (code : CodeStructure) : Prop where
  /-- The labels in the stacks are the registered labels. -/
  mem_order_iff : ∀ l, l ∈ code.order ↔ code.contains l = true
  /-- A label stands in the stacks once. -/
  count_order : ∀ l ∈ code.order, code.order.count l = 1
  /-- No two stacks have one dependency set. -/
  nodup_deps : (code.stacks.map Stack.deps).Nodup
  /-- The variables of a stack have its dependency set. -/
  deps_eq : ∀ s ∈ code.stacks, ∀ l ∈ s.labels, ∃ info, code.get? l = some info ∧ info.deps = s.deps
  /-- No stack is empty. -/
  labels_ne_nil : ∀ s ∈ code.stacks, s.labels ≠ []
  /-- A registered variable is a node with the label it is registered under. -/
  label?_eq : ∀ l info, code.get? l = some info → info.label = l ∧ g.label? info.node = some l
  /-- The variables, stack by stack, are the registered ones, each once. -/
  count_variables : ∀ info,
    code.variables.count info = if code.get? info.label = some info then 1 else 0

/-- The registry and the stacks of a code structure agree, whatever the nodes of its variables are. -/
structure CodeStructure.Grouped (code : CodeStructure) : Prop where
  /-- A variable is registered under its own label. -/
  label_eq : ∀ l info, code.get? l = some info → info.label = l
  /-- The labels in the stacks are the registered labels. -/
  mem_order_iff : ∀ l, l ∈ code.order ↔ code.contains l = true
  /-- No label stands in the stacks twice. -/
  nodup_order : code.order.Nodup
  /-- No two stacks have one dependency set. -/
  nodup_deps : (code.stacks.map Stack.deps).Nodup
  /-- The variables of a stack have its dependency set. -/
  deps_eq : ∀ s ∈ code.stacks, ∀ l ∈ s.labels, ∃ info, code.get? l = some info ∧ info.deps = s.deps
  /-- No stack is empty. -/
  labels_ne_nil : ∀ s ∈ code.stacks, s.labels ≠ []

/-- Well-formed structures are grouped. -/
theorem CodeStructure.WellFormed.grouped {g : Graph} {code : CodeStructure} (h : code.WellFormed g) :
    code.Grouped where
  label_eq l info hl := (h.label?_eq l info hl).1
  mem_order_iff := h.mem_order_iff
  nodup_order := List.nodup_iff_count_eq_one.2 h.count_order
  nodup_deps := h.nodup_deps
  deps_eq := h.deps_eq
  labels_ne_nil := h.labels_ne_nil

namespace CodeStructure.Groups

variable {code : CodeStructure} {infos : List RegisteredVariable} {g : Graph}

/-- The variables, stack by stack, are a rearrangement of the list. -/
theorem variables_perm (h : code.Groups infos) : code.variables.Perm infos := by
  have hperm := h.order_perm.filterMap code.get?
  rw [← resolve, ← resolve, h.resolve_map_label] at hperm
  exact hperm

theorem nodup_infos (h : code.Groups infos) : infos.Nodup :=
  h.nodup.of_map RegisteredVariable.label

/-- The stack of a dependency set holds the variables that have it. -/
theorem exists_of_mem_stack (h : code.Groups infos) {s : Stack} (hs : s ∈ code.stacks) {l : Label}
    (hl : l ∈ s.labels) : ∃ info ∈ infos, info.label = l ∧ info.deps = s.deps := by
  rw [h.stacks_eq] at hs
  rw [Stack.eq_ofInfos_of_mem_group hs] at hl
  obtain ⟨info, hinfo, rfl⟩ := List.mem_map.1 hl
  obtain ⟨hmem, hdeps⟩ := List.mem_filter.1 hinfo
  exact ⟨info, hmem, rfl, of_decide_eq_true hdeps⟩

/-- Every stack has a variable. -/
theorem exists_mem_stack (h : code.Groups infos) {s : Stack} (hs : s ∈ code.stacks) :
    ∃ info ∈ infos, info.label ∈ s.labels := by
  rw [h.stacks_eq, Stack.group_eq] at hs
  obtain ⟨d, hd, rfl⟩ := List.mem_map.1 hs
  obtain ⟨info, hinfo, rfl⟩ := Stack.mem_keys.1 hd
  exact ⟨info, hinfo, List.mem_map_of_mem (List.mem_filter.2 ⟨hinfo, decide_eq_true rfl⟩)⟩

theorem map_deps_stacks (h : code.Groups infos) :
    code.stacks.map Stack.deps = Stack.keys infos := by
  rw [h.stacks_eq, Stack.group_eq, List.map_map]
  exact List.map_id _

/-- A list of registered variables makes a grouped structure. -/
theorem grouped (h : code.Groups infos) : code.Grouped where
  label_eq _ _ hl := h.label_eq hl
  mem_order_iff l := by rw [contains_iff, h.mem_order]
  nodup_order := h.nodup_order
  nodup_deps := h.map_deps_stacks ▸ Stack.nodup_keys infos
  deps_eq s hs l hl := by
    obtain ⟨info, hinfo, rfl, hdeps⟩ := h.exists_of_mem_stack hs hl
    exact ⟨info, h.get?_of_mem hinfo, hdeps⟩
  labels_ne_nil s hs := by
    obtain ⟨info, -, hl⟩ := h.exists_mem_stack hs
    exact List.ne_nil_of_mem hl

/-- A list of registered variables makes a well-formed structure, if its nodes are variables. -/
theorem wellFormed (h : code.Groups infos) (hlabels : Staging.Labels g infos) :
    code.WellFormed g where
  mem_order_iff := h.grouped.mem_order_iff
  count_order l hl := List.count_eq_one_of_mem h.nodup_order hl
  nodup_deps := h.grouped.nodup_deps
  deps_eq := h.grouped.deps_eq
  labels_ne_nil := h.grouped.labels_ne_nil
  label?_eq l info hget := by
    obtain ⟨hinfo, rfl⟩ := (h.get?_iff l info).1 hget
    exact ⟨rfl, hlabels info hinfo⟩
  count_variables info := by
    rw [h.variables_perm.count_eq]
    split
    case isTrue hget => exact List.count_eq_one_of_mem h.nodup_infos (h.mem hget)
    case isFalse hget =>
      exact List.count_eq_zero.2 fun hinfo => hget (h.get?_of_mem hinfo)

end CodeStructure.Groups

namespace Staging

variable {s : State} {infos : List RegisteredVariable}

theorem Records.wellFormed (h : Records s infos) : s.code.WellFormed s.graph :=
  h.groups.wellFormed h.labels

/-- No variable is registered in a fresh state. -/
theorem Records.fresh (g : Graph) : Records { graph := g } [] := ⟨.empty, List.forall_mem_nil _⟩

/-- A split rearranges the registered variables, after it has added to them. -/
theorem exists_records_splitExpression (settings : Settings) (i : NodeId)
    (h : Records s infos) :
    ∃ infos', Records (stateAfter (splitExpression settings i) s) infos' := by
  refine stateAfter_splitExpression (P := fun s => ∃ infos, Records s infos) settings i ?_ ?_
    ⟨infos, h⟩
  · rintro s s' hstep ⟨infos, hinfos⟩
    obtain ⟨more, hmore⟩ := hstep.append hinfos
    exact ⟨_, hmore⟩
  · -- the stacks are only rearranged
    rintro s v ⟨infos, hinfos⟩
    refine ⟨_, hinfos.groups.reorder (s.graph.labels v), fun other hother => ?_⟩
    exact hinfos.labels other (hinfos.groups.mem_of_mem_resolve hother)

/-- Code structures stay well formed, after any calls of a fresh run and after a final split. -/
theorem wellFormed_afterCalls (settings : Settings) (g : Graph) (calls : List Call) :
    (afterCalls settings g calls).code.WellFormed (afterCalls settings g calls).graph ∧
      ∀ i, (stateAfter (splitExpression settings i) (afterCalls settings g calls)).code.WellFormed
        (stateAfter (splitExpression settings i) (afterCalls settings g calls)).graph := by
  obtain ⟨infos, hinfos⟩ := (steps_afterCalls settings g calls).append (.fresh g)
  refine ⟨hinfos.wellFormed, fun i => ?_⟩
  obtain ⟨infos', hinfos'⟩ := exists_records_splitExpression settings i hinfos
  exact hinfos'.wellFormed

end Staging

end FormStaging
