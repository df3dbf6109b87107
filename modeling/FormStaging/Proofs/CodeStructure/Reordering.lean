import FormStaging.Proofs.CodeStructure.WellFormed

/-!
# Reordering a code structure

A list of labels fixes stacks for the registered ones among them (`CodeStructure.grouping`): one for each
dependency set, in the order in which the sets first occur, with the labels that have the set, in list
order. The stacks of a grouped structure are those of its own order (`Grouped.grouping_order`), and a
reordering makes those of the given list followed by this order, each label at its first place
(`reorder_eq`). So what a reordering does is read off these two lists: no variable is lost and none comes
twice, listed labels come first in their stacks, the stacks go by their first labels, and a second
reordering by the same list changes nothing (`reorder_rearranges`).
-/

set_option autoImplicit false

namespace FormStaging

/-- The place of the first label of a stack in a list. -/
def Stack.firstPlace (labels : List Label) (s : Stack) : Nat := labels.findIdx (· ∈ s.labels)

namespace CodeStructure

variable {code : CodeStructure} {labels labels' listed : List Label} {s : Stack} {l : Label}

/-- The dependency set of a registered label. -/
def deps? (code : CodeStructure) (l : Label) : Option DependencySet :=
  (code.get? l).map RegisteredVariable.deps

/-- The stacks of the registered labels of a list. -/
def grouping (code : CodeStructure) (labels : List Label) : List Stack :=
  (labels.filterMap code.deps?).eraseDups.map fun d =>
    ⟨d, labels.filter fun l => code.deps? l = some d⟩

/-- Labels that are not registered have no dependency set. -/
theorem filterMap_deps?_filter_contains (code : CodeStructure) (labels : List Label) :
    (labels.filter code.contains).filterMap code.deps? = labels.filterMap code.deps? := by
  rw [List.filterMap_filter]
  refine List.filterMap_congr fun l _ => ?_
  split
  case isTrue => rfl
  case isFalse hl =>
    rw [contains, Std.HashMap.contains_eq_isSome_getElem?, Bool.not_eq_true, Option.isSome_eq_false_iff,
      Option.isNone_iff_eq_none] at hl
    rw [deps?, get?, hl, Option.map_none]

/-! ## The stacks of a list -/

theorem map_deps_grouping (code : CodeStructure) (labels : List Label) :
    (code.grouping labels).map Stack.deps = (labels.filterMap code.deps?).eraseDups := by
  rw [grouping, List.map_map]
  exact List.map_id _

theorem labels_of_mem_grouping (h : s ∈ code.grouping labels) :
    s.labels = labels.filter fun l => code.deps? l = some s.deps := by
  obtain ⟨d, -, rfl⟩ := List.mem_map.1 h
  rfl

/-- Lists have the same stacks if their sets come in one order, and the labels of each set too. -/
theorem grouping_congr
    (hdeps : (labels.filterMap code.deps?).eraseDups = (labels'.filterMap code.deps?).eraseDups)
    (hlabels : ∀ s ∈ code.grouping labels',
      labels.filter (fun l => code.deps? l = some s.deps) = s.labels) :
    code.grouping labels = code.grouping labels' := by
  rw [grouping, hdeps]
  refine List.map_congr_left fun d hd => ?_
  have hstack : (⟨d, labels'.filter fun l => code.deps? l = some d⟩ : Stack) ∈
      code.grouping labels' := List.mem_map_of_mem hd
  rw [hlabels _ hstack]

/-- The labels of a new stack come last. -/
theorem grouping_append (hdeps : ∀ l ∈ s.labels, code.deps? l = some s.deps) (hne : s.labels ≠ [])
    (hnew : s.deps ∉ labels.filterMap code.deps?) :
    code.grouping (labels ++ s.labels) = code.grouping labels ++ [s] := by
  have hkeys : ((labels ++ s.labels).filterMap code.deps?).eraseDups =
      (labels.filterMap code.deps?).eraseDups ++ [s.deps] := by
    obtain ⟨l, rest, heq⟩ := List.exists_cons_of_ne_nil hne
    rw [heq] at hdeps
    obtain ⟨hl, hrest⟩ := List.forall_mem_cons.1 hdeps
    -- its first label brings the set, and the others repeat it
    rw [heq, List.filterMap_append, List.filterMap_cons_some hl, List.append_cons,
      eraseDups_append_of_subset, eraseDups_concat_of_not_mem hnew]
    intro d hd
    obtain ⟨l', hl', hd'⟩ := List.mem_filterMap.1 hd
    rw [hrest l' hl', Option.some.injEq] at hd'
    simp [hd']
  rw [grouping, hkeys, List.map_append, List.map_cons, List.map_nil]
  congr 1
  · -- the stacks before it get no labels
    refine List.map_congr_left fun d hd => ?_
    have hother : s.labels.filter (fun l => code.deps? l = some d) = [] := by
      refine List.filter_eq_nil_iff.2 fun l hl hd' => hnew ?_
      rw [decide_eq_true_eq, hdeps l hl, Option.some.injEq] at hd'
      exact hd' ▸ List.mem_eraseDups.1 hd
    rw [List.filter_append, hother, List.append_nil]
  · have hnone : labels.filter (fun l => code.deps? l = some s.deps) = [] := by
      refine List.filter_eq_nil_iff.2 fun l hl hd => hnew ?_
      exact List.mem_filterMap.2 ⟨l, hl, of_decide_eq_true hd⟩
    have hall : s.labels.filter (fun l => code.deps? l = some s.deps) = s.labels :=
      List.filter_eq_self.2 fun l hl => decide_eq_true (hdeps l hl)
    rw [List.filter_append, hnone, hall, List.nil_append]

/-- Stacks with different sets are those of the list of their labels. -/
theorem grouping_flatMap {ss : List Stack} (hnodup : (ss.map Stack.deps).Nodup)
    (hdeps : ∀ s ∈ ss, ∀ l ∈ s.labels, code.deps? l = some s.deps)
    (hne : ∀ s ∈ ss, s.labels ≠ []) : code.grouping (ss.flatMap Stack.labels) = ss := by
  induction ss using List.reverseRecOn with
  | nil => rfl
  | append_singleton ss s ih =>
    rw [List.map_append, List.nodup_append] at hnodup
    obtain ⟨hss, -, hdisjoint⟩ := hnodup
    rw [List.forall_mem_append, List.forall_mem_singleton] at hdeps hne
    have hnew : s.deps ∉ (ss.flatMap Stack.labels).filterMap code.deps? := by
      intro hd
      obtain ⟨l, hl, hd⟩ := List.mem_filterMap.1 hd
      obtain ⟨t, ht, hl⟩ := List.mem_flatMap.1 hl
      rw [hdeps.1 t ht l hl, Option.some.injEq] at hd
      exact hdisjoint t.deps (List.mem_map_of_mem ht) s.deps (by simp) hd
    rw [List.flatMap_append, List.flatMap_singleton, grouping_append hdeps.2 hne.2 hnew,
      ih hss hdeps.1 hne.1]

section Resolving

variable (hlabel : ∀ l info, code.get? l = some info → info.label = l)
include hlabel

theorem map_label_filter_resolve (labels : List Label) (d : DependencySet) :
    ((code.resolve labels).filter fun info => info.deps = d).map RegisteredVariable.label =
      labels.filter fun l => code.deps? l = some d := by
  induction labels with
  | nil => rfl
  | cons l labels ih =>
    rw [resolve] at ih ⊢
    cases hl : code.get? l with
    | none =>
      have hnone : code.deps? l = none := by rw [deps?, hl, Option.map_none]
      rw [List.filterMap_cons_none hl, ih]
      simp [hnone]
    | some info =>
      have hsome : code.deps? l = some info.deps := by rw [deps?, hl, Option.map_some]
      rw [List.filterMap_cons_some hl]
      by_cases hd : info.deps = d <;> simp [hsome, hd, ih, hlabel l info hl]

/-- The variables of a list are grouped as their labels are. -/
theorem group_resolve (labels : List Label) :
    Stack.group (code.resolve labels) = code.grouping labels := by
  rw [Stack.group_eq, Stack.keys, firstPer_some_eq_eraseDups, resolve, List.map_filterMap, grouping]
  refine List.map_congr_left fun d _ => ?_
  rw [Stack.ofInfos, ← resolve, map_label_filter_resolve hlabel]

/-- A reordering groups the listed labels and then the others. -/
theorem reorder_eq (listed : List Label) :
    code.reorder listed =
      { code with «stacks» := code.grouping (listed ++ code.order).eraseDups } := by
  rw [reorder, firstPer_some_eq_eraseDups, group_resolve hlabel]

theorem stacks_reorder (listed : List Label) :
    (code.reorder listed).stacks = code.grouping (listed ++ code.order).eraseDups := by
  rw [reorder_eq hlabel]

end Resolving

/-! ## Grouped structures -/

namespace Grouped

theorem deps?_eq (h : code.Grouped) (hs : s ∈ code.stacks) (hl : l ∈ s.labels) :
    code.deps? l = some s.deps := by
  obtain ⟨info, hinfo, hdeps⟩ := h.deps_eq s hs l hl
  rw [deps?, hinfo, Option.map_some, hdeps]

/-- The stacks are those of the order. -/
theorem grouping_order (h : code.Grouped) : code.grouping code.order = code.stacks :=
  grouping_flatMap h.nodup_deps (fun _ hs _ hl => h.deps?_eq hs hl) h.labels_ne_nil

/-- A grouped structure groups its variables, stack by stack. -/
theorem groups (h : code.Grouped) : code.Groups code.variables where
  nodup := h.nodup_order.sublist (map_label_resolve_sublist h.label_eq _)
  get?_iff l info := by
    constructor
    · intro hl
      have hmem : l ∈ code.order := (h.mem_order_iff l).2 ((contains_iff code l).2 ⟨info, hl⟩)
      exact ⟨List.mem_filterMap.2 ⟨l, hmem, hl⟩, h.label_eq l info hl⟩
    · rintro ⟨hinfo, rfl⟩
      obtain ⟨m, -, hm⟩ := List.mem_filterMap.1 hinfo
      rwa [h.label_eq m info hm]
  stacks_eq := by rw [CodeStructure.variables, group_resolve h.label_eq, h.grouping_order]

/-- A reordering of a grouped structure is grouped. -/
theorem reorder (h : code.Grouped) (listed : List Label) : (code.reorder listed).Grouped :=
  (h.groups.reorder listed).grouped

/-- The sets of the stacks, in the order in which they are first met. -/
theorem map_deps_stacks (h : code.Grouped) :
    code.stacks.map Stack.deps = (code.order.filterMap code.deps?).eraseDups := by
  rw [← map_deps_grouping, h.grouping_order]

theorem mem_order_of_deps? (h : code.Grouped) {d : DependencySet} (hd : code.deps? l = some d) :
    l ∈ code.order := by
  obtain ⟨info, hinfo, -⟩ := Option.map_eq_some_iff.1 hd
  exact (h.mem_order_iff l).2 ((contains_iff code l).2 ⟨info, hinfo⟩)

theorem labels_eq_filter (h : code.Grouped) (hs : s ∈ code.stacks) :
    s.labels = code.order.filter fun l => code.deps? l = some s.deps :=
  labels_of_mem_grouping (h.grouping_order ▸ hs)

/-- The labels with its dependency set are those of a stack. -/
theorem mem_labels_iff (h : code.Grouped) (hs : s ∈ code.stacks) :
    l ∈ s.labels ↔ code.deps? l = some s.deps := by
  refine ⟨h.deps?_eq hs, fun hd => ?_⟩
  rw [h.labels_eq_filter hs]
  exact List.mem_filter.2 ⟨h.mem_order_of_deps? hd, decide_eq_true hd⟩

theorem nodup_labels (h : code.Grouped) (hs : s ∈ code.stacks) : s.labels.Nodup := by
  rw [h.labels_eq_filter hs]
  exact h.nodup_order.filter _

/-! ## What a reordering does -/

/-- The sets of the stacks after a reordering, in the order in which they are first met. -/
theorem map_deps_reorder (h : code.Grouped) (listed : List Label) :
    (code.reorder listed).stacks.map Stack.deps =
      ((listed ++ code.order).filterMap code.deps?).eraseDups := by
  rw [stacks_reorder h.label_eq, map_deps_grouping, eraseDups_filterMap_eraseDups]

theorem mem_filterMap_deps?_append (h : code.Grouped) {d : DependencySet} :
    d ∈ (listed ++ code.order).filterMap code.deps? ↔ d ∈ code.order.filterMap code.deps? := by
  constructor
  · intro hd
    obtain ⟨l, -, hd⟩ := List.mem_filterMap.1 hd
    exact List.mem_filterMap.2 ⟨l, h.mem_order_of_deps? hd, hd⟩
  · intro hd
    rw [List.filterMap_append]
    exact List.mem_append_right _ hd

/-- A reordering keeps the sets of the stacks. -/
theorem map_deps_reorder_perm (h : code.Grouped) (listed : List Label) :
    ((code.reorder listed).stacks.map Stack.deps).Perm (code.stacks.map Stack.deps) := by
  rw [h.map_deps_reorder, h.map_deps_stacks]
  refine (List.perm_ext_iff_of_nodup (nodup_eraseDups _) (nodup_eraseDups _)).2 fun d => ?_
  rw [List.mem_eraseDups, List.mem_eraseDups, h.mem_filterMap_deps?_append]

section Stacks

variable {s' : Stack} (h : code.Grouped) (hs : s ∈ code.stacks)
  (hs' : s' ∈ (code.reorder listed).stacks) (hdeps : s'.deps = s.deps)
include h hs hs' hdeps

/-- A reordering keeps the labels of a stack. -/
theorem labels_reorder_perm : s'.labels.Perm s.labels := by
  have h' := h.reorder listed
  refine (List.perm_ext_iff_of_nodup (h'.nodup_labels hs') (h.nodup_labels hs)).2 fun l => ?_
  rw [h'.mem_labels_iff hs', h.mem_labels_iff hs, hdeps]
  rfl

/-- A reordering puts the listed labels of a stack first. -/
theorem labels_reorder :
    s'.labels = listed.eraseDups.filter (· ∈ s.labels) ++ s.labels.filter (· ∉ listed) := by
  have hlisted : listed.eraseDups.filter (fun l => code.deps? l = some s.deps) =
      listed.eraseDups.filter (· ∈ s.labels) := by
    simp only [h.mem_labels_iff hs]
  have hrest : (code.order.filter (· ∉ listed)).filter (fun l => code.deps? l = some s.deps) =
      s.labels.filter (· ∉ listed) := by
    rw [h.labels_eq_filter hs, List.filter_comm]
  rw [stacks_reorder h.label_eq] at hs'
  rw [labels_of_mem_grouping hs', hdeps, eraseDups_append_eq, eraseDups_of_nodup h.nodup_order,
    List.filter_append, hlisted, hrest]

end Stacks

/-- A reordering puts the stacks in the order of their first labels. -/
theorem pairwise_firstPlace_reorder (h : code.Grouped) (listed : List Label) :
    (code.reorder listed).stacks.Pairwise fun s t =>
      s.firstPlace (listed.filter code.contains ++ code.order) <
        t.firstPlace (listed.filter code.contains ++ code.order) := by
  have h' := h.reorder listed
  have hregistered : (listed.filter code.contains ++ code.order).filterMap code.deps? =
      (listed ++ code.order).filterMap code.deps? := by
    rw [List.filterMap_append, List.filterMap_append, filterMap_deps?_filter_contains]
  have hplace : ∀ s ∈ (code.reorder listed).stacks,
      s.firstPlace (listed.filter code.contains ++ code.order) =
        (listed.filter code.contains ++ code.order).findIdx (code.deps? · = some s.deps) := by
    intro s hs
    simp only [Stack.firstPlace, h'.mem_labels_iff hs]
    rfl
  have hpairwise := pairwise_findIdx_eraseDups code.deps? (listed.filter code.contains ++ code.order)
  rw [hregistered, ← h.map_deps_reorder, List.pairwise_map] at hpairwise
  refine hpairwise.imp_of_mem fun {s t} hs ht hlt => ?_
  rwa [hplace s hs, hplace t ht]

/-- The stacks after a reordering are in the order of the list already. -/
theorem grouping_order_reorder (h : code.Grouped) (listed : List Label) :
    code.grouping (listed ++ (code.reorder listed).order).eraseDups = (code.reorder listed).stacks := by
  have h' := h.reorder listed
  rw [stacks_reorder h.label_eq]
  -- the sets and the labels of each stack alike: those of the list are in front already
  refine grouping_congr ?_ fun s hs => ?_
  · have horder := h'.map_deps_stacks.symm.trans (h.map_deps_reorder listed)
    rw [List.filterMap_append] at horder
    rw [eraseDups_filterMap_eraseDups, eraseDups_filterMap_eraseDups, List.filterMap_append,
      List.filterMap_append]
    exact eraseDups_append_again horder
  · have hlabels := labels_of_mem_grouping hs
    rw [← eraseDups_filter, List.filter_append] at hlabels
    rw [← stacks_reorder h.label_eq] at hs
    have horder : s.labels = (code.reorder listed).order.filter fun l => code.deps? l = some s.deps :=
      h'.labels_eq_filter hs
    have hnodup : s.labels.eraseDups = s.labels := eraseDups_of_nodup (h'.nodup_labels hs)
    rw [← eraseDups_filter, List.filter_append, ← horder,
      eraseDups_append_again (hnodup.trans hlabels), ← hlabels]

/-- A second reordering by the same list changes nothing. -/
theorem reorder_reorder (h : code.Grouped) (listed : List Label) :
    (code.reorder listed).reorder listed = code.reorder listed := by
  have hstacks : (code.reorder listed).grouping (listed ++ (code.reorder listed).order).eraseDups =
      (code.reorder listed).stacks := h.grouping_order_reorder listed
  rw [reorder_eq (h.reorder listed).label_eq, hstacks]

end Grouped

/-! ## The theorem -/

/-- `code'` is `code` with the stacks and their labels put in order by a list of labels. -/
structure Rearranges (code : CodeStructure) (listed : List Label) (code' : CodeStructure) : Prop where
  /-- The same variables are registered. -/
  registry_eq : code'.registry = code.registry
  /-- The same dependency sets have stacks. -/
  deps_perm : (code'.stacks.map Stack.deps).Perm (code.stacks.map Stack.deps)
  /-- The stack of a set has the same labels. -/
  labels_perm : ∀ s ∈ code.stacks, ∀ s' ∈ code'.stacks, s'.deps = s.deps → s'.labels.Perm s.labels
  /-- First come the listed labels of the stack, in the order in which they are first listed, and then
  the others in the order that they had. -/
  labels_eq : ∀ s ∈ code.stacks, ∀ s' ∈ code'.stacks, s'.deps = s.deps →
    s'.labels = listed.eraseDups.filter (· ∈ s.labels) ++ s.labels.filter (· ∉ listed)
  /-- The stacks go by their first labels in the list of the registered ones among the listed labels,
  followed by all labels in the order that they had. -/
  pairwise_firstPlace : code'.stacks.Pairwise fun s t =>
    s.firstPlace (listed.filter code.contains ++ code.order) <
      t.firstPlace (listed.filter code.contains ++ code.order)

/-- A reordering loses and duplicates nothing: it rearranges the stacks and their labels, and done again
it changes nothing. -/
theorem reorder_rearranges (h : code.Grouped) (listed : List Label) :
    code.Rearranges listed (code.reorder listed) ∧ (code.reorder listed).Grouped ∧
      (code.reorder listed).reorder listed = code.reorder listed := by
  refine ⟨⟨rfl, h.map_deps_reorder_perm listed, ?_, ?_, h.pairwise_firstPlace_reorder listed⟩,
    h.reorder listed, h.reorder_reorder listed⟩
  · exact fun s hs s' hs' hdeps => h.labels_reorder_perm hs hs' hdeps
  · exact fun s hs s' hs' hdeps => h.labels_reorder hs hs' hdeps

/-- Five variables with three dependency sets. -/
def fiveVariables : CodeStructure :=
  [⟨⟨0⟩, 10, .empty 1⟩, ⟨⟨1⟩, 11, .single 1 0⟩, ⟨⟨2⟩, 12, .empty 1⟩,
    ⟨⟨3⟩, 13, (DependencySet.empty 1).withRuntime⟩, ⟨⟨4⟩, 14, .single 1 0⟩].foldl insert {}

/-- Of the first two stacks the last labels are listed, one of them twice, of the third none, and one
listed label is not registered. -/
theorem reorder_rearranges_fiveVariables :
    fiveVariables.Grouped ∧ fiveVariables.order = [⟨0⟩, ⟨2⟩, ⟨1⟩, ⟨4⟩, ⟨3⟩] ∧
      fiveVariables.Rearranges [⟨9⟩, ⟨4⟩, ⟨2⟩, ⟨4⟩] (fiveVariables.reorder [⟨9⟩, ⟨4⟩, ⟨2⟩, ⟨4⟩]) ∧
      (fiveVariables.reorder [⟨9⟩, ⟨4⟩, ⟨2⟩, ⟨4⟩]).order = [⟨4⟩, ⟨1⟩, ⟨2⟩, ⟨0⟩, ⟨3⟩] ∧
      (fiveVariables.reorder [⟨9⟩, ⟨4⟩, ⟨2⟩, ⟨4⟩]).reorder [⟨9⟩, ⟨4⟩, ⟨2⟩, ⟨4⟩] =
        fiveVariables.reorder [⟨9⟩, ⟨4⟩, ⟨2⟩, ⟨4⟩] := by
  have hgrouped : fiveVariables.Grouped := (Groups.foldl_insert (by decide)).grouped
  obtain ⟨hrearranges, -, hagain⟩ := reorder_rearranges hgrouped [⟨9⟩, ⟨4⟩, ⟨2⟩, ⟨4⟩]
  exact ⟨hgrouped, by cbv, hrearranges, by cbv, hagain⟩

end CodeStructure

end FormStaging
