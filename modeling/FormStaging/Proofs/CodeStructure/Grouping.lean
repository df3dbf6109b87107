import FormStaging.CodeStructure
import FormStaging.Proofs.FirstOccurrence
import Mathlib.Data.List.Perm.Basic

/-!
# Registered variables and their stacks

A list of variables fixes its stacks: one for each dependency set, in the order in which the sets
first occur, with the labels of the variables that have the set, in list order (`group_eq`).

`CodeStructure.Groups code infos` says that `infos` lists the registered variables, one per label, and
that the stacks of `code` group them in this order. The list of a fresh structure is empty, an
insertion of a new label adds a variable at its end (`Groups.insert`), and a reordering permutes it
(`Groups.reorder`): the variables with listed labels come first.
-/

set_option autoImplicit false

namespace FormStaging

namespace Stack

/-- The stack of the variables of a list that have a dependency set. -/
def ofInfos (infos : List RegisteredVariable) (deps : DependencySet) : Stack :=
  ⟨deps, (infos.filter fun info => info.deps = deps).map RegisteredVariable.label⟩

/-- The dependency sets of a list of variables, each once. -/
def keys (infos : List RegisteredVariable) : List DependencySet :=
  firstPer some (infos.map RegisteredVariable.deps)

variable {deps : DependencySet} {label : Label} {infos : List RegisteredVariable}

theorem place_of_not_mem {ss : List Stack} (h : ∀ s ∈ ss, s.deps ≠ deps) :
    place deps label ss = ss ++ [⟨deps, [label]⟩] := by
  induction ss with
  | nil => rfl
  | cons s ss ih =>
    rw [place, if_neg (h s List.mem_cons_self), ih fun t ht => h t (List.mem_cons_of_mem _ ht)]
    rfl

/-- A label joins the one stack of its dependency set. -/
theorem place_map {sets : List DependencySet} {stack : DependencySet → Stack}
    (hstack : ∀ d, (stack d).deps = d) (hnodup : sets.Nodup) (hmem : deps ∈ sets) :
    place deps label (sets.map stack) =
      sets.map fun d => if d = deps then ⟨d, (stack d).labels ++ [label]⟩ else stack d := by
  induction sets with
  | nil => simp at hmem
  | cons d sets ih =>
    obtain ⟨hd, hsets⟩ := List.nodup_cons.1 hnodup
    rw [List.map_cons, List.map_cons, place, hstack]
    by_cases he : d = deps
    · rw [if_pos he, if_pos he]
      congr 1
      refine List.map_congr_left fun e hmem' => (if_neg ?_).symm
      rintro rfl
      exact hd (he ▸ hmem')
    · rw [if_neg he, if_neg he]
      congr 1
      exact ih hsets ((List.mem_cons.1 hmem).resolve_left fun h => he h.symm)

theorem mem_keys : deps ∈ keys infos ↔ ∃ info ∈ infos, info.deps = deps := by
  have h : deps ∈ keys infos ↔ HasKey some (infos.map RegisteredVariable.deps) deps := by
    rw [← hasKey_firstPer]
    simp [HasKey, keys]
  rw [h]
  simp [HasKey]

theorem nodup_keys (infos : List RegisteredVariable) : (keys infos).Nodup := by
  have h := nodup_keys_firstPer some (infos.map RegisteredVariable.deps)
  rwa [List.filterMap_some] at h

/-- One more variable brings a key if its dependency set is new. -/
theorem keys_concat (infos : List RegisteredVariable) (info : RegisteredVariable) :
    keys (infos ++ [info]) =
      if info.deps ∈ keys infos then keys infos else keys infos ++ [info.deps] := by
  have hkey : HasKey some (infos.map RegisteredVariable.deps) info.deps ↔
      info.deps ∈ keys infos := by
    rw [mem_keys]
    simp [HasKey]
  rw [keys, List.map_append, List.map_cons, List.map_nil]
  split
  case isTrue h => exact firstPer_concat_of_hasKey rfl (hkey.2 h)
  case isFalse h => exact firstPer_concat_of_not_hasKey rfl fun hk => h (hkey.1 hk)

/-- One more variable joins the stack of its dependency set. -/
theorem ofInfos_concat (infos : List RegisteredVariable) (info : RegisteredVariable)
    (d : DependencySet) :
    ofInfos (infos ++ [info]) d =
      if d = info.deps then ⟨d, (ofInfos infos d).labels ++ [info.label]⟩
      else ofInfos infos d := by
  by_cases h : d = info.deps
  · simp [ofInfos, h]
  · have hne : info.deps ≠ d := fun he => h he.symm
    simp [ofInfos, h, hne]

theorem ofInfos_of_not_mem (h : deps ∉ keys infos) : ofInfos infos deps = ⟨deps, []⟩ := by
  have hnone : infos.filter (fun info => info.deps = deps) = [] := by
    refine List.filter_eq_nil_iff.2 fun info hi he => h (mem_keys.2 ⟨info, hi, ?_⟩)
    exact of_decide_eq_true he
  rw [ofInfos, hnone]
  rfl

theorem group_concat (infos : List RegisteredVariable) (info : RegisteredVariable) :
    group (infos ++ [info]) = place info.deps info.label (group infos) := by
  rw [group, List.foldl_append]
  rfl

/-- The stacks of a list of variables. -/
theorem group_eq (infos : List RegisteredVariable) :
    group infos = (keys infos).map (ofInfos infos) := by
  induction infos using List.reverseRecOn with
  | nil => rfl
  | append_singleton infos info ih =>
    rw [group_concat, ih, keys_concat]
    by_cases hmem : info.deps ∈ keys infos
    · rw [if_pos hmem, place_map (fun _ => rfl) (nodup_keys infos) hmem]
      exact List.map_congr_left fun d _ => (ofInfos_concat infos info d).symm
    · rw [if_neg hmem, place_of_not_mem, List.map_append]
      · congr 1
        · refine List.map_congr_left fun d hd => ?_
          rw [ofInfos_concat, if_neg]
          rintro rfl
          exact hmem hd
        · rw [List.map_cons, ofInfos_concat, if_pos rfl, ofInfos_of_not_mem hmem]
          rfl
      · intro s hs he
        obtain ⟨d, hd, rfl⟩ := List.mem_map.1 hs
        exact hmem (he ▸ hd)

/-- The stack of a variable of the list. -/
theorem ofInfos_mem_group {info : RegisteredVariable} (h : info ∈ infos) :
    ofInfos infos info.deps ∈ group infos := by
  rw [group_eq]
  exact List.mem_map_of_mem (mem_keys.2 ⟨info, h, rfl⟩)

/-- The variables of a stack keep their order. -/
theorem pair_sublist_ofInfos {info other : RegisteredVariable} (h : [other, info].Sublist infos)
    (hdeps : info.deps = other.deps) :
    [other.label, info.label].Sublist (ofInfos infos info.deps).labels := by
  have hfilter := (h.filter fun i => decide (i.deps = info.deps)).map RegisteredVariable.label
  simpa [ofInfos, hdeps] using hfilter

/-- Every stack is the one of its dependency set. -/
theorem eq_ofInfos_of_mem_group {s : Stack} (h : s ∈ group infos) :
    s = ofInfos infos s.deps := by
  rw [group_eq] at h
  obtain ⟨d, -, rfl⟩ := List.mem_map.1 h
  rfl

theorem place_perm (deps : DependencySet) (label : Label) (ss : List Stack) :
    ((place deps label ss).flatMap Stack.labels).Perm
      (ss.flatMap Stack.labels ++ [label]) := by
  induction ss with
  | nil => exact List.Perm.refl _
  | cons s ss ih =>
    rw [place]
    split
    · rw [List.flatMap_cons, List.flatMap_cons, List.append_assoc, List.append_assoc]
      exact List.Perm.append_left _ List.perm_append_comm
    · rw [List.flatMap_cons, List.flatMap_cons, List.append_assoc]
      exact ih.append_left _

/-- The stacks hold the labels of the variables, each once. -/
theorem group_perm (infos : List RegisteredVariable) :
    ((group infos).flatMap Stack.labels).Perm (infos.map RegisteredVariable.label) := by
  induction infos using List.reverseRecOn with
  | nil => exact List.Perm.refl _
  | append_singleton infos info ih =>
    rw [group_concat, List.map_append]
    exact (place_perm info.deps info.label (group infos)).trans (ih.append_right _)

end Stack

namespace CodeStructure

variable {code : CodeStructure} {infos : List RegisteredVariable} {info : RegisteredVariable}
  {l : Label}

/-- The registered variables are `infos`, one per label, and the stacks group them in this order. -/
structure Groups (code : CodeStructure) (infos : List RegisteredVariable) : Prop where
  nodup : (infos.map RegisteredVariable.label).Nodup
  get?_iff : ∀ l info, code.get? l = some info ↔ info ∈ infos ∧ info.label = l
  stacks_eq : code.stacks = Stack.group infos

theorem get?_empty (l : Label) : ({} : CodeStructure).get? l = none := by
  simp [get?]

theorem get?_insert (code : CodeStructure) (info : RegisteredVariable) (l : Label) :
    (code.insert info).get? l = if info.label = l then some info else code.get? l := by
  simp only [get?, insert, Std.HashMap.getElem?_insert, beq_iff_eq]

@[simp] theorem get?_reorder (code : CodeStructure) (listed : List Label) (l : Label) :
    (code.reorder listed).get? l = code.get? l := rfl

theorem contains_iff (code : CodeStructure) (l : Label) :
    code.contains l = true ↔ ∃ info, code.get? l = some info := by
  rw [contains, Std.HashMap.contains_eq_isSome_getElem?, Option.isSome_iff_exists]
  rfl

/-- The variables of a list of labels stand in the order of the list. -/
theorem map_label_resolve_sublist (hlabel : ∀ l info, code.get? l = some info → info.label = l)
    (labels : List Label) :
    ((code.resolve labels).map RegisteredVariable.label).Sublist labels := by
  induction labels with
  | nil => exact List.Sublist.slnil
  | cons l labels ih =>
    rw [resolve]
    cases hl : code.get? l with
    | none =>
      rw [List.filterMap_cons_none hl]
      exact ih.cons l
    | some info =>
      rw [List.filterMap_cons_some hl, List.map_cons, hlabel l info hl]
      exact ih.cons_cons l

namespace Groups

/-- No variable is registered in a fresh structure. -/
theorem empty : Groups {} [] := by
  refine ⟨List.nodup_nil, fun l info => ?_, rfl⟩
  simp [get?_empty]

theorem mem (h : code.Groups infos) (hl : code.get? l = some info) : info ∈ infos :=
  ((h.get?_iff l info).1 hl).1

theorem mem_of_mem_resolve (h : code.Groups infos) {labels : List Label}
    (hi : info ∈ code.resolve labels) : info ∈ infos := by
  obtain ⟨l, -, hl⟩ := List.mem_filterMap.1 hi
  exact h.mem hl

/-- A variable is registered under its own label. -/
theorem label_eq (h : code.Groups infos) (hl : code.get? l = some info) : info.label = l :=
  ((h.get?_iff l info).1 hl).2

theorem get?_of_mem (h : code.Groups infos) (hi : info ∈ infos) :
    code.get? info.label = some info :=
  (h.get?_iff _ _).2 ⟨hi, rfl⟩

/-- A new variable comes last. -/
theorem insert (h : code.Groups infos) (hnew : code.get? info.label = none) :
    (code.insert info).Groups (infos ++ [info]) := by
  have hlabel : ∀ other ∈ infos, other.label ≠ info.label := by
    intro other ho he
    have hother := h.get?_of_mem ho
    rw [he, hnew] at hother
    simp at hother
  refine ⟨?_, fun l other => ?_, ?_⟩
  · rw [List.map_append]
    refine List.nodup_append.2 ⟨h.nodup, by simp, ?_⟩
    intro a ha b hb
    obtain ⟨other, ho, rfl⟩ := List.mem_map.1 ha
    rw [List.map_cons, List.map_nil, List.mem_singleton] at hb
    rw [hb]
    exact hlabel other ho
  · rw [get?_insert, List.mem_append, List.mem_singleton]
    split
    case isTrue hl =>
      constructor
      · intro he
        obtain rfl : info = other := Option.some.inj he
        exact ⟨Or.inr rfl, hl⟩
      · rintro ⟨ho | rfl, hol⟩
        · exact absurd (hol.trans hl.symm) (hlabel other ho)
        · rfl
    case isFalse hl =>
      -- the variables under other labels are the old ones
      rw [h.get?_iff]
      refine and_congr_left fun hol => ⟨Or.inl, fun ho => ho.resolve_right ?_⟩
      rintro rfl
      exact hl hol
  · rw [Stack.group_concat, CodeStructure.insert, h.stacks_eq]

/-- Variables with different labels are registered one after the other. -/
theorem foldl_insert (hnodup : (infos.map RegisteredVariable.label).Nodup) :
    (infos.foldl CodeStructure.insert {}).Groups infos := by
  induction infos using List.reverseRecOn with
  | nil => exact .empty
  | append_singleton infos info ih =>
    rw [List.map_append, List.nodup_append] at hnodup
    obtain ⟨hinfos, -, hdisjoint⟩ := hnodup
    rw [List.foldl_concat]
    refine (ih hinfos).insert (Option.eq_none_iff_forall_ne_some.2 fun other hother => ?_)
    obtain ⟨hmem, hlabel⟩ := ((ih hinfos).get?_iff _ other).1 hother
    exact hdisjoint _ (List.mem_map_of_mem hmem) info.label (by simp) hlabel

/-- The stacks hold the registered labels, each once. -/
theorem order_perm (h : code.Groups infos) :
    code.order.Perm (infos.map RegisteredVariable.label) := by
  rw [order, h.stacks_eq]
  exact Stack.group_perm infos

theorem nodup_order (h : code.Groups infos) : code.order.Nodup :=
  h.order_perm.nodup_iff.2 h.nodup

theorem mem_order (h : code.Groups infos) : l ∈ code.order ↔ ∃ info, code.get? l = some info := by
  rw [h.order_perm.mem_iff, List.mem_map]
  refine exists_congr fun info => ?_
  rw [h.get?_iff]

/-- A reordering permutes the variables. Those with listed labels come first. -/
theorem reorder (h : code.Groups infos) (listed : List Label) :
    (code.reorder listed).Groups (code.resolve (firstPer some (listed ++ code.order))) := by
  refine ⟨?_, fun l info => ?_, rfl⟩
  · refine List.Nodup.sublist (map_label_resolve_sublist (fun _ _ => h.label_eq) _) ?_
    have hn := nodup_keys_firstPer some (listed ++ code.order)
    rwa [List.filterMap_some] at hn
  · rw [get?_reorder]
    constructor
    · intro hl
      -- no label of the order is lost by keeping first occurrences
      have hmem : HasKey some (firstPer some (listed ++ code.order)) l := by
        refine hasKey_firstPer.2 ⟨l, List.mem_append_right _ (h.mem_order.2 ⟨info, hl⟩), rfl⟩
      obtain ⟨m, hm, he⟩ := hmem
      rw [Option.some.inj he] at hm
      exact ⟨List.mem_filterMap.2 ⟨l, hm, hl⟩, h.label_eq hl⟩
    · rintro ⟨hi, rfl⟩
      obtain ⟨m, -, hm⟩ := List.mem_filterMap.1 hi
      rwa [h.label_eq hm]

/-- A variable stands in the stack of its dependency set. -/
theorem exists_stack (h : code.Groups infos) (hmem : info ∈ infos) :
    ∃ s ∈ code.stacks, s.deps = info.deps ∧ info.label ∈ s.labels := by
  refine ⟨Stack.ofInfos infos info.deps, ?_, rfl, ?_⟩
  · rw [h.stacks_eq]
    exact Stack.ofInfos_mem_group hmem
  · exact List.mem_map_of_mem (List.mem_filter.2 ⟨hmem, decide_eq_true rfl⟩)

/-- Variables of one stack stand in the order of the list. -/
theorem pair_sublist_order (h : code.Groups infos) {other : RegisteredVariable}
    (hpair : [other, info].Sublist infos) (hdeps : info.deps = other.deps) :
    [other.label, info.label].Sublist code.order := by
  have hmem := Stack.ofInfos_mem_group (hpair.subset (a := info) (by simp))
  rw [← h.stacks_eq] at hmem
  rw [order, List.flatMap_def]
  exact (Stack.pair_sublist_ofInfos hpair hdeps).trans
    (List.sublist_flatten_of_mem (List.mem_map_of_mem hmem))

/-- A reordering keeps what comes first, if it is first in the given list whenever the later
variable is listed. -/
theorem pair_sublist_reorder (h : code.Groups infos) {other : RegisteredVariable}
    {listed : List Label} (hnodup : listed.Nodup) (hpair : [other, info].Sublist infos)
    (hdeps : info.deps = other.deps)
    (hlisted : info.label ∈ listed → [other.label, info.label].Sublist listed) :
    [other, info].Sublist (code.resolve (firstPer some (listed ++ code.order))) := by
  have hother := h.get?_of_mem (hpair.subset (a := other) (by simp))
  have hinfo := h.get?_of_mem (hpair.subset (a := info) (by simp))
  have hlabels : [other.label, info.label].Sublist (firstPer some (listed ++ code.order)) := by
    rw [firstPer_some_append hnodup h.nodup_order]
    by_cases hl : info.label ∈ listed
    · exact (hlisted hl).trans (List.sublist_append_left _ _)
    · -- an unlisted variable comes after the listed ones, and the unlisted keep their order
      have hl' : info.label ∈ code.order.filter (· ∉ listed) :=
        List.mem_filter.2 ⟨h.mem_order.2 ⟨info, hinfo⟩, decide_eq_true hl⟩
      by_cases hm : other.label ∈ listed
      · exact List.Sublist.append (List.singleton_sublist.2 hm) (List.singleton_sublist.2 hl')
      · have hfilter := (h.pair_sublist_order hpair hdeps).filter fun l => decide (l ∉ listed)
        have hfilter' : [other.label, info.label].Sublist (code.order.filter (· ∉ listed)) := by
          simpa [hl, hm] using hfilter
        exact hfilter'.trans (List.sublist_append_right _ _)
  have hresolve := hlabels.filterMap code.get?
  rw [resolve]
  simpa [hother, hinfo] using hresolve

/-- The variables of a list are found by their labels. -/
theorem resolve_map_label (h : code.Groups infos) :
    code.resolve (infos.map RegisteredVariable.label) = infos := by
  rw [resolve, List.filterMap_map]
  refine (List.filterMap_congr fun info hi => ?_).trans List.filterMap_some
  exact h.get?_of_mem hi

/-- A reordering by a list of all labels puts the variables in the order of the list. -/
theorem reorder_of_subset (h : code.Groups infos) {listed : List Label} (hnodup : listed.Nodup)
    (hall : code.order ⊆ listed) : (code.reorder listed).Groups (code.resolve listed) := by
  have hfilter : code.order.filter (· ∉ listed) = [] :=
    List.filter_eq_nil_iff.2 fun l hl => by simpa using hall hl
  have hreorder := h.reorder listed
  rwa [firstPer_some_append hnodup h.nodup_order, hfilter, List.append_nil] at hreorder

/-- Structures that group the same variables are equal. -/
theorem equal {code' : CodeStructure} (h : code.Groups infos) (h' : code'.Groups infos)
    (ν : Numbering) : code.equal ν code' = true := by
  have hget : ∀ l : Label, code.registry[l]? = code'.registry[l]? := by
    intro l
    refine Option.ext fun info => ?_
    exact (h.get?_iff l info).trans (h'.get?_iff l info).symm
  have hsize : code.size = code'.size := (Std.HashMap.Equiv.of_forall_getElem?_eq hget).size_eq
  have hstacks : code.stacks = code'.stacks := h.stacks_eq.trans h'.stacks_eq.symm
  rw [CodeStructure.equal, Bool.and_eq_true, Bool.and_eq_true, List.all_eq_true]
  refine ⟨⟨by simp [hsize], fun entry hmem => ?_⟩, by simp [hstacks]⟩
  have hentry : code'.get? entry.1 = some entry.2 := by
    rw [get?, ← hget]
    exact Std.HashMap.mem_toList_iff_getElem?_eq_some.1 hmem
  simp [hentry, sameVariable]

end Groups

end CodeStructure

end FormStaging
