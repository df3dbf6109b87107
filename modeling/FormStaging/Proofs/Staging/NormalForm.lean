import FormStaging.Proofs.Graph.Layers
import FormStaging.Proofs.Staging.Settled

/-!
# The normal form of an expression

`NormalForm settings g root infos` says that the expression `root` is fully staged: its variables are
the registered variables `infos`, listed in post-order, and their contents are settled. A split gives a
normal form (`Outcome.normalForm`). Where variables with equal labels have equal contents, what it
registers are the variables of this form (`Outcome.groups_resolve`).

The last part needs that no registered variable is lost. A variable of the source may be shadowed by
another one with its label, and what only the shadowed one refers to is registered but not used any
more. This cannot happen if the two are equal: then what stands for a node reaches a registered
variable for every label below the node (`Stands.retains`).
-/

set_option autoImplicit false

namespace FormStaging

/-- Equal expressions have variables with the same labels. -/
theorem Graph.exists_label?_iff_of_unfold_eq {g : Graph} {i j : NodeId} {l : Label}
    (h : g.unfold i = g.unfold j) :
    (∃ k, g.Reaches i k ∧ g.label? k = some l) ↔ ∃ k, g.Reaches j k ∧ g.label? k = some l := by
  have hany : ∀ i, (g.unfold i).any (fun n => decide (n.label? = some l)) = true ↔
      ∃ k, g.Reaches i k ∧ g.label? k = some l := by
    intro i
    rw [any_unfold]
    simp only [Node.label?_map, decide_eq_true_eq, label?]
  rw [← hany, ← hany, h]

namespace Staging

open FormStaging.Graph

variable {settings : Settings} {src g : Graph} {root i n : NodeId} {r : Staged}
  {infos earlier : List RegisteredVariable} {info : RegisteredVariable}

/-! ## No variable is lost -/

/-- Node `n` of the staged graph reaches a registered variable for every label at or below node `i` of
the source. -/
def Retains (src g : Graph) (infos : List RegisteredVariable) (i n : NodeId) : Prop :=
  ∀ j l, src.Reaches i j → src.label? j = some l →
    ∃ info ∈ infos, info.label = l ∧ g.Reaches n info.node

/-- What stands for a node retains its labels, if the variables registered before do. -/
theorem Stands.retains (h : Stands settings src g earlier i r)
    (hgiven : src.DirectionsGiven root) (hi : src.Reaches root i)
    (hearlier : ∀ info ∈ earlier, ∀ i, src.Reaches root i → src.label? i = some info.label →
      Retains src g infos i info.node) :
    Retains src g infos i r.node := by
  induction h with
  | @leaf i deps h =>
    intro j l hj hl
    obtain rfl := hj.eq_of_operands_eq_nil (operands_of_leafDeps h)
    rw [label?, label?_of_leafDeps h] at hl
    cases hl
  | labelled h hinfo => exact hearlier _ hinfo _ hi h
  | @derivative i a b n r h ha hb hmem hn ih =>
    intro j l hj hl
    have hops := operands_of_derivative h
    obtain ⟨items, hitems⟩ := hgiven i a b hi h
    rcases hj.cases_head with rfl | ⟨k, hk, hkj⟩
    · rw [label?, h] at hl
      cases hl
    · have hk' := hk
      rw [hops, List.mem_cons, List.mem_singleton] at hk
      rcases hk with rfl | rfl
      · obtain ⟨info, hinfo, hlabel, hreach⟩ := ih (hi.tail hk') j l hkj hl
        refine ⟨info, hinfo, hlabel, Reaches.head ?_ hreach⟩
        simp [operands_of_derivative hn]
      · -- the directions are a leaf without a label
        obtain rfl := hkj.eq_of_operands_eq_nil (operands_of_multiIndex hitems)
        rw [label?, hitems] at hl
        cases hl
  | @operator i n deps staged new h hops hdeps hnew hmem hn ih =>
    intro j l hj hl
    rcases hj.cases_head with rfl | ⟨k, hk, hkj⟩
    · rw [label?, label?_of_isPlain h] at hl
      cases hl
    · obtain ⟨info, hinfo, hlabel, hreach⟩ := ih k hk (hi.tail hk) j l hkj hl
      refine ⟨info, hinfo, hlabel, Reaches.head ?_ ((hnew.reaches hk).trans hreach)⟩
      rw [operands, hn, Node.operands_map]
      exact List.mem_map_of_mem hk

/-- A registered variable retains the labels of the variables it stands for. -/
theorem Built.retains (h : Built settings src root g infos) (hroot : root ∈ src)
    (hc : src.Consistent root) (hgiven : src.DirectionsGiven root) :
    ∀ info ∈ infos, ∀ i, src.Reaches root i → src.label? i = some info.label →
      Retains src g infos i info.node := by
  refine h.forall_of_earlier fun earlier hsub info hmem _ ho hearlier i hi hl => ?_
  cases ho with
  | @source v c r hv hcv hstands hnode hdeps =>
    have hv' := reaches_of_firstVariable? hroot hv
    have hequal := hc i v info.label hi hv' hl (label?_of_firstVariable? hv)
    have hops := operands_of_labelled hcv
    have hcontent := hstands.retains hgiven (hv'.tail (by simp [hops])) hearlier
    intro j l hj hjl
    -- the label is that of the variable, or occurs in the content of the first one with its label
    obtain ⟨k, hk, hkl⟩ := (exists_label?_iff_of_unfold_eq hequal).1 ⟨j, hj, hjl⟩
    rcases hk.cases_head with rfl | ⟨m, hm, hmk⟩
    · refine ⟨info, hmem, ?_, Reaches.refl _ _⟩
      rw [label?_of_labelled hcv] at hkl
      exact Option.some.inj hkl
    · rw [hops] at hm
      obtain rfl := List.mem_singleton.1 hm
      obtain ⟨other, hother, hlabel, hreach⟩ := hcontent k l hmk hkl
      refine ⟨other, hother, hlabel, Reaches.head ?_ hreach⟩
      simp [operands_of_labelled hnode]
  | minted hnew => exact absurd ((mem_labels_iff hroot).2 ⟨i, hi, hl⟩) hnew

/-! ## Normal forms -/

/-- The expression `root` is staged, and its variables are `infos` in post-order. -/
structure NormalForm (settings : Settings) (g : Graph) (root : NodeId)
    (infos : List RegisteredVariable) : Prop where
  mem : root ∈ g
  variables_eq : g.variables root = infos.map RegisteredVariable.node
  settled : AllSettled settings g infos

namespace NormalForm

theorem label? (h : NormalForm settings g root infos) (hmem : info ∈ infos) :
    g.label? info.node = some info.label := by
  obtain ⟨c, hc, -⟩ := h.settled info hmem
  exact label?_of_labelled hc

/-- The labels of the expression are those of its variables. -/
theorem labels_eq (h : NormalForm settings g root infos) :
    g.labels root = infos.map RegisteredVariable.label := by
  rw [labels, h.variables_eq, List.filterMap_map, ← List.filterMap_eq_map]
  exact List.filterMap_congr fun info hmem => h.label? hmem

theorem nodup (h : NormalForm settings g root infos) :
    (infos.map RegisteredVariable.label).Nodup :=
  h.labels_eq ▸ g.nodup_labels root

theorem reaches (h : NormalForm settings g root infos) (hmem : info ∈ infos) :
    g.Reaches root info.node := by
  refine reaches_of_mem_variables h.mem ?_
  rw [h.variables_eq]
  exact List.mem_map_of_mem hmem

end NormalForm

end Staging

/-! ## A split gives a normal form -/

namespace Outcome

open Staging

variable {settings : Settings} {g src : Graph} {i root : NodeId} {r : SplitResult}
  {infos : List RegisteredVariable} {info : RegisteredVariable}

/-- The variable of the expression reaches every registered variable, if variables with equal labels
have equal contents. -/
theorem reaches (h : Outcome settings g i r src root infos) (hc : g.Consistent i)
    (hgiven : g.DirectionsGiven i) (hmem : info ∈ infos) :
    r.graph.Reaches r.root.node info.node := by
  have hretains := h.built.retains h.wraps.root_mem (h.wraps.consistent hc)
    (h.wraps.directionsGiven hgiven) r.root h.root_registered root (Graph.Reaches.refl _ _)
    h.root_label
  -- it is below the variable of some label of the source, which the root retains
  obtain ⟨top, htop, hlabel, hreach⟩ := h.reached info hmem
  obtain ⟨j, hj, hjl⟩ := (Graph.mem_labels_iff h.wraps.root_mem).1 hlabel
  obtain ⟨other, hother, he, hroot⟩ := hretains j top.label hj hjl
  obtain rfl := List.inj_on_of_nodup_map h.nodup hother htop he
  exact hroot.trans hreach

/-- The registered variables that the result reaches are found under the labels below it. -/
theorem mem_resolve_iff (h : Outcome settings g i r src root infos) (hgiven : g.DirectionsGiven i) :
    info ∈ r.code.resolve (r.graph.labels r.root.node) ↔
      info ∈ infos ∧ r.graph.Reaches r.root.node info.node := by
  have hmem := h.built.labels.mem h.root_registered
  rw [CodeStructure.resolve, List.mem_filterMap]
  constructor
  · rintro ⟨l, hl, hget⟩
    obtain ⟨hinfo, rfl⟩ := h.get?_iff.1 hget
    obtain ⟨j, hj, hjl⟩ := (Graph.mem_labels_iff hmem).1 hl
    obtain ⟨other, hother, rfl, he⟩ := h.registered_of_reaches hgiven h.root_registered hj hjl
    obtain rfl := List.inj_on_of_nodup_map h.nodup hother hinfo he
    exact ⟨hinfo, hj⟩
  · rintro ⟨hinfo, hreach⟩
    refine ⟨info.label, ?_, h.get?_iff.2 ⟨hinfo, rfl⟩⟩
    exact (Graph.mem_labels_iff hmem).2 ⟨info.node, hreach, h.built.labels info hinfo⟩

theorem root_mem_resolve (h : Outcome settings g i r src root infos) (hgiven : g.DirectionsGiven i) :
    r.root ∈ r.code.resolve (r.graph.labels r.root.node) :=
  (h.mem_resolve_iff hgiven).2 ⟨h.root_registered, Graph.Reaches.refl _ _⟩

/-- A split gives a normal form, whose variables are the registered ones that the result reaches. -/
theorem normalForm (h : Outcome settings g i r src root infos) (hgiven : g.DirectionsGiven i) :
    NormalForm settings r.graph r.root.node
      (r.code.resolve (r.graph.labels r.root.node)) := by
  have hmem := h.built.labels.mem h.root_registered
  refine ⟨hmem, ?_, fun info hinfo => ?_⟩
  · -- every variable of the result is the registered one
    rw [CodeStructure.resolve, Graph.labels, List.filterMap_filterMap, List.map_filterMap]
    refine (List.filterMap_some.symm.trans (List.filterMap_congr fun v hv => ?_))
    obtain ⟨l, hl, -⟩ := Graph.firstVariable?_of_mem_variables hv
    obtain ⟨info, hinfo, rfl, rfl⟩ := h.registered_of_reaches hgiven h.root_registered
      (Graph.reaches_of_mem_variables hmem hv) hl
    rw [hl, Option.bind_some, h.get?_iff.2 ⟨hinfo, rfl⟩]
    rfl
  · -- what is below a variable that the result reaches, the result reaches too
    obtain ⟨hinfo, hreach⟩ := (h.mem_resolve_iff hgiven).1 hinfo
    obtain ⟨c, hc, hsettled⟩ := h.allSettled hgiven info hinfo
    have hcv : c ∈ r.graph.operands info.node := by simp [Graph.operands_of_labelled hc]
    refine ⟨c, hc, hsettled.of_reached fun other hother hcother => ?_⟩
    exact (h.mem_resolve_iff hgiven).2 ⟨hother, (hreach.tail hcv).trans hcother⟩

/-- The variables of the normal form are all that is registered, if variables with equal labels have
equal contents. -/
theorem groups_resolve (h : Outcome settings g i r src root infos) (hc : g.Consistent i)
    (hgiven : g.DirectionsGiven i) :
    r.code.Groups (r.code.resolve (r.graph.labels r.root.node)) := by
  obtain ⟨code, hgroups, heq⟩ := h.reordered
  have hmem := h.built.labels.mem h.root_registered
  -- the root reaches all variables, so the reordering lists them in its post-order
  have hall : code.order ⊆ r.graph.labels r.root.node := by
    intro l hl
    obtain ⟨info, hget⟩ := hgroups.mem_order.1 hl
    obtain ⟨hinfo, rfl⟩ := (hgroups.get?_iff l info).1 hget
    exact (Graph.mem_labels_iff hmem).2
      ⟨info.node, h.reaches hc hgiven hinfo, h.built.labels info hinfo⟩
  have hplaced := hgroups.reorder_of_subset (r.graph.nodup_labels _) hall
  have hresolve : r.code.resolve (r.graph.labels r.root.node) =
      code.resolve (r.graph.labels r.root.node) := by
    rw [heq]
    exact List.filterMap_congr fun l _ => CodeStructure.get?_reorder _ _ _
  rwa [hresolve, heq]

/-- The labels of the result can be reserved. -/
theorem exists_reserveAll? (h : Outcome settings g i r src root infos) (hgiven : g.DirectionsGiven i) :
    ∃ labels, LabelSupply.reserveAll? {} (r.graph.labels r.root.node) = some labels := by
  rw [← Option.ne_none_iff_exists', Ne, LabelSupply.reserveAll?_eq_none_iff]
  rintro ⟨l, hl, hlast⟩
  rw [(h.normalForm hgiven).labels_eq] at hl
  obtain ⟨info, hinfo, rfl⟩ := List.mem_map.1 hl
  have hlt := h.label_lt info ((h.mem_resolve_iff hgiven).1 hinfo).1
  omega

end Outcome

end FormStaging
