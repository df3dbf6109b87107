import FormStaging.Proofs.Staging.Outcome
import FormStaging.Proofs.Staging.Transport

/-!
# Splitting preserves meaning

An expression means what it expands to: every variable is replaced by the expansion of the content
that its label has. In the expression that is split, the first variable with a label in post-order
decides on this content; in the result, the registered variable does. The main statement,
`split_preserves_meaning`, says that both expansions are the same term, for the whole expression and
under every label.

The result of a split is an `Interpretation` of the source in two ways, by expansions and by
terms without variables. The second one needs equal labels to have equal contents.
-/

set_option autoImplicit false

namespace FormStaging

/-- The content of the variable registered under a label. -/
def CodeStructure.content? (code : CodeStructure) (g : Graph) (l : Label) : Option NodeId :=
  (code.get? l).map fun info => g.content info.node

/-! ## The wrapped expression -/

namespace Wraps

variable {g src : Graph} {i root : NodeId}

/-- The variable around an expression does not change what its nodes expand to. -/
theorem expands (h : Wraps g i src root) {j : NodeId} {t : Term}
    (ht : g.Expands (g.firstContent? i) j t) (hj : j ∈ g) :
    src.Expands (src.firstContent? root) j t := by
  induction ht with
  | @layer j parts hl _ ih =>
    rw [← h.grows.node_eq j hj]
    refine .layer parts (by rw [h.grows.label?_eq hj, hl]) fun k hk => ?_
    rw [h.grows.operands_eq hj] at hk
    exact ih k hk (Graph.mem_of_mem_operands hk hj)
  | @reference j c l t hl hm _ ih =>
    rw [Graph.firstContent?, Option.map_eq_some_iff] at hm
    obtain ⟨v, hv, rfl⟩ := hm
    have hvl := Graph.label?_of_firstVariable? hv
    have hvg : v ∈ g := Graph.mem_of_label? hvl
    refine .reference (h.grows.label?_eq_some hl) ?_
      (ih (Graph.mem_of_mem_operands (Graph.content_mem_operands hvl) hvg))
    rw [Graph.firstContent?, h.firstVariable?_eq hv, Option.map_some, h.grows.content_eq hvg]

/-- The variable around an expression expands to what the expression expands to. -/
theorem expands_root (h : Wraps g i src root) {t : Term}
    (ht : g.Expands (g.firstContent? i) i t) : src.Expands (src.firstContent? root) root t := by
  have hi := h.expands ht h.mem
  by_cases hri : root = i
  · rw [hri] at hi ⊢
    exact hi
  · -- a new variable is the first one with its label
    obtain ⟨l, hl⟩ := h.exists_label
    obtain ⟨v, hv⟩ :=
      Graph.exists_firstVariable? h.root_mem (Graph.Reaches.refl src root) hl
    obtain rfl : v = root := h.eq_root_of_label? hri hl
      (Graph.reaches_of_firstVariable? h.root_mem hv) (Graph.label?_of_firstVariable? hv)
    refine .reference hl ?_ hi
    rw [Graph.firstContent?, hv, Option.map_some, h.content_root hri]

theorem erase_unfold (h : Wraps g i src root) : (src.unfold root).erase = (g.unfold i).erase := by
  rw [← h.grows.unfold_eq i h.mem]
  cases h with
  | itself => rfl
  | wrapper _ _ hn => exact Graph.erase_unfold_of_labelled (Graph.node_push_size _ hn)

end Wraps

/-! ## The result as an interpretation of the source -/

namespace Outcome

open Staging

variable {settings : Settings} {g src : Graph} {i root : NodeId} {r : SplitResult}
  {infos : List RegisteredVariable} {info : RegisteredVariable} {t : Term}

theorem content?_eq (h : Outcome settings g i r src root infos) (hmem : info ∈ infos) :
    r.code.content? r.graph info.label = some (r.graph.content info.node) := by
  rw [CodeStructure.content?, h.get?_iff.2 ⟨hmem, rfl⟩, Option.map_some]

/-- A kept node expands as it did. -/
theorem expands_kept (h : Outcome settings g i r src root infos)
    {earlier : List RegisteredVariable} (hsub : earlier ⊆ infos)
    (hcarries : ∀ info ∈ earlier, Carries src root (src.Expands (src.firstContent? root))
      (r.graph.Expands (r.code.content? r.graph)) info)
    {b : NodeId} (hready : Ready src earlier b) (hb : src.Reaches root b)
    (ht : src.Expands (src.firstContent? root) b t) :
    r.graph.Expands (r.code.content? r.graph) b t := by
  induction ht with
  | @layer b parts hl _ ih =>
    have hmem := hb.mem h.wraps.root_mem
    rw [← h.grows.node_eq b hmem]
    refine .layer parts (by rw [h.grows.label?_eq hmem, hl]) fun k hk => ?_
    rw [h.grows.operands_eq hmem] at hk
    exact ih k hk (hready.operand hk) (hb.tail hk)
  | @reference b c l t hl hm hc _ =>
    -- a kept variable need not be the registered one, but its label is registered
    obtain ⟨info, hinfo, rfl⟩ := hready b l (Graph.Reaches.refl src b) hl
    have hinfo' := hcarries info hinfo b t hb hl (.reference hl hm hc)
    obtain ⟨c', hc', hexp⟩ := hinfo'.cases_reference (h.built.labels info (hsub hinfo))
    exact .reference (h.grows.label?_eq_some hl) hc' hexp

/-- Expansions of the source are expansions of the result. -/
theorem interpretation_expands (h : Outcome settings g i r src root infos) :
    Interpretation src root r.graph infos (src.Expands (src.firstContent? root))
      (r.graph.Expands (r.code.content? r.graph)) where
  layer _ _ hl ht := ht.cases_layer hl
  first _ l v t _ hl hv ht := by
    obtain ⟨c, hc, hexp⟩ := ht.cases_reference hl
    rw [Graph.firstContent?, hv, Option.map_some] at hc
    rw [Option.some.inj hc]
    exact hexp
  layer' _ parts hl hparts := .layer parts hl hparts
  registered info hmem n t hn ht := by
    refine .reference (h.built.labels info hmem) (h.content?_eq hmem) ?_
    rw [Graph.content_eq hn]
    exact ht
  functional' _ _ _ ht ht' := ht.functional ht'
  kept _ hsub hcarries _ _ hready hb ht := h.expands_kept hsub hcarries hready hb ht

/-- Where equal labels have equal contents up to variables, terms without variables are kept. -/
theorem interpretation_erase (h : Outcome settings g i r src root infos)
    (hc : src.ConsistentContents root) :
    Interpretation src root r.graph infos (fun j t => t = (src.unfold j).erase)
      (fun n t => t = (r.graph.unfold n).erase) where
  layer j t hl ht := ⟨fun k => (src.unfold k).erase, fun _ _ => rfl, by
    rw [ht, Graph.erase_unfold_of_label? hl]⟩
  first j l v t hj hl hv ht := by
    have hvl := Graph.label?_of_firstVariable? hv
    have hvj := hc v j l (Graph.reaches_of_firstVariable? h.wraps.root_mem hv) hj hvl hl
    obtain ⟨c, hcv, -⟩ := Graph.operands_of_label? hvl
    rw [ht, ← hvj, Graph.erase_unfold_of_labelled hcv, Graph.content_eq hcv]
  layer' n parts hl hparts := by
    rw [Graph.erase_unfold_of_label? hl]
    exact congrArg Term.mk (Node.map_congr hparts)
  registered info _ n t hn ht := by
    rw [ht, Graph.erase_unfold_of_labelled hn]
  functional' _ _ _ ht ht' := ht.trans ht'.symm
  kept _ _ _ b t _ hb ht := by
    rw [ht, h.grows.unfold_eq b (hb.mem h.wraps.root_mem)]

/-- The content of every registered variable has an expansion. -/
theorem exists_expands (h : Outcome settings g i r src root infos) (hmem : info ∈ infos) :
    ∃ t, r.graph.Expands (r.code.content? r.graph) (r.graph.content info.node) t := by
  obtain ⟨j, s, hj, hstands, hnode, -⟩ := h.built.exists_stands h.grows h.wraps.root_mem hmem
  obtain ⟨t, ht⟩ := Graph.exists_expands h.wraps.root_mem hj
  rw [Graph.content_eq hnode]
  exact ⟨t, h.interpretation_expands.carries h.wraps.root_mem h.grows h.built hstands hj ht⟩

/-- A registered variable expands to what the variables of the source with its label expand to. -/
theorem expands_of_label? (h : Outcome settings g i r src root infos) (hmem : info ∈ infos)
    {j : NodeId} (hj : src.Reaches root j) (hl : src.label? j = some info.label)
    (ht : src.Expands (src.firstContent? root) j t) :
    r.graph.Expands (r.code.content? r.graph) info.node t :=
  h.interpretation_expands.carries_of_built h.wraps.root_mem h.grows h.built info hmem j t hj hl ht

/-- Where equal labels have equal contents, the expression is kept but for its variables. -/
theorem erase_unfold_root (h : Outcome settings g i r src root infos) (hc : g.Consistent i) :
    (r.graph.unfold r.root.node).erase = (g.unfold i).erase := by
  have hI := h.interpretation_erase (h.wraps.consistent hc).contents
  have hroot := hI.carries_of_built h.wraps.root_mem h.grows h.built r.root h.root_registered root _
    (Graph.Reaches.refl src root) h.root_label rfl
  rw [← hroot]
  exact h.wraps.erase_unfold

end Outcome

/-! ## Preservation of meaning -/

/-- The result `r` of splitting node `i` of `g` means what this node means. -/
structure SameMeaning (g : Graph) (i : NodeId) (r : SplitResult) : Prop where
  /-- The expression and the variable of the result have one expansion each, the same. -/
  root : ∃ t, g.HasExpansion (g.firstContent? i) i t ∧
    r.graph.HasExpansion (r.code.content? r.graph) r.root.node t
  /-- So have the contents under each label of the expression. -/
  labels : ∀ l ∈ g.labels i, ∃ v info t, g.firstVariable? i l = some v ∧
    r.code.get? l = some info ∧
    g.HasExpansion (g.firstContent? i) (g.content v) t ∧
    r.graph.HasExpansion (r.code.content? r.graph) (r.graph.content info.node) t
  /-- The variable of the result is registered. -/
  registered : r.code.get? r.root.label = some r.root
  /-- Every registered variable has an expansion. -/
  defined : ∀ l info, r.code.get? l = some info →
    ∃ t, r.graph.HasExpansion (r.code.content? r.graph) (r.graph.content info.node) t
  /-- Every label that is met in it is registered. -/
  closed : ∀ l info m, r.code.get? l = some info →
    r.graph.Mentions (r.graph.content info.node) m → ∃ other, r.code.get? m = some other
  /-- The registered variables do not refer to each other in a cycle. -/
  acyclic : WellFounded fun m l => ∃ c, r.code.content? r.graph l = some c ∧ r.graph.Mentions c m
  /-- Where equal labels have equal contents, the expression is kept but for its variables. -/
  erased : g.Consistent i → (r.graph.unfold r.root.node).erase = (g.unfold i).erase

/-- Splitting preserves meaning. -/
theorem split_preserves_meaning {settings : Settings} {g : Graph} {i : NodeId} {r : SplitResult}
    (h : split settings g i = .ok r) : SameMeaning g i r := by
  obtain ⟨src, root, infos, ho⟩ := outcome_of_split h
  refine ⟨?_, fun l hl => ?_, ho.get?_iff.2 ⟨ho.root_registered, rfl⟩, fun l info hget => ?_,
    fun l info m hget hm => ?_, ⟨fun l => Acc.intro _ fun m hm => ?_⟩, fun hc => ?_⟩
  · obtain ⟨t, ht⟩ := Graph.exists_expands ho.wraps.mem (Graph.Reaches.refl g i)
    have hroot := ho.expands_of_label? ho.root_registered (Graph.Reaches.refl src root)
      ho.root_label (ho.wraps.expands_root ht)
    exact ⟨t, ht.hasExpansion, hroot.hasExpansion⟩
  · -- the first variable and the registered one expand to one term, and so do their contents
    obtain ⟨j, hj, hjl⟩ := (Graph.mem_labels_iff ho.wraps.mem).1 hl
    obtain ⟨v, hv⟩ := Graph.exists_firstVariable? ho.wraps.mem hj hjl
    obtain ⟨info, hmem, rfl⟩ := ho.registers l (ho.wraps.labels_subset hl)
    have hvl := Graph.label?_of_firstVariable? hv
    have hreach := Graph.reaches_of_firstVariable? ho.wraps.mem hv
    obtain ⟨t, ht⟩ := Graph.exists_expands ho.wraps.mem hreach
    obtain ⟨c, hc, hct⟩ := ht.cases_reference hvl
    rw [Graph.firstContent?, hv, Option.map_some] at hc
    have hinfo := ho.expands_of_label? hmem
      (ho.wraps.reaches.trans (ho.wraps.grows.reaches ho.wraps.mem hreach))
      (ho.wraps.grows.label?_eq_some hvl) (ho.wraps.expands ht (Graph.mem_of_label? hvl))
    obtain ⟨c', hc', hct'⟩ := hinfo.cases_reference (ho.built.labels info hmem)
    rw [ho.content?_eq hmem] at hc'
    rw [← Option.some.inj hc] at hct
    rw [← Option.some.inj hc'] at hct'
    exact ⟨v, info, t, hv, ho.get?_iff.2 ⟨hmem, rfl⟩, hct.hasExpansion, hct'.hasExpansion⟩
  · obtain ⟨hmem, -⟩ := ho.get?_iff.1 hget
    obtain ⟨t, ht⟩ := ho.exists_expands hmem
    exact ⟨t, ht.hasExpansion⟩
  · -- what is met in an expansion has a meaning, so it is registered
    obtain ⟨hmem, -⟩ := ho.get?_iff.1 hget
    obtain ⟨t, ht⟩ := ho.exists_expands hmem
    obtain ⟨c, -, hc, -⟩ := ht.meaning_of_mentions hm
    rw [CodeStructure.content?, Option.map_eq_some_iff] at hc
    obtain ⟨other, hother, -⟩ := hc
    exact ⟨other, hother⟩
  · obtain ⟨c, hc, hmentions⟩ := hm
    rw [CodeStructure.content?, Option.map_eq_some_iff] at hc
    obtain ⟨info, hget, rfl⟩ := hc
    obtain ⟨t, ht⟩ := ho.exists_expands (ho.get?_iff.1 hget).1
    exact ht.acc_of_mentions hmentions
  · exact ho.erase_unfold_root hc

/-- A product of an argument and a coefficient, used under a variable and without it. -/
def sharedProduct : Graph :=
  .ofNodes [.argument ⟨0, []⟩, .coefficient ⟨0, none, []⟩, .product 0 1, .labelled 2 ⟨7⟩, .sum 3 2,
    .product 4 1]

theorem split_preserves_meaning_sharedProduct :
    ∃ r, split (.ofForm (.ofExpression sharedProduct 5)) sharedProduct 5 = .ok r ∧
      SameMeaning sharedProduct 5 r := by
  have hok : (split (.ofForm (.ofExpression sharedProduct 5)) sharedProduct 5).isOk = true := by cbv
  obtain ⟨r, hr⟩ := Except.exists_eq_ok hok
  exact ⟨r, hr, split_preserves_meaning hr⟩

end FormStaging
