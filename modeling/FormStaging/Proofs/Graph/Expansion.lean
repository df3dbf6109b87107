import FormStaging.CodeStructure
import FormStaging.Proofs.Graph.Variables

/-!
# Expansion of variables

`Graph.Expands g meaning i t` says that node `i` becomes the term `t` if every variable is replaced by
the expansion of what its label means. The relation is inductive: a label without a meaning, or one
whose meaning refers to itself, has no expansion. There is at most one (`Expands.functional`).
`Term.erase` replaces every variable by its own content, whatever its label.

In an expression, the meaning of a label is the content of its first node in post-order. With this
meaning every node of the expression has an expansion (`exists_expands`), also where equal labels
have different contents, since what a first node refers to comes first itself.
-/

set_option autoImplicit false

namespace FormStaging

namespace Graph

variable {g g' : Graph} {meaning : Label → Option NodeId} {root i j c : NodeId} {l : Label}
  {t t' : Term}

/-- Node `i` expands to `t`. -/
inductive Expands (g : Graph) (meaning : Label → Option NodeId) : NodeId → Term → Prop where
  | layer {i : NodeId} (parts : NodeId → Term) (hi : g.label? i = none)
      (hparts : ∀ j ∈ g.operands i, Expands g meaning j (parts j)) :
      Expands g meaning i (.mk ((g.node i).map parts))
  | reference {i c : NodeId} {l : Label} {t : Term} (hi : g.label? i = some l)
      (hl : meaning l = some c) (hc : Expands g meaning c t) : Expands g meaning i t

namespace Expands

/-- A node that is no variable expands layer by layer. -/
theorem cases_layer (h : g.Expands meaning i t) (hi : g.label? i = none) :
    ∃ parts : NodeId → Term, (∀ j ∈ g.operands i, g.Expands meaning j (parts j)) ∧
      t = .mk ((g.node i).map parts) := by
  cases h with
  | layer parts _ hparts => exact ⟨parts, hparts, rfl⟩
  | reference hi' =>
    rw [hi] at hi'
    cases hi'

/-- A variable expands to what its label means. -/
theorem cases_reference (h : g.Expands meaning i t) (hi : g.label? i = some l) :
    ∃ c, meaning l = some c ∧ g.Expands meaning c t := by
  cases h with
  | layer _ hi' =>
    rw [hi] at hi'
    cases hi'
  | reference hi' hl hc =>
    rw [hi] at hi'
    obtain rfl := Option.some.inj hi'
    exact ⟨_, hl, hc⟩

/-- There is at most one expansion. -/
theorem functional (h : g.Expands meaning i t) (h' : g.Expands meaning i t') : t = t' := by
  induction h generalizing t' with
  | layer parts hi _ ih =>
    obtain ⟨parts', hparts', rfl⟩ := h'.cases_layer hi
    exact congrArg Term.mk (Node.map_congr fun j hj => ih j hj (hparts' j hj))
  | reference hi hl _ ih =>
    obtain ⟨c, hl', hc⟩ := h'.cases_reference hi
    rw [hl] at hl'
    obtain rfl := Option.some.inj hl'
    exact ih hc

/-- Every label that is met in an expansion has a meaning, which expands too. -/
theorem meaning_of_mentions (h : g.Expands meaning i t) (hm : g.Mentions i l) :
    ∃ c u, meaning l = some c ∧ g.Expands meaning c u := by
  induction hm generalizing t with
  | here hl =>
    obtain ⟨c, hc, hu⟩ := h.cases_reference hl
    exact ⟨c, t, hc, hu⟩
  | under hi hj _ ih =>
    obtain ⟨parts, hparts, -⟩ := h.cases_layer hi
    exact ih (hparts _ hj)

/-- The labels that are met in an expansion refer to each other without cycles. -/
theorem acc_of_mentions (h : g.Expands meaning i t) (hm : g.Mentions i l) :
    Acc (fun m l => ∃ c, meaning l = some c ∧ g.Mentions c m) l := by
  induction h generalizing l with
  | layer _ hi _ ih =>
    cases hm with
    | here hi' =>
      rw [hi] at hi'
      cases hi'
    | under _ hj hl => exact ih _ hj hl
  | @reference i c l' _ hi hl _ ih =>
    cases hm with
    | here hi' =>
      rw [hi] at hi'
      obtain rfl := Option.some.inj hi'
      -- what the label refers to is met in the expansion of its meaning
      refine Acc.intro _ fun m hm => ?_
      obtain ⟨c', hc', hmentions⟩ := hm
      rw [hl] at hc'
      obtain rfl := Option.some.inj hc'
      exact ih hmentions
    | under hi' =>
      rw [hi] at hi'
      cases hi'

end Expands

/-- Node `i` expands to `t` and to no other term. -/
def HasExpansion (g : Graph) (meaning : Label → Option NodeId) (i : NodeId) (t : Term) : Prop :=
  ∀ u, g.Expands meaning i u ↔ u = t

theorem Expands.hasExpansion (h : g.Expands meaning i t) : g.HasExpansion meaning i t := by
  intro u
  constructor
  · exact fun hu => hu.functional h
  · rintro rfl
    exact h

theorem exists_expands_of_operands (hi : g.label? i = none)
    (h : ∀ j ∈ g.operands i, ∃ t, g.Expands meaning j t) : ∃ t, g.Expands meaning i t := by
  have hall : ∀ j, ∃ t, j ∈ g.operands i → g.Expands meaning j t := by
    intro j
    by_cases hj : j ∈ g.operands i
    · obtain ⟨t, ht⟩ := h j hj
      exact ⟨t, fun _ => ht⟩
    · exact ⟨default, fun hj' => absurd hj' hj⟩
  choose parts hparts using hall
  exact ⟨_, .layer parts hi hparts⟩

/-! ## The meaning of labels in an expression -/

/-- The content of the first node with a label in the post-order of an expression. -/
def firstContent? (g : Graph) (root : NodeId) (l : Label) : Option NodeId :=
  (g.firstVariable? root l).map g.content

theorem content_eq (h : g.node i = .labelled c l) : g.content i = c := by
  rw [content, h]
  rfl

theorem Extends.content_eq (h : g.Extends g') (hi : i ∈ g) : g'.content i = g.content i := by
  rw [content, content, h.node_eq i hi]

/-- The operand of a variable is its content. -/
theorem content_mem_operands (h : g.label? i = some l) : g.content i ∈ g.operands i := by
  obtain ⟨c, hc, hops⟩ := operands_of_label? h
  rw [content_eq hc, hops]
  exact List.mem_singleton.2 rfl

/-- Every node of an expression has an expansion. -/
theorem exists_expands (h : root ∈ g) (hi : g.Reaches root i) :
    ∃ t, g.Expands (g.firstContent? root) i t := by
  have hlisted : ∀ before after, g.postOrder root = before ++ after →
      ∀ j ∈ before, ∃ t, g.Expands (g.firstContent? root) j t := by
    intro before
    -- along the post-order: operands, and the first node of a label, are not later
    induction before using List.reverseRecOn with
    | nil => exact fun _ _ _ hj => absurd hj List.not_mem_nil
    | append_singleton before k ih =>
      intro after hsplit j hj
      have hpost : g.postOrder root = before ++ k :: after := by
        rw [hsplit, List.append_assoc]
        rfl
      have hearlier := ih (k :: after) hpost
      have htop := topological_postOrder h
      rcases List.mem_append.1 hj with hj | hj
      · exact hearlier j hj
      · obtain rfl : j = k := List.mem_singleton.1 hj
        cases hl : g.label? j with
        | none =>
          exact exists_expands_of_operands hl fun m hm => hearlier m (htop before j after hpost m hm)
        | some l =>
          -- the first node with the label is `j` or earlier, and its content is earlier
          obtain ⟨v, hv⟩ : ∃ v, (before ++ [j]).find? (fun i => g.label? i = some l) = some v :=
            Option.isSome_iff_exists.1 (List.find?_isSome.2 ⟨j, by simp, by simpa using hl⟩)
          have hfirst : g.firstVariable? root l = some v := by
            rw [firstVariable?, hsplit, List.find?_append, hv, Option.some_or]
          have hcontent : g.content v ∈ before := by
            have hmem := content_mem_operands (label?_of_firstVariable? hfirst)
            rcases List.mem_append.1 (List.mem_of_find?_eq_some hv) with hvb | hvj
            · obtain ⟨early, late, rfl⟩ := List.append_of_mem hvb
              refine List.mem_append_left _ (htop early v (late ++ j :: after) ?_ _ hmem)
              simp [hpost]
            · rw [List.mem_singleton.1 hvj] at hmem ⊢
              exact htop before j after hpost _ hmem
          obtain ⟨t, ht⟩ := hearlier _ hcontent
          exact ⟨t, .reference hl (by rw [firstContent?, hfirst]; rfl) ht⟩
  exact hlisted (g.postOrder root) [] (by simp) i ((mem_postOrder h).2 hi)

/-! ## Erasing variables -/

end Graph

/-- The term without its variables: each is replaced by its content. -/
def Term.erase : Term → Term :=
  Term.fold fun n =>
    match n.contentAndLabel? with
    | some (content, _) => content
    | none => .mk n

namespace Term

theorem erase_labelled (t : Term) (l : Label) : (mk (.labelled t l)).erase = t.erase := by
  rw [erase, fold_mk]
  rfl

theorem erase_mk {n : Node Term} (h : n.label? = none) : (mk n).erase = mk (n.map erase) := by
  rw [erase, fold_mk]
  cases n <;> first | rfl | simp [Node.label?] at h

end Term

namespace Graph

variable {g : Graph} {i c : NodeId} {l : Label}

theorem erase_unfold_of_label? (h : g.label? i = none) :
    (g.unfold i).erase = .mk ((g.node i).map fun j => (g.unfold j).erase) := by
  rw [unfold_eq, Term.erase_mk (by rw [Node.label?_map]; exact h), Node.map_map]

theorem erase_unfold_of_labelled (h : g.node i = .labelled c l) :
    (g.unfold i).erase = (g.unfold c).erase := by
  rw [unfold_eq, h]
  exact Term.erase_labelled (g.unfold c) l

/-- Variables of an expression with equal labels are structurally equal. -/
def Consistent (g : Graph) (root : NodeId) : Prop :=
  ∀ v w l, g.Reaches root v → g.Reaches root w → g.label? v = some l → g.label? w = some l →
    g.unfold v = g.unfold w

/-- Variables of an expression with equal labels are equal up to the variables in them. -/
def ConsistentContents (g : Graph) (root : NodeId) : Prop :=
  ∀ v w l, g.Reaches root v → g.Reaches root w → g.label? v = some l → g.label? w = some l →
    (g.unfold v).erase = (g.unfold w).erase

theorem Consistent.contents {root : NodeId} (h : g.Consistent root) : g.ConsistentContents root :=
  fun v w l hv hw hvl hwl => congrArg Term.erase (h v w l hv hw hvl hwl)

/-- An expression in which no two variables have one label is consistent. -/
theorem consistent_of_nodup {root : NodeId} (h : root ∈ g)
    (hnodup : ((g.postOrder root).filterMap g.label?).Nodup) : g.Consistent root := by
  intro v w l hv hw hvl hwl
  obtain ⟨before, after, hpost⟩ := List.append_of_mem ((mem_postOrder h).2 hv)
  have hmem := (mem_postOrder h).2 hw
  rw [hpost, List.filterMap_append, List.filterMap_cons_some hvl] at hnodup
  rw [hpost] at hmem
  obtain ⟨-, hnodup', hdisjoint⟩ := List.nodup_append.1 hnodup
  rcases List.mem_append.1 hmem with hmem | hmem
  · have hl := List.mem_filterMap.2 ⟨w, hmem, hwl⟩
    exact absurd rfl (hdisjoint l hl l List.mem_cons_self)
  · rcases List.mem_cons.1 hmem with rfl | hmem
    · rfl
    · have hl := List.mem_filterMap.2 ⟨w, hmem, hwl⟩
      exact absurd hl (List.nodup_cons.1 hnodup').1

/-- An expression is consistent if its variables with one label unfold to one term. -/
theorem consistent_of_unfold_eq {root : NodeId} (h : root ∈ g)
    (heq : ∀ v ∈ (g.postOrder root).filter fun j => (g.label? j).isSome,
      ∀ w ∈ (g.postOrder root).filter fun j => (g.label? j).isSome,
        g.label? v = g.label? w → g.unfold v = g.unfold w) : g.Consistent root := by
  intro v w l hv hw hvl hwl
  have hmem : ∀ j, g.Reaches root j → g.label? j = some l →
      j ∈ (g.postOrder root).filter fun j => (g.label? j).isSome := by
    intro j hj hl
    exact List.mem_filter.2 ⟨(mem_postOrder h).2 hj, by rw [hl]; rfl⟩
  exact heq v (hmem v hv hvl) w (hmem w hw hwl) (hvl.trans hwl.symm)

/-- Nodes with one layer over operands with equal terms unfold to one term. -/
theorem unfold_eq_of_map_eq {i j : NodeId} (h : (g.node i).map g.unfold = (g.node j).map g.unfold) :
    g.unfold i = g.unfold j := by
  rw [unfold_eq, unfold_eq, h]

end Graph

end FormStaging
