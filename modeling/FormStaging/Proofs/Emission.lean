import FormStaging.Proofs.Dependencies

/-!
# Staged emission

The registered variables can be computed stack by stack. A variable that occurs in the content of
another one has no dependency that the other one lacks, and within a stack it stands first. So if no
stack comes before one that it covers, and every stack is computed front to back, then each variable
is computed before it is used (`staged_emission_sound`).

In the stacks, order means: the variables that the variable of the expression needs, in post-order,
then the others in the order of their registration. Both orders put a variable after those it refers
to.
-/

set_option autoImplicit false

namespace FormStaging

open DependencySet Staging

/-- In a list without repetitions, the first of two elements stands in front of the second. -/
theorem mem_before_of_pair_sublist {α : Type} {a b : α} {l before after : List α} (hnodup : l.Nodup)
    (h : [a, b].Sublist l) (hl : l = before ++ b :: after) : a ∈ before := by
  rw [hl] at h hnodup
  obtain ⟨l₁, l₂, he, h₁, h₂⟩ := List.sublist_append_iff.1 h
  cases l₁ with
  | nil =>
    -- both would stand from `b` on, so `b` would stand twice
    rw [List.nil_append] at he
    rw [← he] at h₂
    have hb : b ∈ after := h₂.tail.subset (List.mem_singleton.2 rfl)
    exact absurd hb (List.nodup_cons.1 (List.nodup_append.1 hnodup).2.1).1
  | cons c l₁ =>
    obtain ⟨rfl, -⟩ := List.cons.inj he
    exact h₁.subset List.mem_cons_self

/-! ## The variables that occur in a content -/

namespace Outcome

variable {settings : Settings} {g src : Graph} {i root : NodeId} {r : SplitResult}
  {infos : List RegisteredVariable} {info : RegisteredVariable} {m : Label}

/-- A label that occurs in the content of a registered variable is registered before it, for a
variable without other dependencies. -/
theorem exists_earlier (h : Outcome settings g i r src root infos) (hok : settings.fault? = none)
    (hgiven : g.DirectionsGiven i) (hmem : info ∈ infos)
    (hm : r.graph.Mentions (r.graph.content info.node) m) :
    ∃ other, [other, info].Sublist infos ∧ other.label = m ∧
      r.graph.Reaches (r.graph.content info.node) other.node ∧
      info.deps.covers other.deps = .ok true := by
  obtain ⟨before, after, hsplit⟩ := List.append_of_mem hmem
  have hgiven' := h.wraps.directionsGiven hgiven
  have hroot := h.wraps.root_mem
  obtain ⟨hbefore, horigin⟩ := h.built.origin hsplit
  have hnodup : (before.map RegisteredVariable.label).Nodup := by
    have hnodup := h.nodup
    rw [hsplit, List.map_append] at hnodup
    exact (List.nodup_append.1 hnodup).1
  have hall := hbefore.settled hroot h.grows hnodup hgiven'
  obtain ⟨c, hc, hsettled⟩ :=
    horigin.settled hroot h.grows hbefore.labels hnodup hall hgiven'
  have hcontent : r.graph.content info.node = c := Graph.content_eq hc
  rw [hcontent] at hm ⊢
  obtain ⟨j, hj, hjm⟩ := hm.exists_reaches
  obtain ⟨d, hd⟩ := hsettled.of_reaches hj
  obtain ⟨k, hk, -⟩ := Graph.operands_of_label? hjm
  obtain ⟨other, hother, rfl, rfl, hlabel, -⟩ := hd.cases_labelled hk
  refine ⟨other, ?_, hlabel, hj, covers_iff.2 ⟨?_, fun f hf => ?_⟩⟩
  · rw [hsplit]
    exact List.Sublist.append (List.singleton_sublist.2 hother)
      (List.singleton_sublist.2 List.mem_cons_self)
  · rw [hsettled.rank hok, hd.rank hok]
  · -- what the variable needs is needed below the content
    obtain ⟨n, hn, hcontributes⟩ := (hd.has_iff f).1 hf
    exact (hsettled.has_iff f).2 ⟨n, hj.trans hn, hcontributes⟩

/-- The variables in their final order. A variable keeps its place after one that it reaches and that
is in the same stack. -/
theorem exists_placed (h : Outcome settings g i r src root infos) (hgiven : g.DirectionsGiven i) :
    ∃ placed, r.code.Groups placed ∧ ∀ other info : RegisteredVariable,
      [other, info].Sublist infos → info.deps = other.deps →
      r.graph.Reaches info.node other.node → [other, info].Sublist placed := by
  obtain ⟨code, hgroups, heq⟩ := h.reordered
  rw [heq]
  refine ⟨_, hgroups.reorder _, fun other info hpair hdeps hreach => ?_⟩
  have hother : other ∈ infos := hpair.subset List.mem_cons_self
  have hinfo : info ∈ infos := hpair.subset (by simp)
  have hlabels := h.built.labels
  have hroot := hlabels.mem h.root_registered
  -- variables with two labels are two nodes
  have hne : other.node ≠ info.node := by
    intro hnode
    have hsame : other.label = info.label :=
      Option.some.inj ((hlabels other hother).symm.trans (hnode ▸ hlabels info hinfo))
    have hnodup := (hpair.map RegisteredVariable.label).nodup h.nodup
    simp [hsame] at hnodup
  refine hgroups.pair_sublist_reorder (r.graph.nodup_labels _) hpair hdeps fun hl => ?_
  -- the listed variable is the registered one, so the other one is listed before it
  obtain ⟨v, hv, hvl⟩ := List.mem_filterMap.1 hl
  obtain ⟨known, hknown, rfl, hlabel⟩ := h.registered_of_reaches hgiven h.root_registered
    (Graph.reaches_of_mem_variables hroot hv) hvl
  obtain rfl := List.inj_on_of_nodup_map h.nodup hknown hinfo hlabel
  obtain ⟨before, after, hsplit⟩ := List.append_of_mem hv
  obtain ⟨w, hw, hwl⟩ :=
    Graph.exists_mem_before hroot hsplit hreach hne (hlabels other hother)
  rw [Graph.labels, hsplit, List.filterMap_append, List.filterMap_cons_some hvl]
  exact List.Sublist.append (List.singleton_sublist.2 (List.mem_filterMap.2 ⟨w, hw, hwl⟩))
    (List.singleton_sublist.2 List.mem_cons_self)

end Outcome

/-! ## Emission -/

/-- A variable `other` is available to a variable `info` that refers to it: it has no dependency that
`info` lacks, and it stands before `info` if they are in one stack. -/
structure Supplies (r : SplitResult) (other info : RegisteredVariable) : Prop where
  covers : info.deps.covers other.deps = .ok true
  before_of_eq : info.deps = other.deps → ∃ s ∈ r.code.stacks, s.deps = info.deps ∧
    info.label ∈ s.labels ∧
    ∀ before after, s.labels = before ++ info.label :: after → other.label ∈ before

/-- No stack comes before another one that it covers. -/
def RespectsCovers (ordered : List Stack) : Prop :=
  ordered.Pairwise fun s t => s.deps.covers t.deps ≠ .ok true

/-- The listed labels are the registered ones, each once, and the labels that occur in the content of
a variable stand before it. -/
structure DefinesBeforeUse (r : SplitResult) (labels : List Label) : Prop where
  nodup : labels.Nodup
  mem_iff : ∀ l, l ∈ labels ↔ ∃ info, r.code.get? l = some info
  mem_before : ∀ before l after info m, labels = before ++ l :: after →
    r.code.get? l = some info → r.graph.Mentions (r.graph.content info.node) m → m ∈ before

section Emission

variable {r : SplitResult} {infos : List RegisteredVariable} {ordered : List Stack}

/-- The stacks of supplied variables can be emitted in every order that respects their keys. -/
theorem definesBeforeUse (h : r.code.Groups infos) (hperm : ordered.Perm r.code.stacks)
    (hrespects : RespectsCovers ordered)
    (hsupplies : ∀ info ∈ infos, ∀ m, r.graph.Mentions (r.graph.content info.node) m →
      ∃ other ∈ infos, other.label = m ∧ Supplies r other info) :
    DefinesBeforeUse r (ordered.flatMap Stack.labels) := by
  have hlabels : (ordered.flatMap Stack.labels).Perm r.code.order := hperm.flatMap_right _
  have hnodup : (ordered.flatMap Stack.labels).Nodup := hlabels.nodup_iff.2 h.nodup_order
  refine ⟨hnodup, fun l => hlabels.mem_iff.trans h.mem_order, ?_⟩
  intro before l after info m hsplit hget hm
  obtain ⟨hinfo, rfl⟩ := (h.get?_iff l info).1 hget
  obtain ⟨other, hother, rfl, hsupply⟩ := hsupplies info hinfo m hm
  refine mem_before_of_pair_sublist hnodup ?_ hsplit
  rw [List.flatMap_def]
  by_cases hdeps : info.deps = other.deps
  · -- in one stack
    obtain ⟨s, hs, -, hmem, hbefore⟩ := hsupply.before_of_eq hdeps
    obtain ⟨front, back, hfront⟩ := List.append_of_mem hmem
    have hpair : [other.label, info.label].Sublist s.labels := by
      rw [hfront]
      exact List.Sublist.append (List.singleton_sublist.2 (hbefore front back hfront))
        (List.singleton_sublist.2 List.mem_cons_self)
    exact hpair.trans
      (List.sublist_flatten_of_mem (List.mem_map_of_mem (hperm.mem_iff.2 hs)))
  · -- in different stacks, the covered one is the earlier one
    obtain ⟨s, hs, hsdeps, hsmem⟩ := h.exists_stack hinfo
    obtain ⟨t, ht, htdeps, htmem⟩ := h.exists_stack hother
    obtain ⟨front, back, hfront⟩ := List.append_of_mem (hperm.mem_iff.2 hs)
    have ht' : t ∈ front := by
      have hin := hperm.mem_iff.2 ht
      rw [hfront] at hin
      rcases List.mem_append.1 hin with hin | hin
      · exact hin
      · rcases List.mem_cons.1 hin with rfl | hin
        · exact absurd (hsdeps.symm.trans htdeps) hdeps
        · rw [hfront] at hrespects
          have hnot := List.rel_of_pairwise_cons (List.pairwise_append.1 hrespects).2.1 hin
          rw [hsdeps, htdeps] at hnot
          exact absurd hsupply.covers hnot
    rw [hfront, List.map_append, List.flatten_append]
    refine List.Sublist.append (List.singleton_sublist.2 ?_) (List.singleton_sublist.2 ?_)
    · exact List.mem_flatten.2 ⟨t.labels, List.mem_map_of_mem ht', htmem⟩
    · exact List.mem_flatten.2 ⟨s.labels, by simp, hsmem⟩

end Emission

/-- The variables that occur in the content of a registered variable are available to it. -/
theorem Outcome.exists_supplies {settings : Settings} {g src : Graph} {i root : NodeId}
    {r : SplitResult} {infos placed : List RegisteredVariable}
    (h : Outcome settings g i r src root infos) (hok : settings.fault? = none)
    (hgiven : g.DirectionsGiven i) (hplaced : r.code.Groups placed)
    (hkeeps : ∀ other info : RegisteredVariable, [other, info].Sublist infos →
      info.deps = other.deps → r.graph.Reaches info.node other.node → [other, info].Sublist placed)
    {info : RegisteredVariable} (hmem : info ∈ placed) {m : Label}
    (hm : r.graph.Mentions (r.graph.content info.node) m) :
    ∃ other ∈ placed, other.label = m ∧ Supplies r other info := by
  obtain ⟨hinfo, -⟩ := h.get?_iff.1 (hplaced.get?_of_mem hmem)
  obtain ⟨other, hpair, rfl, hreach, hcovers⟩ := h.exists_earlier hok hgiven hinfo hm
  have hother := h.get?_iff.2 ⟨hpair.subset List.mem_cons_self, rfl⟩
  refine ⟨other, hplaced.mem hother, rfl, hcovers, fun hdeps => ?_⟩
  have hreach' : r.graph.Reaches info.node other.node :=
    Graph.Reaches.head (Graph.content_mem_operands (h.built.labels info hinfo)) hreach
  have hpair' := Stack.pair_sublist_ofInfos (hkeeps other info hpair hdeps hreach') hdeps
  have hs : Stack.ofInfos placed info.deps ∈ r.code.stacks := by
    rw [hplaced.stacks_eq]
    exact Stack.ofInfos_mem_group hmem
  refine ⟨_, hs, rfl, hpair'.subset (by simp), fun before after hsplit => ?_⟩
  refine mem_before_of_pair_sublist ?_ hpair' hsplit
  refine hplaced.nodup_order.sublist ?_
  rw [CodeStructure.order, List.flatMap_def]
  exact List.sublist_flatten_of_mem (List.mem_map_of_mem hs)

/-- Staged emission is sound. -/
theorem staged_emission_sound {settings : Settings} {g : Graph} {i : NodeId} {r : SplitResult}
    (h : split settings g i = .ok r) (hgiven : g.DirectionsGiven i) :
    (∀ l info m, r.code.get? l = some info → r.graph.Mentions (r.graph.content info.node) m →
      ∃ other, r.code.get? m = some other ∧ Supplies r other info) ∧
    ∀ ordered, ordered.Perm r.code.stacks → RespectsCovers ordered →
      DefinesBeforeUse r (ordered.flatMap Stack.labels) := by
  obtain ⟨src, root, infos, ho⟩ := outcome_of_split h
  have hok : settings.fault? = none := (split_eq_ok.1 h).1
  obtain ⟨placed, hplaced, hkeeps⟩ := ho.exists_placed hgiven
  constructor
  · intro l info m hget hm
    obtain ⟨other, hother, rfl, hsupplies⟩ :=
      ho.exists_supplies hok hgiven hplaced hkeeps (hplaced.mem hget) hm
    exact ⟨other, hplaced.get?_of_mem hother, hsupplies⟩
  · intro ordered hperm hrespects
    exact definesBeforeUse hplaced hperm hrespects fun info hinfo m hm =>
      ho.exists_supplies hok hgiven hplaced hkeeps hinfo hm

/-- A coefficient and a product that are variables of one label. -/
def sharedLabel : Graph :=
  .ofNodes [.argument ⟨0, []⟩, .coefficient ⟨0, none, []⟩, .product 0 1, .labelled 1 ⟨3⟩,
    .labelled 2 ⟨3⟩, .product 3 2, .sum 4 5]

/-- The stack of the coefficient may come first. -/
theorem staged_emission_sound_sharedLabel :
    ∃ r ordered, split (.ofForm (.ofExpression sharedLabel 6)) sharedLabel 6 = .ok r ∧
      sharedLabel.DirectionsGiven 6 ∧ ordered.Perm r.code.stacks ∧ RespectsCovers ordered ∧
      ordered.flatMap Stack.labels = [⟨6⟩, ⟨5⟩, ⟨3⟩, ⟨4⟩] ∧
      DefinesBeforeUse r [⟨6⟩, ⟨5⟩, ⟨3⟩, ⟨4⟩] := by
  have hok : (split (.ofForm (.ofExpression sharedLabel 6)) sharedLabel 6).isOk = true := by cbv
  obtain ⟨r, hr⟩ := Except.exists_eq_ok hok
  have hstacks : (split (.ofForm (.ofExpression sharedLabel 6)) sharedLabel 6).toOption.map
      (fun r => r.code.stacks) = some [⟨⟨false, true, [true]⟩, [⟨5⟩]⟩,
        ⟨⟨true, true, [false]⟩, [⟨6⟩]⟩, ⟨⟨true, true, [true]⟩, [⟨3⟩, ⟨4⟩]⟩] := by
    cbv
  simp only [hr, Except.toOption, Option.map_some, Option.some.injEq] at hstacks
  have hgiven : sharedLabel.DirectionsGiven 6 :=
    Graph.directionsGiven_of_all (by cbv) (by cbv)
  have hperm : [⟨⟨true, true, [false]⟩, [⟨6⟩]⟩, ⟨⟨false, true, [true]⟩, [⟨5⟩]⟩,
      ⟨⟨true, true, [true]⟩, [⟨3⟩, ⟨4⟩]⟩].Perm r.code.stacks := by
    rw [hstacks]
    exact List.Perm.swap _ _ _
  have hrespects : RespectsCovers [⟨⟨true, true, [false]⟩, [⟨6⟩]⟩,
      ⟨⟨false, true, [true]⟩, [⟨5⟩]⟩, ⟨⟨true, true, [true]⟩, [⟨3⟩, ⟨4⟩]⟩] := by
    rw [RespectsCovers]
    decide
  exact ⟨r, _, hr, hgiven, hperm, hrespects, rfl,
    (staged_emission_sound hr hgiven).2 _ hperm hrespects⟩

end FormStaging
