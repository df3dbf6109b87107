import FormStaging.Graph.Indexing
import FormStaging.Proofs.FreeIndices

/-!
# Components of tensors and tensors of components

`index?` and `asTensor?` add a node with a multi-index of its own, and always give one
(`exists_index?`, `exists_asTensor?`). Their rules for shapes and free indices undo each other, since no
expression lists a free index twice (`Graph.nodup_free`): indices that become axes come back when the
tensor is indexed with them, and axes that are indexed become axes again
(`indexing_inverts_tensors`).
-/

set_option autoImplicit false

namespace FormStaging

/-! ## Lists of indices -/

namespace Index

variable {l axes : List Index}

/-- Of a list without repeats nothing is contracted. -/
theorem uncontracted_eq_self (h : l.Nodup) : uncontracted l = l :=
  List.filter_eq_self.2 fun ix hix => by simp [List.count_eq_one_of_mem h hix]

/-- Indices that are left out and put at the end are those of the list. -/
theorem mem_filter_append_iff (haxes : axes ⊆ l) (ix : Index) :
    ix ∈ l.filter (· ∉ axes) ++ axes ↔ ix ∈ l := by
  rw [List.mem_append, List.mem_filter, decide_eq_true_eq]
  constructor
  · rintro (⟨h, -⟩ | h)
    · exact h
    · exact haxes h
  · intro h
    by_cases hix : ix ∈ axes
    · exact Or.inr hix
    · exact Or.inl ⟨h, hix⟩

theorem nodup_filter_append (h : l.Nodup) (haxes : axes.Nodup) :
    (l.filter (· ∉ axes) ++ axes).Nodup := by
  refine List.nodup_append.2 ⟨h.filter _, haxes, ?_⟩
  rintro a ha b hb rfl
  exact absurd hb (by simpa using (List.mem_filter.1 ha).2)

/-- Indices that are put at the end of a list without them can be left out again. -/
theorem filter_append_of_disjoint (haxes : ∀ ix ∈ axes, ix ∉ l) :
    (l ++ axes).filter (· ∉ axes) = l := by
  rw [List.filter_append, List.filter_eq_self.2 fun ix hix => by
    simpa using fun h => haxes ix h hix, List.filter_eq_nil_iff.2 fun ix hix => by simpa using hix,
    List.append_nil]

end Index

@[simp] theorem IndexItem.indices_map_free (l : List Index) :
    IndexItem.indices (l.map .free) = l := by
  rw [indices, List.filterMap_map]
  exact List.filterMap_some

/-! ## New nodes over a multi-index -/

namespace Graph

variable {g : Graph} {t e : NodeId}

/-- The layer is added over a multi-index with the given entries, to a graph that keeps its nodes. -/
theorem exists_addOver? (layer : NodeId → Node NodeId)
    (hlayer : ∀ ii, (layer ii).operands = [t, ii]) (ht : t ∈ g) (items : List IndexItem) :
    ∃ g' k ii, g.addOver? layer items = some (g', k) ∧ k ∈ g' ∧ g.Extends g' ∧
      g'.node k = layer ii ∧ g'.node ii = .multiIndex items := by
  have hleaf : ∀ j ∈ (Node.multiIndex items : Node NodeId).operands, j ∈ g :=
    fun j hj => absurd hj List.not_mem_nil
  have hmulti : g.push? (.multiIndex items) = some (g.push _ hleaf, g.size) :=
    push?_eq_some_iff.2 ⟨hleaf, rfl, rfl⟩
  have hgrow : g.Extends (g.push _ hleaf) := Extends.push g _ hleaf
  have hii : g.size ∈ g.push _ hleaf := by simp [mem_iff]
  have hops : ∀ j ∈ (layer g.size).operands, j ∈ g.push _ hleaf := by
    intro j hj
    rw [hlayer] at hj
    rcases List.mem_cons.1 hj with rfl | hj
    · exact hgrow.mem ht
    · obtain rfl := List.mem_singleton.1 hj
      exact hii
  refine ⟨(g.push _ hleaf).push _ hops, (g.push _ hleaf).size, g.size, ?_, by simp [mem_iff],
    hgrow.trans (Extends.push _ _ hops), node_push_size _ hops, ?_⟩
  · rw [addOver?, hmulti]
    exact push?_eq_some_iff.2 ⟨hops, rfl, rfl⟩
  · rw [node_push_of_mem _ hops hii, node_push_size]

theorem profile_of_multiIndex {items : List IndexItem} (h : g.node t = .multiIndex items) :
    g.profile t = ⟨[], Index.uncontracted (IndexItem.indices items), items⟩ := by
  rw [profile_eq, h]
  rfl

/-- Indexing drops the leading axes and adds the indices, contracting those that were free before. -/
theorem exists_index? (ht : t ∈ g) (items : List IndexItem) :
    ∃ g' k, g.index? t items = some (g', k) ∧ k ∈ g' ∧ g'.profile k =
      ⟨(g.profile t).shape.drop items.length,
        Index.uncontracted ((g.profile t).free ++ IndexItem.indices items), []⟩ := by
  obtain ⟨g', k, ii, hsome, hk, hgrow, hlayer, hitems⟩ :=
    exists_addOver? (.indexed t) (fun _ => rfl) ht items
  refine ⟨g', k, hsome, hk, ?_⟩
  rw [profile_eq, hlayer, Node.map, hgrow.profile_eq ht, profile_of_multiIndex hitems]
  rfl

/-- A tensor has its indices as axes, and they are free no more. -/
theorem exists_asTensor? (he : e ∈ g) (axes : List Index) :
    ∃ g' k, g.asTensor? e axes = some (g', k) ∧ k ∈ g' ∧ g'.profile k =
      ⟨axes.map Index.dim, (g.profile e).free.filter (· ∉ axes), []⟩ := by
  obtain ⟨g', k, ii, hsome, hk, hgrow, hlayer, hitems⟩ :=
    exists_addOver? (.componentTensor e) (fun _ => rfl) he (axes.map .free)
  refine ⟨g', k, hsome, hk, ?_⟩
  rw [profile_eq, hlayer, Node.map, hgrow.profile_eq he, profile_of_multiIndex hitems, Node.profile,
    Profile.indices, IndexItem.indices_map_free]

end Graph

/-! ## The theorem -/

/-- Building the tensor of `e` over the indices `ii` gives node `t` of `gt`, and indexing it with them
gives node `c` of `gc`. -/
structure TensorThenComponent (g : Graph) (e : NodeId) (ii : List Index) (gt : Graph) (t : NodeId)
    (gc : Graph) (c : NodeId) : Prop where
  asTensor?_eq : g.asTensor? e ii = some (gt, t)
  index?_eq : gt.index? t (ii.map .free) = some (gc, c)
  /-- The axes of the tensor are the indices. -/
  shape : (gt.profile t).shape = ii.map Index.dim
  /-- The other indices stay free, in their order. -/
  free : (gt.profile t).free = (g.profile e).free.filter (· ∉ ii)
  /-- The component is a scalar. -/
  rank : (gc.profile c).rank = 0
  /-- It has the free indices of `e`. -/
  mem_free_iff : ∀ ix, ix ∈ (gc.profile c).free ↔ ix ∈ (g.profile e).free

/-- Indexing `t` with the indices `ii` gives node `c` of `gc`, and building the tensor of it over them
gives node `s` of `gs`. -/
structure ComponentThenTensor (g : Graph) (t : NodeId) (ii : List Index) (gc : Graph) (c : NodeId)
    (gs : Graph) (s : NodeId) : Prop where
  index?_eq : g.index? t (ii.map .free) = some (gc, c)
  asTensor?_eq : gc.asTensor? c ii = some (gs, s)
  shape : (gs.profile s).shape = (g.profile t).shape
  /-- The free indices are the old ones, in the same order. -/
  free : (gs.profile s).free = (g.profile t).free

/-- Taking components and building tensors undo each other, as far as shapes and free indices go. The
first part is for distinct indices that are free in the component, whose own shape does not matter. The
second part is for distinct indices that are not free in the tensor and have its axes as dimensions. -/
theorem indexing_inverts_tensors {g : Graph} {e : NodeId} {ii : List Index} (he : e ∈ g)
    (hii : ii.Nodup) :
    ((∀ ix ∈ ii, ix ∈ (g.profile e).free) →
      ∃ gt t gc c, TensorThenComponent g e ii gt t gc c) ∧
    ((∀ ix ∈ ii, ix ∉ (g.profile e).free) → (g.profile e).shape = ii.map Index.dim →
      ∃ gc c gs s, ComponentThenTensor g e ii gc c gs s) := by
  have hnodup := g.nodup_free e
  constructor
  · intro hfree
    obtain ⟨gt, t, hasTensor, ht, hprofile⟩ := Graph.exists_asTensor? he ii
    obtain ⟨gc, c, hindex, -, hprofile'⟩ := Graph.exists_index? ht (ii.map .free)
    -- no index of the component occurs twice, so none is contracted
    rw [hprofile, IndexItem.indices_map_free,
      Index.uncontracted_eq_self (Index.nodup_filter_append hnodup hii)] at hprofile'
    refine ⟨gt, t, gc, c, hasTensor, hindex, by rw [hprofile], by rw [hprofile], ?_, fun ix => ?_⟩
    · simp [hprofile', Profile.rank]
    · rw [hprofile']
      exact Index.mem_filter_append_iff hfree ix
  · intro hfree hshape
    obtain ⟨gc, c, hindex, hc, hprofile⟩ := Graph.exists_index? he (ii.map .free)
    obtain ⟨gs, s, hasTensor, -, hprofile'⟩ := Graph.exists_asTensor? hc ii
    have hboth : ((g.profile e).free ++ ii).Nodup := by
      refine List.nodup_append.2 ⟨hnodup, hii, ?_⟩
      rintro a ha b hb rfl
      exact hfree a hb ha
    rw [hprofile, IndexItem.indices_map_free, Index.uncontracted_eq_self hboth,
      Index.filter_append_of_disjoint hfree] at hprofile'
    exact ⟨gc, c, gs, s, hindex, hasTensor, by rw [hprofile', hshape], by rw [hprofile']⟩

/-- A component of a matrix, and a row of it. -/
def componentAndRow : Graph :=
  .ofNodes [.coefficient ⟨0, some "K", [2, 3]⟩, .multiIndex [.free ⟨0, 2⟩, .free ⟨1, 3⟩],
    .indexed 0 1, .multiIndex [.free ⟨0, 2⟩], .indexed 0 3]

/-- The component is taken apart from its second index and put together, and the row the other way
round. -/
theorem indexing_inverts_tensors_componentAndRow :
    2 ∈ componentAndRow ∧ 4 ∈ componentAndRow ∧ [(⟨1, 3⟩ : Index)].Nodup ∧
      (componentAndRow.profile 2).rank = 0 ∧
      (componentAndRow.profile 2).free = [⟨0, 2⟩, ⟨1, 3⟩] ∧
      (∃ gt t gc c, TensorThenComponent componentAndRow 2 [⟨1, 3⟩] gt t gc c) ∧
      (componentAndRow.profile 4).free = [⟨0, 2⟩] ∧ (componentAndRow.profile 4).shape = [3] ∧
      ∃ gc c gs s, ComponentThenTensor componentAndRow 4 [⟨1, 3⟩] gc c gs s := by
  have hcomponent : 2 ∈ componentAndRow := by cbv
  have hrow : 4 ∈ componentAndRow := by cbv
  have hii : [(⟨1, 3⟩ : Index)].Nodup := List.nodup_singleton _
  have hfree : (componentAndRow.profile 2).free = [⟨0, 2⟩, ⟨1, 3⟩] := by cbv
  have hfree' : (componentAndRow.profile 4).free = [⟨0, 2⟩] := by cbv
  have hshape : (componentAndRow.profile 4).shape = [3] := by cbv
  exact ⟨hcomponent, hrow, hii, by cbv, hfree,
    (indexing_inverts_tensors hcomponent hii).1 (by simp [hfree]), hfree', hshape,
    (indexing_inverts_tensors hrow hii).2 (by simp [hfree']) (by simp [hshape])⟩

end FormStaging
