import FormStaging.Proofs.FreeIndices
import FormStaging.Proofs.Graph.Spreading
import FormStaging.Proofs.Sharing

/-!
# Index dimensions

The index dimensions of an expression are read off its multi-indices in the order of the walk, and the
dimension that is listed last with an identifier counts (`getElem?_indexDimensions`). The walk lists a
shared node where it first occurs. So sharing may change which multi-index comes last, but not which
ones there are.

An identifier is meant to have one dimension. Where an expression lists it with one dimension only, this
does not depend on sharing. Where it has several, the one that counts does not depend on sharing if a
multi-index that is new at its place is followed only by multi-indices that agree with it
(`SettlesDimension`), and only then: otherwise the expression can be written with other parts shared, so
that another dimension counts (`settles_iff`). All this is in `indexDimensions_of_term`. An expression
where the dimension depends on sharing is in `toList_indexDimensions_ne_twoDimensions`.
-/

set_option autoImplicit false

namespace FormStaging

/-! ## The last dimension in a list -/

/-- The dimension that a list of indices gives to an identifier: the last one counts. -/
def lastDimension? (l : List Index) (id : Nat) : Option Nat :=
  (l.reverse.find? fun ix => ix.id = id).map Index.dim

section LastDimension

variable {l : List Index} {ix : Index} {id d : Nat}

/-- The dimension is one that is listed with the identifier. -/
theorem mem_of_lastDimension? (h : lastDimension? l id = some d) : ⟨id, d⟩ ∈ l := by
  obtain ⟨ix, hfind, rfl⟩ := Option.map_eq_some_iff.1 h
  obtain rfl : ix.id = id := by simpa using List.find?_some hfind
  exact List.mem_reverse.1 (List.mem_of_find?_eq_some hfind)

/-- An identifier that is listed has a dimension. -/
theorem exists_lastDimension? (h : ix ∈ l) : ∃ d, lastDimension? l ix.id = some d := by
  have hsome : (l.reverse.find? fun ix' => ix'.id = ix.id).isSome :=
    List.find?_isSome.2 ⟨ix, List.mem_reverse.2 h, by simp⟩
  obtain ⟨ix', hfind⟩ := Option.isSome_iff_exists.1 hsome
  exact ⟨ix'.dim, by rw [lastDimension?, hfind, Option.map_some]⟩

theorem lastDimension?_append (l l' : List Index) (id : Nat) :
    lastDimension? (l ++ l') id = (lastDimension? l' id).or (lastDimension? l id) := by
  rw [lastDimension?, List.reverse_append, List.find?_append, Option.map_or, lastDimension?,
    lastDimension?]

/-- Of several lists the last one that has the identifier counts. -/
theorem lastDimension?_flatMap {α : Type} (h : α → List Index) (as : List α) (id : Nat) :
    lastDimension? (as.flatMap h) id = (as.filterMap fun a => lastDimension? (h a) id).getLast? := by
  induction as using List.reverseRecOn with
  | nil => rfl
  | append_singleton as a ih =>
    rw [List.flatMap_append, List.flatMap_singleton, lastDimension?_append, ih, List.filterMap_append]
    cases hd : lastDimension? (h a) id <;> simp [hd]

/-- A map that is filled in the order of a list gives what the list gives. -/
theorem getElem?_foldl_insert (l : List Index) (id : Nat) :
    (l.foldl (fun dims ix => dims.insert ix.id ix.dim) (∅ : Std.TreeMap Nat Nat))[id]? =
      lastDimension? l id := by
  -- from the end of the list, since later entries replace earlier ones
  induction l using List.reverseRecOn with
  | nil => rfl
  | append_singleton l ix ih =>
    rw [List.foldl_concat, Std.TreeMap.getElem?_insert, ih, lastDimension?_append]
    by_cases h : ix.id = id <;> simp [lastDimension?, h]

end LastDimension

/-- Repeats are left out, and the last value counts: it is that of an entry after which no new entry
has another one. -/
theorem getLast?_filterMap_eraseDups {α β : Type} [DecidableEq α] {f : α → Option β} {l : List α}
    {b : β} : (l.eraseDups.filterMap f).getLast? = some b ↔
      ∃ before a after, l = before ++ a :: after ∧ a ∉ before ∧ f a = some b ∧
        ∀ a' ∈ after, a' ∉ before → ∀ b', f a' = some b' → b' = b := by
  constructor
  · intro hlast
    induction l using List.reverseRecOn with
    | nil => cases hlast
    | append_singleton l x ih =>
      by_cases hx : x ∈ l
      · rw [eraseDups_append_of_subset (by simpa using hx)] at hlast
        obtain ⟨before, a, after, rfl, hnew, ha, hafter⟩ := ih hlast
        refine ⟨before, a, after ++ [x], by simp, hnew, ha, List.forall_mem_append.2 ⟨hafter, ?_⟩⟩
        refine List.forall_mem_singleton.2 fun hold b' hb' => ?_
        rcases List.mem_cons.1 ((List.mem_append.1 hx).resolve_left hold) with rfl | hx
        · exact Option.some.inj (hb'.symm.trans ha)
        · exact hafter x hx hold b' hb'
      · rw [eraseDups_concat_of_not_mem hx, List.filterMap_append] at hlast
        cases hfx : f x with
        | none =>
          obtain ⟨before, a, after, rfl, hnew, ha, hafter⟩ := ih (by simpa [hfx] using hlast)
          refine ⟨before, a, after ++ [x], by simp, hnew, ha,
            List.forall_mem_append.2 ⟨hafter, List.forall_mem_singleton.2 fun _ b' hb' => ?_⟩⟩
          rw [hfx] at hb'
          cases hb'
        | some c =>
          obtain rfl : c = b := by simpa [hfx] using hlast
          exact ⟨l, x, [], rfl, hx, hfx, by simp⟩
  · rintro ⟨before, a, after, rfl, hnew, ha, hafter⟩
    obtain ⟨rest, hrest, heq⟩ : ∃ rest, (∀ a' ∈ rest, a' ∈ after ∧ a' ∉ before) ∧
        (before ++ a :: after).eraseDups = before.eraseDups ++ a :: rest := by
      refine ⟨((after.removeAll before).filter fun a' => !a' == a).eraseDups, fun a' ha' => ?_, ?_⟩
      · rw [List.mem_eraseDups] at ha'
        simpa [List.removeAll] using List.mem_of_mem_filter ha'
      · rw [List.eraseDups_append, List.cons_removeAll, if_pos (by simpa using hnew),
          List.eraseDups_cons]
    have hall : ∀ b' ∈ rest.filterMap f, b' = b := by
      intro b' hb'
      obtain ⟨a', ha', hfa'⟩ := List.mem_filterMap.1 hb'
      exact hafter a' (hrest a' ha').1 (hrest a' ha').2 b' hfa'
    rw [heq, List.filterMap_append, List.filterMap_cons_some ha, List.eq_replicate_of_mem hall,
      ← List.replicate_succ, List.getLast?_append, List.getLast?_replicate]
    simp

/-! ## Multi-indices in the order of the walk -/

/-- The dimension that a multi-index gives to an identifier. -/
def Term.dimension? (t : Term) (id : Nat) : Option Nat :=
  lastDimension? (IndexItem.indices t.node.items) id

namespace Graph

variable {g g' : Graph} {i root root' : NodeId} {id d : Nat}

theorem items_unfold (g : Graph) (i : NodeId) : (g.unfold i).node.items = g.items i := by
  rw [node_unfold, Node.items_map, items]

theorem lists_of_dimension? (h : (g.unfold i).dimension? id = some d) : g.Lists i ⟨id, d⟩ := by
  rw [Term.dimension?, items_unfold] at h
  exact lists_iff.2 (mem_of_lastDimension? h)

theorem isSome_dimension?_iff :
    ((g.unfold i).dimension? id).isSome ↔ ∃ d, g.Lists i ⟨id, d⟩ := by
  rw [Option.isSome_iff_exists]
  constructor
  · rintro ⟨d, hd⟩
    exact ⟨d, lists_of_dimension? hd⟩
  · rintro ⟨d, hlists⟩
    rw [Term.dimension?, items_unfold]
    exact exists_lastDimension? (lists_iff.1 hlists)

/-- The multi-index that the walk meets last counts. -/
theorem getElem?_indexDimensions (g : Graph) (root : NodeId) (id : Nat) :
    (g.indexDimensions root)[id]? =
      ((g.postOrder root).filterMap fun i => (g.unfold i).dimension? id).getLast? := by
  simp only [Term.dimension?, items_unfold]
  rw [← lastDimension?_flatMap, ← getElem?_foldl_insert, List.foldl_flatMap, indexDimensions]

/-- The dimension of an identifier is one that it is listed with. -/
theorem exists_lists_of_getElem? (h : root ∈ g) (hd : (g.indexDimensions root)[id]? = some d) :
    ∃ m, g.Reaches root m ∧ g.Lists m ⟨id, d⟩ := by
  rw [getElem?_indexDimensions] at hd
  obtain ⟨m, hm, hdim⟩ := List.mem_filterMap.1 (List.mem_of_getLast? hd)
  exact ⟨m, (mem_postOrder h).1 hm, lists_of_dimension? hdim⟩

/-- The terms that occur in an expression, in post-order and with repeats. -/
def terms (g : Graph) (root : NodeId) : List Term := (g.occurrences root).map g.unfold

theorem mem_terms {t : Term} : t ∈ g.terms root ↔ ∃ i, g.Reaches root i ∧ g.unfold i = t := by
  simp only [terms, List.mem_map, mem_occurrences_iff]

/-- An identifier has a dimension if a multi-index gives it one. -/
theorem mem_indexDimensions_iff_terms (h : root ∈ g) :
    id ∈ g.indexDimensions root ↔ ∃ t ∈ g.terms root, (t.dimension? id).isSome := by
  rw [Std.TreeMap.mem_iff_isSome_getElem?, getElem?_indexDimensions, List.getLast?_isSome]
  constructor
  · intro hne
    obtain ⟨d, hd⟩ := List.exists_mem_of_ne_nil _ hne
    obtain ⟨i, hi, hdim⟩ := List.mem_filterMap.1 hd
    exact ⟨g.unfold i, mem_terms.2 ⟨i, (mem_postOrder h).1 hi, rfl⟩, by rw [hdim]; rfl⟩
  · rintro ⟨t, ht, hsome⟩
    obtain ⟨i, hi, rfl⟩ := mem_terms.1 ht
    obtain ⟨d, hdim⟩ := Option.isSome_iff_exists.1 hsome
    exact List.ne_nil_of_mem (List.mem_filterMap.2 ⟨i, (mem_postOrder h).2 hi, hdim⟩)

theorem mem_indexDimensions_iff (h : root ∈ g) :
    id ∈ g.indexDimensions root ↔ ∃ m d, g.Reaches root m ∧ g.Lists m ⟨id, d⟩ := by
  rw [mem_indexDimensions_iff_terms h]
  constructor
  · rintro ⟨t, ht, hsome⟩
    obtain ⟨m, hm, rfl⟩ := mem_terms.1 ht
    obtain ⟨d, hlists⟩ := isSome_dimension?_iff.1 hsome
    exact ⟨m, d, hm, hlists⟩
  · rintro ⟨m, d, hm, hlists⟩
    exact ⟨g.unfold m, mem_terms.2 ⟨m, hm, rfl⟩, isSome_dimension?_iff.2 ⟨d, hlists⟩⟩

end Graph

/-! ## Sharing -/

/-- A multi-index among the terms gives the dimension `d` to the identifier, did not occur before, and
is followed by no multi-index that gives it another one. -/
def SettlesDimension (terms : List Term) (id d : Nat) : Prop :=
  ∃ before t after, terms = before ++ t :: after ∧ t ∉ before ∧ t.dimension? id = some d ∧
    ∀ s ∈ after, ∀ e, s.dimension? id = some e → e = d

namespace Graph

variable {g g' : Graph} {i root root' : NodeId} {id d : Nat}

/-- The dimension of an identifier in the order of the occurrences. -/
theorem getElem?_indexDimensions_eq_some_iff (h : root ∈ g) :
    (g.indexDimensions root)[id]? = some d ↔
      ∃ before i after, g.occurrences root = before ++ i :: after ∧ i ∉ before ∧
        (g.unfold i).dimension? id = some d ∧
        ∀ j ∈ after, j ∉ before → ∀ e, (g.unfold j).dimension? id = some e → e = d := by
  rw [getElem?_indexDimensions, postOrder_eq_eraseDups_occurrences h, getLast?_filterMap_eraseDups]

/-- A dimension that is settled in the unfolded expression is the one of the identifier, whatever
is shared. -/
theorem getElem?_of_settles (h : root ∈ g) (hsettles : SettlesDimension (g.terms root) id d) :
    (g.indexDimensions root)[id]? = some d := by
  obtain ⟨before, t, after, hterms, hnew, ht, hafter⟩ := hsettles
  obtain ⟨nodes, rest, hoccur, rfl, hrest⟩ := List.map_eq_append_iff.1 hterms
  obtain ⟨i, later, rfl, rfl, rfl⟩ := List.map_eq_cons_iff.1 hrest
  -- the node of a new term is new itself, though the converse may fail
  refine (getElem?_indexDimensions_eq_some_iff h).2 ⟨nodes, i, later, hoccur,
    fun hi => hnew (List.mem_map_of_mem hi), ht, fun j hj _ e he => ?_⟩
  exact hafter _ (List.mem_map_of_mem hj) e he

/-! ## Sharing what gives one dimension -/

open scoped Classical in
/-- A multi-index of the graph with the given term, if it gives the dimension to the identifier. -/
noncomputable def givingLeaf? (g : Graph) (id d : Nat) (t : Term) : Option NodeId :=
  if h : ∃ k ∈ g, g.unfold k = t ∧ t.dimension? id = some d then some h.choose else none

theorem givingLeaf?_eq_some {t : Term} (h : g.givingLeaf? id d t = some i) :
    i ∈ g ∧ g.unfold i = t ∧ t.dimension? id = some d := by
  rw [givingLeaf?] at h
  split at h
  case isTrue hex =>
    obtain rfl := Option.some.inj h
    exact hex.choose_spec
  case isFalse => cases h

theorem givingLeaf?_ne_none (h : i ∈ g) (hd : (g.unfold i).dimension? id = some d) :
    g.givingLeaf? id d (g.unfold i) ≠ none := by
  rw [givingLeaf?, dif_pos ⟨i, h, rfl, hd⟩]
  exact Option.some_ne_none _

theorem choosesLeaves_givingLeaf? (g : Graph) (id d : Nat) :
    g.ChoosesLeaves (g.givingLeaf? id d) := by
  intro t k hk
  obtain ⟨hmem, rfl, hd⟩ := givingLeaf?_eq_some hk
  obtain ⟨items, hnode, -⟩ := lists_of_dimension? hd
  exact ⟨hmem, rfl, operands_of_multiIndex hnode⟩

/-- A dimension that counts whatever is shared is settled. -/
theorem settles_of_forall (h : root ∈ g) (hall : ∀ (g' : Graph) root', root' ∈ g' →
    g.unfold root = g'.unfold root' → (g'.indexDimensions root')[id]? = some d) :
    SettlesDimension (g.terms root) id d := by
  -- just the multi-indices that give the dimension are shared
  obtain ⟨g', root', hspread⟩ :=
    exists_spreads (choosesLeaves_givingLeaf? g id d) (g.unfold root) g (Extends.refl g)
  have hroot : root' ∈ g' := hspread.mem root' (List.mem_singleton_self root')
  have heq : g.unfold root = g'.unfold root' := by simpa using hspread.map_unfold.symm
  have hterms : g.terms root = g'.terms root' := map_unfold_occurrences g g' root root' heq
  have hoccur : [root'].flatMap g'.occurrences = g'.occurrences root' := List.flatMap_singleton ..
  have hchosen : ∀ j ∈ g'.occurrences root', (g'.unfold j).dimension? id = some d →
      g.givingLeaf? id d (g'.unfold j) = some j := by
    intro j hj hd
    have hmem : g'.unfold j ∈ g.terms root := hterms.symm ▸ List.mem_map_of_mem hj
    obtain ⟨i, hi, hterm⟩ := mem_terms.1 hmem
    rcases hspread.chosen_or_new j (hoccur ▸ hj) with hsome | ⟨hnone, -⟩
    · exact hsome
    · rw [← hterm] at hd hnone
      exact absurd hnone (givingLeaf?_ne_none (hi.mem h) hd)
  obtain ⟨before, j, after, hsplit, hnew, hj, hafter⟩ :=
    (getElem?_indexDimensions_eq_some_iff hroot).1 (hall g' root' hroot heq)
  refine ⟨before.map g'.unfold, g'.unfold j, after.map g'.unfold, ?_, ?_, hj, ?_⟩
  · rw [hterms, terms, hsplit, List.map_append, List.map_cons]
  · -- a node before with the same term would be the same node
    intro hold
    obtain ⟨k, hk, hterm⟩ := List.mem_map.1 hold
    have hkeep : g.givingLeaf? id d (g'.unfold j) = some k :=
      hterm ▸ hchosen k (by simp [hsplit, hk]) (hterm ▸ hj)
    rw [hchosen j (by simp [hsplit]) hj] at hkeep
    exact hnew (Option.some.inj hkeep ▸ hk)
  · -- a node after with another dimension is not shared, so it does not occur before
    intro s hs e he
    obtain ⟨k, hk, rfl⟩ := List.mem_map.1 hs
    rcases hspread.chosen_or_new k (by simp [hsplit, hk]) with hsome | ⟨hnone, -⟩
    · obtain ⟨-, -, hd⟩ := givingLeaf?_eq_some hsome
      exact Option.some.inj (he.symm.trans hd)
    · refine hafter k hk (fun hold => ?_) e he
      have hnodup := hspread.nodup
      rw [hoccur, hsplit, List.filter_append] at hnodup
      exact (List.nodup_append.1 hnodup).2.2 k (List.mem_filter.2 ⟨hold, by simp [hnone]⟩) k
        (List.mem_filter.2 ⟨List.mem_cons_of_mem j hk, by simp [hnone]⟩) rfl

/-- The dimensions that are settled are those that do not depend on sharing. -/
theorem settles_iff (h : root ∈ g) : SettlesDimension (g.terms root) id d ↔
    ∀ (g' : Graph) root', root' ∈ g' → g.unfold root = g'.unfold root' →
      (g'.indexDimensions root')[id]? = some d := by
  refine ⟨fun hsettles g' root' h' heq => getElem?_of_settles h' ?_, settles_of_forall h⟩
  have hterms : g.terms root = g'.terms root' := map_unfold_occurrences g g' root root' heq
  exact hterms ▸ hsettles

/-! ## Identifiers with one dimension -/

/-- The multi-indices of an expression list an identifier with one dimension only. -/
def FixesDimension (g : Graph) (root : NodeId) (id : Nat) : Prop :=
  ∀ m m' d d', g.Reaches root m → g.Reaches root m' → g.Lists m ⟨id, d⟩ → g.Lists m' ⟨id, d'⟩ →
    d = d'

/-- A dimension that is the only one is settled by the first multi-index that lists it. -/
theorem FixesDimension.exists_settles (h : root ∈ g) (hfixes : g.FixesDimension root id)
    (hid : id ∈ g.indexDimensions root) : ∃ d, SettlesDimension (g.terms root) id d := by
  have hsome : ((g.terms root).find? fun t => (t.dimension? id).isSome).isSome :=
    List.find?_isSome.2 ((mem_indexDimensions_iff_terms h).1 hid)
  obtain ⟨t, hfind⟩ := Option.isSome_iff_exists.1 hsome
  obtain ⟨ht, before, after, hterms, hbefore⟩ := List.find?_eq_some_iff_append.1 hfind
  obtain ⟨e, he⟩ := Option.isSome_iff_exists.1 ht
  -- it is new, since nothing before it lists the identifier
  refine ⟨e, before, t, after, hterms, fun hmem => ?_, he, fun s hs e' he' => ?_⟩
  · simpa [he] using hbefore t hmem
  · obtain ⟨j, hj, rfl⟩ := mem_terms.1 (hterms ▸ by simp : t ∈ g.terms root)
    obtain ⟨k, hk, rfl⟩ := mem_terms.1 (hterms ▸ by simp [hs] : s ∈ g.terms root)
    exact hfixes k j e' e hk hj (lists_of_dimension? he') (lists_of_dimension? he)

/-! ## The theorem -/

/-- The index dimensions of two expressions agree as far as they do not depend on sharing. -/
structure DimensionsAgree (g : Graph) (root : NodeId) (g' : Graph) (root' : NodeId) : Prop where
  /-- An identifier has a dimension if a multi-index of the expression lists it. -/
  mem_iff : ∀ id, id ∈ g.indexDimensions root ↔ ∃ m d, g.Reaches root m ∧ g.Lists m ⟨id, d⟩
  /-- The dimension of an identifier is one that it is listed with. -/
  listed : ∀ id d, (g.indexDimensions root)[id]? = some d →
    ∃ m, g.Reaches root m ∧ g.Lists m ⟨id, d⟩
  /-- The two expressions have dimensions for the same identifiers. -/
  mem_iff_mem : ∀ id, id ∈ g.indexDimensions root ↔ id ∈ g'.indexDimensions root'
  /-- The identifier has the dimension however the expression is shared, exactly if it is settled. -/
  settles_iff : ∀ id d, SettlesDimension (g.terms root) id d ↔
    ∀ (g'' : Graph) root'', root'' ∈ g'' → g.unfold root = g''.unfold root'' →
      (g''.indexDimensions root'')[id]? = some d
  /-- An identifier with one dimension only has the same one in both. -/
  fixed : ∀ id, g.FixesDimension root id →
    (g.indexDimensions root)[id]? = (g'.indexDimensions root')[id]?
  /-- The dimensions are equal if no identifier has several. -/
  toList_eq : (∀ id, g.FixesDimension root id) →
    (g.indexDimensions root).toList = (g'.indexDimensions root').toList

/-- Expressions that unfold to one term have the same index dimensions, where these do not depend on
sharing. -/
theorem indexDimensions_of_term (h : root ∈ g) (h' : root' ∈ g')
    (heq : g.unfold root = g'.unfold root') : DimensionsAgree g root g' root' := by
  have hterms : g.terms root = g'.terms root' := map_unfold_occurrences g g' root root' heq
  have hmem : ∀ id, id ∈ g.indexDimensions root ↔ id ∈ g'.indexDimensions root' := by
    intro id
    rw [mem_indexDimensions_iff_terms h, mem_indexDimensions_iff_terms h', hterms]
  have hfixed : ∀ id, g.FixesDimension root id →
      (g.indexDimensions root)[id]? = (g'.indexDimensions root')[id]? := by
    intro id hfixes
    by_cases hid : id ∈ g.indexDimensions root
    · obtain ⟨d, hsettles⟩ := hfixes.exists_settles h hid
      rw [getElem?_of_settles h hsettles, getElem?_of_settles h' (hterms ▸ hsettles)]
    · rw [Std.TreeMap.getElem?_eq_none hid,
        Std.TreeMap.getElem?_eq_none fun hid' => hid ((hmem id).2 hid')]
  refine ⟨fun id => mem_indexDimensions_iff h, fun id d hd => exists_lists_of_getElem? h hd, hmem,
    fun id d => Graph.settles_iff h, hfixed, fun hfixes => ?_⟩
  exact Std.TreeMap.equiv_iff_toList_eq.1
    (.of_forall_constGet?_eq fun id => hfixed id (hfixes id))

end Graph

/-! ## An identifier with two dimensions -/

/-- The nodes 2 and 7 are copies of `v_0[i_0]`, where `i_0` has the dimension 2; in node 5, which is
`v_1[i_0]`, it has the dimension 3. The products 9 and 10, and 12 and 14, differ in a copy only. -/
def twoDimensions : Graph :=
  .ofNodes [.argument ⟨0, [2]⟩, .multiIndex [.free ⟨0, 2⟩], .indexed 0 1, .argument ⟨1, [3]⟩,
    .multiIndex [.free ⟨0, 3⟩], .indexed 3 4, .multiIndex [.free ⟨0, 2⟩], .indexed 0 6, .product 2 5,
    .product 8 2, .product 8 7, .product 2 2, .product 11 5, .product 2 7, .product 13 5]

/-- In `v_0[i_0] * v_0[i_0] * v_1[i_0]` the multi-index of `v_1` is new and comes last. -/
theorem Graph.indexDimensions_of_term_twoDimensions :
    12 ∈ twoDimensions ∧ 14 ∈ twoDimensions ∧ twoDimensions.unfold 12 = twoDimensions.unfold 14 ∧
      Graph.DimensionsAgree twoDimensions 12 twoDimensions 14 ∧
      SettlesDimension (twoDimensions.terms 12) 0 3 ∧
      (twoDimensions.indexDimensions 12).toList = [(0, 3)] ∧
      (twoDimensions.indexDimensions 14).toList = [(0, 3)] := by
  have hmem : 12 ∈ twoDimensions := by cbv
  have hmem' : 14 ∈ twoDimensions := by cbv
  have heq : twoDimensions.unfold 12 = twoDimensions.unfold 14 := by cbv
  have hagree := Graph.indexDimensions_of_term hmem hmem' heq
  have hsettles : SettlesDimension (twoDimensions.terms 12) 0 3 := by
    -- the terms before the one of node 4 give `i_0` another dimension or none
    have hdims : ([0, 1, 2, 0, 1, 2, 11, 3].map fun i => (twoDimensions.unfold i).dimension? 0) =
      [none, some 2, none, none, some 2, none, none, none] := by cbv
    have hindexed : (twoDimensions.unfold 5).dimension? 0 = none := by cbv
    have hproduct : (twoDimensions.unfold 12).dimension? 0 = none := by cbv
    have hnew : (twoDimensions.unfold 4).dimension? 0 = some 3 := by cbv
    refine ⟨[0, 1, 2, 0, 1, 2, 11, 3].map twoDimensions.unfold, twoDimensions.unfold 4,
      [5, 12].map twoDimensions.unfold, by cbv, fun hold => ?_, hnew, by simp [hindexed, hproduct]⟩
    obtain ⟨i, hi, hterm⟩ := List.mem_map.1 hold
    have hmet : some 3 ∈ [0, 1, 2, 0, 1, 2, 11, 3].map fun i =>
        (twoDimensions.unfold i).dimension? 0 :=
      List.mem_map.2 ⟨i, hi, by rw [hterm, hnew]⟩
    simp [hdims] at hmet
  exact ⟨hmem, hmem', heq, hagree, hsettles, by cbv, by cbv⟩

/-- In `v_0[i_0] * v_1[i_0] * v_0[i_0]` the dimension depends on sharing: the multi-index of `v_0`
comes last if it is copied, and before the one of `v_1` if it is not. -/
theorem toList_indexDimensions_ne_twoDimensions :
    9 ∈ twoDimensions ∧ 10 ∈ twoDimensions ∧ twoDimensions.unfold 9 = twoDimensions.unfold 10 ∧
      (twoDimensions.indexDimensions 9).toList = [(0, 3)] ∧
      (twoDimensions.indexDimensions 10).toList = [(0, 2)] :=
  ⟨by cbv, by cbv, by cbv, by cbv, by cbv⟩

end FormStaging
