import FormStaging.Graph.Walk
import FormStaging.Proofs.Graph.Reachability
import Mathlib.Data.List.Basic

/-!
# The post-order of an expression

`Graph.finish` is the walk by recursion: it skips a node that is finished, and otherwise finishes the
operands from left to right and then the node. `Graph.walk`, which keeps its pending steps on a list,
gives the same list (`postOrder_eq_finish`). The marks of the walk say which nodes were entered. A
node that was entered and is not finished waits for a node below it, so it has a larger number: up
to the node being entered, the marked nodes are exactly the finished ones. This is the invariant
`Agree`. In particular the operands that the walk leaves out are finished, and finishing them again
would change nothing.

The list holds every reachable node once (`mem_postOrder`, `nodup_postOrder`), operands before the
nodes that use them (`topological_postOrder`), the root last (`postOrder_eq_concat`). It does not
depend on what else the graph holds (`Extends.postOrder_eq`).
-/

set_option autoImplicit false

namespace FormStaging.Graph

variable {g g' : Graph} {i j k root : NodeId}

/-- Finishes a node after its operands, unless it is finished. -/
def finish (g : Graph) (done : List NodeId) (i : NodeId) : List NodeId :=
  if i ∈ done then done
  else ((g.operands i).attach.foldl (fun done j => g.finish done j.1) done) ++ [i]
termination_by i
decreasing_by exact lt_of_mem_operands j.2

theorem finish_of_mem {done : List NodeId} (h : i ∈ done) : g.finish done i = done := by
  rw [finish, if_pos h]

theorem finish_of_not_mem {done : List NodeId} (h : i ∉ done) :
    g.finish done i = (g.operands i).foldl g.finish done ++ [i] := by
  rw [finish, if_neg h]
  congr 1
  exact List.foldl_subtype (fun _ _ _ => rfl) |>.trans (by rw [List.unattach_attach])

theorem subset_finish (g : Graph) : ∀ i done, done ⊆ g.finish done i := by
  refine g.induction fun i ih done => ?_
  by_cases hi : i ∈ done
  · rw [finish_of_mem hi]
    exact List.Subset.refl done
  · rw [finish_of_not_mem hi]
    refine List.subset_append_of_subset_left _ ?_
    exact List.foldlRecOn (motive := fun l => done ⊆ l) (g.operands i) g.finish
      (List.Subset.refl done) fun l hl j hj => List.Subset.trans hl (ih j hj l)

/-- Finished nodes may be left out of a list of nodes to finish. -/
theorem foldl_finish_filter {is done : List NodeId} {p : NodeId → Bool}
    (h : ∀ i ∈ is, p i = false → i ∈ done) :
    (is.filter p).foldl g.finish done = is.foldl g.finish done := by
  induction is generalizing done with
  | nil => rfl
  | cons i is ih =>
    obtain ⟨hi, his⟩ := List.forall_mem_cons.1 h
    rw [List.foldl_cons]
    cases hp : p i with
    | true =>
      rw [List.filter_cons_of_pos hp, List.foldl_cons]
      exact ih fun j hj hpj => g.subset_finish i done (his j hj hpj)
    | false =>
      rw [List.filter_cons_of_neg (by simp [hp]), finish_of_mem (hi hp)]
      exact ih his

/-! ## The list of finished nodes -/

/-- Operands stand before the nodes that use them. -/
def Topological (g : Graph) (l : List NodeId) : Prop :=
  ∀ before i after, l = before ++ i :: after → ∀ j ∈ g.operands i, j ∈ before

theorem topological_nil (g : Graph) : g.Topological [] := by
  intro before i after h
  simp at h

/-- A node may follow its operands. -/
theorem Topological.concat {l : List NodeId} (h : g.Topological l)
    (hi : ∀ j ∈ g.operands i, j ∈ l) : g.Topological (l ++ [i]) := by
  intro before k after he j hj
  rcases List.eq_nil_or_concat after with rfl | ⟨after', a, rfl⟩
  · obtain ⟨rfl, hk⟩ := List.append_inj' he rfl
    obtain rfl : i = k := by simpa using hk
    exact hi j hj
  · have he' : l ++ [i] = (before ++ k :: after') ++ [a] := by simpa using he
    obtain ⟨hl, -⟩ := List.append_inj' he' rfl
    exact h before k after' hl j hj

theorem Topological.mem_of_mem_operands {l : List NodeId} (h : g.Topological l) (hi : i ∈ l)
    (hj : j ∈ g.operands i) : j ∈ l := by
  obtain ⟨before, after, rfl⟩ := List.append_of_mem hi
  exact List.mem_append_left _ (h before i after rfl j hj)

/-- What is below a listed node is listed. -/
theorem Topological.mem_of_reaches {l : List NodeId} (h : g.Topological l) (hi : i ∈ l)
    (hr : g.Reaches i j) : j ∈ l := by
  induction hr with
  | refl => exact hi
  | tail _ hstep ih => exact h.mem_of_mem_operands ih hstep

/-- What is below a listed node stands before it. -/
theorem Topological.mem_before {before after : List NodeId}
    (h : g.Topological (before ++ i :: after)) (hr : g.Reaches i j) (hne : j ≠ i) :
    j ∈ before := by
  have hbefore : g.Topological before := by
    intro b k a hb l hl
    exact h b k (a ++ i :: after) (by simp [hb]) l hl
  rcases hr.cases_head with rfl | ⟨k, hk, hkj⟩
  · exact absurd rfl hne
  · exact hbefore.mem_of_reaches (h before i after rfl k hk) hkj

/-- What finishing a node does to a list of finished nodes. -/
structure Finishes (g : Graph) (done : List NodeId) (reached : NodeId → Prop)
    (result : List NodeId) : Prop where
  mem_iff : ∀ j, j ∈ result ↔ j ∈ done ∨ reached j
  nodup : result.Nodup
  topological : g.Topological result

/-- Finishing nodes one after the other. -/
theorem finishes_foldl {is done : List NodeId} (hd : done.Nodup) (ht : g.Topological done)
    (ih : ∀ i ∈ is, ∀ done : List NodeId, done.Nodup → g.Topological done →
      Finishes g done (g.Reaches i) (g.finish done i)) :
    Finishes g done (fun j => ∃ i ∈ is, g.Reaches i j) (is.foldl g.finish done) := by
  induction is generalizing done with
  | nil => exact ⟨by simp, hd, ht⟩
  | cons i is ihl =>
    have first := ih i List.mem_cons_self done hd ht
    have rest := ihl first.nodup first.topological fun k hk => ih k (List.mem_cons_of_mem _ hk)
    refine ⟨fun j => ?_, rest.nodup, rest.topological⟩
    rw [List.foldl_cons, rest.mem_iff, first.mem_iff]
    simp only [List.mem_cons, exists_eq_or_imp, or_assoc]

theorem finishes (g : Graph) : ∀ i (done : List NodeId), done.Nodup → g.Topological done →
    Finishes g done (g.Reaches i) (g.finish done i) := by
  refine g.induction fun i ih done hd ht => ?_
  by_cases hi : i ∈ done
  · rw [finish_of_mem hi]
    refine ⟨fun j => ⟨Or.inl, ?_⟩, hd, ht⟩
    rintro (hj | hj)
    · exact hj
    · exact ht.mem_of_reaches hi hj
  · rw [finish_of_not_mem hi]
    have below := finishes_foldl hd ht ih
    -- only smaller numbers are added before `i`, so `i` is not listed twice
    have hnot : i ∉ (g.operands i).foldl g.finish done := by
      rw [below.mem_iff]
      rintro (h | ⟨k, hk, hki⟩)
      · exact hi h
      · exact absurd (hki.lt_of_operand hk) (Nat.lt_irrefl i)
    refine ⟨fun j => ?_, ?_, ?_⟩
    · rw [List.mem_append, below.mem_iff, List.mem_singleton, or_assoc, or_comm (b := j = i),
        ← reaches_iff]
    · refine List.nodup_append.2 ⟨below.nodup, by simp, ?_⟩
      intro a ha b hb hab
      rw [List.mem_singleton] at hb
      rw [hab, hb] at ha
      exact hnot ha
    · refine below.topological.concat fun j hj => ?_
      rw [below.mem_iff]
      exact Or.inr ⟨j, hj, Reaches.refl g j⟩

/-- Finishing a node depends on what is below it only. -/
theorem Extends.finish_eq (h : g.Extends g') :
    ∀ i, i ∈ g → ∀ done, g'.finish done i = g.finish done i := by
  refine g.induction fun i ih hi done => ?_
  by_cases hd : i ∈ done
  · rw [finish_of_mem hd, finish_of_mem hd]
  · rw [finish_of_not_mem hd, finish_of_not_mem hd, h.operands_eq hi]
    congr 1
    exact List.foldl_ext _ _ _ fun done j hj => ih j hj (mem_of_mem_operands hj hi) done

/-! ## The walk -/

/-- Below `bound`, the marked nodes are the listed ones. -/
structure Agree (bound : NodeId) (entered : Array Bool) (listed : List NodeId) : Prop where
  le_size : bound ≤ entered.size
  marked_iff : ∀ j < bound, entered[j]? = some true ↔ j ∈ listed

/-- The marks are kept from `bound` on. -/
structure KeepsFrom (bound : NodeId) (entered entered' : Array Bool) : Prop where
  size_eq : entered'.size = entered.size
  mark_eq : ∀ j, bound ≤ j → entered'[j]? = entered[j]?

theorem KeepsFrom.trans {bound : NodeId} {a b c : Array Bool} (h : KeepsFrom bound a b)
    (h' : KeepsFrom bound b c) : KeepsFrom bound a c :=
  ⟨h'.size_eq.trans h.size_eq, fun j hj => (h'.mark_eq j hj).trans (h.mark_eq j hj)⟩

/-- Only the node and what is below it are added by finishing a node. -/
theorem mem_finish_of_lt {done : List NodeId} (h : i < j) : j ∈ g.finish done i ↔ j ∈ done := by
  revert done
  refine g.induction (P := fun i => i < j → ∀ {done}, j ∈ g.finish done i ↔ j ∈ done) ?_ i h
  intro i ih hij done
  by_cases hd : i ∈ done
  · rw [finish_of_mem hd]
  · have hfold : j ∈ (g.operands i).foldl g.finish done ↔ j ∈ done :=
      List.foldlRecOn (motive := fun l => j ∈ l ↔ j ∈ done) (g.operands i) g.finish Iff.rfl
        fun l hl k hk => (ih k hk (Nat.lt_trans (lt_of_mem_operands hk) hij)).trans hl
    have hne : j ≠ i := Nat.ne_of_gt hij
    rw [finish_of_not_mem hd, List.mem_append, hfold, List.mem_singleton]
    exact or_iff_left hne

/-- What the walk does when it enters a node: it finishes the node, and marks what it lists. -/
def EntersLike (g : Graph) (i : NodeId) : Prop :=
  ∀ (rest : List WalkStep) (entered : Array Bool) (listed : Array NodeId),
    Agree (i + 1) entered listed.toList → ∃ entered', KeepsFrom (i + 1) entered entered' ∧
      Agree (i + 1) entered' (g.finish listed.toList i) ∧
      g.walk (.enter i :: rest) entered listed =
        g.walk rest entered' (g.finish listed.toList i).toArray

/-- The walk over nodes below `bound`, one after the other. -/
theorem walk_map_enter {bound : NodeId} (is : List NodeId) (hlt : ∀ i ∈ is, i < bound)
    (ih : ∀ i ∈ is, g.EntersLike i) (rest : List WalkStep) (entered : Array Bool)
    (listed : Array NodeId) (ha : Agree bound entered listed.toList) :
    ∃ entered', KeepsFrom bound entered entered' ∧
      Agree bound entered' (is.foldl g.finish listed.toList) ∧
      g.walk (is.map .enter ++ rest) entered listed =
        g.walk rest entered' (is.foldl g.finish listed.toList).toArray := by
  induction is generalizing entered listed with
  | nil => exact ⟨entered, ⟨rfl, fun _ _ => rfl⟩, ha, rfl⟩
  | cons i is ihl =>
    have hi : i + 1 ≤ bound := hlt i List.mem_cons_self
    have ha' : Agree (i + 1) entered listed.toList :=
      ⟨Nat.le_trans hi ha.le_size, fun j hj => ha.marked_iff j (Nat.lt_of_lt_of_le hj hi)⟩
    obtain ⟨entered₁, keeps₁, agree₁, walk₁⟩ :=
      ih i List.mem_cons_self (is.map .enter ++ rest) entered listed ha'
    -- finishing `i` neither marks nor lists the nodes between `i` and the bound
    have wide : Agree bound entered₁ (g.finish listed.toList i) := by
      refine ⟨by rw [keeps₁.size_eq]; exact ha.le_size, fun j hj => ?_⟩
      by_cases hji : j < i + 1
      · exact agree₁.marked_iff j hji
      · have hij : i + 1 ≤ j := Nat.le_of_not_lt hji
        rw [keeps₁.mark_eq j hij, ha.marked_iff j hj, mem_finish_of_lt hij]
    obtain ⟨entered₂, keeps₂, agree₂, walk₂⟩ :=
      ihl (fun k hk => hlt k (List.mem_cons_of_mem _ hk))
        (fun k hk => ih k (List.mem_cons_of_mem _ hk)) entered₁ (g.finish listed.toList i).toArray
        wide
    refine ⟨entered₂, ?_, agree₂, ?_⟩
    · refine KeepsFrom.trans ⟨keeps₁.size_eq, fun j hj => ?_⟩ keeps₂
      exact keeps₁.mark_eq j (Nat.le_trans hi hj)
    · rw [List.map_cons, List.cons_append, walk₁, walk₂]
      rfl

/-- Entering a node that is marked does nothing. -/
theorem walk_enter_marked {rest : List WalkStep} {entered : Array Bool} {listed : Array NodeId}
    (h : entered[i]? = some true) :
    g.walk (.enter i :: rest) entered listed = g.walk rest entered listed := by
  rw [walk, if_neg (by rw [h]; simp)]

/-- Entering a node that is not marked marks it and enters those of its operands that are not marked
then. -/
theorem walk_enter_unmarked {rest : List WalkStep} {entered : Array Bool} {listed : Array NodeId}
    (h : entered[i]? = some false) :
    g.walk (.enter i :: rest) entered listed =
      g.walk ((unmarked (entered.setIfInBounds i true) (g.operands i)).map .enter ++ .leave i :: rest)
        (entered.setIfInBounds i true) listed := by
  rw [walk, if_pos h]

/-- Operands that are marked are finished. -/
theorem Agree.foldl_unmarked {bound : NodeId} {entered : Array Bool} {listed is : List NodeId}
    (h : Agree bound entered listed) (his : ∀ i ∈ is, i < bound) :
    (unmarked entered is).foldl g.finish listed = is.foldl g.finish listed := by
  refine foldl_finish_filter fun i hi hmarked => (h.marked_iff i (his i hi)).1 ?_
  have hsize : i < entered.size := Nat.lt_of_lt_of_le (his i hi) h.le_size
  rw [Array.getElem?_eq_getElem hsize] at hmarked ⊢
  simpa using hmarked

/-- The walk finishes nodes. -/
theorem entersLike (g : Graph) : ∀ i, g.EntersLike i := by
  refine g.induction fun i ih rest entered listed ha => ?_
  by_cases hi : i ∈ listed.toList
  · refine ⟨entered, ⟨rfl, fun _ _ => rfl⟩, ?_, ?_⟩
    · rw [finish_of_mem hi]
      exact ha
    · rw [walk_enter_marked ((ha.marked_iff i (Nat.lt_succ_self i)).2 hi), finish_of_mem hi]
  · have hsize : i < entered.size := ha.le_size
    have hunmarked : entered[i]? = some false := by
      have hne : entered[i]? ≠ some true := fun h => hi ((ha.marked_iff i (Nat.lt_succ_self i)).1 h)
      rw [Array.getElem?_eq_getElem hsize] at hne ⊢
      cases hv : entered[i] with
      | true => rw [hv] at hne; exact absurd rfl hne
      | false => rfl
    -- marking the node leaves the marks below it as they were
    have hbelow : Agree i (entered.setIfInBounds i true) listed.toList := by
      refine ⟨by rw [Array.size_setIfInBounds]; exact Nat.le_of_lt hsize, fun j hj => ?_⟩
      rw [Array.getElem?_setIfInBounds_ne (Nat.ne_of_gt hj)]
      exact ha.marked_iff j (Nat.lt_succ_of_lt hj)
    have hlt : ∀ j ∈ g.operands i, j < i := fun j hj => lt_of_mem_operands hj
    have hsub : unmarked (entered.setIfInBounds i true) (g.operands i) ⊆ g.operands i :=
      List.filter_subset_self _
    obtain ⟨entered', keeps, agree, hwalk⟩ :=
      walk_map_enter (unmarked (entered.setIfInBounds i true) (g.operands i))
        (fun j hj => hlt j (hsub hj)) (fun j hj => ih j (hsub hj)) (.leave i :: rest) _ listed hbelow
    rw [hbelow.foldl_unmarked hlt] at agree hwalk
    rw [finish_of_not_mem hi]
    -- at `i` itself the mark was set here, and the node is listed when it is left
    refine ⟨entered', ⟨?_, ?_⟩, ⟨?_, ?_⟩, ?_⟩
    · rw [keeps.size_eq, Array.size_setIfInBounds]
    · intro j hj
      rw [keeps.mark_eq j (Nat.le_of_succ_le hj),
        Array.getElem?_setIfInBounds_ne (Nat.ne_of_lt hj)]
    · rw [keeps.size_eq, Array.size_setIfInBounds]
      exact ha.le_size
    · intro j hj
      rcases Nat.lt_or_eq_of_le (Nat.le_of_lt_succ hj) with hlt | rfl
      · rw [agree.marked_iff j hlt, List.mem_append, List.mem_singleton]
        exact (or_iff_left (Nat.ne_of_lt hlt)).symm
      · rw [keeps.mark_eq j (Nat.le_refl j), Array.getElem?_setIfInBounds_self_of_lt hsize]
        simp
    · rw [walk_enter_unmarked hunmarked, hwalk, walk]
      simp

/-! ## The post-order -/

/-- The post-order is the recursive walk. -/
theorem postOrder_eq_finish (h : root ∈ g) : g.postOrder root = g.finish [] root := by
  have ha : Agree (root + 1) (Array.replicate g.size false) (#[] : Array NodeId).toList := by
    refine ⟨by rw [Array.size_replicate]; exact h, fun j hj => ?_⟩
    have hjs : j < g.size := Nat.lt_of_lt_of_le hj h
    simp [hjs]
  obtain ⟨entered', -, -, hwalk⟩ := g.entersLike root [] _ _ ha
  rw [postOrder, hwalk, walk]

theorem postOrder_finishes (h : root ∈ g) : Finishes g [] (g.Reaches root) (g.postOrder root) := by
  rw [postOrder_eq_finish h]
  exact g.finishes root [] List.nodup_nil (topological_nil g)

/-- The post-order lists what is reachable. -/
theorem mem_postOrder (h : root ∈ g) : j ∈ g.postOrder root ↔ g.Reaches root j := by
  rw [(postOrder_finishes h).mem_iff]
  simp

theorem nodup_postOrder (h : root ∈ g) : (g.postOrder root).Nodup := (postOrder_finishes h).nodup

theorem topological_postOrder (h : root ∈ g) : g.Topological (g.postOrder root) :=
  (postOrder_finishes h).topological

/-- The root comes last. -/
theorem postOrder_eq_concat (h : root ∈ g) :
    g.postOrder root = (g.operands root).foldl g.finish [] ++ [root] := by
  rw [postOrder_eq_finish h, finish_of_not_mem List.not_mem_nil]

theorem postOrder_of_operands_eq (h : root ∈ g) (hi : g.operands root = [i]) :
    g.postOrder root = g.postOrder i ++ [root] := by
  have hmem : i ∈ g := mem_of_mem_operands (by simp [hi]) h
  rw [postOrder_eq_concat h, hi, List.foldl_cons, List.foldl_nil, postOrder_eq_finish hmem]

/-- The post-order does not depend on what else the graph holds. -/
theorem Extends.postOrder_eq (h : g.Extends g') (hr : root ∈ g) :
    g'.postOrder root = g.postOrder root := by
  rw [postOrder_eq_finish hr, postOrder_eq_finish (h.mem hr), h.finish_eq root hr]

/-- An operand has fewer nodes below it. -/
theorem length_postOrder_lt (hi : i ∈ g) (hj : j ∈ g.operands i) :
    (g.postOrder j).length < (g.postOrder i).length := by
  have hjg : j ∈ g := mem_of_mem_operands hj hi
  have hsub : i :: g.postOrder j ⊆ g.postOrder i := by
    intro k hk
    rw [mem_postOrder hi]
    rcases List.mem_cons.1 hk with rfl | hk
    · exact Reaches.refl g k
    · exact Reaches.head hj ((mem_postOrder hjg).1 hk)
  have hnodup : (i :: g.postOrder j).Nodup := by
    refine List.nodup_cons.2 ⟨fun h => ?_, nodup_postOrder hjg⟩
    exact absurd (((mem_postOrder hjg).1 h).lt_of_operand hj) (Nat.lt_irrefl i)
  exact List.Nodup.length_le_of_subset hnodup hsub

/-- A node has no fewer nodes below it than what it reaches. -/
theorem length_postOrder_le (hi : i ∈ g) (hr : g.Reaches i j) :
    (g.postOrder j).length ≤ (g.postOrder i).length := by
  induction hr with
  | refl => exact Nat.le_refl _
  | tail hr hstep ih =>
    have hlt := length_postOrder_lt (Reaches.mem hr hi) hstep
    omega

end FormStaging.Graph
