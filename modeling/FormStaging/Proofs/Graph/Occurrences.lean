import FormStaging.Proofs.Graph.PostOrder
import FormStaging.Proofs.Repeats

/-!
# Occurrences in the unfolded expression

A node that is shared occurs in the unfolded expression once for each way that leads to it.
`Graph.occurrences g i` lists these occurrences in the post-order of the tree. The list can be
exponentially long, so no walk makes it; but it says where a node belongs. The recursive walk puts each
node at the place of its first occurrence (`finish_eraseDups`), and so does the walk with pending steps
(`postOrder_eq_eraseDups_occurrences`). All that is true of the list of this walk is put together in
`postOrder_walks_recursively`.
-/

set_option autoImplicit false

namespace FormStaging

namespace Graph

variable {g g' : Graph} {i j root : NodeId}

/-- The nodes of the unfolded expression in post-order, a shared node once for each occurrence. -/
def occurrences (g : Graph) (i : NodeId) : List NodeId :=
  (g.operands i).attach.flatMap (fun j => g.occurrences j.1) ++ [i]
termination_by i
decreasing_by exact lt_of_mem_operands j.2

theorem occurrences_eq (g : Graph) (i : NodeId) :
    g.occurrences i = (g.operands i).flatMap g.occurrences ++ [i] := by
  rw [occurrences, List.flatMap_def, List.flatMap_def, List.attach_map_val]

/-- What occurs is what is reached. -/
theorem mem_occurrences_iff (g : Graph) : ∀ i, j ∈ g.occurrences i ↔ g.Reaches i j := by
  refine g.induction fun i ih => ?_
  rw [occurrences_eq, List.mem_append, List.mem_flatMap, List.mem_singleton, reaches_iff, or_comm]
  exact or_congr_right (exists_congr fun k => and_congr_right fun hk => ih k hk)

/-- An old node has the occurrences that it had. -/
theorem Extends.occurrences_eq (h : g.Extends g') :
    ∀ i, i ∈ g → g'.occurrences i = g.occurrences i := by
  refine g.induction fun i ih hi => ?_
  rw [Graph.occurrences_eq, Graph.occurrences_eq, h.operands_eq hi]
  exact congrArg (· ++ [i]) (List.flatMap_congr fun j hj => ih j hj (mem_of_mem_operands hj hi))

/-! ## The recursive walk -/

/-- With a node its operands are in a list. -/
def ClosedList (g : Graph) (l : List NodeId) : Prop := ∀ i ∈ l, ∀ j ∈ g.operands i, j ∈ l

theorem ClosedList.mem_of_reaches {l : List NodeId} (h : g.ClosedList l) (hi : i ∈ l)
    (hr : g.Reaches i j) : j ∈ l := by
  induction hr with
  | refl => exact hi
  | tail _ hstep ih => exact h _ ih _ hstep

theorem ClosedList.append_occurrences {l : List NodeId} (h : g.ClosedList l) (i : NodeId) :
    g.ClosedList (l ++ g.occurrences i) := by
  intro j hj k hk
  rw [List.mem_append, mem_occurrences_iff] at hj ⊢
  exact hj.imp (fun hj => h j hj k hk) fun hj => hj.tail hk

/-- Finishing nodes one after the other puts each node at its first occurrence. -/
theorem foldl_finish_eraseDups {is : List NodeId}
    (ih : ∀ i ∈ is, ∀ l, g.ClosedList l → g.finish l.eraseDups i = (l ++ g.occurrences i).eraseDups)
    {l : List NodeId} (hl : g.ClosedList l) :
    is.foldl g.finish l.eraseDups = (l ++ is.flatMap g.occurrences).eraseDups := by
  induction is generalizing l with
  | nil => rw [List.foldl_nil, List.flatMap_nil, List.append_nil]
  | cons i is ihl =>
    obtain ⟨hi, his⟩ := List.forall_mem_cons.1 ih
    rw [List.foldl_cons, hi l hl, ihl his (hl.append_occurrences i), List.flatMap_cons,
      List.append_assoc]

/-- The recursive walk puts each node at its first occurrence. -/
theorem finish_eraseDups (g : Graph) : ∀ i l, g.ClosedList l →
    g.finish l.eraseDups i = (l ++ g.occurrences i).eraseDups := by
  refine g.induction fun i ih l hl => ?_
  by_cases hi : i ∈ l
  · -- all that is below a finished node is finished, so it occurs again here
    rw [finish_of_mem (List.mem_eraseDups.2 hi), eraseDups_append_of_subset]
    exact fun j hj => hl.mem_of_reaches hi ((mem_occurrences_iff g i).1 hj)
  · have hnew : i ∉ l ++ (g.operands i).flatMap g.occurrences := by
      rw [List.mem_append, not_or, List.mem_flatMap]
      refine ⟨hi, ?_⟩
      rintro ⟨k, hk, hik⟩
      exact absurd (((mem_occurrences_iff g k).1 hik).lt_of_operand hk) (Nat.lt_irrefl i)
    rw [finish_of_not_mem (fun h => hi (List.mem_eraseDups.1 h)), foldl_finish_eraseDups ih hl,
      occurrences_eq, ← List.append_assoc, eraseDups_concat_of_not_mem hnew]

/-! ## The walk with pending steps -/

/-- The post-order lists every node at its first occurrence. -/
theorem postOrder_eq_eraseDups_occurrences (h : root ∈ g) :
    g.postOrder root = (g.occurrences root).eraseDups := by
  have hnil : g.ClosedList [] := fun i hi => absurd hi List.not_mem_nil
  rw [postOrder_eq_finish h, ← List.eraseDups_nil, finish_eraseDups g root [] hnil, List.nil_append]

/-- A list is what the recursive walk of an expression gives: from left to right, operands first, and
each node once. -/
structure WalksRecursively (g : Graph) (root : NodeId) (l : List NodeId) : Prop where
  /-- It is the list of the recursion that skips a node that is finished. -/
  eq_finish : l = g.finish [] root
  /-- Each node stands at the place of its first occurrence in the unfolded expression. -/
  eq_first_occurrences : l = (g.occurrences root).eraseDups
  /-- Every node below the root is listed, and nothing else. -/
  mem_iff : ∀ j, j ∈ l ↔ g.Reaches root j
  /-- No node is listed twice. -/
  nodup : l.Nodup
  /-- The operands of a node stand before it. -/
  topological : g.Topological l
  /-- The root comes last. -/
  getLast?_eq : l.getLast? = some root

/-- The walk with pending steps is the recursive walk, whatever nodes the graph shares. -/
theorem postOrder_walks_recursively (h : root ∈ g) :
    WalksRecursively g root (g.postOrder root) := by
  refine ⟨postOrder_eq_finish h, postOrder_eq_eraseDups_occurrences h, fun j => mem_postOrder h,
    nodup_postOrder h, topological_postOrder h, ?_⟩
  rw [postOrder_eq_concat h, List.getLast?_concat]

/-- A tensor of the sum of a symbol and its double, the symbol, and the double. -/
def tripleOfSymbol : Graph :=
  (((((∅ : Graph).push (.symbol "x") (by decide)).push (.sum 0 0) (by decide)).push (.sum 0 1)
    (by decide)).push (.listTensor [2, 0, 1]) (by decide))

/-- The walk puts the symbol twice on its list of pending steps and enters it once. When it comes to the
double, both operands are marked. -/
theorem postOrder_walks_recursively_tripleOfSymbol :
    3 ∈ tripleOfSymbol ∧ WalksRecursively tripleOfSymbol 3 (tripleOfSymbol.postOrder 3) ∧
      tripleOfSymbol.occurrences 3 = [0, 0, 0, 1, 2, 0, 0, 0, 1, 3] ∧
      tripleOfSymbol.postOrder 3 = [0, 1, 2, 3] := by
  have hmem : 3 ∈ tripleOfSymbol := by decide
  exact ⟨hmem, postOrder_walks_recursively hmem, by cbv, by cbv⟩

end Graph

end FormStaging
