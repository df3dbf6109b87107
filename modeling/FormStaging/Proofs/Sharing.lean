import FormStaging.FormData
import FormStaging.Proofs.Graph.Occurrences
import FormStaging.Proofs.Graph.Variables
import FormStaging.Proofs.Staging.Outcome
import Mathlib.Data.List.Forall2
import Mathlib.Data.List.Nodup

/-!
# What is read off an expression does not depend on sharing

The variables, the arguments and the coefficients of an expression are first occurrences in its
post-order, which lists a shared node once. A list of first occurrences does not change when repeats are
put back (`firstPer_eraseDups`), so these lists can be read off the occurrences in the unfolded
expression (`variables_map_unfold`, `firstPer_filterMap_postOrder`). Nodes with one term have the same
occurrences up to equality of terms (`map_unfold_occurrences`). `extraction_topological_of_term` puts
this together with the order of the variables.
-/

set_option autoImplicit false

namespace FormStaging

/-! ## First occurrences -/

section FirstOccurrences

variable {α κ : Type} [DecidableEq κ] [Hashable κ]

/-- Repeats are never first. -/
theorem firstPer_eraseDups [DecidableEq α] (key : α → Option κ) (l : List α) :
    firstPer key l.eraseDups = firstPer key l := by
  induction l using List.reverseRecOn with
  | nil => rfl
  | append_singleton l a ih =>
    have hkeys : ∀ k, HasKey key l.eraseDups k ↔ HasKey key l k := by
      intro k
      refine exists_congr fun b => and_congr_left fun _ => List.mem_eraseDups
    by_cases ha : a ∈ l
    · rw [eraseDups_append_of_subset (by simpa using ha), ih]
      cases hk : key a with
      | none => exact (firstPer_concat_of_none hk).symm
      | some k => exact (firstPer_concat_of_hasKey hk ⟨a, ha, hk⟩).symm
    · rw [eraseDups_concat_of_not_mem ha]
      cases hk : key a with
      | none => rw [firstPer_concat_of_none hk, firstPer_concat_of_none hk, ih]
      | some k =>
        by_cases hmet : HasKey key l k
        · rw [firstPer_concat_of_hasKey hk ((hkeys k).2 hmet), firstPer_concat_of_hasKey hk hmet, ih]
        · rw [firstPer_concat_of_not_hasKey hk (fun h => hmet ((hkeys k).1 h)),
            firstPer_concat_of_not_hasKey hk hmet, ih]

end FirstOccurrences

/-- Lists with equal images give equal lists, if elements with equal images do. -/
theorem flatMap_eq_of_map_eq {α β γ δ : Type} {f : α → γ} {f' : β → γ} {h : α → List δ}
    {h' : β → List δ} {l : List α} {l' : List β} (heq : l.map f = l'.map f')
    (hh : ∀ a ∈ l, ∀ b, f a = f' b → h a = h' b) : l.flatMap h = l'.flatMap h' := by
  induction l generalizing l' with
  | nil =>
    rw [List.map_nil, eq_comm, List.map_eq_nil_iff] at heq
    rw [heq, List.flatMap_nil, List.flatMap_nil]
  | cons a l ih =>
    cases l' with
    | nil => cases heq
    | cons b l' =>
      rw [List.map_cons, List.map_cons, List.cons.injEq] at heq
      obtain ⟨ha, hl⟩ := List.forall_mem_cons.1 hh
      rw [List.flatMap_cons, List.flatMap_cons, ha b heq.1, ih heq.2 hl]

namespace Node

variable {α β : Type}

@[simp] theorem argument?_map (f : α → β) (n : Node α) : (n.map f).argument? = n.argument? := by
  cases n <;> rfl

@[simp] theorem coefficient?_map (f : α → β) (n : Node α) :
    (n.map f).coefficient? = n.coefficient? := by
  cases n <;> rfl

end Node

namespace Graph

variable {g g' : Graph} {i j root root' v : NodeId} {l m : Label}

/-! ## Reading the top layer of the term -/

theorem node_unfold (g : Graph) (i : NodeId) : (g.unfold i).node = (g.node i).map g.unfold := by
  rw [unfold_eq, Term.node]

theorem label?_unfold (g : Graph) (i : NodeId) : (g.unfold i).node.label? = g.label? i := by
  rw [node_unfold, Node.label?_map, label?]

theorem argument?_unfold (g : Graph) (i : NodeId) :
    (g.unfold i).node.argument? = (g.node i).argument? := by
  rw [node_unfold, Node.argument?_map]

theorem coefficient?_unfold (g : Graph) (i : NodeId) :
    (g.unfold i).node.coefficient? = (g.node i).coefficient? := by
  rw [node_unfold, Node.coefficient?_map]

/-- Operands of nodes with one term have the same terms. -/
theorem map_unfold_operands (h : g.unfold i = g'.unfold j) :
    (g.operands i).map g.unfold = (g'.operands j).map g'.unfold := by
  rw [operands, operands, ← Node.operands_map, ← Node.operands_map, ← node_unfold, ← node_unfold, h]

/-- Nodes with one term have the same occurrences, whatever is shared below them. -/
theorem map_unfold_occurrences (g g' : Graph) : ∀ i j, g.unfold i = g'.unfold j →
    (g.occurrences i).map g.unfold = (g'.occurrences j).map g'.unfold := by
  refine g.induction fun i ih j h => ?_
  rw [occurrences_eq, occurrences_eq, List.map_append, List.map_append, List.map_flatMap,
    List.map_flatMap, List.map_singleton, List.map_singleton, h,
    flatMap_eq_of_map_eq (map_unfold_operands h) ih]

/-! ## First occurrences in the unfolded expression -/

/-- The terms of the variables are the first of each label among the terms that occur. -/
theorem variables_map_unfold (h : root ∈ g) : (g.variables root).map g.unfold =
    firstPer (fun t : Term => t.node.label?) ((g.occurrences root).map g.unfold) := by
  rw [firstPer_map (fun t : Term => t.node.label?) fun i => (label?_unfold g i).symm,
    Graph.variables, postOrder_eq_eraseDups_occurrences h, firstPer_eraseDups]

/-- What is read off the layers of the post-order, the first of each key, is read off the terms that
occur. -/
theorem firstPer_filterMap_postOrder {α κ : Type} [DecidableEq κ] [Hashable κ] {key : α → Option κ}
    {f : NodeId → Option α} {f' : Node Term → Option α} (hf : ∀ i, f' (g.unfold i).node = f i)
    (h : root ∈ g) :
    firstPer key ((g.postOrder root).filterMap f) =
      firstPer key (((g.occurrences root).map g.unfold).filterMap fun t => f' t.node) := by
  rw [List.filterMap_map, postOrder_eq_eraseDups_occurrences h, firstPer_filterMap fun _ => rfl,
    firstPer_eraseDups, ← firstPer_filterMap fun _ => rfl]
  exact congrArg (fun f => firstPer key (List.filterMap f _)) (funext fun i => (hf i).symm)

/-! ## The extraction -/

/-- A list has one variable for each label of an expression, after those that it refers to. -/
structure ListsTopologically (g : Graph) (root : NodeId) (listed : List NodeId) : Prop where
  /-- A listed node is a variable of the expression. -/
  isVariable : ∀ v ∈ listed, g.Reaches root v ∧ ∃ l, g.label? v = some l
  /-- The label of each variable of the expression occurs exactly once. -/
  count_label : ∀ j l, g.Reaches root j → g.label? j = some l →
    (listed.filterMap g.label?).count l = 1
  /-- The entry for another label that is carried by a node below a listed one stands before it. -/
  entry_before : ∀ before v after l j m, listed = before ++ v :: after → g.label? v = some l →
    g.Reaches v j → g.label? j = some m → m ≠ l → ∃ w ∈ before, g.label? w = some m

theorem listsTopologically_variables (h : root ∈ g) :
    ListsTopologically g root (g.variables root) := by
  refine ⟨fun v hv => ?_, fun j l hj hl => ?_, fun before v after l j m hv hl hj hm hne => ?_⟩
  · obtain ⟨l, hl, hf⟩ := firstVariable?_of_mem_variables hv
    exact ⟨reaches_of_firstVariable? h hf, l, hl⟩
  · refine List.count_eq_one_of_mem (nodup_labels g root) ?_
    exact (mem_labels_iff h).2 ⟨j, hj, hl⟩
  · refine exists_mem_before h hv hj ?_ hm
    rintro rfl
    exact hne (Option.some.inj (hm.symm.trans hl))

/-- The variables and the form data of two expressions are the same. -/
structure ExtractsAlike (g : Graph) (root : NodeId) (g' : Graph) (root' : NodeId) : Prop where
  /-- The lists of variables have one length, and their entries are structurally equal in pairs. -/
  variables_eq : List.Forall₂ (fun v w => g.unfold v = g'.unfold w) (g.variables root)
    (g'.variables root')
  formData_eq : FormData.ofExpression g root = FormData.ofExpression g' root'

theorem extractsAlike_of_unfold_eq (h : root ∈ g) (h' : root' ∈ g')
    (heq : g.unfold root = g'.unfold root') : ExtractsAlike g root g' root' := by
  have hoccur := map_unfold_occurrences g g' root root' heq
  refine ⟨?_, ?_⟩
  · have hmap : (g.variables root).map g.unfold = (g'.variables root').map g'.unfold := by
      rw [variables_map_unfold h, variables_map_unfold h', hoccur]
    rwa [← List.forall₂_eq_eq_eq, List.forall₂_map_left_iff, List.forall₂_map_right_iff] at hmap
  · have harguments : g.arguments root = g'.arguments root' := by
      rw [arguments, arguments, firstPer_filterMap_postOrder (argument?_unfold g) h,
        firstPer_filterMap_postOrder (argument?_unfold g') h', hoccur]
    have hcoefficients : g.coefficients root = g'.coefficients root' := by
      rw [coefficients, coefficients, firstPer_filterMap_postOrder (coefficient?_unfold g) h,
        firstPer_filterMap_postOrder (coefficient?_unfold g') h', hoccur]
    rw [FormData.ofExpression, FormData.ofExpression, harguments, hcoefficients]

/-- The extraction of variables is topological, and it does not depend on sharing. The variables of
an expression are listed once per label and after those they refer to. Expressions that unfold to one
term, in one graph or in two, have the same variables, up to structural equality, and the same form
data. -/
theorem extraction_topological_of_term (h : root ∈ g) :
    ListsTopologically g root (g.variables root) ∧
      ∀ (g' : Graph) (root' : NodeId), root' ∈ g' → g.unfold root = g'.unfold root' →
        ExtractsAlike g root g' root' :=
  ⟨listsTopologically_variables h, fun _ _ h' heq => extractsAlike_of_unfold_eq h h' heq⟩

/-- A product of a variable with an argument, named twice in a row by sharing, and the variable's label
with another content. -/
def sharedVariable : Graph :=
  .ofNodes [.coefficient ⟨0, none, []⟩, .labelled 0 ⟨7⟩, .argument ⟨0, []⟩, .product 1 2,
    .labelled 3 ⟨9⟩, .sum 4 4, .labelled 2 ⟨7⟩, .sum 5 6]

/-- The same expression with every occurrence written out. -/
def copiedVariable : Graph :=
  .ofNodes [.coefficient ⟨0, none, []⟩, .labelled 0 ⟨7⟩, .argument ⟨0, []⟩, .product 1 2,
    .labelled 3 ⟨9⟩, .coefficient ⟨0, none, []⟩, .labelled 5 ⟨7⟩, .argument ⟨0, []⟩, .product 6 7,
    .labelled 8 ⟨9⟩, .sum 4 9, .argument ⟨0, []⟩, .labelled 11 ⟨7⟩, .sum 10 12]

/-- Both list the coefficient under its label, then the product. The argument under the label of the
coefficient is no entry. -/
theorem extraction_topological_of_term_copied :
    7 ∈ sharedVariable ∧ 13 ∈ copiedVariable ∧ sharedVariable.unfold 7 = copiedVariable.unfold 13 ∧
      ListsTopologically sharedVariable 7 (sharedVariable.variables 7) ∧
      sharedVariable.variables 7 = [1, 4] ∧
      ExtractsAlike sharedVariable 7 copiedVariable 13 := by
  have hmem : 7 ∈ sharedVariable := by cbv
  have hmem' : 13 ∈ copiedVariable := by cbv
  have heq : sharedVariable.unfold 7 = copiedVariable.unfold 13 := by cbv
  obtain ⟨htopological, halike⟩ := extraction_topological_of_term hmem
  exact ⟨hmem, hmem', heq, htopological, by cbv, halike copiedVariable 13 hmem' heq⟩

end Graph

end FormStaging
