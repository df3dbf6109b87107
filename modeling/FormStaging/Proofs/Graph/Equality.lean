import FormStaging.Graph.Equality
import FormStaging.Graph.Unfold
import Std.Data.HashMap.Lemmas
import Mathlib.Logic.Function.Basic

/-!
# Structural equality decides equality of terms

A numbering gives all nodes with one term the same representative, and a representative has the term
of the nodes that it stands for. `Numbers g k ν` says so of the first `k` nodes of a graph, and of
the layers that were met among them; adding the next node keeps it (`Numbers.add`). So two nodes are
structurally equal exactly if they unfold to one term (`Graph.equal_iff`).
-/

set_option autoImplicit false

namespace FormStaging

variable {g : Graph} {i j k : NodeId} {ν : Numbering} {layer : Node NodeId}

namespace Numbering

@[simp] theorem representative_push_of_lt {first : Std.HashMap (Node NodeId) NodeId}
    (h : i < ν.representatives.size) :
    Numbering.representative ⟨ν.representatives.push k, first⟩ i = ν.representative i := by
  simp [representative, Array.getElem_push_lt, h, Nat.lt_succ_of_lt h]

@[simp] theorem representative_push_size {first : Std.HashMap (Node NodeId) NodeId} :
    Numbering.representative ⟨ν.representatives.push k, first⟩ ν.representatives.size = k := by
  simp [representative]

end Numbering

/-- The first `k` nodes of a graph are numbered. -/
structure Numbers (g : Graph) (k : NodeId) (ν : Numbering) : Prop where
  size_eq : ν.representatives.size = k
  /-- The representative is found by the term. -/
  factors : ∃ f : Term → NodeId, ∀ i < k, ν.representative i = f (g.unfold i)
  unfold_eq : ∀ i < k, g.unfold (ν.representative i) = g.unfold i
  /-- What first showed a layer represents itself. -/
  first : ∀ (layer : Node NodeId) (i : NodeId), ν.first[layer]? = some i →
    i < k ∧ (g.node i).map ν.representative = layer ∧ ν.representative i = i
  /-- The layers of all these nodes were met. -/
  met : ∀ i < k, ν.first[(g.node i).map ν.representative]? = some (ν.representative i)

namespace Numbers

theorem empty (g : Graph) : Numbers g 0 {} := by
  refine ⟨rfl, ⟨fun _ => 0, fun i hi => absurd hi (Nat.not_lt_zero i)⟩,
    fun i hi => absurd hi (Nat.not_lt_zero i), fun layer i h => ?_,
    fun i hi => absurd hi (Nat.not_lt_zero i)⟩
  simp at h

/-- Nodes with one layer over representatives have one term. -/
theorem unfold_eq_of_layer (h : Numbers g k ν) (hi : i ≤ k) (hj : j ≤ k)
    (hlayer : (g.node i).map ν.representative = (g.node j).map ν.representative) :
    g.unfold i = g.unfold j := by
  have hterms : ∀ m ≤ k, ((g.node m).map ν.representative).map g.unfold =
      (g.node m).map g.unfold := by
    intro m hm
    rw [Node.map_map]
    refine Node.map_congr fun o ho => h.unfold_eq o ?_
    exact Nat.lt_of_lt_of_le (Graph.lt_of_mem_operands ho) hm
  rw [Graph.unfold_eq, Graph.unfold_eq, ← hterms i hi, ← hterms j hj, hlayer]

/-- Nodes with one term have one layer over representatives. -/
theorem layer_eq_of_unfold (h : Numbers g k ν) (hi : i ≤ k) (hj : j ≤ k)
    (hunfold : g.unfold i = g.unfold j) :
    (g.node i).map ν.representative = (g.node j).map ν.representative := by
  obtain ⟨f, hf⟩ := h.factors
  have hlayers : ∀ m ≤ k, (g.node m).map ν.representative = ((g.node m).map g.unfold).map f := by
    intro m hm
    rw [Node.map_map]
    refine Node.map_congr fun o ho => hf o ?_
    exact Nat.lt_of_lt_of_le (Graph.lt_of_mem_operands ho) hm
  rw [Graph.unfold_eq, Graph.unfold_eq, Term.mk.injEq] at hunfold
  rw [hlayers i hi, hlayers j hj, hunfold]

/-- Representatives of operands stay when a node is numbered. -/
theorem map_push (h : Numbers g k ν) {first : Std.HashMap (Node NodeId) NodeId} {m : NodeId}
    (hi : i ≤ k) : (g.node i).map (Numbering.representative ⟨ν.representatives.push m, first⟩) =
      (g.node i).map ν.representative := by
  refine Node.map_congr fun o ho => Numbering.representative_push_of_lt ?_
  rw [h.size_eq]
  exact Nat.lt_of_lt_of_le (Graph.lt_of_mem_operands ho) hi

/-- The next node gets representative `m`. The table of layers shows it, and shows what it showed. -/
theorem push {first : Std.HashMap (Node NodeId) NodeId} {m : NodeId} {f : Term → NodeId}
    (h : Numbers g k ν) (hf : ∀ i < k, ν.representative i = f (g.unfold i))
    (hm : m = f (g.unfold k)) (hunfold : g.unfold m = g.unfold k)
    (hfirst : ∀ (layer : Node NodeId) (i : NodeId), first[layer]? = some i → ν.first[layer]? = some i ∨
      (i = k ∧ m = k ∧ (g.node k).map ν.representative = layer))
    (hmet : ∀ (layer : Node NodeId) (i : NodeId), ν.first[layer]? = some i → first[layer]? = some i)
    (hmet' : first[(g.node k).map ν.representative]? = some m) :
    Numbers g (k + 1) ⟨ν.representatives.push m, first⟩ := by
  have hold : ∀ i < k, Numbering.representative ⟨ν.representatives.push m, first⟩ i =
      ν.representative i :=
    fun i hi => Numbering.representative_push_of_lt (h.size_eq.symm ▸ hi)
  have hnew : Numbering.representative ⟨ν.representatives.push m, first⟩ k = m := by
    rw [← h.size_eq, Numbering.representative_push_size]
  refine ⟨by rw [Array.size_push, h.size_eq], ⟨f, ?_⟩, ?_, fun layer i hi => ?_, ?_⟩
  · rw [Nat.forall_lt_succ_right, hnew]
    exact ⟨fun i hi => by rw [hold i hi, hf i hi], hm⟩
  · rw [Nat.forall_lt_succ_right, hnew]
    exact ⟨fun i hi => by rw [hold i hi, h.unfold_eq i hi], hunfold⟩
  · rcases hfirst layer i hi with hi | ⟨rfl, hself, hlayer⟩
    · obtain ⟨hlt, hlayer, hself⟩ := h.first layer i hi
      exact ⟨Nat.lt_succ_of_lt hlt, by rw [h.map_push (Nat.le_of_lt hlt), hlayer],
        by rw [hold i hlt, hself]⟩
    · exact ⟨Nat.lt_succ_self i, by rw [h.map_push (Nat.le_refl i), hlayer], hnew.trans hself⟩
  · rw [Nat.forall_lt_succ_right, hnew, h.map_push (Nat.le_refl k)]
    refine ⟨fun i hi => ?_, hmet'⟩
    rw [h.map_push (Nat.le_of_lt hi), hold i hi]
    exact hmet _ _ (h.met i hi)

/-- The next node is numbered. A layer that was met gives its representative, and a new one makes
the node the representative of its term. -/
theorem add (h : Numbers g k ν) : Numbers g (k + 1) (ν.add (g.node k)) := by
  obtain ⟨f, hf⟩ := h.factors
  rw [Numbering.add, h.size_eq]
  cases hmet : ν.first[(g.node k).map ν.representative]? with
  | some m =>
    obtain ⟨hm, hlayer, hself⟩ := h.first _ m hmet
    have hunfold : g.unfold m = g.unfold k :=
      h.unfold_eq_of_layer (Nat.le_of_lt hm) (Nat.le_refl k) hlayer
    have hfm : m = f (g.unfold k) := by rw [← hunfold, ← hf m hm, hself]
    exact h.push hf hfm hunfold (fun _ _ => Or.inl) (fun _ _ hi => hi) hmet
  | none =>
    classical
    -- no node before has the same term
    have hne : ∀ i < k, g.unfold i ≠ g.unfold k := by
      intro i hi hunfold
      have hi' := h.met i hi
      rw [h.layer_eq_of_unfold (Nat.le_of_lt hi) (Nat.le_refl k) hunfold, hmet] at hi'
      cases hi'
    have hfnew : ∀ i < k, ν.representative i = Function.update f (g.unfold k) k (g.unfold i) := by
      intro i hi
      rw [Function.update_of_ne (hne i hi), hf i hi]
    have hself : k = Function.update f (g.unfold k) k (g.unfold k) := by rw [Function.update_self]
    refine h.push hfnew hself rfl (fun layer i hi => ?_)
      (fun layer i hi => ?_) Std.HashMap.getElem?_insert_self
    · rw [Std.HashMap.getElem?_insert] at hi
      split at hi
      case isTrue hlayer => exact Or.inr ⟨(Option.some.inj hi).symm, rfl, eq_of_beq hlayer⟩
      case isFalse => exact Or.inl hi
    · rw [Std.HashMap.getElem?_insert, if_neg, hi]
      intro hlayer
      rw [← eq_of_beq hlayer, hmet] at hi
      cases hi

end Numbers

namespace Graph

/-- All nodes of a graph are numbered. -/
theorem numbers (g : Graph) : Numbers g g.size g.numbering := by
  refine Array.foldl_induction (motive := Numbers g) (.empty g) fun i ν h => ?_
  have hnode : g.entries[i].node = g.node i := by simp [node, Entry.at]
  rw [hnode]
  exact h.add

/-- Nodes are structurally equal exactly if they have one term. -/
theorem equal_iff (hi : i ∈ g) (hj : j ∈ g) : g.equal i j = true ↔ g.unfold i = g.unfold j := by
  obtain ⟨f, hf⟩ := g.numbers.factors
  rw [equal, Bool.or_eq_true, beq_iff_eq, beq_iff_eq]
  constructor
  · rintro (rfl | h)
    · rfl
    · rw [← g.numbers.unfold_eq i hi, h, g.numbers.unfold_eq j hj]
  · intro h
    exact Or.inr (by rw [hf i hi, hf j hj, h])

end Graph

end FormStaging
