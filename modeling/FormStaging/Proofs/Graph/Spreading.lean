import FormStaging.Proofs.Graph.Occurrences
import FormStaging.Proofs.Staging.Transport
import Mathlib.Data.List.Nodup

/-!
# Spreading an expression

The term of an expression does not say how much of it is shared. `Graph.Spreads` says that terms are
written down in a graph such that nothing but chosen leaves is shared: any other node is new and occurs
once. Every term can be written in this way, whatever leaves are chosen (`Graph.exists_spreads`). What
does not depend on sharing can be read off these ways of writing it.
-/

set_option autoImplicit false

namespace FormStaging.Graph

variable {base g g' g'' : Graph} {j k : NodeId} {leaf? : Term → Option NodeId} {t : Term}
  {n : Node Term} {ts ts' : List Term} {ks ks' : List NodeId}

/-- Leaves of the graph are chosen for some terms. -/
def ChoosesLeaves (g : Graph) (leaf? : Term → Option NodeId) : Prop :=
  ∀ t k, leaf? t = some k → k ∈ g ∧ g.unfold k = t ∧ g.operands k = []

/-- The terms are written down as the nodes `ks` of the graph `g'`, which extends `g`, and nothing but
chosen leaves is shared. -/
structure Spreads (leaf? : Term → Option NodeId) (g : Graph) (ts : List Term) (g' : Graph)
    (ks : List NodeId) : Prop where
  grow : g.Extends g'
  mem : ∀ k ∈ ks, k ∈ g'
  map_unfold : ks.map g'.unfold = ts
  /-- A node is the leaf that is chosen for its term, or there is none and the node is new. -/
  chosen_or_new : ∀ j ∈ ks.flatMap g'.occurrences, leaf? (g'.unfold j) = some j ∨
    leaf? (g'.unfold j) = none ∧ j ∉ g
  /-- A new node occurs once. -/
  nodup : ((ks.flatMap g'.occurrences).filter fun j => (leaf? (g'.unfold j)).isNone).Nodup

namespace Spreads

theorem nil (leaf? : Term → Option NodeId) (g : Graph) : Spreads leaf? g [] g [] :=
  ⟨Extends.refl g, by simp, rfl, by simp, by simp⟩

/-- What occurs belongs to the graph, also after more nodes are added. -/
theorem mem_of_mem_occurrences (h : Spreads leaf? g ts g' ks) (hgrow : g'.Extends g'')
    (hj : j ∈ ks.flatMap g''.occurrences) : j ∈ g' := by
  obtain ⟨k, hk, hj⟩ := List.mem_flatMap.1 hj
  rw [hgrow.occurrences_eq k (h.mem k hk), mem_occurrences_iff] at hj
  exact hj.mem (h.mem k hk)

/-- Adding more nodes changes nothing. -/
theorem extend (h : Spreads leaf? g ts g' ks) (hgrow : g'.Extends g'') :
    Spreads leaf? g ts g'' ks := by
  have hunfold : ∀ j ∈ g', g''.unfold j = g'.unfold j := hgrow.unfold_eq
  have hoccur : ks.flatMap g''.occurrences = ks.flatMap g'.occurrences :=
    List.flatMap_congr fun k hk => hgrow.occurrences_eq k (h.mem k hk)
  have hold : ∀ j ∈ ks.flatMap g'.occurrences, j ∈ g' :=
    fun _ hj => h.mem_of_mem_occurrences (Extends.refl g') hj
  refine ⟨h.grow.trans hgrow, fun k hk => hgrow.mem (h.mem k hk), ?_, ?_, ?_⟩
  · rw [List.map_congr_left fun k hk => hunfold k (h.mem k hk), h.map_unfold]
  · intro j hj
    rw [hoccur] at hj
    rw [hunfold j (hold j hj)]
    exact h.chosen_or_new j hj
  · rw [hoccur, List.filter_congr fun j hj => by rw [hunfold j (hold j hj)]]
    exact h.nodup

/-- Terms can be written down one after the other. -/
theorem append (h : Spreads leaf? g ts g' ks) (h' : Spreads leaf? g' ts' g'' ks') :
    Spreads leaf? g (ts ++ ts') g'' (ks ++ ks') := by
  have hfirst := h.extend h'.grow
  refine ⟨hfirst.grow, List.forall_mem_append.2 ⟨hfirst.mem, h'.mem⟩, ?_, ?_, ?_⟩
  · rw [List.map_append, hfirst.map_unfold, h'.map_unfold]
  · intro j hj
    rw [List.flatMap_append] at hj
    rcases List.mem_append.1 hj with hj | hj
    · exact hfirst.chosen_or_new j hj
    · exact (h'.chosen_or_new j hj).imp_right fun ⟨hnone, hnew⟩ =>
        ⟨hnone, fun hj => hnew (h.grow.mem hj)⟩
  · rw [List.flatMap_append, List.filter_append]
    refine List.nodup_append.2 ⟨hfirst.nodup, h'.nodup, ?_⟩
    -- what is new in the second part does not belong to the graph after the first
    rintro a ha b hb rfl
    obtain ⟨ha, -⟩ := List.mem_filter.1 ha
    obtain ⟨hb, hnone⟩ := List.mem_filter.1 hb
    rcases h'.chosen_or_new a hb with hsome | ⟨-, hnew⟩
    · simp [hsome] at hnone
    · exact hnew (h.mem_of_mem_occurrences h'.grow ha)

/-- A term that a leaf is chosen for is written down already. -/
theorem chosen (hleaf : base.ChoosesLeaves leaf?) (hgrow : base.Extends g)
    (hk : leaf? t = some k) : Spreads leaf? g [t] g [k] := by
  obtain ⟨hmem, hunfold, hops⟩ := hleaf t k hk
  have hterm : g.unfold k = t := (hgrow.unfold_eq k hmem).trans hunfold
  have hoccur : g.occurrences k = [k] := by
    rw [Graph.occurrences_eq, hgrow.operands_eq hmem, hops]
    rfl
  refine ⟨Extends.refl g, ?_, ?_, ?_, ?_⟩ <;> simp [hoccur, hterm, hk, hgrow.mem hmem]

/-- A layer is put over its operands. -/
theorem layer (h : Spreads leaf? g n.operands g' ks) (hnone : leaf? (.mk n) = none) :
    ∃ g'' k, Spreads leaf? g [.mk n] g'' [k] := by
  have hlength : n.operands.length = ks.length := by rw [← h.map_unfold, List.length_map]
  obtain ⟨m, hm⟩ := Option.isSome_iff_exists.1 ((n.withOperands?_isSome ks).2 hlength)
  obtain ⟨hops, -⟩ := Node.withOperands?_eq_some hm
  have hmem : ∀ j ∈ m.operands, j ∈ g' := hops ▸ h.mem
  have hgrow : g'.Extends (g'.push m hmem) := Extends.push g' m hmem
  have hbelow := h.extend hgrow
  have hnode : (g'.push m hmem).node g'.size = m := node_push_size m hmem
  have hterm : (g'.push m hmem).unfold g'.size = .mk n := by
    have hmap : m.map (g'.push m hmem).unfold = n.map fun t => t :=
      Node.map_eq_of_withOperands? hm (by rw [hbelow.map_unfold, List.map_id'])
    rw [Graph.unfold_eq, hnode, hmap, Node.map_id]
  have hoccur : [g'.size].flatMap (g'.push m hmem).occurrences =
      ks.flatMap (g'.push m hmem).occurrences ++ [g'.size] := by
    rw [List.flatMap_singleton, Graph.occurrences_eq, operands, hnode, hops]
  have hnew : g'.size ∉ g' := Nat.lt_irrefl _
  refine ⟨g'.push m hmem, g'.size, hbelow.grow, ?_, by rw [List.map_singleton, hterm], ?_, ?_⟩
  · simp [mem_iff]
  · intro j hj
    rw [hoccur] at hj
    rcases List.mem_append.1 hj with hj | hj
    · exact hbelow.chosen_or_new j hj
    · obtain rfl := List.mem_singleton.1 hj
      exact Or.inr ⟨by rw [hterm, hnone], fun hj => hnew (h.grow.mem hj)⟩
  · rw [hoccur, List.filter_append]
    refine List.nodup_append.2 ⟨hbelow.nodup, (List.nodup_singleton _).filter _, ?_⟩
    rintro a ha b hb rfl
    obtain rfl := List.mem_singleton.1 (List.mem_of_mem_filter hb)
    exact hnew (h.mem_of_mem_occurrences hgrow (List.mem_of_mem_filter ha))

end Spreads

/-- Every term can be written down so that nothing but chosen leaves is shared. -/
theorem exists_spreads (hleaf : base.ChoosesLeaves leaf?) (t : Term) :
    ∀ g, base.Extends g → ∃ g' k, Spreads leaf? g [t] g' [k] := by
  induction t using Term.induction with
  | layer n ih =>
  intro g hgrow
  cases hk : leaf? (.mk n) with
  | some k => exact ⟨g, k, .chosen hleaf hgrow hk⟩
  | none =>
    have hops : ∀ ts : List Term, (∀ t ∈ ts, t ∈ n.operands) → ∀ g, base.Extends g →
        ∃ g' ks, Spreads leaf? g ts g' ks := by
      intro ts hts g hgrow
      induction ts generalizing g with
      | nil => exact ⟨g, [], .nil leaf? g⟩
      | cons t ts ihts =>
        obtain ⟨ht, hts⟩ := List.forall_mem_cons.1 hts
        obtain ⟨g', k, hfirst⟩ := ih t ht g hgrow
        obtain ⟨g'', ks, hrest⟩ := ihts hts g' (hgrow.trans hfirst.grow)
        exact ⟨g'', k :: ks, hfirst.append hrest⟩
    obtain ⟨g', ks, hspreads⟩ := hops n.operands (fun _ h => h) g hgrow
    exact hspreads.layer hk

end FormStaging.Graph
