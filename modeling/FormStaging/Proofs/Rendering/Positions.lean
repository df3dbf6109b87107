import FormStaging.Proofs.Graph.Reachability
import FormStaging.Rendering.Layout

/-!
# Positions in the unfolded expression

A node that is shared occurs in the unfolded expression once for each way that leads to it. A
`Position` is such a way: the number of the operand taken at each step. `Position.follow next i p` is
the node at position `p` below node `i`, where `next` gives the operands to choose from. Over all
operands these are the occurrences of nodes in the unfolded expression. Over `Graph.shown` they are the
occurrences that are written out: the second operand of an indexing or of a derivative is not, so
nothing at it or below it is shown.

`Graph.shownAt` lists the positions at which a node is shown. They are exactly those
(`mem_shownAt_iff`), from left to right (`pairwise_shownAt`).
-/

set_option autoImplicit false

namespace FormStaging

/-- A way down an expression: which operand is taken at each step. Positions are compared from the
left, so that of two occurrences the one further to the left has the lesser position. -/
abbrev Position := List Nat

namespace Position

variable {next next' : NodeId → List NodeId} {i j k : NodeId} {p : Position}

/-- The node at a position. -/
def follow (next : NodeId → List NodeId) : NodeId → Position → Option NodeId
  | i, [] => some i
  | i, n :: p => (next i)[n]?.bind fun j => follow next j p

theorem follow_cons_eq_some {n : Nat} :
    follow next i (n :: p) = some k ↔ ∃ j, (next i)[n]? = some j ∧ follow next j p = some k := by
  rw [follow, Option.bind_eq_some_iff]

/-- A node is reached by following a position to it. -/
theorem exists_follow {g : Graph} (h : g.Reaches i j) : ∃ p, follow g.operands i p = some j := by
  induction h using Relation.ReflTransGen.head_induction_on with
  | refl => exact ⟨[], rfl⟩
  | head hstep _ ih =>
    obtain ⟨p, hp⟩ := ih
    obtain ⟨n, hn⟩ := List.getElem?_of_mem hstep
    exact ⟨n :: p, follow_cons_eq_some.2 ⟨_, hn, hp⟩⟩

theorem reaches_of_follow {g : Graph} (hnext : ∀ i, next i ⊆ g.operands i)
    (h : follow next i p = some j) : g.Reaches i j := by
  induction p generalizing i with
  | nil =>
    cases h
    exact Graph.Reaches.refl g _
  | cons n p ih =>
    obtain ⟨k, hk, hp⟩ := follow_cons_eq_some.1 h
    exact (ih hp).head (hnext i (List.mem_of_getElem? hk))

end Position

/-! ## Shown operands -/

namespace Node

variable {α : Type}

/-- The operands that are written out as nodes. -/
def shown : Node α → List α
  | indexed a _ | spatialDerivative a _ => [a]
  | n => n.operands

/-- The shown operands are those of the written form. -/
theorem filterMap_operand?_pieces (items : α → List IndexItem) (n : Node α) :
    (n.pieces .inline items).filterMap Piece.operand? = n.shown := by
  cases n with
  | listTensor parts =>
    simp [pieces, List.filterMap_cons, Piece.operand?, filterMap_operand?_commaSeparated, shown,
      operands]
  | _ => rfl

/-- Only operands at the end are not shown. -/
theorem shown_isPrefix (n : Node α) : n.shown <+: n.operands := by
  cases n <;> simp [shown, operands]

end Node

namespace Graph

variable {g : Graph} {i j root : NodeId} {p : Position} {target : Option NodeId}

/-- The operands of a node that are written out. -/
def shown (g : Graph) (i : NodeId) : List NodeId := (g.node i).shown

theorem shown_subset (g : Graph) (i : NodeId) : g.shown i ⊆ g.operands i :=
  (g.node i).shown_isPrefix.subset

theorem lt_of_mem_shown (h : j ∈ g.shown i) : j < i := lt_of_mem_operands (g.shown_subset i h)

/-- No node is shown strictly below itself. -/
theorem follow_cons_ne_self {n : Nat} : Position.follow g.shown i (n :: p) ≠ some i := by
  intro h
  obtain ⟨j, hj, hp⟩ := Position.follow_cons_eq_some.1 h
  have hlt := lt_of_mem_shown (List.mem_of_getElem? hj)
  exact absurd (Position.reaches_of_follow g.shown_subset hp).le (Nat.not_le_of_lt hlt)

/-! ## The list of positions -/

/-- The positions below `i` at which the target is shown. -/
def shownAt (g : Graph) (target : Option NodeId) (i : NodeId) : List Position :=
  (if target = some i then [[]] else []) ++
    ((g.shown i).attach.map fun j => g.shownAt target j.1).zipIdx.flatMap fun below =>
      below.1.map (below.2 :: ·)
termination_by i
decreasing_by exact lt_of_mem_shown j.2

theorem shownAt_eq (g : Graph) (target : Option NodeId) (i : NodeId) :
    g.shownAt target i = (if target = some i then [[]] else []) ++
      (g.shown i).zipIdx.flatMap fun operand =>
        (g.shownAt target operand.1).map (operand.2 :: ·) := by
  rw [shownAt, List.attach_map_val, List.zipIdx_map, List.flatMap_map]
  rfl

/-- The listed positions are those at which the target is shown. -/
theorem mem_shownAt_iff :
    p ∈ g.shownAt target i ↔ ∃ j ∈ Position.follow g.shown i p, target = some j := by
  induction p generalizing i with
  | nil =>
    rw [shownAt_eq]
    simp [Position.follow]
  | cons n p ih =>
    rw [shownAt_eq, List.mem_append, List.mem_flatMap]
    constructor
    · rintro (h | ⟨⟨j, m⟩, hj, hp⟩)
      · split at h <;> simp at h
      · obtain ⟨q, hq, hcons⟩ := List.mem_map.1 hp
        obtain ⟨rfl, rfl⟩ := List.cons.inj hcons
        obtain ⟨k, hk, htarget⟩ := ih.1 hq
        exact ⟨k, Position.follow_cons_eq_some.2 ⟨j, List.mem_zipIdx_iff_getElem?.1 hj, hk⟩, htarget⟩
    · rintro ⟨k, hk, htarget⟩
      obtain ⟨j, hj, hp⟩ := Position.follow_cons_eq_some.1 hk
      refine Or.inr ⟨(j, n), List.mem_zipIdx_iff_getElem?.2 hj, List.mem_map.2 ⟨p, ?_, rfl⟩⟩
      exact ih.2 ⟨k, hp, htarget⟩

/-- A node has no position below itself. -/
theorem flatMap_shownAt_self (g : Graph) (i : NodeId) :
    ((g.shown i).zipIdx.flatMap fun operand =>
      (g.shownAt (some i) operand.1).map (operand.2 :: ·)) = [] := by
  refine List.eq_nil_iff_forall_not_mem.2 fun p hp => ?_
  obtain ⟨⟨j, n⟩, hj, hp⟩ := List.mem_flatMap.1 hp
  obtain ⟨q, hq, rfl⟩ := List.mem_map.1 hp
  obtain ⟨k, hk, hik⟩ := mem_shownAt_iff.1 hq
  obtain rfl : i = k := Option.some.inj hik
  exact follow_cons_ne_self
    (Position.follow_cons_eq_some.2 ⟨j, List.mem_zipIdx_iff_getElem?.1 hj, hk⟩)

/-- The positions are listed from left to right. -/
theorem pairwise_shownAt (g : Graph) (target : Option NodeId) :
    ∀ i, (g.shownAt target i).Pairwise (· < ·) := by
  refine g.induction fun i ih => ?_
  rw [shownAt_eq, List.pairwise_append]
  refine ⟨by split <;> simp, ?_, ?_⟩
  · rw [List.pairwise_flatMap]
    constructor
    · rintro ⟨j, n⟩ hj
      have hmem := List.mem_of_getElem? (List.mem_zipIdx_iff_getElem?.1 hj)
      rw [List.pairwise_map]
      exact (ih j (g.shown_subset i hmem)).imp fun h => List.cons_lt_cons_iff.2 (Or.inr ⟨rfl, h⟩)
    · -- the operands are numbered in order
      have hnumbers : ((g.shown i).zipIdx.map Prod.snd).Pairwise (· < ·) := by
        rw [List.zipIdx_map_snd]
        exact List.pairwise_lt_range'
      refine (List.pairwise_map.1 hnumbers).imp fun {a b} h p hp q hq => ?_
      obtain ⟨p', -, rfl⟩ := List.mem_map.1 hp
      obtain ⟨q', -, rfl⟩ := List.mem_map.1 hq
      exact List.cons_lt_cons_iff.2 (Or.inl h)
  · intro p hp q hq
    obtain ⟨operand, -, hq⟩ := List.mem_flatMap.1 hq
    obtain ⟨q', -, rfl⟩ := List.mem_map.1 hq
    split at hp
    · rw [List.mem_singleton.1 hp]
      exact List.nil_lt_cons _ _
    · exact absurd hp List.not_mem_nil

end Graph

end FormStaging
