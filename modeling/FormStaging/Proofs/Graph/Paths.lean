import FormStaging.Proofs.Staging.Failures
import Mathlib.Data.List.Chain

/-!
# The paths of an expression

A path is a way along which staging goes down in an expression. It starts at the content of a variable,
taken from the first node with its label, or at the expression itself if this is no variable and so
gets one around it. It goes on from node to operand, enters no variable and keeps out of the
directions of a derivative.

The paths of an expression are those of the variable around it (`Wraps.isPath_iff`), and a chain of
nested nodes at a start is a path (`IsPath.exists_of_nests`).
-/

set_option autoImplicit false

namespace FormStaging

namespace Graph

variable {g g' : Graph} {i j k c : NodeId} {path : List NodeId} {length : Nat}

/-- The staging of expression `i` starts at a node. -/
inductive StartsAt (g : Graph) (i : NodeId) : NodeId → Prop where
  | content {v c : NodeId} {l : Label} (hv : g.firstVariable? i l = some v)
      (hc : g.node v = .labelled c l) : StartsAt g i c
  | whole (h : g.label? i = none) : StartsAt g i i

/-- A sequence of nodes starts where the staging of expression `i` does, and each node is entered from
the one before. -/
structure IsPath (g : Graph) (i : NodeId) (path : List NodeId) : Prop where
  starts : ∃ c ∈ path.head?, g.StartsAt i c
  enters : path.IsChain fun j k => k ∈ g.entered j

theorem StartsAt.reaches (h : g.StartsAt i c) (hi : i ∈ g) : g.Reaches i c := by
  cases h with
  | content hv hc =>
    exact (reaches_of_firstVariable? hi hv).tail (by simp [operands_of_labelled hc])
  | whole => exact Reaches.refl g i

namespace IsPath

theorem start (h : g.StartsAt i c) : g.IsPath i [c] := ⟨⟨c, rfl, h⟩, .singleton c⟩

/-- A path goes on to what is entered from its last node. -/
theorem concat (h : g.IsPath i path) (hj : j ∈ path.getLast?) (hk : k ∈ g.entered j) :
    g.IsPath i (path ++ [k]) := by
  obtain ⟨c, hc, hstart⟩ := h.starts
  refine ⟨⟨c, ?_, hstart⟩, h.enters.append (.singleton k) fun x hx y hy => ?_⟩
  · rw [List.head?_append, hc]
    rfl
  · cases hj.symm.trans hx
    cases hy
    exact hk

/-- What is true of every start and kept by entering a node is true of all nodes on a path. -/
theorem forall_mem {P : NodeId → Prop} (h : g.IsPath i path) (hstart : ∀ c, g.StartsAt i c → P c)
    (henter : ∀ j k, k ∈ g.entered j → P j → P k) : ∀ j ∈ path, P j := by
  obtain ⟨c, hc, hc'⟩ := h.starts
  refine List.IsChain.induction P path h.enters (fun j k hk => henter j k hk) fun hne => ?_
  rw [List.head?_eq_some_head hne] at hc
  cases hc
  exact hstart _ hc'

theorem reaches (h : g.IsPath i path) (hi : i ∈ g) : ∀ j ∈ path, g.Reaches i j :=
  h.forall_mem (fun _ hc => hc.reaches hi) fun j _ hk hj => hj.tail (entered_subset g j hk)

/-- A chain of nested nodes at a start is a path. -/
theorem exists_of_nests (hc : g.StartsAt i c) (h : g.Nests c length) :
    ∃ path, g.IsPath i path ∧ path.length = length := by
  have hchain : ∃ rest, (c :: rest).IsChain (fun j k => k ∈ g.entered j) ∧
      (c :: rest).length = length := by
    clear hc
    induction h with
    | one c => exact ⟨[], .singleton c, rfl⟩
    | @under c j length hj _ ih =>
      obtain ⟨rest, hrest, rfl⟩ := ih
      exact ⟨j :: rest, .cons_cons hj hrest, rfl⟩
  obtain ⟨rest, hrest, hlength⟩ := hchain
  exact ⟨c :: rest, ⟨⟨c, rfl, hc⟩, hrest⟩, hlength⟩

end IsPath

end Graph

/-! ## The variable around an expression -/

namespace Wraps

variable {g src : Graph} {i root c : NodeId} {path : List NodeId}

/-- Staging the variable around an expression starts where staging the expression does. -/
theorem startsAt_iff (h : Wraps g i src root) : src.StartsAt root c ↔ g.StartsAt i c := by
  obtain ⟨m, hm⟩ := h.exists_label
  constructor
  · intro hc
    cases hc with
    | whole hnone =>
      rw [hm] at hnone
      cases hnone
    | @content v _ l hv hc =>
      have hreach := Graph.reaches_of_firstVariable? h.root_mem hv
      by_cases hroot : v = root ∧ root ≠ i
      · -- the new variable
        obtain ⟨rfl, hne⟩ := hroot
        have hcontent := h.content_root hne
        rw [Graph.content_eq hc] at hcontent
        subst hcontent
        cases h with
        | itself => exact absurd rfl hne
        | wrapper hl => exact .whole hl
      · have hgv : g.Reaches i v := by
          rcases h.eq_or_reaches hreach with rfl | hgv
          · rw [not_and_not_right] at hroot
            obtain rfl := hroot rfl
            exact Graph.Reaches.refl g _
          · exact hgv
        have hvg := hgv.mem h.mem
        rw [h.grows.node_eq v hvg] at hc
        obtain ⟨w, hw⟩ := Graph.exists_firstVariable? h.mem hgv (Graph.label?_of_labelled hc)
        obtain rfl : w = v := Option.some.inj ((h.firstVariable?_eq hw).symm.trans hv)
        exact .content hw hc
  · intro hc
    cases hc with
    | content hv hc =>
      have hvg := (Graph.reaches_of_firstVariable? h.mem hv).mem h.mem
      exact .content (h.firstVariable?_eq hv) (by rw [h.grows.node_eq _ hvg, hc])
    | whole hnone =>
      cases h with
      | itself hl =>
        rw [hnone] at hl
        cases hl
      | @wrapper l hl hfresh hn =>
        have hwraps := Wraps.wrapper hl hfresh hn
        have hne : g.size ≠ i := Nat.ne_of_gt (hn i (List.mem_singleton.2 rfl))
        have hnode := Graph.node_push_size (g := g) (.labelled i l) hn
        have hlabel := Graph.label?_of_labelled hnode
        obtain ⟨v, hv⟩ := Graph.exists_firstVariable? hwraps.root_mem (Graph.Reaches.refl _ _) hlabel
        have hreach := Graph.reaches_of_firstVariable? hwraps.root_mem hv
        obtain rfl := hwraps.eq_root_of_label? hne hlabel hreach (Graph.label?_of_firstVariable? hv)
        exact .content hv hnode

/-- The variable around an expression has the same paths. -/
theorem isPath_iff (h : Wraps g i src root) : src.IsPath root path ↔ g.IsPath i path := by
  have hentered : ∀ j ∈ path, g.Reaches i j → src.entered j = g.entered j :=
    fun j _ hj => h.grows.entered_eq (hj.mem h.mem)
  constructor
  · intro hpath
    have hreach : ∀ j ∈ path, g.Reaches i j := by
      refine (hpath.forall_mem (fun c hc => (h.startsAt_iff.1 hc).reaches h.mem) ?_)
      intro j k hk hj
      rw [h.grows.entered_eq (hj.mem h.mem)] at hk
      exact hj.tail (Graph.entered_subset g j hk)
    obtain ⟨c, hc, hstart⟩ := hpath.starts
    refine ⟨⟨c, hc, h.startsAt_iff.1 hstart⟩, hpath.enters.imp_of_mem_imp fun j k hj _ hk => ?_⟩
    rwa [hentered j hj (hreach j hj)] at hk
  · intro hpath
    obtain ⟨c, hc, hstart⟩ := hpath.starts
    refine ⟨⟨c, hc, h.startsAt_iff.2 hstart⟩, hpath.enters.imp_of_mem_imp fun j k hj _ hk => ?_⟩
    rwa [hentered j hj (hpath.reaches h.mem j hj)]

end Wraps

end FormStaging
