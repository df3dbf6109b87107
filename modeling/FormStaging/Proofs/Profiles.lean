import FormStaging.Proofs.Graph.Profile
import FormStaging.Proofs.Staging.Outcome

/-!
# Splitting keeps shapes and free indices

A staged node has the profile of the node that it stands for: shape, free indices in order, and the
entries of a multi-index (`Staging.Stands.profile_eq`). A rule of `Node.profile` may read the entries of
an operand, and a variable shows none. So it matters that an operand is replaced by a variable only
if it is worth a name, which no multi-index is (`Staging.Names.profile_eq`).

A label that stands for contents of different shapes would break this. The main statement,
`split_keeps_profiles`, is about expressions in which variables with one label are equal.
-/

set_option autoImplicit false

namespace FormStaging

/-- The variable around an expression shows what the expression shows, up to entries. -/
theorem Wraps.profile_root {g src : Graph} {i root : NodeId} (h : Wraps g i src root) :
    (src.profile root).shape = (g.profile i).shape ∧
      (src.profile root).free = (g.profile i).free := by
  cases h with
  | itself => exact ⟨rfl, rfl⟩
  | wrapper _ _ hn =>
    rw [Graph.profile_of_labelled (Graph.node_push_size _ hn),
      (Graph.Extends.push g _ hn).profile_eq (hn i (List.mem_singleton.2 rfl))]
    exact ⟨rfl, rfl⟩

/-! ## Profiles along derivations -/

namespace Staging

variable {settings : Settings} {src g : Graph} {root i n v : NodeId} {r : Staged}
  {infos : List RegisteredVariable}

/-- A registered variable has the profile of every variable of the source with its label. -/
def KeepsProfile (src : Graph) (root : NodeId) (g : Graph) (info : RegisteredVariable) : Prop :=
  ∀ j, src.Reaches root j → src.label? j = some info.label → g.profile info.node = src.profile j

/-- What is worth a name shows no entries. -/
theorem items_of_worthNaming (h : worthNaming (g.node n) = true) : g.items n = [] := by
  rw [Graph.items]
  cases hn : g.node n with
  | multiIndex items =>
    rw [hn] at h
    cases h
  | _ => rfl

/-- A name shows what the node shows that it names. -/
theorem Names.profile_eq (h : Names g infos n v) (hworth : worthNaming (g.node n) = true) :
    g.profile v = g.profile n := by
  obtain ⟨info, -, -, rfl | hv⟩ := h
  · rfl
  · have hitems : (g.profile n).items = [] := by
      rw [Graph.items_profile]
      exact items_of_worthNaming hworth
    rw [Graph.profile_of_labelled hv, ← hitems]

/-- A new operand shows what the staged one shows. -/
theorem Replaces.profile_eq {is : List NodeId} {staged : NodeId → Staged} {deps : DependencySet}
    {new : NodeId → NodeId} (h : Replaces g infos is staged deps new) {j : NodeId} (hj : j ∈ is) :
    g.profile (new j) = g.profile (staged j).node := by
  cases h with
  | uniform h => rw [(h j hj).1]
  | named h =>
    have hname := h j hj
    split at hname
    case isTrue hworth => exact hname.profile_eq hworth
    case isFalse => rw [hname]

/-- What stands for a node shows what the node shows, if the registered variables do. -/
theorem Stands.profile_eq (h : Stands settings src g infos i r) (hroot : root ∈ src)
    (hsrc : src.Extends g) (hi : src.Reaches root i)
    (hkeeps : ∀ info ∈ infos, KeepsProfile src root g info) :
    g.profile r.node = src.profile i := by
  induction h with
  | leaf => exact hsrc.profile_eq (hi.mem hroot)
  | labelled h hinfo => exact hkeeps _ hinfo _ hi h
  | @derivative i a b n r h ha hb hmem hn ih =>
    have hops := Graph.operands_of_derivative h
    have hb' : src.Reaches root b := hi.tail (by simp [hops])
    -- the directions are kept
    rw [Graph.profile_eq, Graph.profile_eq, hn, h, Node.map, Node.map,
      ih (hi.tail (by simp [hops])), hsrc.profile_eq (hb'.mem hroot)]
  | @operator i n deps staged new h hops hdeps hnew hmem hn ih =>
    rw [Graph.profile_eq, Graph.profile_eq, hn, Node.map_map]
    refine congrArg Node.profile (Node.map_congr fun j hj => ?_)
    rw [hnew.profile_eq hj, ih j hj (hi.tail hj)]

/-- Every registered variable shows what the variables with its label show. The induction is on the
order of registration, since a derivation may use the variables registered before. -/
theorem Built.keepsProfile (hb : Built settings src root g infos) (hroot : root ∈ src)
    (hsrc : src.Extends g) (hc : src.Consistent root) :
    ∀ info ∈ infos, KeepsProfile src root g info := by
  refine hb.forall_of_earlier fun earlier _ info _ _ ho hkeeps j hj hl => ?_
  cases ho with
  | @source v c r hv hn h hnode hdeps =>
    have hvj := hc v j info.label (Graph.reaches_of_firstVariable? hroot hv) hj
      (Graph.label?_of_firstVariable? hv) hl
    have hcv : src.Reaches root c :=
      (Graph.reaches_of_firstVariable? hroot hv).tail (by simp [Graph.operands_of_labelled hn])
    rw [src.profile_eq_profile_unfold j, ← hvj, ← src.profile_eq_profile_unfold v,
      Graph.profile_of_labelled hnode, Graph.profile_of_labelled hn,
      h.profile_eq hroot hsrc hcv hkeeps]
  | minted hnew =>
    -- no variable of the source has a minted label
    exact absurd ((Graph.mem_labels_iff hroot).2 ⟨j, hj, hl⟩) hnew

end Staging

/-! ## The result of a split -/

/-- The result `r` of splitting node `i` of `g` has the shapes and the free indices of this node. -/
structure KeepsProfiles (g : Graph) (i : NodeId) (r : SplitResult) : Prop where
  /-- The variable of the result has the shape of the expression. -/
  shape : (r.graph.profile r.root.node).shape = (g.profile i).shape
  /-- It has the free indices of the expression, in the same order. -/
  free : (r.graph.profile r.root.node).free = (g.profile i).free
  /-- What is registered under the label of a variable of the expression has the shape and the free
  indices of this variable. -/
  «variables» : ∀ v l, g.Reaches i v → g.label? v = some l → ∃ info, r.code.get? l = some info ∧
    (r.graph.profile info.node).shape = (g.profile v).shape ∧
    (r.graph.profile info.node).free = (g.profile v).free

/-- Splitting keeps shapes and free indices. -/
theorem split_keeps_profiles {settings : Settings} {g : Graph} {i : NodeId} {r : SplitResult}
    (h : split settings g i = .ok r) (hc : g.Consistent i) : KeepsProfiles g i r := by
  obtain ⟨src, root, infos, ho⟩ := outcome_of_split h
  have hkeeps := ho.built.keepsProfile ho.wraps.root_mem ho.grows (ho.wraps.consistent hc)
  have hroot := hkeeps r.root ho.root_registered root (Graph.Reaches.refl src root) ho.root_label
  refine ⟨?_, ?_, fun v l hv hl => ?_⟩
  · rw [hroot, ho.wraps.profile_root.1]
  · rw [hroot, ho.wraps.profile_root.2]
  · obtain ⟨info, hinfo, hget, hreach, hlabel⟩ := ho.exists_registered hv hl
    refine ⟨info, hget, ?_⟩
    rw [hkeeps info hinfo v hreach hlabel, ho.wraps.grows.profile_eq (hv.mem ho.wraps.mem)]
    exact ⟨rfl, rfl⟩

/-- A vector times a coefficient, taken apart by components and put together again. The components of
the vector go by a variable, and so does the multi-index that they are selected with. -/
def scaledVector : Graph :=
  .ofNodes [.argument ⟨0, [2]⟩, .multiIndex [.free ⟨0, 2⟩], .labelled 1 ⟨4⟩, .indexed 0 1,
    .labelled 3 ⟨2⟩, .coefficient ⟨0, none, []⟩, .product 5 4, .componentTensor 6 1,
    .indexed 7 2]

theorem split_keeps_profiles_scaledVector :
    ∃ r, split (.ofForm (.ofExpression scaledVector 8)) scaledVector 8 = .ok r ∧
      scaledVector.Consistent 8 ∧ KeepsProfiles scaledVector 8 r := by
  have hok : (split (.ofForm (.ofExpression scaledVector 8)) scaledVector 8).isOk = true := by cbv
  obtain ⟨r, hr⟩ := Except.exists_eq_ok hok
  have hmem : 8 ∈ scaledVector := by cbv
  have hc : scaledVector.Consistent 8 := Graph.consistent_of_nodup hmem (of_decide_eq_true (by cbv))
  exact ⟨r, hr, hc, split_keeps_profiles hr hc⟩

end FormStaging
