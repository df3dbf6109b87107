import FormStaging.Proofs.Failures
import FormStaging.Proofs.Graph.Paths
import FormStaging.Proofs.Staging.Calls

/-!
# What the depth limit decides

The settings bound how many nodes may be entered one below the other. Three things are true of this
bound (`depth_guard_exact`). It is exceeded only if a path of the expression has more nodes. If a split
succeeds, then every node on a path is the last one of a short path too, though not every path is
short: a node that was staged before is not entered again. And a split that does not exceed the bound
is the same under any greater one.

The second part rests on an invariant of the results kept so far (`Shallow`): they belong to nodes at the
end of short paths, and with a node all nodes are staged that are entered from it.
-/

set_option autoImplicit false

namespace FormStaging

open Staging

/-- There is a path of the given number of nodes that ends at node `j`. -/
def Graph.PathTo (g : Graph) (i j : NodeId) (length : Nat) : Prop :=
  ∃ path, g.IsPath i path ∧ path.getLast? = some j ∧ path.length = length

/-- The depth limit on splitting node `i` of `g` is neither too strict nor too lax. -/
structure DepthGuard (settings : Settings) (g : Graph) (i : NodeId) : Prop where
  /-- If all paths are short enough, then no split reports the nesting. -/
  sound : (∀ path, g.IsPath i path → path.length ≤ settings.maxDepth) →
    ∀ e, split settings g i = .error e → ¬ e.IsTooDeep
  /-- If a split succeeds, then every node on a path ends a path that is short enough. -/
  shallow : ∀ r, split settings g i = .ok r → ∀ path, g.IsPath i path →
    ∀ j ∈ path, ∃ length ≤ settings.maxDepth, g.PathTo i j length
  /-- A split that does not report the nesting is that under any greater limit. -/
  monotone : (∀ e, split settings g i = .error e → ¬ e.IsTooDeep) →
    ∀ depth, settings.maxDepth < depth → split (settings.withDepth depth) g i = split settings g i

/-! ## Short paths -/

namespace Graph.PathTo

variable {g : Graph} {i j k c : NodeId} {length : Nat}

theorem start (h : g.StartsAt i c) : g.PathTo i c 1 := ⟨[c], .start h, rfl, rfl⟩

theorem enter (h : g.PathTo i j length) (hk : k ∈ g.entered j) : g.PathTo i k (length + 1) := by
  obtain ⟨path, hpath, hlast, rfl⟩ := h
  exact ⟨path ++ [k], hpath.concat hlast hk, List.getLast?_concat, List.length_append⟩

theorem reaches (h : g.PathTo i j length) (hi : i ∈ g) : g.Reaches i j := by
  obtain ⟨path, hpath, hlast, -⟩ := h
  exact hpath.reaches hi j (List.mem_of_getLast? hlast)

end Graph.PathTo

namespace Staging

variable {ctx : Context} {src : Graph} {root i j v c : NodeId} {depth length : Nat}
  {s s' : State} {r : Staged} {l : Label}

/-- There is a result for a node. -/
def State.IsStaged (s : State) (j : NodeId) : Prop := ∃ r, s.staged[j]? = some r

/-- Short paths of the expression `root` lead to all nodes with a result, and there are results for the
nodes that are entered from these. -/
structure Shallow (src : Graph) (root : NodeId) (depth : Nat) (s : State) : Prop where
  grows : src.Extends s.graph
  ends : ∀ j, s.IsStaged j → ∃ length ≤ depth, src.PathTo root j length
  entered : ∀ j, s.IsStaged j → ∀ k ∈ src.entered j, s.IsStaged k

theorem Fills.isStaged {bound : NodeId} (h : Fills bound s s') (hj : s.IsStaged j) :
    s'.IsStaged j := by
  obtain ⟨r, hr⟩ := hj
  exact ⟨r, h.kept j r hr⟩

theorem State.isStaged_insert :
    State.IsStaged { s with staged := s.staged.insert i r } j ↔ i = j ∨ s.IsStaged j := by
  rw [State.IsStaged, Std.HashMap.getElem?_insert]
  by_cases hij : i = j
  · subst hij
    simp
  · simp [hij, State.IsStaged]

theorem Shallow.of_staged_eq (h : Shallow src root depth s) (hg : s.graph.Extends s'.graph)
    (hstaged : s'.staged = s.staged) : Shallow src root depth s' := by
  have hiff : ∀ j, s'.IsStaged j ↔ s.IsStaged j := fun j => by
    rw [State.IsStaged, State.IsStaged, hstaged]
  refine ⟨h.grows.trans hg, fun j hj => h.ends j ((hiff j).1 hj), fun j hj k hk => ?_⟩
  exact (hiff k).2 (h.entered j ((hiff j).1 hj) k hk)

/-- A result is added for a node that a short path leads to, once all nodes entered from it are staged. -/
theorem Shallow.insert (h : Shallow src root depth s) (hle : length ≤ depth)
    (hi : src.PathTo root i length) (hentered : ∀ k ∈ src.entered i, s.IsStaged k) (r : Staged) :
    Shallow src root depth { s with staged := s.staged.insert i r } := by
  refine ⟨h.grows, fun j hj => ?_, fun j hj k hk => ?_⟩
  · rcases State.isStaged_insert.1 hj with rfl | hj
    · exact ⟨length, hle, hi⟩
    · exact h.ends j hj
  · refine State.isStaged_insert.2 (Or.inr ?_)
    rcases State.isStaged_insert.1 hj with rfl | hj
    · exact hentered k hk
    · exact h.entered j hj k hk

/-! ## Staging nodes on short paths -/

/-- What is asked of an action that stages the nodes at the end of paths of some length. -/
def StagesShallowly (src : Graph) (root : NodeId) (depth length : Nat)
    (stage : NodeId → Action Staged) : Prop :=
  ∀ {s s' : State} {j : NodeId} {r : Staged}, Shallow src root depth s →
    src.PathTo root j length → (stage j).run s = .ok r s' →
    Shallow src root depth s' ∧ s'.IsStaged j

theorem stageEach_shallow {stage : NodeId → Action Staged} {is : List NodeId} {rs : List Staged}
    (hfills : ∀ j, FillsBelow (j + 1) (stage j))
    (hstage : StagesShallowly src root depth length stage) (h : Shallow src root depth s)
    (hlt : ∀ j ∈ is, j < i) (his : ∀ j ∈ is, src.PathTo root j length)
    (hrun : (stageEach stage is).run s = .ok rs s') :
    Shallow src root depth s' ∧ ∀ j ∈ is, s'.IsStaged j := by
  induction is generalizing s rs with
  | nil =>
    obtain ⟨-, rfl⟩ := run_pure_eq_ok.1 hrun
    exact ⟨h, List.forall_mem_nil _⟩
  | cons j is ih =>
    obtain ⟨-, hlt⟩ := List.forall_mem_cons.1 hlt
    obtain ⟨hj, his⟩ := List.forall_mem_cons.1 his
    obtain ⟨r, s₁, rest, hr, hrest, -⟩ := stageEach_cons_eq_ok.1 hrun
    obtain ⟨h₁, hstaged⟩ := hstage h hj hr
    obtain ⟨h', hstaged'⟩ := ih h₁ hlt his hrest
    have hkept : Fills i s₁ s' := (FillsBelow.stageEach hfills hlt).fills hrest
    exact ⟨h', List.forall_mem_cons.2 ⟨hkept.isStaged hstaged, hstaged'⟩⟩

/-- After a layer was staged, all nodes are staged that are entered from it. -/
theorem stageNode_shallow {stage : NodeId → Action Staged}
    (hfills : ∀ j, FillsBelow (j + 1) (stage j))
    (hstage : StagesShallowly src root depth (length + 1) stage) (h : Shallow src root depth s)
    (hi : i ∈ src) (hpath : src.PathTo root i length)
    (hrun : (stageNode ctx stage i).run s = .ok r s') :
    Shallow src root depth s' ∧ ∀ k ∈ src.entered i, s'.IsStaged k := by
  have hpaths : ∀ k ∈ src.entered i, src.PathTo root k (length + 1) := fun k hk => hpath.enter hk
  have hlt : ∀ k ∈ src.entered i, k < i :=
    fun k hk => Graph.lt_of_mem_operands (Graph.entered_subset src i hk)
  rw [run_stageNode, h.grows.entered_eq hi] at hrun
  obtain ⟨rs, s₁, hrs, hfinish⟩ := run_bind_eq_ok.1 hrun
  obtain ⟨h₁, hstaged⟩ := stageEach_shallow hfills hstage h hlt hpaths hrs
  -- to finish the node changes no result
  have hkept : s'.staged = s₁.staged := (Leaves.finishNode i _ rs).part_eq hfinish
  have hgrows := ((Evolves.finishNode i _ rs).steps hfinish).grows
  refine ⟨h₁.of_staged_eq hgrows hkept, fun k hk => ?_⟩
  rw [State.IsStaged, hkept]
  exact hstaged k hk

/-- Nodes are staged at the end of short paths. The nodes of a path up to the one to stage and the
room below are as many as the bound allows. -/
theorem stage_shallow (ctx : Context) (hroot : root ∈ src) (room : Nat)
    (hle : length + room ≤ depth + 1) :
    StagesShallowly src root depth length (stage ctx room) := by
  induction room generalizing length with
  | zero =>
    intro s s' i r h _ hrun
    rcases remember_eq_ok.1 hrun with ⟨hknown, rfl⟩ | ⟨-, s₁, hr, -⟩
    · exact ⟨h, r, hknown⟩
    · exact absurd hr run_throw_ne_ok
  | succ room ih =>
    intro s s' i r h hpath hrun
    rcases remember_eq_ok.1 hrun with ⟨hknown, rfl⟩ | ⟨-, s₁, hr, rfl⟩
    · exact ⟨h, r, hknown⟩
    · have hi := (hpath.reaches hroot).mem hroot
      have hless : length + 1 + room ≤ depth + 1 := by omega
      obtain ⟨h₁, hentered⟩ := stageNode_shallow (fun j => .stage ctx room j) (ih hless) h hi
        hpath hr
      exact ⟨h₁.insert (by omega) hpath hentered r, State.isStaged_insert.2 (Or.inl rfl)⟩

/-! ## Variables -/

/-- A state in which only contents of registered variables were staged: the labels of the expression
`root` that are registered are those of the variables with a staged content. -/
structure Covers (src : Graph) (root : NodeId) (depth : Nat) (s : State) : Prop
    extends Shallow src root depth s where
  faithful : Faithful s
  source_lt : ∀ l ∈ src.labels root, l.value < s.labels.next
  contents : ∀ l v c, src.firstVariable? root l = some v → src.node v = .labelled c l → s.Has l →
    s.IsStaged c

theorem stageVariable_covers (hroot : root ∈ src) (h : Covers src root ctx.settings.maxDepth s)
    (hv : src.firstVariable? root l = some v) {info : RegisteredVariable}
    (hrun : (stageVariable ctx v).run s = .ok info s') :
    Covers src root ctx.settings.maxDepth s' ∧ s'.Has l := by
  have hlabel := Graph.label?_of_firstVariable? hv
  have hmem : v ∈ src := Graph.mem_of_label? hlabel
  obtain ⟨c, hc, -⟩ := Graph.operands_of_label? hlabel
  have hnode : s.graph.node v = .labelled c l := by rw [h.grows.node_eq v hmem, hc]
  have hstages := (stageVariable_ensures ctx h.faithful v).of_ok hrun
  obtain rfl : info.label = l :=
    Option.some.inj (hstages.label.symm.trans (Graph.label?_of_labelled hnode))
  have hhas : s'.Has info.label := ⟨info, hstages.get?_eq⟩
  by_cases hknown : s.Has info.label
  · rw [hstages.known hknown] at hhas ⊢
    exact ⟨h, hhas⟩
  · refine ⟨?_, hhas⟩
    have hnew : s.code.get? info.label = none := by
      rw [Option.eq_none_iff_forall_ne_some]
      exact fun known hget => hknown ⟨known, hget⟩
    have hle : s.labels.next ≤ s'.labels.next := ((Evolves.stageVariable v).steps hrun).next_le
    rw [run_stageVariable_of_new hnode hnew] at hrun
    obtain ⟨_, s₀, hreserve, hrun⟩ := run_bind_eq_ok.1 hrun
    obtain ⟨labels, -, rfl⟩ := reserveLabels_eq_ok.1 hreserve
    obtain ⟨r, s₁, hr, hregister⟩ := run_bind_eq_ok.1 hrun
    have hreserved : Shallow src root ctx.settings.maxDepth { s with labels := labels } :=
      h.toShallow.of_staged_eq (.refl _) rfl
    obtain ⟨h₁, hstaged⟩ := stage_shallow ctx hroot _ (Nat.le_of_eq (Nat.add_comm 1 _)) hreserved
      (.start (.content hv hc)) hr
    have hfills := (FillsBelow.stage ctx _ c).fills hr
    -- the new variable changes no result
    have hkept : s'.staged = s₁.staged :=
      (Leaves.registerContent v c info.label r).part_eq hregister
    have hgrows := ((Evolves.registerContent v c info.label r).steps hregister).grows
    refine ⟨h₁.of_staged_eq hgrows hkept, hstages.faithful,
      fun m hm => Nat.lt_of_lt_of_le (h.source_lt m hm) hle, fun m w d hw hd hm => ?_⟩
    rw [State.IsStaged, hkept]
    rcases (hstages.has_iff m).1 hm with hm | rfl | ⟨hminted, -⟩
    · exact hfills.isStaged (h.contents m w d hw hd hm)
    · obtain rfl : v = w := Option.some.inj (hv.symm.trans hw)
      rw [hc] at hd
      cases hd
      exact hstaged
    · -- no label of the expression is minted
      have hsource : m ∈ src.labels root :=
        (Graph.mem_labels_iff hroot).2 ⟨w, Graph.reaches_of_firstVariable? hroot hw,
          Graph.label?_of_firstVariable? hw⟩
      exact absurd ((s.next_le_firstMinted v).trans hminted)
        (Nat.not_le_of_lt (h.source_lt m hsource))

theorem stageVariables_cover {vs : List NodeId} (hroot : root ∈ src)
    (h : Covers src root ctx.settings.maxDepth s) (hvs : vs ⊆ src.variables root)
    (hrun : (stageVariables ctx vs).run s = .ok () s') :
    Covers src root ctx.settings.maxDepth s' ∧
      ∀ v ∈ vs, ∀ l, src.label? v = some l → s'.Has l := by
  induction vs generalizing s with
  | nil =>
    obtain ⟨-, rfl⟩ := run_pure_eq_ok.1 hrun
    exact ⟨h, List.forall_mem_nil _⟩
  | cons v vs ih =>
    obtain ⟨info, s₁, hv, hrest⟩ := stageVariables_cons_eq_ok.1 hrun
    obtain ⟨l, hl, hfirst⟩ := Graph.firstVariable?_of_mem_variables (hvs List.mem_cons_self)
    obtain ⟨h₁, known, hknown⟩ := stageVariable_covers hroot h hfirst hv
    obtain ⟨h', hall⟩ := ih h₁ (fun w hw => hvs (List.mem_cons_of_mem v hw)) hrest
    refine ⟨h', List.forall_mem_cons.2 ⟨fun m hm => ?_, hall⟩⟩
    obtain rfl : l = m := Option.some.inj (hl.symm.trans hm)
    exact ⟨known, ((Evolves.stageVariables vs).steps hrest).get?_eq_some hknown⟩

end Staging

/-! ## The theorem -/

section Guard

variable {settings : Settings} {g : Graph} {i : NodeId}

/-- A split reports the nesting only where a path has too many nodes. -/
theorem exists_isPath_of_isTooDeep {e : Failure} (hok : settings.fault? = none) (hi : i ∈ g)
    (h : split settings g i = .error e) (he : e.IsTooDeep) :
    ∃ path, g.IsPath i path ∧ path.length = settings.maxDepth + 1 := by
  obtain ⟨s, hrun⟩ := split_eq_error hok h
  obtain ⟨depth, places, rfl⟩ := he
  cases splitExpression_refuses hok hi _ s hrun with
  | wrapped hwraps _ hrefusal =>
    cases hrefusal with
    | slot hslot => cases hslot
    | deep hv hc hnests =>
      obtain ⟨path, hpath, hlength⟩ := Graph.IsPath.exists_of_nests (.content hv hc) hnests
      exact ⟨path, hwraps.isPath_iff.1 hpath, hlength⟩

/-- After a split every node on a path was staged, so a short path leads to it. -/
theorem exists_pathTo_of_split {r : SplitResult} (h : split settings g i = .ok r)
    {path : List NodeId} (hpath : g.IsPath i path) {j : NodeId} (hj : j ∈ path) :
    ∃ length ≤ settings.maxDepth, g.PathTo i j length := by
  obtain ⟨-, s, hrun, -, -⟩ := split_eq_ok.1 h
  obtain ⟨labels, root, s₁, s₂, s₃, hlabels, hwrap, hvars, -, -⟩ := splitExpression_eq_ok.1 hrun
  obtain ⟨hwraps, hsound⟩ := wrap_sound settings hlabels hwrap
  have hroot := hwraps.root_mem
  -- nothing is staged and nothing is registered at the beginning
  have hsteps : Steps { graph := g } s₁ :=
    (Relation.ReflTransGen.single (.reserve (LabelSupply.next_le_of_reserveAll? hlabels))).trans
      ((Evolves.wrap i).steps hwrap)
  have hmemos : s₁.memos = (∅, ∅) := Leaves.part_eq (.wrap (fun _ _ _ => rfl) i) hwrap
  have hfaithful : Faithful s₁ := (Faithful.fresh g).of_steps hsteps hmemos
  have hnone : ∀ j, ¬ s₁.IsStaged j := by
    rintro j ⟨r, hr⟩
    rw [show s₁.staged = ∅ from congrArg Prod.fst hmemos] at hr
    simp at hr
  have hhas : ∀ l, ¬ s₁.Has l := by
    rintro l ⟨info, hget⟩
    exact List.not_mem_nil (hsound.groups.mem hget)
  have hstart : Covers s₁.graph root settings.maxDepth s₁ :=
    { grows := .refl _
      ends := fun j hj => absurd hj (hnone j)
      entered := fun j hj => absurd hj (hnone j)
      faithful := hfaithful
      source_lt := hsound.source_lt
      contents := fun l _ _ _ _ hl => absurd hl (hhas l) }
  obtain ⟨hcovers, hall⟩ := stageVariables_cover hroot hstart (List.Subset.refl _) hvars
  -- the starts of paths are contents of registered variables
  have hstarts : ∀ c, s₁.graph.StartsAt root c → s₂.IsStaged c := by
    intro c hc
    cases hc with
    | @content v _ l hv hc =>
      refine hcovers.contents l v c hv hc (hall v ?_ l (Graph.label?_of_labelled hc))
      exact Graph.mem_variables_of_firstVariable? hv
    | whole hnone =>
      obtain ⟨l, hl⟩ := hwraps.exists_label
      rw [hl] at hnone
      cases hnone
  have hstaged := (hwraps.isPath_iff.2 hpath).forall_mem hstarts
    (fun j k hk hj => hcovers.entered j hj k hk) j hj
  obtain ⟨length, hle, short, hshort, hlast, hlength⟩ := hcovers.ends j hstaged
  exact ⟨length, hle, short, hwraps.isPath_iff.1 hshort, hlast, hlength⟩

/-- The depth limit is sound and monotone. -/
theorem depth_guard_exact (hok : settings.fault? = none) (hi : i ∈ g) :
    DepthGuard settings g i := by
  refine ⟨fun hpaths e he hdeep => ?_, fun r hr path hpath j hj => exists_pathTo_of_split hr hpath hj,
    fun hnot depth hlt => ?_⟩
  · obtain ⟨path, hpath, hlength⟩ := exists_isPath_of_isTooDeep hok hi he hdeep
    have hle := hpaths path hpath
    omega
  · rcases split_withDepth settings (Nat.le_of_lt hlt) g i with hsame | ⟨e, he, hdeep⟩
    · exact hsame.symm
    · exact absurd hdeep (hnot e he)

end Guard

/-- A product of a sum and the double of this sum. -/
def sumTimesDouble : Graph :=
  .ofNodes [.argument ⟨0, []⟩, .sum 0 0, .sum 1 1, .product 1 2]

/-- Three nodes may be entered one below the other. -/
def threeLevels : Settings := (Settings.ofForm (.ofExpression sumTimesDouble 3)).withDepth 3

/-- The product has a path of four nodes, but the sum at its third place was staged before. So the split
succeeds, and it gives the same result under every greater limit. -/
theorem depth_guard_exact_sumTimesDouble :
    threeLevels.fault? = none ∧ 3 ∈ sumTimesDouble ∧ DepthGuard threeLevels sumTimesDouble 3 ∧
      sumTimesDouble.IsPath 3 [3, 2, 1, 0] ∧
      ∃ r, split threeLevels sumTimesDouble 3 = .ok r ∧
        (∃ length ≤ 3, sumTimesDouble.PathTo 3 0 length) ∧
        ∀ depth, 3 < depth → split (threeLevels.withDepth depth) sumTimesDouble 3 = .ok r := by
  have hok : threeLevels.fault? = none := by cbv
  have hmem : 3 ∈ sumTimesDouble := by cbv
  have hguard := depth_guard_exact hok hmem
  have hpath : sumTimesDouble.IsPath 3 [3, 2, 1, 0] := by
    refine ⟨⟨3, rfl, .whole (by cbv)⟩, ?_⟩
    have hentered : sumTimesDouble.entered 3 = [1, 2] ∧ sumTimesDouble.entered 2 = [1, 1] ∧
        sumTimesDouble.entered 1 = [0, 0] := ⟨by cbv, by cbv, by cbv⟩
    simp [hentered]
  obtain ⟨r, hr⟩ := Except.exists_eq_ok (e := split threeLevels sumTimesDouble 3) (by cbv)
  refine ⟨hok, hmem, hguard, hpath, r, hr, hguard.shallow r hr _ hpath 0 (by decide), ?_⟩
  intro depth hdepth
  rw [← hr]
  refine hguard.monotone (fun e he => ?_) depth hdepth
  rw [hr] at he
  cases he

end FormStaging
