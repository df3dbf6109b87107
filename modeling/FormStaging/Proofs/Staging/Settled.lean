import FormStaging.Proofs.Staging.Outcome
import FormStaging.Proofs.Staging.Transport
import Mathlib.Data.List.Nodup

/-!
# Settled nodes

The normal form of staging. `Settled settings g infos i d` says that staging has nothing left to do
below node `i`, which depends on `d`: every variable below it is the registered one, and the operands
worth a name either depend on just what their node depends on or are variables. What stands for a node
of the source is settled (`Stands.settled`), and so is the content of every registered variable
(`Built.settled`). A node has at most one dependency set with which it is settled
(`Settled.functional`); this makes two derivations that end at one node agree.

The directions of a derivative are not staged. A derivative is settled if they are a multi-index.
-/

set_option autoImplicit false

namespace FormStaging

/-- Every derivative of an expression has a multi-index as directions. -/
def Graph.DirectionsGiven (g : Graph) (root : NodeId) : Prop :=
  ∀ i a b, g.Reaches root i → g.node i = .spatialDerivative a b →
    ∃ items, g.node b = .multiIndex items

theorem Graph.directionsGiven_of_all {g : Graph} {root : NodeId} (h : root ∈ g)
    (hall : (g.postOrder root).all fun i =>
      match g.node i with
      | .spatialDerivative _ b => (g.node b).kind = .multiIndex
      | _ => true) : g.DirectionsGiven root := by
  intro i a b hi hn
  have hkind := List.all_eq_true.1 hall i ((Graph.mem_postOrder h).2 hi)
  simp only [hn, decide_eq_true_eq] at hkind
  cases hb : g.node b <;> rw [hb] at hkind <;> simp only [Node.kind, reduceCtorEq] at hkind
  exact ⟨_, rfl⟩

theorem Wraps.directionsGiven {g src : Graph} {i root : NodeId} (h : Wraps g i src root)
    (hd : g.DirectionsGiven i) : src.DirectionsGiven root := by
  intro j a b hj hnode
  obtain ⟨hgj, hsame⟩ := h.reaches_of_label?_eq_none hj (by rw [Graph.label?, hnode]; rfl)
  have hmem := hgj.mem h.mem
  rw [hsame] at hnode
  obtain ⟨items, hitems⟩ := hd j a b hgj hnode
  refine ⟨items, ?_⟩
  rw [h.grows.node_eq b (Graph.mem_of_mem_operands ?_ hmem), hitems]
  simp [Graph.operands_of_derivative hnode]

namespace Staging

open FormStaging.Graph

/-! ## The normal form -/

/-- Staging has nothing left to do below a node with the given dependency set. -/
inductive Settled (settings : Settings) (g : Graph) (infos : List RegisteredVariable) :
    NodeId → DependencySet → Prop where
  | leaf {i : NodeId} {d : DependencySet} (h : leafDeps settings (g.node i) = some d) :
      Settled settings g infos i d
  | labelled {i c : NodeId} {info : RegisteredVariable} {d : DependencySet} (hinfo : info ∈ infos)
      (hi : info.node = i) (hd : info.deps = d) (h : g.node i = .labelled c info.label)
      (hc : Settled settings g infos c d) : Settled settings g infos i d
  | derivative {i a b : NodeId} {items : List IndexItem} {d : DependencySet}
      (h : g.node i = .spatialDerivative a b) (hb : g.node b = .multiIndex items)
      (ha : Settled settings g infos a d) : Settled settings g infos i d.withRuntime
  | operator {i : NodeId} {d : DependencySet} (deps : NodeId → DependencySet)
      (h : isPlain (g.node i) = true)
      (hops : ∀ j ∈ g.operands i, Settled settings g infos j (deps j))
      (hdeps : settings.constant.unionAll ((g.operands i).map deps) = .ok d)
      (hnames : (∀ j ∈ g.operands i, worthNaming (g.node j) = true → deps j = d) ∨
        ∀ j ∈ g.operands i, worthNaming (g.node j) = true → ∃ l, g.label? j = some l) :
      Settled settings g infos i d

/-- The content of every registered variable is settled. -/
def AllSettled (settings : Settings) (g : Graph) (infos : List RegisteredVariable) : Prop :=
  ∀ info ∈ infos, ∃ c, g.node info.node = .labelled c info.label ∧
    Settled settings g infos c info.deps

variable {settings : Settings} {src g : Graph} {root i j : NodeId} {d d' : DependencySet}
  {infos infos' : List RegisteredVariable}

namespace Settled

/-- A multi-index depends on nothing. -/
theorem multiIndex {items : List IndexItem} (h : g.node i = .multiIndex items) :
    Settled settings g infos i settings.constant := by
  have hops := operands_of_multiIndex h
  refine .operator (fun _ => settings.constant) ?_ ?_ ?_ ?_
  · rw [h]
    rfl
  · simp [hops]
  · rw [hops]
    rfl
  · simp [hops]

theorem mono (h : Settled settings g infos i d) (hsub : infos ⊆ infos') :
    Settled settings g infos' i d := by
  induction h with
  | leaf h => exact .leaf h
  | labelled hinfo hi hd h _ ih => exact .labelled (hsub hinfo) hi hd h ih
  | derivative h hb _ ih => exact .derivative h hb ih
  | operator deps h _ hdeps hnames ih => exact .operator deps h ih hdeps hnames

/-- Only the variables that a node reaches make it settled. -/
theorem of_reached (h : Settled settings g infos i d)
    (hsub : ∀ info ∈ infos, g.Reaches i info.node → info ∈ infos') :
    Settled settings g infos' i d := by
  induction h with
  | leaf h => exact .leaf h
  | @labelled i c info d hinfo hi hd h _ ih =>
    have hc : c ∈ g.operands i := by simp [operands_of_labelled h]
    refine .labelled (hsub info hinfo (hi ▸ Reaches.refl g _)) hi hd h ?_
    exact ih fun other hother hreach => hsub other hother (.head hc hreach)
  | @derivative i a b items d h hb _ ih =>
    have ha : a ∈ g.operands i := by simp [operands_of_derivative h]
    exact .derivative h hb (ih fun other hother hreach => hsub other hother (.head ha hreach))
  | operator deps h _ hdeps hnames ih =>
    refine .operator deps h (fun j hj => ?_) hdeps hnames
    exact ih j hj fun other hother hreach => hsub other hother (.head hj hreach)

/-- A settled variable is registered. -/
theorem cases_labelled {c : NodeId} {l : Label} (h : Settled settings g infos i d)
    (hn : g.node i = .labelled c l) :
    ∃ info ∈ infos, info.node = i ∧ info.deps = d ∧ info.label = l ∧
      Settled settings g infos c d := by
  cases h with
  | leaf h => simp [hn, leafDeps] at h
  | @labelled _ c' info _ hinfo hi hd h hc =>
    rw [hn] at h
    obtain ⟨rfl, hl⟩ := Node.labelled.inj h
    exact ⟨info, hinfo, hi, hd, hl.symm, hc⟩
  | derivative h => simp [hn] at h
  | operator _ h => simp [hn, isPlain] at h

/-- What is below a settled node is settled. -/
theorem of_reaches (h : Settled settings g infos i d) (hr : g.Reaches i j) :
    ∃ e, Settled settings g infos j e := by
  induction h with
  | @leaf i d h =>
    obtain rfl := hr.eq_of_operands_eq_nil (operands_of_leafDeps h)
    exact ⟨d, .leaf h⟩
  | @labelled i c info d hinfo hi hd h hc ih =>
    rcases hr.cases_head with rfl | ⟨k, hk, hkj⟩
    · exact ⟨d, .labelled hinfo hi hd h hc⟩
    · rw [operands_of_labelled h] at hk
      obtain rfl := List.mem_singleton.1 hk
      exact ih hkj
  | @derivative i a b items d h hb ha ih =>
    rcases hr.cases_head with rfl | ⟨k, hk, hkj⟩
    · exact ⟨_, .derivative h hb ha⟩
    · rw [operands_of_derivative h, List.mem_cons, List.mem_singleton] at hk
      rcases hk with rfl | rfl
      · exact ih hkj
      · obtain rfl := hkj.eq_of_operands_eq_nil (operands_of_multiIndex hb)
        exact ⟨_, .multiIndex hb⟩
  | @operator i d deps h hops hdeps hnames ih =>
    rcases hr.cases_head with rfl | ⟨k, hk, hkj⟩
    · exact ⟨d, .operator deps h hops hdeps hnames⟩
    · exact ih k hk hkj

/-- A node is settled with at most one dependency set. -/
theorem functional (hnodup : (infos.map RegisteredVariable.label).Nodup)
    (h : Settled settings g infos i d) (h' : Settled settings g infos i d') : d = d' := by
  induction h generalizing d' with
  | leaf h =>
    cases h' with
    | leaf h' => exact Option.some.inj (h.symm.trans h')
    | labelled _ _ _ h' => simp [h', leafDeps] at h
    | derivative h' => simp [h', leafDeps] at h
    | operator _ h' =>
      rw [isPlain_of_leafDeps h] at h'
      cases h'
  | labelled hinfo hi hd h =>
    -- both sets are the one registered under the label
    obtain ⟨other, hother, -, hd', hl, -⟩ := h'.cases_labelled h
    rw [← hd, ← hd', List.inj_on_of_nodup_map hnodup hother hinfo hl]
  | derivative h _ _ ih =>
    cases h' with
    | leaf h' => simp [h, leafDeps] at h'
    | labelled _ _ _ h' => simp [h] at h'
    | derivative h' _ ha =>
      rw [h] at h'
      obtain ⟨rfl, -⟩ := Node.spatialDerivative.inj h'
      rw [ih ha]
    | operator _ h' => simp [h, isPlain] at h'
  | @operator i d deps h _ hdeps _ ih =>
    cases h' with
    | leaf h' =>
      rw [isPlain_of_leafDeps h'] at h
      cases h
    | labelled _ _ _ h' => simp [h', isPlain] at h
    | derivative h' => simp [h', isPlain] at h
    | operator deps' _ hops' hdeps' =>
      rw [List.map_congr_left fun j hj => ih j hj (hops' j hj), hdeps'] at hdeps
      exact (Except.ok.inj hdeps).symm

end Settled

/-! ## What stands for a node is settled -/

/-- A name is settled like what it names. -/
theorem Names.settled {n v : NodeId} (h : Names g infos n v)
    (hnodup : (infos.map RegisteredVariable.label).Nodup) (hall : AllSettled settings g infos)
    (hn : Settled settings g infos n d) : Settled settings g infos v d := by
  obtain ⟨info, hmem, rfl, rfl | hv⟩ := h
  · exact hn
  · -- the content was registered with the set it is settled with
    obtain ⟨c, hc, hsettled⟩ := hall info hmem
    rw [hv] at hc
    obtain ⟨rfl, -⟩ := Node.labelled.inj hc
    exact .labelled hmem rfl (hsettled.functional hnodup hn) hv hn

/-- A new operand is settled like what stands for the old one. -/
theorem Replaces.settled {is : List NodeId} {staged : NodeId → Staged} {new : NodeId → NodeId}
    (h : Replaces g infos is staged d new) (hnodup : (infos.map RegisteredVariable.label).Nodup)
    (hall : AllSettled settings g infos) (hj : j ∈ is)
    (hsettled : Settled settings g infos (staged j).node (staged j).deps) :
    Settled settings g infos (new j) (staged j).deps := by
  cases h with
  | uniform h =>
    rw [(h j hj).1]
    exact hsettled
  | named h =>
    have hname := h j hj
    split at hname
    · exact hname.settled hnodup hall hsettled
    · rw [hname]
      exact hsettled

/-- New operands that are worth a name depend on what their node depends on, or are variables. -/
theorem Replaces.uniform_or_labelled {is : List NodeId} {staged : NodeId → Staged}
    {new : NodeId → NodeId} (h : Replaces g infos is staged d new) (hlabels : Labels g infos) :
    (∀ j ∈ is, worthNaming (g.node (new j)) = true → (staged j).deps = d) ∨
      ∀ j ∈ is, worthNaming (g.node (new j)) = true → ∃ l, g.label? (new j) = some l := by
  cases h with
  | uniform h =>
    refine Or.inl fun j hj hworth => ?_
    rw [(h j hj).1] at hworth
    exact (h j hj).2 hworth
  | named h =>
    refine Or.inr fun j hj hworth => ?_
    have hname := h j hj
    split at hname
    case isTrue =>
      obtain ⟨info, hinfo, hnode, -⟩ := hname
      exact ⟨info.label, hnode ▸ hlabels info hinfo⟩
    case isFalse hnot =>
      rw [hname] at hworth
      exact absurd hworth hnot

/-- What stands for a node of the source is settled. -/
theorem Stands.settled {r : Staged} (h : Stands settings src g infos i r) (hroot : root ∈ src)
    (hsrc : src.Extends g) (hlabels : Labels g infos)
    (hnodup : (infos.map RegisteredVariable.label).Nodup) (hall : AllSettled settings g infos)
    (hgiven : src.DirectionsGiven root) (hi : src.Reaches root i) :
    Settled settings g infos r.node r.deps := by
  induction h with
  | @leaf i d h =>
    rw [← hsrc.node_eq i (hi.mem hroot)] at h
    exact .leaf h
  | @labelled i info h hinfo =>
    obtain ⟨c, hc, hsettled⟩ := hall info hinfo
    exact .labelled hinfo rfl rfl hc hsettled
  | @derivative i a b n r h ha hb hmem hn ih =>
    have hb' : b ∈ src.operands i := by simp [operands_of_derivative h]
    have ha' : a ∈ src.operands i := by simp [operands_of_derivative h]
    obtain ⟨items, hitems⟩ := hgiven i a b hi h
    rw [← hsrc.node_eq b ((hi.tail hb').mem hroot)] at hitems
    exact .derivative hn hitems (ih (hi.tail ha'))
  | @operator i n d staged new h hops hdeps hnew hmem hn ih =>
    have hoperands : g.operands n = (src.operands i).map new := by
      rw [operands, hn, Node.operands_map]
      rfl
    have hsettled : ∀ j ∈ src.operands i, Settled settings g infos (new j) (staged j).deps :=
      fun j hj => hnew.settled hnodup hall hj (ih j hj (hi.tail hj))
    -- equal new operands are settled with one set, so the sets are a function of the operands
    have hzip : List.Forall₂ (fun j k => Settled settings g infos k (staged j).deps)
        (src.operands i) ((src.operands i).map new) := by
      rw [List.forall₂_map_right_iff, List.forall₂_same]
      exact hsettled
    have : Inhabited DependencySet := ⟨settings.constant⟩
    obtain ⟨deps, hall', hmap⟩ := exists_map_eq (f := fun j => (staged j).deps)
      (fun _ _ _ hk hk' => hk.functional hnodup hk') hzip
    rw [← hoperands] at hall' hmap
    have hplain : isPlain (g.node n) = true := by rw [hn, isPlain_map, h]
    refine .operator deps hplain hall' (by rw [hmap]; exact hdeps) ?_
    rw [hoperands] at hall' ⊢
    rw [List.forall_mem_map, List.forall_mem_map]
    refine (hnew.uniform_or_labelled hlabels).imp_left fun huniform j hj hworth => ?_
    rw [(hall' _ (List.mem_map_of_mem hj)).functional hnodup (hsettled j hj)]
    exact huniform j hj hworth

/-! ## The registered variables -/

theorem AllSettled.mono_settled (h : AllSettled settings g infos) (hsub : infos ⊆ infos') :
    ∀ info ∈ infos, ∃ c, g.node info.node = .labelled c info.label ∧
      Settled settings g infos' c info.deps := by
  intro info hmem
  obtain ⟨c, hc, hsettled⟩ := h info hmem
  exact ⟨c, hc, hsettled.mono hsub⟩

/-- The content of a variable is settled by the variables that are registered before. -/
theorem Origin.settled {info : RegisteredVariable} (h : Origin settings src root g infos info)
    (hroot : root ∈ src) (hsrc : src.Extends g) (hlabels : Labels g infos)
    (hnodup : (infos.map RegisteredVariable.label).Nodup) (hall : AllSettled settings g infos)
    (hgiven : src.DirectionsGiven root) :
    ∃ c, g.node info.node = .labelled c info.label ∧ Settled settings g infos c info.deps := by
  obtain ⟨i, r, hi, hstands, hnode, hdeps⟩ := h.exists_stands hroot
  rw [hdeps]
  exact ⟨r.node, hnode, hstands.settled hroot hsrc hlabels hnodup hall hgiven hi⟩

/-- The contents of the registered variables are settled. -/
theorem Built.settled (h : Built settings src root g infos) (hroot : root ∈ src)
    (hsrc : src.Extends g) (hnodup : (infos.map RegisteredVariable.label).Nodup)
    (hgiven : src.DirectionsGiven root) : AllSettled settings g infos := by
  induction h with
  | nil => exact List.forall_mem_nil _
  | @concat infos info h ho ih =>
    rw [List.map_append] at hnodup
    have hnodup' := (List.nodup_append.1 hnodup).1
    have hall := ih hnodup'
    have hsub : infos ⊆ infos ++ [info] := List.subset_append_left _ _
    intro other hmem
    rcases List.mem_append.1 hmem with hmem | hmem
    · exact hall.mono_settled hsub other hmem
    · obtain ⟨c, hc, hsettled⟩ := ho.settled hroot hsrc h.labels hnodup' hall hgiven
      rw [List.mem_singleton.1 hmem]
      exact ⟨c, hc, hsettled.mono hsub⟩

end Staging

namespace Outcome

open Staging

variable {settings : Settings} {g src : Graph} {i root : NodeId} {r : SplitResult}
  {infos : List RegisteredVariable} {info : RegisteredVariable}

theorem allSettled (h : Outcome settings g i r src root infos) (hgiven : g.DirectionsGiven i) :
    AllSettled settings r.graph infos :=
  h.built.settled h.wraps.root_mem h.grows h.nodup (h.wraps.directionsGiven hgiven)

/-- Every registered variable is settled. -/
theorem settled (h : Outcome settings g i r src root infos) (hgiven : g.DirectionsGiven i)
    (hmem : info ∈ infos) : Settled settings r.graph infos info.node info.deps := by
  obtain ⟨c, hc, hsettled⟩ := h.allSettled hgiven info hmem
  exact .labelled hmem rfl rfl hc hsettled

/-- Every variable below a registered one is registered. -/
theorem registered_of_reaches (h : Outcome settings g i r src root infos)
    (hgiven : g.DirectionsGiven i) (hmem : info ∈ infos) {j : NodeId} {l : Label}
    (hj : r.graph.Reaches info.node j) (hl : r.graph.label? j = some l) :
    ∃ other ∈ infos, other.node = j ∧ other.label = l := by
  obtain ⟨d, hd⟩ := (h.settled hgiven hmem).of_reaches hj
  obtain ⟨c, hc, -⟩ := Graph.operands_of_label? hl
  obtain ⟨other, hother, hnode, -, hlabel, -⟩ := hd.cases_labelled hc
  exact ⟨other, hother, hnode, hlabel⟩

end Outcome

end FormStaging
