import FormStaging.Proofs.Dependencies

/-!
# Promotion is exact

A split names an operand only where it must, and never twice (`split_promotes_exactly`). In the
contents of the registered variables, the operands of a node that are worth a name depend on what the
node depends on, or all of them are registered variables. A variable with a minted label is an operand
of a node that is mixed, that is, some operand worth a name depends on something else than the node.
Two of these variables have different contents.

Where a minted variable is used is read off the derivations: only a replacement by names gives a node
a minted variable as an operand (`Outcome.operand_cases`).
-/

set_option autoImplicit false

namespace FormStaging

open Staging

/-! ## Exactness -/

/-- The operands of a node that are worth a name. -/
def Graph.worthyOperands (g : Graph) (n : NodeId) : List NodeId :=
  (g.operands n).filter fun j => worthNaming (g.node j)

/-- A registered label is minted for an operand: no variable of the expression has it, nor the variable
around the expression. -/
def SplitResult.Minted (g : Graph) (i : NodeId) (r : SplitResult) (info : RegisteredVariable) : Prop :=
  r.code.get? info.label = some info ∧ info.label ∉ g.labels i ∧ info.label ≠ r.root.label

/-- In a result, what must be named is named, and nothing else is. -/
structure PromotesExactly (settings : Settings) (g : Graph) (i : NodeId) (r : SplitResult) : Prop where
  /-- Below a registered variable, the operands of a node that are worth a name depend on what the
  node depends on, or each of them is a variable that is registered with its own set. -/
  uniform_or_named : ∀ l info n, r.code.get? l = some info →
    r.graph.Reaches (r.graph.content info.node) n → isPlain (r.graph.node n) = true →
    ∃ d, requirement settings r.graph n = .ok d ∧
      ((∀ j ∈ r.graph.worthyOperands n, requirement settings r.graph j = .ok d) ∨
        ∀ j ∈ r.graph.worthyOperands n, ∃ m other, r.code.get? m = some other ∧ other.node = j ∧
          requirement settings r.graph j = .ok other.deps)
  /-- The content of a minted variable is worth a name, and is no variable. -/
  content_worthy : ∀ info, r.Minted g i info →
    worthNaming (r.graph.node (r.graph.content info.node)) = true ∧
      r.graph.label? (r.graph.content info.node) = none
  /-- A minted variable is an operand of a node below a registered variable, and some operand of this
  node that is worth a name depends on something else than the node. -/
  needed : ∀ info, r.Minted g i info →
    ∃ l top n, r.code.get? l = some top ∧ r.graph.Reaches (r.graph.content top.node) n ∧
      isPlain (r.graph.node n) = true ∧ info.node ∈ r.graph.operands n ∧
      ∃ j ∈ r.graph.worthyOperands n, ∃ d e, requirement settings r.graph n = .ok d ∧
        requirement settings r.graph j = .ok e ∧ e ≠ d
  /-- No content has two minted variables. -/
  named_once : ∀ info other, r.Minted g i info → r.Minted g i other →
    r.graph.content info.node = r.graph.content other.node → info = other

/-! ## Where the nodes of the result come from -/

namespace Staging

variable {settings : Settings} {src g : Graph} {root i n k : NodeId} {r : Staged}
  {infos : List RegisteredVariable} {info : RegisteredVariable}

/-- A variable is worth a name. -/
theorem worthNaming_of_label? {l : Label} (h : g.label? n = some l) :
    worthNaming (g.node n) = true := by
  obtain ⟨c, hc, -⟩ := Graph.operands_of_label? h
  rw [hc]
  rfl

/-- A variable stands for variables with its label only. -/
theorem Stands.label?_eq {l : Label} (h : Stands settings src g infos i r) (hsrc : src.Extends g)
    (hi : i ∈ src) (hlabels : Labels g infos) (hl : g.label? r.node = some l) :
    src.label? i = some l := by
  cases h with
  | leaf h =>
    rw [hsrc.label?_eq hi] at hl
    exact hl
  | labelled h hinfo =>
    rw [h, ← hlabels _ hinfo]
    exact hl
  | derivative _ _ _ _ hn => simp [Graph.label?, hn, Node.label?] at hl
  | operator _ _ h _ _ _ _ hn =>
    rw [Graph.label?, hn, Node.label?_map, label?_of_isPlain h] at hl
    cases hl

/-- A node stands for some node of the expression. -/
def StandsIn (settings : Settings) (src g : Graph) (root : NodeId) (infos : List RegisteredVariable)
    (n : NodeId) : Prop :=
  ∃ i r, src.Reaches root i ∧ Stands settings src g infos i r ∧ r.node = n

/-- Some operand of a node that is worth a name depends on something else than the node. -/
structure Mixed (settings : Settings) (g : Graph) (infos : List RegisteredVariable) (n : NodeId) :
    Prop where
  plain : isPlain (g.node n) = true
  exists_operand : ∃ d, Settled settings g infos n d ∧
    ∃ j ∈ g.worthyOperands n, ∃ e, Settled settings g infos j e ∧ e ≠ d

end Staging

namespace Outcome

variable {settings : Settings} {g src : Graph} {i root n k : NodeId} {r : SplitResult}
  {infos : List RegisteredVariable} {info : RegisteredVariable}

/-- What stands for a node is settled. -/
theorem settled_of_stands (h : Outcome settings g i r src root infos) (hgiven : g.DirectionsGiven i)
    {x : NodeId} {s : Staged} (hx : src.Reaches root x)
    (hs : Stands settings src r.graph infos x s) : Settled settings r.graph infos s.node s.deps :=
  hs.settled h.wraps.root_mem h.grows h.built.labels h.nodup (h.allSettled hgiven)
    (h.wraps.directionsGiven hgiven) hx

/-- The content of a registered variable stands for a node. -/
theorem standsIn_of_operand (h : Outcome settings g i r src root infos) (hmem : info ∈ infos)
    (hk : k ∈ r.graph.operands info.node) : StandsIn settings src r.graph root infos k := by
  obtain ⟨x, s, hx, hs, hnode, -⟩ := h.built.exists_stands h.grows h.wraps.root_mem hmem
  rw [Graph.operands_of_labelled hnode, List.mem_singleton] at hk
  exact ⟨x, s, hx, hs, hk.symm⟩

/-- A registered variable that names an operand is worth a name itself. -/
theorem worthNaming_of_names (h : Outcome settings g i r src root infos) {c v : NodeId}
    (hv : Names r.graph infos c v) : worthNaming (r.graph.node v) = true := by
  obtain ⟨other, hother, rfl, -⟩ := hv
  exact worthNaming_of_label? (h.built.labels other hother)

/-- An operand of what stands for a node stands for a node too, or is a multi-index, or is the name of
an operand of a mixed node. -/
theorem operand_cases (h : Outcome settings g i r src root infos) (hgiven : g.DirectionsGiven i)
    (hn : StandsIn settings src r.graph root infos n) (hk : k ∈ r.graph.operands n) :
    StandsIn settings src r.graph root infos k ∨ (∃ items, r.graph.node k = .multiIndex items) ∨
      (Mixed settings r.graph infos n ∧ ∃ c, Names r.graph infos c k ∧
        StandsIn settings src r.graph root infos c ∧ worthNaming (r.graph.node c) = true) := by
  obtain ⟨x, staged, hx, hstands, rfl⟩ := hn
  have hin := hx.mem h.wraps.root_mem
  have hall := h.settled_of_stands hgiven hx hstands
  cases hstands with
  | leaf hleaf =>
    rw [h.grows.operands_eq hin, Graph.operands, operands_of_leafDeps hleaf] at hk
    exact absurd hk List.not_mem_nil
  | labelled hl hinfo => exact Or.inl (h.standsIn_of_operand hinfo hk)
  | @derivative _ a b m s hab ha hb hmem hm =>
    rw [Graph.operands_of_derivative hm, List.mem_cons, List.mem_singleton] at hk
    have ha' : a ∈ src.operands x := by simp [Graph.operands_of_derivative hab]
    have hb' : b ∈ src.operands x := by simp [Graph.operands_of_derivative hab]
    rcases hk with rfl | rfl
    · exact Or.inl ⟨a, s, hx.tail ha', ha, rfl⟩
    · obtain ⟨items, hitems⟩ := h.wraps.directionsGiven hgiven x a k hx hab
      refine Or.inr (Or.inl ⟨items, ?_⟩)
      rw [h.grows.node_eq k (Graph.mem_of_mem_operands hb' hin), hitems]
  | @operator _ m deps stagedOf new hplain hops hdeps hnew hmem hm =>
    have hoperands : r.graph.operands m = (src.operands x).map new := by
      rw [Graph.operands, hm, Node.operands_map]
      rfl
    rw [hoperands] at hk
    obtain ⟨j, hj, rfl⟩ := List.mem_map.1 hk
    have hsame : new j = (stagedOf j).node → StandsIn settings src r.graph root infos (new j) :=
      fun he => ⟨j, stagedOf j, hx.tail hj, hops j hj, he.symm⟩
    cases hnew with
    | uniform huniform => exact Or.inl (hsame (huniform j hj).1)
    | named hnamed hmixed =>
      have hname := hnamed j hj
      split at hname
      case isFalse => exact Or.inl (hsame hname)
      case isTrue hworth =>
        refine Or.inr (Or.inr ⟨⟨?_, deps, hall, ?_⟩, (stagedOf j).node, hname, ?_, hworth⟩)
        · rw [hm, isPlain_map, hplain]
        · -- the operand that makes the node mixed has a name as well
          obtain ⟨k, hk, hworth', hne⟩ := hmixed
          have hname' := hnamed k hk
          rw [if_pos hworth'] at hname'
          refine ⟨new k, List.mem_filter.2 ⟨?_, h.worthNaming_of_names hname'⟩,
            (stagedOf k).deps, ?_, hne⟩
          · exact hoperands ▸ List.mem_map_of_mem hk
          · exact hname'.settled h.nodup (h.allSettled hgiven)
              (h.settled_of_stands hgiven (hx.tail hk) (hops k hk))
        · exact ⟨j, stagedOf j, hx.tail hj, hops j hj, rfl⟩

/-- A node below a registered variable is one too, or stands for a node, or is a multi-index. -/
theorem below_cases (h : Outcome settings g i r src root infos) (hgiven : g.DirectionsGiven i)
    (hmem : info ∈ infos) (hn : r.graph.Reaches info.node n) :
    (∃ other ∈ infos, other.node = n) ∨ StandsIn settings src r.graph root infos n ∨
      ∃ items, r.graph.node n = .multiIndex items := by
  induction hn with
  | refl => exact Or.inl ⟨info, hmem, rfl⟩
  | @tail p n _ hn ih =>
    rcases ih with ⟨other, hother, rfl⟩ | hp | ⟨items, hitems⟩
    · exact Or.inr (Or.inl (h.standsIn_of_operand hother hn))
    · rcases h.operand_cases hgiven hp hn with hstands | hindex | ⟨-, c, hname, -⟩
      · exact Or.inr (Or.inl hstands)
      · exact Or.inr (Or.inr hindex)
      · obtain ⟨other, hother, hnode, -⟩ := hname
        exact Or.inl ⟨other, hother, hnode⟩
    · rw [Graph.operands_of_multiIndex hitems] at hn
      exact absurd hn List.not_mem_nil

/-! ## Minted variables -/

/-- A minted label is no label of the expression or of the variable around it. -/
theorem not_mem_labels_of_minted (h : Outcome settings g i r src root infos)
    (hminted : r.Minted g i info) : info.label ∉ src.labels root := by
  obtain ⟨-, hinput, hroot⟩ := hminted
  intro hmem
  obtain ⟨j, hj, hl⟩ := (Graph.mem_labels_iff h.wraps.root_mem).1 hmem
  rcases h.wraps.eq_or_reaches hj with rfl | hgj
  · exact hroot (Option.some.inj (hl.symm.trans h.root_label))
  · rw [h.wraps.grows.label?_eq (hgj.mem h.wraps.mem)] at hl
    exact hinput ((Graph.mem_labels_iff h.wraps.mem).2 ⟨j, hgj, hl⟩)

/-- A minted variable stands for no node. -/
theorem not_standsIn (h : Outcome settings g i r src root infos) (hmem : info ∈ infos)
    (hnew : info.label ∉ src.labels root) :
    ¬ StandsIn settings src r.graph root infos info.node := by
  rintro ⟨x, s, hx, hs, hnode⟩
  have hl := h.built.labels info hmem
  rw [← hnode] at hl
  have hx' := hs.label?_eq h.grows (hx.mem h.wraps.root_mem) h.built.labels hl
  exact hnew ((Graph.mem_labels_iff h.wraps.root_mem).2 ⟨x, hx, hx'⟩)

/-- A minted variable names an operand of a mixed node. -/
theorem exists_mixed (h : Outcome settings g i r src root infos) (hgiven : g.DirectionsGiven i)
    (hmem : info ∈ infos) (hnew : info.label ∉ src.labels root) :
    worthNaming (r.graph.node (r.graph.content info.node)) = true ∧
      ∃ top ∈ infos, ∃ n, r.graph.Reaches (r.graph.content top.node) n ∧
        info.node ∈ r.graph.operands n ∧ Mixed settings r.graph infos n := by
  obtain ⟨top, htop, hlabel, hreach⟩ := h.reached info hmem
  have hnot := h.not_standsIn hmem hnew
  rcases Relation.ReflTransGen.cases_tail hreach with he | ⟨n, hn, hoperand⟩
  · -- the variable of a label of the source is not minted
    have hsame := h.built.labels info hmem
    rw [he, h.built.labels top htop, Option.some.injEq] at hsame
    exact absurd (hsame ▸ hlabel) hnew
  -- of all nodes above, only a mixed one has a minted variable as an operand
  rcases h.below_cases hgiven htop hn with ⟨other, hother, rfl⟩ | hstands | ⟨items, hitems⟩
  · exact absurd (h.standsIn_of_operand hother hoperand) hnot
  · rcases h.operand_cases hgiven hstands hoperand with hin | ⟨items, hitems⟩ |
      ⟨hmixed, c, hname, hc, hworth⟩
    · exact absurd hin hnot
    · have hl := h.built.labels info hmem
      rw [Graph.label?, hitems] at hl
      cases hl
    · refine ⟨?_, top, htop, n, ?_, hoperand, hmixed⟩
      · obtain ⟨other, -, -, rfl | hnode⟩ := hname
        · exact absurd hc hnot
        · rwa [Graph.content_eq hnode]
      · rcases hn.cases_head with rfl | ⟨k, hk, hkn⟩
        · -- a mixed node is no variable
          have hl := h.built.labels top htop
          rw [Graph.label?, label?_of_isPlain hmixed.plain] at hl
          cases hl
        · obtain ⟨c', hc', hops⟩ := Graph.operands_of_label? (h.built.labels top htop)
          rw [hops, List.mem_singleton] at hk
          rwa [Graph.content_eq hc', ← hk]
  · rw [Graph.operands_of_multiIndex hitems] at hoperand
    exact absurd hoperand List.not_mem_nil

/-- The content of a minted variable is no variable. -/
theorem label?_content_of_minted (h : Outcome settings g i r src root infos) (hmem : info ∈ infos)
    (hnew : info.label ∉ src.labels root) : r.graph.label? (r.graph.content info.node) = none := by
  obtain ⟨before, after, hsplit⟩ := List.append_of_mem hmem
  cases (h.built.origin hsplit).2 with
  | source hv hi =>
    exact absurd ((Graph.mem_labels_iff h.wraps.root_mem).2
      ⟨_, Graph.reaches_of_firstVariable? h.wraps.root_mem hv, Graph.label?_of_firstVariable? hv⟩) hnew
  | minted _ _ _ hnode _ hcontent => rwa [Graph.content_eq hnode]

end Outcome

/-! ## The theorem -/

/-- The operands of a settled plain node that are worth a name depend on what the node depends on, or
are registered with their own sets. -/
theorem Staging.Settled.uniform_or_named {settings : Settings} {g : Graph} {n : NodeId}
    {d : DependencySet} {infos : List RegisteredVariable} (h : Settled settings g infos n d)
    (hplain : isPlain (g.node n) = true) :
    (∀ j ∈ g.worthyOperands n, Settled settings g infos j d) ∨
      ∀ j ∈ g.worthyOperands n, ∃ other ∈ infos, other.node = j ∧
        Settled settings g infos j other.deps := by
  cases h with
  | leaf h =>
    rw [isPlain_of_leafDeps h] at hplain
    cases hplain
  | labelled _ _ _ h => simp [h, isPlain] at hplain
  | derivative h => simp [h, isPlain] at hplain
  | operator deps _ hops _ hnames =>
    refine hnames.imp (fun huniform j hj => ?_) fun hnamed j hj => ?_
    · obtain ⟨hj, hworth⟩ := List.mem_filter.1 hj
      rw [← huniform j hj hworth]
      exact hops j hj
    · obtain ⟨hj, hworth⟩ := List.mem_filter.1 hj
      obtain ⟨l, hl⟩ := hnamed j hj hworth
      obtain ⟨c, hc, -⟩ := Graph.operands_of_label? hl
      obtain ⟨other, hother, hnode, hdeps, -⟩ := (hops j hj).cases_labelled hc
      exact ⟨other, hother, hnode, hdeps ▸ hops j hj⟩

/-- Promotion is exact. -/
theorem split_promotes_exactly {settings : Settings} {g : Graph} {i : NodeId} {r : SplitResult}
    (h : split settings g i = .ok r) (hgiven : g.DirectionsGiven i) :
    PromotesExactly settings g i r := by
  obtain ⟨src, root, infos, ho⟩ := outcome_of_split h
  have hok : settings.fault? = none := (split_eq_ok.1 h).1
  have hreaches : ∀ info ∈ infos, ∀ n, r.graph.Reaches (r.graph.content info.node) n →
      r.graph.Reaches info.node n := fun info hmem n hn =>
    Graph.Reaches.head (Graph.content_mem_operands (ho.built.labels info hmem)) hn
  have hmem : ∀ info ∈ infos, ∀ n, r.graph.Reaches info.node n → n ∈ r.graph :=
    fun info hinfo n hn => hn.mem (ho.built.labels.mem hinfo)
  have hrequirement : ∀ {n d}, n ∈ r.graph → Settled settings r.graph infos n d →
      requirement settings r.graph n = .ok d :=
    fun hn hsettled => (hsettled.exactDeps hok hn).requirement_eq
  have hoperand : ∀ {n j}, n ∈ r.graph → j ∈ r.graph.worthyOperands n → j ∈ r.graph :=
    fun hn hj => Graph.mem_of_mem_operands (List.mem_filter.1 hj).1 hn
  refine ⟨fun l info n hget hn hplain => ?_, fun info hminted => ?_, fun info hminted => ?_,
    fun info other hminted hminted' => ?_⟩
  · obtain ⟨hinfo, -⟩ := ho.get?_iff.1 hget
    have hn' := hreaches info hinfo n hn
    have hin := hmem info hinfo n hn'
    obtain ⟨d, hd⟩ := (ho.settled hgiven hinfo).of_reaches hn'
    refine ⟨d, hrequirement hin hd, ?_⟩
    refine (hd.uniform_or_named hplain).imp (fun huniform j hj => ?_) fun hnamed j hj => ?_
    · exact hrequirement (hoperand hin hj) (huniform j hj)
    · obtain ⟨other, hother, hnode, hsettled⟩ := hnamed j hj
      exact ⟨other.label, other, ho.get?_iff.2 ⟨hother, rfl⟩, hnode,
        hrequirement (hoperand hin hj) hsettled⟩
  · obtain ⟨hinfo, -⟩ := ho.get?_iff.1 hminted.1
    have hnew := ho.not_mem_labels_of_minted hminted
    exact ⟨(ho.exists_mixed hgiven hinfo hnew).1, ho.label?_content_of_minted hinfo hnew⟩
  · obtain ⟨hinfo, -⟩ := ho.get?_iff.1 hminted.1
    obtain ⟨-, top, htop, n, hn, hoperands, hmixed⟩ :=
      ho.exists_mixed hgiven hinfo (ho.not_mem_labels_of_minted hminted)
    have hin := hmem top htop n (hreaches top htop n hn)
    obtain ⟨d, hd, j, hj, e, he, hne⟩ := hmixed.exists_operand
    exact ⟨top.label, top, n, ho.get?_iff.2 ⟨htop, rfl⟩, hn, hmixed.plain, hoperands, j, hj, d, e,
      hrequirement hin hd, hrequirement (hoperand hin hj) he, hne⟩
  · exact ho.named_once info (ho.get?_iff.1 hminted.1).1 other (ho.get?_iff.1 hminted'.1).1
      (ho.not_mem_labels_of_minted hminted) (ho.not_mem_labels_of_minted hminted')

/-- A product that is an operand twice: of a sum with a coefficient, and of a product with this sum. -/
def sharedFactor : Graph :=
  .ofNodes [.argument ⟨0, []⟩, .coefficient ⟨0, none, []⟩, .product 0 1, .coefficient ⟨1, none, []⟩,
    .sum 2 3, .product 2 4]

/-- The sum has a name for the shared factor, and the outer product has none. -/
theorem split_promotes_exactly_sharedFactor :
    ∃ r, split (.ofForm (.ofExpression sharedFactor 5)) sharedFactor 5 = .ok r ∧
      sharedFactor.DirectionsGiven 5 ∧
      PromotesExactly (.ofForm (.ofExpression sharedFactor 5)) sharedFactor 5 r := by
  have hok : (split (.ofForm (.ofExpression sharedFactor 5)) sharedFactor 5).isOk = true := by cbv
  obtain ⟨r, hr⟩ := Except.exists_eq_ok hok
  have hmem : 5 ∈ sharedFactor := by cbv
  have hgiven : sharedFactor.DirectionsGiven 5 := Graph.directionsGiven_of_all hmem (by cbv)
  exact ⟨r, hr, hgiven, split_promotes_exactly hr hgiven⟩

end FormStaging
