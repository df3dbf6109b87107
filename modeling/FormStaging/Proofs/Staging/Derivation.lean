import FormStaging.Proofs.CodeStructure.Grouping
import FormStaging.Proofs.Graph.Variables
import FormStaging.Proofs.Staging.Runs

/-!
# Derivations of staged nodes

`Stands settings src g infos i r` says that the staged node `r` of a graph `g` stands for node `i` of
the source graph `src`, where the variables `infos` are registered. There is one rule for each kind
of layer, and a rule speaks about the layer and its operands only: a leaf stands for itself, a
variable is replaced by what is registered under its label, a derivative keeps its directions, and
an operator has operands that stand for the old ones, each of them under a name if they depend on
different things.

`Built` lists registered variables in the order of their registration. Every one of them has an
`Origin`: its content stands for a node of the source by a derivation that uses earlier variables
only. So what a derivation hands on from operands to nodes holds of all registered variables by
one induction on this order (`Built.forall_of_earlier`).
-/

set_option autoImplicit false

namespace FormStaging.Staging

/-! ## Registered labels and names -/

/-- A label is registered. -/
def Registers (infos : List RegisteredVariable) (l : Label) : Prop :=
  ∃ info ∈ infos, info.label = l

/-- The registered variables are nodes with their labels. -/
def Labels (g : Graph) (infos : List RegisteredVariable) : Prop :=
  ∀ info ∈ infos, g.label? info.node = some info.label

/-- Every variable at or below a node has a registered label. -/
def Ready (src : Graph) (infos : List RegisteredVariable) (i : NodeId) : Prop :=
  ∀ j l, src.Reaches i j → src.label? j = some l → Registers infos l

/-- A registered variable names a node: it is that node or a variable around it. -/
def Names (g : Graph) (infos : List RegisteredVariable) (n v : NodeId) : Prop :=
  ∃ info ∈ infos, info.node = v ∧ (v = n ∨ g.node v = .labelled n info.label)

section Growth

variable {src g g' : Graph} {infos infos' : List RegisteredVariable} {i j n v : NodeId}

theorem Registers.mono {l : Label} (hsub : infos ⊆ infos') (h : Registers infos l) :
    Registers infos' l := by
  obtain ⟨info, hmem, hl⟩ := h
  exact ⟨info, hsub hmem, hl⟩

theorem Labels.mem (h : Labels g infos) {info : RegisteredVariable} (hmem : info ∈ infos) :
    info.node ∈ g :=
  Graph.mem_of_label? (h info hmem)

theorem Ready.mono (hsub : infos ⊆ infos') (h : Ready src infos i) : Ready src infos' i :=
  fun j l hr hl => (h j l hr hl).mono hsub

theorem Ready.operand (h : Ready src infos i) (hj : j ∈ src.operands i) : Ready src infos j :=
  fun k l hr hl => h k l (Graph.Reaches.head hj hr) hl

theorem Names.mono (hg : g.Extends g') (hlabels : Labels g infos) (hsub : infos ⊆ infos')
    (h : Names g infos n v) : Names g' infos' n v := by
  obtain ⟨info, hmem, rfl, hname⟩ := h
  refine ⟨info, hsub hmem, rfl, ?_⟩
  rw [hg.node_eq _ (hlabels.mem hmem)]
  exact hname

/-- A name reaches what it names. -/
theorem Names.reaches (h : Names g infos n v) : g.Reaches v n := by
  obtain ⟨info, -, -, rfl | hv⟩ := h
  · exact Graph.Reaches.refl g v
  · refine Graph.Reaches.operand ?_
    rw [Graph.operands_of_labelled hv]
    exact List.mem_singleton.2 rfl

end Growth

/-! ## Derivations -/

section Derivations

variable (settings : Settings) (src g : Graph) (infos : List RegisteredVariable)

/-- How the operands `is` of a node that depends on `deps` are replaced, given what stands for each:
all by what stands for them, if those worth a name depend on `deps`; otherwise, if one of these depends
on something else, all those worth a name by their names. -/
inductive Replaces (is : List NodeId) (staged : NodeId → Staged) (deps : DependencySet)
    (new : NodeId → NodeId) : Prop where
  | uniform (h : ∀ j ∈ is, new j = (staged j).node ∧
      (worthNaming (g.node (staged j).node) = true → (staged j).deps = deps))
  | named (h : ∀ j ∈ is, if worthNaming (g.node (staged j).node) = true
      then Names g infos (staged j).node (new j) else new j = (staged j).node)
      (hmixed : ∃ j ∈ is, worthNaming (g.node (staged j).node) = true ∧ (staged j).deps ≠ deps)

/-- What stands for a node of the source. -/
inductive Stands : NodeId → Staged → Prop where
  | leaf {i : NodeId} {deps : DependencySet}
      (h : leafDeps settings (src.node i) = some deps) : Stands i ⟨i, deps⟩
  | labelled {i : NodeId} {info : RegisteredVariable}
      (h : src.label? i = some info.label) (hinfo : info ∈ infos) : Stands i ⟨info.node, info.deps⟩
  | derivative {i a b n : NodeId} {r : Staged} (h : src.node i = .spatialDerivative a b)
      (ha : Stands a r) (hb : Ready src infos b) (hmem : n ∈ g)
      (hn : g.node n = .spatialDerivative r.node b) : Stands i ⟨n, r.deps.withRuntime⟩
  | operator {i n : NodeId} {deps : DependencySet} (staged : NodeId → Staged)
      (new : NodeId → NodeId) (h : isPlain (src.node i) = true)
      (hops : ∀ j ∈ src.operands i, Stands j (staged j))
      (hdeps : settings.constant.unionAll ((src.operands i).map fun j => (staged j).deps) =
        .ok deps)
      (hnew : Replaces g infos (src.operands i) staged deps new) (hmem : n ∈ g)
      (hn : g.node n = (src.node i).map new) : Stands i ⟨n, deps⟩

end Derivations

section Derivations

variable {settings : Settings} {src g g' : Graph} {infos infos' : List RegisteredVariable}
  {i : NodeId} {r : Staged}

/-- What stands for a node belongs to the graph. -/
theorem Stands.mem (h : Stands settings src g infos i r) (hsrc : src.Extends g) (hi : i ∈ src)
    (hlabels : Labels g infos) : r.node ∈ g := by
  cases h with
  | leaf => exact hsrc.mem hi
  | labelled _ hinfo => exact hlabels.mem hinfo
  | derivative _ _ _ hmem => exact hmem
  | operator _ _ _ _ _ _ hmem => exact hmem

/-- A new operand reaches what stands for the old one. -/
theorem Replaces.reaches {is : List NodeId} {staged : NodeId → Staged} {deps : DependencySet}
    {new : NodeId → NodeId} (h : Replaces g infos is staged deps new) {j : NodeId} (hj : j ∈ is) :
    g.Reaches (new j) (staged j).node := by
  cases h with
  | uniform h =>
    rw [(h j hj).1]
    exact Graph.Reaches.refl _ _
  | named h =>
    have hname := h j hj
    split at hname
    · exact hname.reaches
    · rw [hname]
      exact Graph.Reaches.refl _ _

theorem Replaces.mono {is : List NodeId} {staged : NodeId → Staged} {deps : DependencySet}
    {new : NodeId → NodeId} (hg : g.Extends g') (hlabels : Labels g infos) (hsub : infos ⊆ infos')
    (hmem : ∀ j ∈ is, (staged j).node ∈ g) (h : Replaces g infos is staged deps new) :
    Replaces g' infos' is staged deps new := by
  cases h with
  | uniform h =>
    refine .uniform fun j hj => ?_
    rw [hg.node_eq _ (hmem j hj)]
    exact h j hj
  | named h hmixed =>
    refine .named (fun j hj => ?_) ?_
    · have hname := h j hj
      rw [hg.node_eq _ (hmem j hj)]
      split at hname
      case isTrue hworth =>
        rw [if_pos hworth]
        exact hname.mono hg hlabels hsub
      case isFalse hworth =>
        rw [if_neg hworth]
        exact hname
    · obtain ⟨j, hj, hworth, hne⟩ := hmixed
      refine ⟨j, hj, ?_, hne⟩
      rw [hg.node_eq _ (hmem j hj)]
      exact hworth

/-- A derivation stays one. Neither new nodes nor new variables invalidate it. -/
theorem Stands.mono (h : Stands settings src g infos i r) (hsrc : src.Extends g)
    (hg : g.Extends g') (hlabels : Labels g infos) (hsub : infos ⊆ infos') (hi : i ∈ src) :
    Stands settings src g' infos' i r := by
  induction h with
  | leaf h => exact .leaf h
  | labelled h hinfo => exact .labelled h (hsub hinfo)
  | @derivative i a b n r h ha hb hmem hn ih =>
    have ha' : a ∈ src :=
      Graph.mem_of_mem_operands (by simp [Graph.operands_of_derivative h]) hi
    refine .derivative h (ih ha') (hb.mono hsub) (hg.mem hmem) ?_
    rw [hg.node_eq _ hmem, hn]
  | @operator i n deps staged new h hops hdeps hnew hmem hn ih =>
    have hin : ∀ j ∈ src.operands i, j ∈ src := fun j hj => Graph.mem_of_mem_operands hj hi
    have hnew' := hnew.mono hg hlabels hsub fun j hj => (hops j hj).mem hsrc (hin j hj) hlabels
    refine .operator staged new h (fun j hj => ih j hj (hin j hj)) hdeps hnew' (hg.mem hmem) ?_
    rw [hg.node_eq _ hmem, hn]

/-- A variable stands for a node only if it is registered. -/
theorem Stands.exists_info (h : Stands settings src g infos i r) (hsrc : src.Extends g)
    (hi : i ∈ src) (hlabels : Labels g infos) {l : Label} (hl : g.label? r.node = some l) :
    ∃ info ∈ infos, info.label = l ∧ r = ⟨info.node, info.deps⟩ := by
  cases h with
  | @leaf i deps h =>
    -- only the rule for variables gives a variable
    rw [Graph.label?, hsrc.node_eq i hi, label?_of_leafDeps h] at hl
    cases hl
  | @labelled i info _ hinfo =>
    refine ⟨info, hinfo, ?_, rfl⟩
    exact Option.some.inj ((hlabels info hinfo).symm.trans hl)
  | derivative _ _ _ _ hn => simp [Graph.label?, hn, Node.label?] at hl
  | @operator i n deps staged new h _ _ _ _ hn =>
    rw [Graph.label?, hn, Node.label?_map, label?_of_isPlain h] at hl
    cases hl

end Derivations

/-! ## Registered variables -/

/-- Where a registered variable comes from: it is the variable of a label of the source, around what
stands for the content of the first node with this label, or it has a new label, around what stands
for some node and is no variable. -/
inductive Origin (settings : Settings) (src : Graph) (root : NodeId) (g : Graph)
    (earlier : List RegisteredVariable) (info : RegisteredVariable) : Prop where
  | source {v i : NodeId} {r : Staged} (hv : src.firstVariable? root info.label = some v)
      (hi : src.node v = .labelled i info.label) (h : Stands settings src g earlier i r)
      (hnode : g.node info.node = .labelled r.node info.label) (hdeps : info.deps = r.deps)
  | minted {i : NodeId} {r : Staged} (hnew : info.label ∉ src.labels root)
      (hi : src.Reaches root i) (h : Stands settings src g earlier i r)
      (hnode : g.node info.node = .labelled r.node info.label) (hdeps : info.deps = r.deps)
      (hcontent : g.label? r.node = none)

/-- The registered variables in the order of registration, each with its origin. -/
inductive Built (settings : Settings) (src : Graph) (root : NodeId) (g : Graph) :
    List RegisteredVariable → Prop where
  | nil : Built settings src root g []
  | concat {infos : List RegisteredVariable} {info : RegisteredVariable}
      (h : Built settings src root g infos) (ho : Origin settings src root g infos info) :
      Built settings src root g (infos ++ [info])

section Registered

variable {settings : Settings} {src g g' : Graph} {root : NodeId}
  {infos : List RegisteredVariable} {info : RegisteredVariable}

/-- The content of a registered variable stands for a node of the source. -/
theorem Origin.exists_stands (h : Origin settings src root g infos info) (hroot : root ∈ src) :
    ∃ i r, src.Reaches root i ∧ Stands settings src g infos i r ∧
      g.node info.node = .labelled r.node info.label ∧ info.deps = r.deps := by
  cases h with
  | @source v i r hv hi h hnode hdeps =>
    refine ⟨i, r, (Graph.reaches_of_firstVariable? hroot hv).tail ?_, h, hnode, hdeps⟩
    rw [Graph.operands_of_labelled hi]
    exact List.mem_singleton.2 rfl
  | @minted i r _ hi h hnode hdeps => exact ⟨i, r, hi, h, hnode, hdeps⟩

theorem Origin.label? (h : Origin settings src root g infos info) :
    g.label? info.node = some info.label := by
  cases h with
  | source _ _ _ hnode => exact Graph.label?_of_labelled hnode
  | minted _ _ _ hnode => exact Graph.label?_of_labelled hnode

theorem Origin.mono (hsrc : src.Extends g) (hg : g.Extends g') (hroot : root ∈ src)
    (hlabels : Labels g infos) (h : Origin settings src root g infos info) :
    Origin settings src root g' infos info := by
  have hmem : info.node ∈ g := Graph.mem_of_label? h.label?
  cases h with
  | @source v i r hv hi h hnode hdeps =>
    have hin : i ∈ src := by
      refine Graph.mem_of_mem_operands (i := v) ?_ ((Graph.reaches_of_firstVariable? hroot hv).mem hroot)
      rw [Graph.operands_of_labelled hi]
      exact List.mem_singleton.2 rfl
    refine .source hv hi (h.mono hsrc hg hlabels (List.Subset.refl _) hin) ?_ hdeps
    rw [hg.node_eq _ hmem, hnode]
  | @minted i r hnew hi h hnode hdeps hcontent =>
    have hi' := hi.mem hroot
    refine .minted hnew hi (h.mono hsrc hg hlabels (List.Subset.refl _) hi') ?_ hdeps ?_
    · rw [hg.node_eq _ hmem, hnode]
    · rw [hg.label?_eq (h.mem hsrc hi' hlabels), hcontent]

namespace Built

theorem labels (h : Built settings src root g infos) : Labels g infos := by
  induction h with
  | nil => exact List.forall_mem_nil _
  | concat _ ho ih =>
    intro other hmem
    rcases List.mem_append.1 hmem with hmem | hmem
    · exact ih other hmem
    · rw [List.mem_singleton.1 hmem]
      exact ho.label?

theorem mono (hsrc : src.Extends g) (hg : g.Extends g') (hroot : root ∈ src)
    (h : Built settings src root g infos) : Built settings src root g' infos := by
  induction h with
  | nil => exact .nil
  | concat h ho ih => exact .concat ih (ho.mono hsrc hg hroot h.labels)

/-- Induction on the order of registration. What holds of a variable whenever it holds of the
earlier ones holds of every registered variable. -/
theorem forall_of_earlier {P : RegisteredVariable → Prop} (h : Built settings src root g infos)
    (step : ∀ earlier ⊆ infos, ∀ info ∈ infos, Built settings src root g earlier →
      Origin settings src root g earlier info → (∀ other ∈ earlier, P other) → P info) :
    ∀ info ∈ infos, P info := by
  induction h with
  | nil => exact List.forall_mem_nil _
  | @concat infos info h ho ih =>
    have hsub : infos ⊆ infos ++ [info] := List.subset_append_left _ _
    -- the variables before the last one are all that an earlier one may use
    have hall := ih fun earlier he other ho' =>
      step earlier (List.Subset.trans he hsub) other (hsub ho')
    intro other hmem
    rcases List.mem_append.1 hmem with hmem' | hmem'
    · exact hall other hmem'
    · rw [List.mem_singleton.1 hmem']
      exact step infos hsub info (by simp) h ho hall

/-- Every registered variable has its origin in the earlier ones. -/
theorem origin (h : Built settings src root g infos) {before after : List RegisteredVariable}
    (hsplit : infos = before ++ info :: after) :
    Built settings src root g before ∧ Origin settings src root g before info := by
  induction h generalizing after with
  | nil => simp at hsplit
  | @concat infos last h ho ih =>
    rcases List.eq_nil_or_concat after with rfl | ⟨rest, last', rfl⟩
    · obtain ⟨rfl, hlast⟩ := List.append_inj' hsplit rfl
      rw [List.cons.injEq] at hlast
      rw [← hlast.1]
      exact ⟨h, ho⟩
    · rw [List.concat_eq_append, ← List.cons_append, ← List.append_assoc] at hsplit
      exact ih (List.append_inj' hsplit rfl).1

/-- The content of every registered variable stands for a node of the source. -/
theorem exists_stands (h : Built settings src root g infos) (hsrc : src.Extends g)
    (hroot : root ∈ src) (hmem : info ∈ infos) :
    ∃ i r, src.Reaches root i ∧ Stands settings src g infos i r ∧
      g.node info.node = .labelled r.node info.label ∧ info.deps = r.deps := by
  obtain ⟨before, after, rfl⟩ := List.append_of_mem hmem
  obtain ⟨hbefore, horigin⟩ := h.origin rfl
  obtain ⟨i, r, hi, hstands, hnode, hdeps⟩ := horigin.exists_stands hroot
  exact ⟨i, r, hi, hstands.mono hsrc (Graph.Extends.refl g) hbefore.labels
    (List.subset_append_left _ _) (hi.mem hroot), hnode, hdeps⟩

end Built

end Registered

end FormStaging.Staging
