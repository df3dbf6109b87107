import FormStaging.Proofs.Promotion
import FormStaging.Proofs.Staging.Calls
import FormStaging.Proofs.Staging.Reuse

/-!
# Reuse is exact

A node of the input is kept in the result if nothing below it has to be changed, and only then. What has
to be changed is said by `Touched`, for one node: it is an operator over operands that depend on
different things, and one of these is no variable, so that it gets a name; or it is a variable, and what
is registered under its label is another node. The main statement, `split_reuses_exactly`, says that the
result for a node is this node exactly if staging meets no touched node from it. A split that changes
nothing gives back the input itself.
-/

set_option autoImplicit false

namespace FormStaging

open Staging

/-! ## Touched nodes -/

section Touched

variable (settings : Settings) (g : Graph) (registered : Label → Option RegisteredVariable)

/-- What a node depends on: a variable on what is registered under its label, a leaf on what is declared
for it, and any other node on what its operands depend on. A derivative depends on run-time values too. -/
inductive Depends : NodeId → DependencySet → Prop where
  | leaf {i : NodeId} {d : DependencySet} (h : leafDeps settings (g.node i) = some d) : Depends i d
  | labelled {i : NodeId} {l : Label} {info : RegisteredVariable} (h : g.label? i = some l)
      (hget : registered l = some info) : Depends i info.deps
  | derivative {i a b : NodeId} {d : DependencySet} (h : g.node i = .spatialDerivative a b)
      (ha : Depends a d) : Depends i d.withRuntime
  | operator {i : NodeId} {d : DependencySet} (deps : NodeId → DependencySet)
      (h : isPlain (g.node i) = true) (hops : ∀ j ∈ g.operands i, Depends j (deps j))
      (hdeps : settings.constant.unionAll ((g.operands i).map deps) = .ok d) : Depends i d

/-- A node does not stand for itself, even if the nodes entered from it do. -/
inductive Touched (n : NodeId) : Prop where
  /-- An operand worth a name depends on something else than the operator, and one is no variable. -/
  | named {d e : DependencySet} {j k : NodeId} (h : isPlain (g.node n) = true)
      (hn : Depends settings g registered n d) (hj : j ∈ g.worthyOperands n)
      (he : Depends settings g registered j e) (hne : e ≠ d) (hk : k ∈ g.worthyOperands n)
      (hl : g.label? k = none)
  /-- A variable is not the one that is registered under its label. -/
  | replaced {l : Label} {info : RegisteredVariable} (h : g.label? n = some l)
      (hget : registered l = some info) (hne : info.node ≠ n)

end Touched

section Local

variable {settings : Settings} {g : Graph} {registered : Label → Option RegisteredVariable}
  {i j n : NodeId} {d d' : DependencySet} {l : Label}

theorem Graph.mem_worthyOperands :
    j ∈ g.worthyOperands n ↔ j ∈ g.operands n ∧ worthNaming (g.node j) = true :=
  List.mem_filter

/-- A node depends on at most one set. -/
theorem Depends.functional (h : Depends settings g registered i d)
    (h' : Depends settings g registered i d') : d = d' := by
  induction h generalizing d' with
  | leaf h =>
    cases h' with
    | leaf h' => exact Option.some.inj (h.symm.trans h')
    | labelled h' =>
      rw [Graph.label?, label?_of_leafDeps h] at h'
      cases h'
    | derivative h' => simp [h', leafDeps] at h
    | operator _ h' =>
      rw [isPlain_of_leafDeps h] at h'
      cases h'
  | labelled h hget =>
    cases h' with
    | leaf h' =>
      rw [Graph.label?, label?_of_leafDeps h'] at h
      cases h
    | labelled h' hget' =>
      rw [h, Option.some.injEq] at h'
      rw [← h', hget, Option.some.injEq] at hget'
      rw [hget']
    | derivative h' => simp [Graph.label?, h', Node.label?] at h
    | operator _ h' =>
      rw [Graph.label?, label?_of_isPlain h'] at h
      cases h
  | derivative h _ ih =>
    cases h' with
    | leaf h' => simp [h, leafDeps] at h'
    | labelled h' => simp [Graph.label?, h, Node.label?] at h'
    | derivative h' ha =>
      rw [h] at h'
      obtain ⟨rfl, -⟩ := Node.spatialDerivative.inj h'
      rw [ih ha]
    | operator _ h' => simp [h, isPlain] at h'
  | operator deps h _ hdeps ih =>
    cases h' with
    | leaf h' =>
      rw [isPlain_of_leafDeps h'] at h
      cases h
    | labelled h' =>
      rw [Graph.label?, label?_of_isPlain h] at h'
      cases h'
    | derivative h' => simp [h', isPlain] at h
    | operator deps' _ hops' hdeps' =>
      rw [List.map_congr_left fun j hj => ih j hj (hops' j hj), hdeps'] at hdeps
      exact (Except.ok.inj hdeps).symm

/-- An operator is touched exactly if it names an operand that is no variable. -/
theorem touched_iff_of_isPlain {deps : NodeId → DependencySet} (h : isPlain (g.node n) = true)
    (hn : Depends settings g registered n d)
    (hops : ∀ j ∈ g.operands n, Depends settings g registered j (deps j)) :
    Touched settings g registered n ↔
      (∃ k ∈ g.operands n, worthNaming (g.node k) = true ∧ deps k ≠ d) ∧
        ∃ j ∈ g.operands n, worthNaming (g.node j) = true ∧ g.label? j = none := by
  constructor
  · rintro (⟨-, hn', hj, he, hne, hk, hl⟩ | ⟨hl, -, -⟩)
    · rw [Graph.mem_worthyOperands] at hj hk
      refine ⟨⟨_, hj.1, hj.2, ?_⟩, _, hk.1, hk.2, hl⟩
      rwa [(hops _ hj.1).functional he, hn.functional hn']
    · rw [Graph.label?, label?_of_isPlain h] at hl
      cases hl
  · rintro ⟨⟨j, hj, hworth, hne⟩, k, hk, hworth', hl⟩
    exact .named h hn (Graph.mem_worthyOperands.2 ⟨hj, hworth⟩) (hops j hj) hne
      (Graph.mem_worthyOperands.2 ⟨hk, hworth'⟩) hl

/-- A node that is neither an operator nor a variable is not touched. -/
theorem not_touched (h : isPlain (g.node n) = false) (hl : g.label? n = none) :
    ¬ Touched settings g registered n := by
  rintro (⟨h', -⟩ | ⟨hl', -, -⟩)
  · rw [h] at h'
    cases h'
  · rw [hl] at hl'
    cases hl'

theorem touched_iff_of_label? {info : RegisteredVariable} (hl : g.label? n = some l)
    (hget : registered l = some info) :
    Touched settings g registered n ↔ info.node ≠ n := by
  constructor
  · rintro (⟨h, -⟩ | ⟨hl', hget', hne⟩)
    · rw [Graph.label?, label?_of_isPlain h] at hl
      cases hl
    · rw [hl, Option.some.injEq] at hl'
      rw [← hl', hget, Option.some.injEq] at hget'
      rwa [hget']
  · exact .replaced hl hget

end Local

/-- The content of a variable of a wrapped expression belongs to the input. -/
theorem Wraps.exists_content {g src : Graph} {i root v : NodeId} {l : Label}
    (h : Wraps g i src root) (hv : src.Reaches root v) (hl : src.label? v = some l) :
    ∃ c, src.node v = .labelled c l ∧ c ∈ g := by
  obtain ⟨c, hc, hops⟩ := Graph.operands_of_label? hl
  have hcv : c ∈ src.operands v := by simp [hops]
  refine ⟨c, hc, ?_⟩
  rcases h.eq_or_reaches (hv.tail hcv) with rfl | hic
  · exact absurd (Graph.lt_of_mem_operands hcv) (Nat.not_lt_of_le hv.le)
  · exact hic.mem h.mem

/-! ## Reading the memo -/

namespace Staging

variable {ctx : Context} {settings : Settings} {src : Graph} {s s' : State} {i j m v c : NodeId}
  {r : Staged} {l : Label}

theorem Explained.entered (h : Explained settings src s i r) :
    ∀ j ∈ src.entered i, ∃ r', s.staged[j]? = some r' := by
  cases h with
  | leaf h =>
    intro j hj
    have hops : src.operands i = [] := operands_of_leafDeps h
    have hmem := Graph.entered_subset src i hj
    rw [hops] at hmem
    cases hmem
  | labelled h => simp [Graph.entered_of_label? h]
  | derivative h ha => simp [Graph.entered_of_derivative h, ha]
  | operator results h hops =>
    rw [Graph.entered_of_isPlain h]
    exact fun j hj => ⟨_, hops j hj⟩

namespace Traced

/-- A node has the dependency set of its result. -/
theorem depends (h : Traced settings src s) :
    ∀ i r, s.staged[i]? = some r → Depends settings src s.code.get? i r.deps := by
  refine src.induction fun i ih r hr => ?_
  cases (h.staged i r hr).2.explained with
  | leaf h => exact .leaf h
  | labelled h hget => exact .labelled h hget
  | @derivative a b n r' h' ha =>
    exact .derivative h' (ih a (by simp [Graph.operands_of_derivative h']) r' ha)
  | operator results h' hops hdeps =>
    exact .operator (fun j => (results j).deps) h' (fun j hj => ih j hj _ (hops j hj)) hdeps

/-- The result for a node is this node exactly if it is not touched and the same is true of the nodes
entered from it. -/
theorem node_eq_iff_of_entered (h : Traced settings src s) (hr : s.staged[i]? = some r) :
    r.node = i ↔ ¬ Touched settings src s.code.get? i ∧
      ∀ j ∈ src.entered i, ∀ r', s.staged[j]? = some r' → r'.node = j := by
  have hdepends := h.depends i r hr
  cases (h.staged i r hr).2.explained with
  | leaf h =>
    have hops : src.operands i = [] := operands_of_leafDeps h
    refine iff_of_true rfl ⟨not_touched (isPlain_of_leafDeps h) (label?_of_leafDeps h), fun j hj => ?_⟩
    have hmem := Graph.entered_subset src i hj
    rw [hops] at hmem
    cases hmem
  | labelled h hget =>
    rw [touched_iff_of_label? h hget, Graph.entered_of_label? h]
    simp
  | derivative h ha hn =>
    have hnot : ¬ Touched settings src s.code.get? i :=
      not_touched (by rw [h]; rfl) (by rw [Graph.label?, h]; rfl)
    rw [hn, Graph.entered_of_derivative h]
    simp [hnot, ha]
  | operator results h' hops hdeps hn =>
    have hdeps' : ∀ j ∈ src.operands i, Depends settings src s.code.get? j (results j).deps :=
      fun j hj => h.depends j _ (hops j hj)
    rw [hn, touched_iff_of_isPlain h' hdepends hdeps', Graph.entered_of_isPlain h']
    constructor
    · intro hall
      refine ⟨?_, fun j hj r' hr' => ?_⟩
      · rintro ⟨hmixed, j, hj, hworth, hl⟩
        obtain ⟨l, hl'⟩ := (hall j hj).2 hmixed hworth
        rw [hl] at hl'
        cases hl'
      · rw [hops j hj, Option.some.injEq] at hr'
        rw [← hr']
        exact (hall j hj).1
    · rintro ⟨hnot, hsame⟩ j hj
      refine ⟨hsame j hj _ (hops j hj), fun hmixed hworth => ?_⟩
      rw [← Option.isSome_iff_exists, ← Option.ne_none_iff_isSome]
      exact fun hl => hnot ⟨hmixed, j, hj, hworth, hl⟩

/-- From a staged node only staged nodes are met. -/
theorem exists_staged_of_meets (h : Traced settings src s) (hr : s.staged[i]? = some r)
    (hm : src.Meets i m) : ∃ r', s.staged[m]? = some r' := by
  induction hm with
  | refl => exact ⟨r, hr⟩
  | tail _ hm ih =>
    obtain ⟨r', hr'⟩ := ih
    exact (h.staged _ r' hr').2.explained.entered _ hm

/-- The result for a node is this node exactly if no touched node is met from it. -/
theorem node_eq_iff (h : Traced settings src s) : ∀ i r, s.staged[i]? = some r →
    (r.node = i ↔ ∀ m, src.Meets i m → ¬ Touched settings src s.code.get? m) := by
  refine src.induction fun i ih r hr => ?_
  rw [h.node_eq_iff_of_entered hr]
  constructor
  · rintro ⟨hnot, hsame⟩ m hm
    rcases Relation.ReflTransGen.cases_head hm with rfl | ⟨j, hj, hjm⟩
    · exact hnot
    · obtain ⟨r', hr'⟩ := (h.staged i r hr).2.explained.entered j hj
      exact (ih j (Graph.entered_subset src i hj) r' hr').1 (hsame j hj r' hr') m hjm
  · intro hall
    refine ⟨hall i .refl, fun j hj r' hr' => ?_⟩
    exact (ih j (Graph.entered_subset src i hj) r' hr').2 fun m hm => hall m (.head hj hm)

end Traced

/-! ## Variables -/

/-- A content with its variable: what is registered under a label is around the result for this node. -/
def RegistersResult (s : State) (l : Label) (c : NodeId) : Prop :=
  ∀ info, s.code.get? l = some info →
    ∃ r, s.staged[c]? = some r ∧ s.graph.node info.node = .labelled r.node l

theorem registerContent_eq_ok {info : RegisteredVariable} (hv : s.graph.node v = .labelled c l)
    (hnew : s.code.get? l = none) (h : (registerContent ctx v c l r).run s = .ok info s') :
    s'.graph.node info.node = .labelled r.node l ∧ s'.code = s.code.insert info ∧ info.label = l := by
  rw [registerContent, run_ite_bind_eq_ok] at h
  obtain ⟨w, s₁, hw, hregister⟩ := h
  obtain ⟨-, hstate, hnode⟩ := variable_eq_ok hv hw
  have hnew₁ : s₁.code.get? l = none := by rw [hstate]; exact hnew
  rw [run_register_of_label? (Graph.label?_of_labelled hnode)] at hregister
  obtain ⟨rfl, labels, -, rfl⟩ :=
    (registerCandidate_new_eq_ok (c := ⟨s₁.graph, w, l⟩) hnew₁).1 hregister
  exact ⟨hnode, by rw [hstate], rfl⟩

theorem stageVariable_traced {info : RegisteredVariable} (h : Traced ctx.settings src s)
    (hv : s.graph.node v = .labelled c l) (hc : c ∈ src)
    (hrun : (stageVariable ctx v).run s = .ok info s') : Traced ctx.settings src s' := by
  cases hget : s.code.get? l with
  | some known =>
    rw [run_stageVariable_of_registered hv hget] at hrun
    cases hrun
    exact h
  | none =>
    rw [run_stageVariable_of_new hv hget] at hrun
    obtain ⟨_, s₀, hreserve, hrun⟩ := run_bind_eq_ok.1 hrun
    obtain ⟨r, s₁, hr, hregister⟩ := run_bind_eq_ok.1 hrun
    have h₀ : Traced ctx.settings src s₀ :=
      h.of_memos_eq ((Evolves.reserveLabels v).steps hreserve)
        (Leaves.part_eq (.reserveLabels (fun _ _ => rfl) v) hreserve)
    obtain ⟨h₁, -⟩ := stage_traced ctx src _ h₀ hc hr
    exact h₁.of_memos_eq ((Evolves.registerContent v c l r).steps hregister)
      ((Leaves.registerContent_memos v c l r).part_eq hregister)

/-- A variable is registered around the result for its content, and no other of the labels that are
avoided is registered. -/
theorem stageVariable_registersResult {info : RegisteredVariable} {l' : Label} {c' : NodeId}
    (hs : Faithful s) (hv : s.graph.node v = .labelled c l) (hl : l'.value < s.labels.next)
    (hsame : l = l' → c = c') (h : RegistersResult s l' c')
    (hrun : (stageVariable ctx v).run s = .ok info s') : RegistersResult s' l' c' := by
  cases hget : s.code.get? l with
  | some known =>
    rw [run_stageVariable_of_registered hv hget] at hrun
    cases hrun
    exact h
  | none =>
    have hmem : v ∈ s.graph := Graph.mem_of_label? (Graph.label?_of_labelled hv)
    have hc : c ∈ s.graph :=
      Graph.mem_of_mem_operands (by simp [Graph.operands_of_labelled hv]) hmem
    have hsteps := (Evolves.stageVariable v).steps hrun
    rw [run_stageVariable_of_new hv hget] at hrun
    obtain ⟨_, s₀, hreserve, hrun⟩ := run_bind_eq_ok.1 hrun
    obtain ⟨r, s₁, hr, hregister⟩ := run_bind_eq_ok.1 hrun
    have hsteps₀ : Steps s s₀ := (Evolves.reserveLabels v).steps hreserve
    obtain ⟨h₁, -⟩ := (stage_ensures ctx _ ((reserveLabels_ensures hs v).of_ok hreserve)
      (hsteps₀.grows.mem hc)).of_ok hr
    have hv₁ : s₁.graph.node v = .labelled c l := by
      rw [((Evolves.stage _ c).steps hr).grows.node_eq v (hsteps₀.grows.mem hmem),
        hsteps₀.grows.node_eq v hmem, hv]
    have hlt : l.value.val < s.firstMinted v :=
      State.lt_firstMinted hmem (.refl _ v) (Graph.label?_of_labelled hv)
    obtain ⟨hnode, hcode, rfl⟩ :=
      registerContent_eq_ok hv₁ ((h₁.below l hlt).trans hget) hregister
    have hkept : s'.staged = s₁.staged := (Leaves.registerContent v c _ r).part_eq hregister
    intro other hother
    rw [hcode, CodeStructure.get?_insert] at hother
    rw [hkept]
    split at hother
    case isTrue heq =>
      cases hother
      rw [← hsame heq, ← heq]
      exact ⟨r, staged_of_stage hr, hnode⟩
    case isFalse =>
      -- this label was registered before
      rw [h₁.below l' (Nat.lt_of_lt_of_le hl (s.next_le_firstMinted v))] at hother
      obtain ⟨r', hr', hnode'⟩ := h other hother
      obtain ⟨labels, -, rfl⟩ := reserveLabels_eq_ok.1 hreserve
      refine ⟨r', ((FillsBelow.stage ctx _ c).fills hr).kept c' r' hr', ?_⟩
      rw [hsteps.grows.node_eq _ (Graph.mem_of_label? (Graph.label?_of_labelled hnode')), hnode']

/-- What each variable of a list keeps is kept by all of them. -/
theorem stageVariables_keep {P : State → Prop} {vs : List NodeId}
    (hstep : ∀ v ∈ vs, ∀ s info s', P s → (stageVariable ctx v).run s = .ok info s' → P s')
    (hs : P s) (hrun : (stageVariables ctx vs).run s = .ok () s') : P s' := by
  induction vs generalizing s with
  | nil =>
    obtain ⟨-, rfl⟩ := run_pure_eq_ok.1 hrun
    exact hs
  | cons v vs ih =>
    obtain ⟨info, s₁, hv, hrest⟩ := stageVariables_cons_eq_ok.1 hrun
    obtain ⟨hfirst, hstep⟩ := List.forall_mem_cons.1 hstep
    exact ih hstep (hfirst s info s₁ hs hv) hrest

/-! ## The run of a split -/

section Run

variable {g : Graph} {root : NodeId} {s₁ s₂ s₃ : State} {info : RegisteredVariable}

/-- All nodes that a split stages are nodes of the input. -/
theorem traced_of_stageVariables (hwraps : Wraps g i s₁.graph root) (h : Traced ctx.settings g s₁)
    (hvars : (stageVariables ctx (s₁.graph.variables root)).run s₁ = .ok () s₂)
    (hroot : (stageVariable ctx root).run s₂ = .ok info s₃) : Traced ctx.settings g s₃ := by
  -- every variable keeps the invariant, the root among them
  have hstep : ∀ v, s₁.graph.Reaches root v → ∀ l, s₁.graph.label? v = some l → ∀ s info s',
      s₁.graph.Extends s.graph ∧ Traced ctx.settings g s →
      (stageVariable ctx v).run s = .ok info s' →
      s₁.graph.Extends s'.graph ∧ Traced ctx.settings g s' := by
    rintro v hv l hl s info s' ⟨hg, hs⟩ hrun
    obtain ⟨c, hnode, hc⟩ := hwraps.exists_content hv hl
    rw [← hg.node_eq v (hv.mem hwraps.root_mem)] at hnode
    exact ⟨hg.trans ((Evolves.stageVariable v).steps hrun).grows,
      stageVariable_traced hs hnode hc hrun⟩
  have h₂ : s₁.graph.Extends s₂.graph ∧ Traced ctx.settings g s₂ := by
    refine stageVariables_keep (P := fun s => s₁.graph.Extends s.graph ∧ Traced ctx.settings g s)
      (fun v hv => ?_) ⟨.refl _, h⟩ hvars
    obtain ⟨l, hl, hfirst⟩ := Graph.firstVariable?_of_mem_variables hv
    exact hstep v (Graph.reaches_of_firstVariable? hwraps.root_mem hfirst) l hl
  obtain ⟨l, hl⟩ := hwraps.exists_label
  exact (hstep root (.refl _ _) l hl s₂ info s₃ h₂ hroot).2

/-- What is true between the variables of a split: those registered under label `l` are around the result
for node `i`. -/
structure Rooted (src : Graph) (bound : Fin Label.count) (l : Label) (i : NodeId) (s : State) : Prop where
  grows : src.Extends s.graph
  faithful : Faithful s
  bound_le : bound ≤ s.labels.next
  registers : RegistersResult s l i

/-- The variable around an input that is no variable is registered around the result for the input. -/
theorem exists_result_of_stageVariables (hwraps : Wraps g i s₁.graph root) (hne : root ≠ i)
    (hs : Faithful s₁) (hl : s₁.graph.label? root = some l) (hlt : l.value < s₁.labels.next)
    (hnew : s₁.code.get? l = none)
    (hvars : (stageVariables ctx (s₁.graph.variables root)).run s₁ = .ok () s₂)
    (hroot : (stageVariable ctx root).run s₂ = .ok info s₃) :
    ∃ res, s₃.staged[i]? = some res ∧ s₃.graph.node info.node = .labelled res.node l := by
  have hstep : ∀ v, s₁.graph.Reaches root v → ∀ m, s₁.graph.label? v = some m → ∀ s info s',
      Rooted s₁.graph s₁.labels.next l i s → (stageVariable ctx v).run s = .ok info s' →
      Rooted s₁.graph s₁.labels.next l i s' := by
    intro v hv m hm s info s' h hrun
    have hsteps := (Evolves.stageVariable v).steps hrun
    obtain ⟨c, hnode, -⟩ := hwraps.exists_content hv hm
    -- the root is the only variable with its label
    have hcontent : m = l → c = i := by
      rintro rfl
      obtain rfl := hwraps.eq_root_of_label? hne hl hv hm
      rw [← hwraps.content_root hne, Graph.content_eq hnode]
    rw [← h.grows.node_eq v (hv.mem hwraps.root_mem)] at hnode
    exact ⟨h.grows.trans hsteps.grows, ((stageVariable_ensures ctx h.faithful v).of_ok hrun).faithful,
      Nat.le_trans h.bound_le hsteps.next_le, stageVariable_registersResult h.faithful hnode
        (Nat.lt_of_lt_of_le hlt h.bound_le) hcontent h.registers hrun⟩
  have hstart : RegistersResult s₁ l i := by
    intro other hother
    rw [hnew] at hother
    cases hother
  have h₂ : Rooted s₁.graph s₁.labels.next l i s₂ := by
    refine stageVariables_keep (P := Rooted s₁.graph s₁.labels.next l i) (fun v hv => ?_)
      ⟨.refl _, hs, Nat.le_refl _, hstart⟩ hvars
    obtain ⟨m, hm, hfirst⟩ := Graph.firstVariable?_of_mem_variables hv
    exact hstep v (Graph.reaches_of_firstVariable? hwraps.root_mem hfirst) m hm
  have h₃ := hstep root (.refl _ _) l hl s₂ info s₃ h₂ hroot
  -- the root is registered under its label
  have hstages := (stageVariable_ensures ctx h₂.faithful root).of_ok hroot
  obtain rfl : l = info.label :=
    Option.some.inj ((h₂.grows.label?_eq_some hl).symm.trans hstages.label)
  exact h₃.registers info hstages.get?_eq

end Run

end Staging

/-! ## The theorem -/

/-- In a run that ends in state `s`, the nodes of the input that stand for themselves are those from which
no touched node is met. -/
structure ReusesExactly (settings : Settings) (g : Graph) (i : NodeId) (r : SplitResult) (s : State) :
    Prop where
  /-- With a node all nodes are staged that are met from it. -/
  staged_of_meets : ∀ n res, s.staged[n]? = some res → ∀ m, g.Meets n m → ∃ res', s.staged[m]? = some res'
  /-- A staged node depends on the set of its result, and on no other. -/
  depends_iff : ∀ n res, s.staged[n]? = some res →
    ∀ d, Depends settings g r.code.get? n d ↔ d = res.deps
  /-- The node of the result is the staged node itself exactly if no touched node is met from it. -/
  node_eq_iff : ∀ n res, s.staged[n]? = some res →
    (res.node = n ↔ ∀ m, g.Meets n m → ¬ Touched settings g r.code.get? m)
  /-- An input that is no variable is staged, and the expression of the result is the input itself exactly
  if no touched node is met from it. -/
  content_eq_iff : g.label? i = none → (∃ res, s.staged[i]? = some res) ∧
    (r.graph.content r.root.node = i ↔ ∀ m, g.Meets i m → ¬ Touched settings g r.code.get? m)

section Split

variable {settings : Settings} {g : Graph} {i : NodeId} {r : SplitResult}

/-- A split reuses the nodes below which nothing changes, and only those. -/
theorem split_reuses_exactly (h : split settings g i = .ok r) :
    ∃ s, (splitExpression settings i).run { graph := g } = .ok r.root s ∧ r.graph = s.graph ∧
      r.code = s.code ∧ ReusesExactly settings g i r s := by
  obtain ⟨-, s, hrun, hgraph, hcode⟩ := split_eq_ok.1 h
  refine ⟨s, hrun, hgraph, hcode, ?_⟩
  obtain ⟨labels, root, s₁, s₂, s₃, hlabels, hwrap, hvars, hroot, rfl⟩ := splitExpression_eq_ok.1 hrun
  obtain ⟨hwraps, hsound⟩ := wrap_sound settings hlabels hwrap
  -- nothing is staged at the beginning
  have hsteps : Steps { graph := g } s₁ :=
    (Relation.ReflTransGen.single (.reserve (LabelSupply.next_le_of_reserveAll? hlabels))).trans
      ((Evolves.wrap i).steps hwrap)
  have hmemos : s₁.memos = (∅, ∅) := Leaves.part_eq (.wrap (fun _ _ _ => rfl) i) hwrap
  have hfaithful : Faithful s₁ := (Faithful.fresh g).of_steps hsteps hmemos
  have htraced₁ : Traced settings g s₁ := (Traced.fresh settings g).of_memos_eq hsteps hmemos
  have htraced : Traced settings g s₃ := traced_of_stageVariables hwraps htraced₁ hvars hroot
  have hget : r.code.get? = s₃.code.get? := by
    funext l
    rw [hcode, CodeStructure.get?_reorder]
  refine ⟨fun n res hn m hm => htraced.exists_staged_of_meets hn hm, fun n res hn d => ?_,
    fun n res hn => ?_, fun hi => ?_⟩
  · rw [hget]
    constructor
    · exact fun hd => hd.functional (htraced.depends n res hn)
    · rintro rfl
      exact htraced.depends n res hn
  · rw [hget]
    exact htraced.node_eq_iff n res hn
  · -- the root is a new variable
    obtain ⟨l, hl⟩ := hwraps.exists_label
    have hne : root ≠ i := by
      rintro rfl
      rw [hwraps.grows.label?_eq hwraps.mem, hi] at hl
      cases hl
    have hlt : l.value < s₁.labels.next :=
      hsound.source_lt l ((Graph.mem_labels_iff hwraps.root_mem).2 ⟨root, .refl _ _, hl⟩)
    have hnew : s₁.code.get? l = none := by
      rw [Option.eq_none_iff_forall_ne_some]
      exact fun info hinfo => List.not_mem_nil (hsound.groups.mem hinfo)
    obtain ⟨res, hres, hnode⟩ :=
      exists_result_of_stageVariables hwraps hne hfaithful hl hlt hnew hvars hroot
    refine ⟨⟨res, hres⟩, ?_⟩
    rw [hgraph, Graph.content_eq hnode, hget]
    exact htraced.node_eq_iff i res hres

end Split

/-- The sum of a product of two variables and of the product of their contents. -/
def namedAndPlain : Graph :=
  .ofNodes [.argument ⟨0, []⟩, .coefficient ⟨0, none, []⟩, .labelled 0 ⟨7⟩, .labelled 1 ⟨8⟩,
    .product 2 3, .product 0 1, .sum 4 5]

/-- The factors of the first product are their own names, and those of the second product get names. So
the sum is made anew. -/
theorem split_reuses_exactly_namedAndPlain :
    ∃ r s, split (.ofForm (.ofExpression namedAndPlain 6)) namedAndPlain 6 = .ok r ∧
      ReusesExactly (.ofForm (.ofExpression namedAndPlain 6)) namedAndPlain 6 r s ∧
      r.graph.content r.root.node ≠ 6 := by
  have hok : ((split (.ofForm (.ofExpression namedAndPlain 6)) namedAndPlain 6).toOption.any
      fun r => r.graph.content r.root.node ≠ 6) = true := by
    cbv
  cases hr : split (.ofForm (.ofExpression namedAndPlain 6)) namedAndPlain 6 with
  | error e =>
    rw [hr] at hok
    cases hok
  | ok r =>
    rw [hr] at hok
    obtain ⟨s, -, -, -, hreuses⟩ := split_reuses_exactly hr
    exact ⟨r, s, rfl, hreuses, of_decide_eq_true hok⟩

end FormStaging
