import FormStaging.Proofs.DependencySet
import FormStaging.Proofs.Graph.Layers
import FormStaging.Proofs.Meaning
import FormStaging.Proofs.Settings
import FormStaging.Proofs.Staging.Settled
import Mathlib.Data.Option.Basic

/-!
# Dependency sets are exact

`requirement settings g i` is what the expression below node `i` depends on, read off its nodes: the
union of the declared sets of its arguments and coefficients, and run-time values if it has the
normal of a facet or a derivative. The main statement, `split_deps_exact`, says that a split gives
just this set to the whole expression, and to every registered variable the set of its own
expression.

The proof compares flags. A settled node has a flag if some node below it contributes the flag
(`Settled.has_iff`), and the input has the same contributing nodes as the result, since the two differ
in their variables only.
-/

set_option autoImplicit false

namespace FormStaging

open DependencySet Staging

/-! ## What a node contributes -/

/-- The declared set of the slot of an argument or a coefficient. -/
def Settings.declared? {α : Type} (settings : Settings) : Node α → Option DependencySet
  | .argument arg => (settings.form.arguments.slot? arg).bind fun slot =>
      settings.argumentDeps[slot]?
  | .coefficient coeff => (settings.form.coefficients.slot? coeff).bind fun slot =>
      settings.coefficientDeps[slot]?
  | _ => none

namespace Node

variable {α β : Type}

/-- Whether a node is an argument or a coefficient, which needs a declaration. -/
def needsDeclaration : Node α → Bool
  | argument _ | coefficient _ => true
  | _ => false

/-- Whether a node is evaluated at run time by itself. -/
def isRuntime : Node α → Bool
  | facetNormal _ | spatialDerivative _ _ => true
  | _ => false

@[simp] theorem isRuntime_map (f : α → β) (n : Node α) : (n.map f).isRuntime = n.isRuntime := by
  cases n <;> rfl

@[simp] theorem needsDeclaration_map (f : α → β) (n : Node α) :
    (n.map f).needsDeclaration = n.needsDeclaration := by
  cases n <;> rfl

end Node

@[simp] theorem Settings.declared?_map {α β : Type} (settings : Settings) (f : α → β) (n : Node α) :
    settings.declared? (n.map f) = settings.declared? n := by
  cases n <;> rfl

/-- The declared sets of the nodes of the expression below a node. -/
def declaredSets (settings : Settings) (g : Graph) (i : NodeId) : List DependencySet :=
  (g.postOrder i).filterMap fun j => settings.declared? (g.node j)

/-- What the expression below a node depends on: the union of the declared sets of its arguments and
coefficients, and run-time values if it has the normal of a facet or a derivative. -/
def requirement (settings : Settings) (g : Graph) (i : NodeId) : Except Misuse DependencySet := do
  let declared ← settings.constant.unionAll (declaredSets settings g i)
  if (g.postOrder i).any fun j => (g.node j).isRuntime then pure declared.withRuntime
  else pure declared

/-- Whether a node contributes a flag. -/
def contributes {α : Type} (settings : Settings) (f : Flag) (n : Node α) : Bool :=
  (settings.declared? n).any (fun d => d.has f) || (f = .runtime && n.isRuntime)

/-- Whether a node lacks a declaration that it needs. -/
def undeclared {α : Type} (settings : Settings) (n : Node α) : Bool :=
  n.needsDeclaration && (settings.declared? n).isNone

/-! ## Declared sets -/

section Declared

variable {settings : Settings} {d : DependencySet}

/-- Accepted settings declare sets of one rank. -/
theorem rank_of_declared? {α : Type} {n : Node α} (hok : settings.fault? = none)
    (h : settings.declared? n = some d) : d.rank = settings.rank := by
  have hcomplete := Settings.fault?_eq_none_iff.1 hok
  cases n <;> simp only [Settings.declared?, Option.bind_eq_some_iff, reduceCtorEq] at h
  case argument =>
    obtain ⟨slot, -, hd⟩ := h
    exact hcomplete.argument_rank d (List.mem_of_getElem? hd)
  case coefficient =>
    obtain ⟨slot, -, hd⟩ := h
    exact hcomplete.coefficient_rank d (List.mem_of_getElem? hd)

theorem rank_constant (settings : Settings) : settings.constant.rank = settings.rank := by
  rw [Settings.constant, rank_empty]

end Declared

/-! ## The requirement, flag by flag -/

section Requirement

variable {settings : Settings} {g : Graph} {i : NodeId} {d : DependencySet}

/-- The declared sets have a union, with the flags of all of them. -/
theorem exists_union_declaredSets (hok : settings.fault? = none) (hi : i ∈ g) :
    ∃ u, settings.constant.unionAll (declaredSets settings g i) = .ok u ∧
      u.rank = settings.rank ∧ ∀ f, u.has f = true ↔
        ∃ j, g.Reaches i j ∧ (settings.declared? (g.node j)).any (fun s => s.has f) = true := by
  have hranks : ∀ s ∈ declaredSets settings g i, s.rank = settings.constant.rank := by
    intro s hs
    obtain ⟨j, -, hj⟩ := List.mem_filterMap.1 hs
    rw [rank_constant]
    exact rank_of_declared? hok hj
  obtain ⟨u, hu⟩ := exists_unionAll hranks
  refine ⟨u, hu, by rw [rank_unionAll hu, rank_constant], fun f => ?_⟩
  rw [has_unionAll hu, Settings.constant, has_empty, Bool.false_or, List.any_eq_true]
  constructor
  · rintro ⟨s, hs, hf⟩
    obtain ⟨j, hj, hjs⟩ := List.mem_filterMap.1 hs
    exact ⟨j, (Graph.mem_postOrder hi).1 hj, by rw [hjs]; exact hf⟩
  · rintro ⟨j, hj, hf⟩
    obtain ⟨s, hs, hsf⟩ := (Option.any_eq_true _ _).1 hf
    exact ⟨s, List.mem_filterMap.2 ⟨j, (Graph.mem_postOrder hi).2 hj, hs⟩, hsf⟩

theorem requirement_eq {u : DependencySet}
    (hu : settings.constant.unionAll (declaredSets settings g i) = .ok u) :
    requirement settings g i = .ok
      (if (g.postOrder i).any (fun j => (g.node j).isRuntime) = true then u.withRuntime else u) := by
  rw [requirement, hu]
  simp only [bind, Except.bind]
  split <;> rfl

/-- A flag is contributed by a declared set, or it stands for run-time values. -/
theorem exists_contributes_iff (f : Flag) :
    (∃ j, g.Reaches i j ∧ contributes settings f (g.node j) = true) ↔
      (∃ j, g.Reaches i j ∧ (settings.declared? (g.node j)).any (fun s => s.has f) = true) ∨
        f = .runtime ∧ ∃ j, g.Reaches i j ∧ (g.node j).isRuntime = true := by
  simp only [contributes, Bool.or_eq_true, Bool.and_eq_true, decide_eq_true_eq, and_or_left,
    exists_or]
  refine or_congr_right ⟨?_, ?_⟩
  · rintro ⟨j, hj, hf, hr⟩
    exact ⟨hf, j, hj, hr⟩
  · rintro ⟨hf, j, hj, hr⟩
    exact ⟨j, hj, hf, hr⟩

/-- The requirement is the set that has the contributed flags. -/
theorem requirement_eq_ok (hok : settings.fault? = none) (hi : i ∈ g)
    (hrank : d.rank = settings.rank)
    (hd : ∀ f, d.has f = true ↔ ∃ j, g.Reaches i j ∧ contributes settings f (g.node j) = true) :
    requirement settings g i = .ok d := by
  obtain ⟨u, hu, hurank, hflags⟩ := exists_union_declaredSets hok hi
  have hruntime : (g.postOrder i).any (fun j => (g.node j).isRuntime) = true ↔
      ∃ j, g.Reaches i j ∧ (g.node j).isRuntime = true := by
    rw [List.any_eq_true]
    exact exists_congr fun j => and_congr_left fun _ => Graph.mem_postOrder hi
  rw [requirement_eq hu]
  congr 1
  -- the union may lack run-time values only, which are added for facet normals and derivatives
  refine ext_of_has ?_ fun f => ?_
  · split
    · rw [rank_withRuntime, hurank, hrank]
    · rw [hurank, hrank]
  · rw [Bool.eq_iff_iff, hd f, exists_contributes_iff, ← hflags f, ← hruntime]
    split
    case isTrue h =>
      rw [has_withRuntime, Bool.or_eq_true, decide_eq_true_eq, or_comm, and_iff_left h]
    case isFalse h => rw [or_iff_left fun hf => h hf.2]

end Requirement

/-! ## Settled nodes -/

section SettledNodes

variable {settings : Settings} {g : Graph} {i : NodeId} {d : DependencySet}
  {infos : List RegisteredVariable}

theorem declared?_of_isPlain (settings : Settings) {α : Type} {n : Node α} (h : isPlain n = true) :
    settings.declared? n = none ∧ n.needsDeclaration = false ∧ n.isRuntime = false := by
  cases n <;> first | exact ⟨rfl, rfl, rfl⟩ | simp [isPlain] at h

/-- A plain layer contributes nothing. -/
theorem contributes_of_isPlain {α : Type} {n : Node α} (h : isPlain n = true) (f : Flag) :
    contributes settings f n = false := by
  obtain ⟨hdeclared, -, hruntime⟩ := declared?_of_isPlain settings h
  simp [contributes, hdeclared, hruntime]

theorem undeclared_of_isPlain {α : Type} {n : Node α} (h : isPlain n = true) :
    undeclared settings n = false := by
  simp [undeclared, (declared?_of_isPlain settings h).2.1]

/-- A leaf contributes its flags. -/
theorem contributes_of_leafDeps {α : Type} {n : Node α} (h : leafDeps settings n = some d)
    (f : Flag) : contributes settings f n = d.has f := by
  cases n <;> simp only [leafDeps, reduceCtorEq, Option.some.injEq] at h
  case argument => simp [contributes, Settings.declared?, Node.isRuntime, h]
  case coefficient => simp [contributes, Settings.declared?, Node.isRuntime, h]
  case facetNormal =>
    rw [← h, has_withRuntime, Settings.constant, has_empty]
    simp [contributes, Settings.declared?, Node.isRuntime]

theorem undeclared_of_leafDeps {α : Type} {n : Node α} (h : leafDeps settings n = some d) :
    undeclared settings n = false := by
  cases n <;> simp only [leafDeps, reduceCtorEq] at h
  case argument => simp [undeclared, Settings.declared?, h]
  case coefficient => simp [undeclared, Settings.declared?, h]
  case facetNormal => rfl

/-- The dependency set of a leaf has the rank of the run. -/
theorem rank_of_leafDeps {α : Type} {n : Node α} (hok : settings.fault? = none)
    (h : leafDeps settings n = some d) : d.rank = settings.rank := by
  cases n with
  | argument arg => exact rank_of_declared? (n := Node.argument (α := α) arg) hok h
  | coefficient coeff => exact rank_of_declared? (n := Node.coefficient (α := α) coeff) hok h
  | facetNormal dim => rw [← Option.some.inj h, rank_withRuntime, rank_constant]
  | _ => cases h

/-- The dependency set of a settled node has the rank of the run. -/
theorem Staging.Settled.rank (h : Settled settings g infos i d) (hok : settings.fault? = none) :
    d.rank = settings.rank := by
  induction h with
  | leaf h => exact rank_of_leafDeps hok h
  | labelled _ _ _ _ _ ih => exact ih
  | derivative _ _ _ ih => rw [rank_withRuntime, ih]
  | operator _ _ _ hdeps => rw [rank_unionAll hdeps, rank_constant]

/-- A property of layers that the dependency sets tell, by a property of theirs: a leaf has it if its
set does, a derivative may add it, and no other layer has it. -/
structure Reflects (settings : Settings) (p : Node NodeId → Bool) (q : DependencySet → Bool) :
    Prop where
  leaf : ∀ n d, leafDeps settings n = some d → p n = q d
  labelled : ∀ c l, p (.labelled c l) = false
  derivative : ∀ a b d, q d.withRuntime = (p (.spatialDerivative a b) || q d)
  plain : ∀ n, isPlain n = true → p n = false
  union : ∀ sets d, settings.constant.unionAll sets = .ok d → q d = sets.any q

/-- The set of a settled node tells what is below it. -/
theorem Reflects.iff_exists_reaches {p : Node NodeId → Bool} {q : DependencySet → Bool}
    (hpq : Reflects settings p q) (h : Settled settings g infos i d) :
    q d = true ↔ ∃ j, g.Reaches i j ∧ p (g.node j) = true := by
  induction h with
  | @leaf i d h =>
    have hops : g.operands i = [] := operands_of_leafDeps h
    rw [Graph.exists_reaches_iff, hops, hpq.leaf _ _ h]
    simp
  | @labelled i c info d hinfo hi hd h hc ih =>
    -- a variable has the set of its content
    rw [ih, Graph.exists_reaches_iff (i := i), Graph.operands_of_labelled h, h, hpq.labelled]
    simp
  | @derivative i a b items d h hb ha ih =>
    -- the directions are a leaf that has no such property
    have hnone : ¬ ∃ j, g.Reaches b j ∧ p (g.node j) = true := by
      rw [Graph.exists_reaches_iff, Graph.operands_of_multiIndex hb, hpq.plain _ (by rw [hb]; rfl)]
      simp
    rw [hpq.derivative a b, Bool.or_eq_true, ih, Graph.exists_reaches_iff (i := i),
      Graph.operands_of_derivative h, h]
    simp only [List.mem_cons, List.not_mem_nil, or_false, exists_eq_or_imp, exists_eq_left]
    rw [or_iff_left hnone]
  | @operator i d deps h hops hdeps _ ih =>
    rw [hpq.union _ _ hdeps, List.any_map, List.any_eq_true, Graph.exists_reaches_iff,
      hpq.plain _ h]
    simp only [Bool.false_eq_true, false_or]
    exact exists_congr fun j => and_congr_right fun hj => ih j hj

theorem reflects_contributes (settings : Settings) (f : Flag) :
    Reflects settings (contributes settings f) fun d => d.has f where
  leaf _ _ h := contributes_of_leafDeps h f
  labelled _ _ := by simp [contributes, Settings.declared?, Node.isRuntime]
  derivative _ _ d := by simp [has_withRuntime, contributes, Settings.declared?, Node.isRuntime]
  plain _ h := contributes_of_isPlain h f
  union _ _ h := by rw [has_unionAll h, Settings.constant, has_empty, Bool.false_or]

theorem reflects_undeclared (settings : Settings) :
    Reflects settings (undeclared settings) fun _ => false where
  leaf _ _ h := undeclared_of_leafDeps h
  labelled _ _ := rfl
  derivative _ _ _ := rfl
  plain _ h := undeclared_of_isPlain h
  union sets _ _ := by simp

/-- A settled node has the flags that the nodes below it contribute. -/
theorem Staging.Settled.has_iff (h : Settled settings g infos i d) (f : Flag) :
    d.has f = true ↔ ∃ j, g.Reaches i j ∧ contributes settings f (g.node j) = true :=
  (reflects_contributes settings f).iff_exists_reaches h

/-- Below a settled node everything is declared. -/
theorem Staging.Settled.not_undeclared (h : Settled settings g infos i d) :
    ¬ ∃ j, g.Reaches i j ∧ undeclared settings (g.node j) = true := by
  rw [← (reflects_undeclared settings).iff_exists_reaches h]
  exact Bool.false_ne_true

end SettledNodes

/-! ## Exactness -/

/-- The dependency set `d` of the expression below node `i` is exact. -/
structure ExactDeps (settings : Settings) (g : Graph) (i : NodeId) (d : DependencySet) : Prop where
  /-- Every argument and coefficient has a declaration. -/
  declared : ∀ j, g.Reaches i j → (g.node j).needsDeclaration = true →
    ∃ s, settings.declared? (g.node j) = some s
  /-- The set is the union of the declared sets, with run-time values for facet normals and
  derivatives. -/
  requirement_eq : requirement settings g i = .ok d
  /-- Run-time values come from a declaration, a facet normal or a derivative, and only from these. -/
  runtime_iff : d.runtime = true ↔
    (∃ j s, g.Reaches i j ∧ settings.declared? (g.node j) = some s ∧ s.runtime = true) ∨
      ∃ j, g.Reaches i j ∧ (g.node j).isRuntime = true

theorem ExactDeps.of_has {settings : Settings} {g : Graph} {i : NodeId} {d : DependencySet}
    (hok : settings.fault? = none) (hi : i ∈ g) (hrank : d.rank = settings.rank)
    (hd : ∀ f, d.has f = true ↔ ∃ j, g.Reaches i j ∧ contributes settings f (g.node j) = true)
    (hdeclared : ¬ ∃ j, g.Reaches i j ∧ undeclared settings (g.node j) = true) :
    ExactDeps settings g i d := by
  refine ⟨fun j hj hneeds => ?_, requirement_eq_ok hok hi hrank hd, ?_⟩
  · cases hs : settings.declared? (g.node j) with
    | some s => exact ⟨s, rfl⟩
    | none => exact absurd ⟨j, hj, by simp [undeclared, hneeds, hs]⟩ hdeclared
  · have hruntime := hd .runtime
    rw [has] at hruntime
    rw [hruntime]
    simp only [contributes, decide_true, Bool.true_and, Bool.or_eq_true, Option.any_eq_true,
      and_or_left, exists_or, has]
    refine or_congr_left ⟨?_, ?_⟩
    · rintro ⟨j, hj, s, hs, hr⟩
      exact ⟨j, s, hj, hs, hr⟩
    · rintro ⟨j, s, hj, hs, hr⟩
      exact ⟨j, hj, s, hs, hr⟩

theorem Staging.Settled.exactDeps {settings : Settings} {g : Graph} {i : NodeId} {d : DependencySet}
    {infos : List RegisteredVariable} (h : Settled settings g infos i d)
    (hok : settings.fault? = none) (hi : i ∈ g) : ExactDeps settings g i d :=
  .of_has hok hi (h.rank hok) h.has_iff h.not_undeclared

/-- Dependency sets are exact. -/
theorem split_deps_exact {settings : Settings} {g : Graph} {i : NodeId} {r : SplitResult}
    (h : split settings g i = .ok r) (hc : g.Consistent i) (hgiven : g.DirectionsGiven i) :
    ExactDeps settings g i r.root.deps ∧
      ∀ l info, r.code.get? l = some info → ExactDeps settings r.graph info.node info.deps := by
  obtain ⟨src, root, infos, ho⟩ := outcome_of_split h
  have hok : settings.fault? = none := (split_eq_ok.1 h).1
  constructor
  · -- the input has the same contributing nodes as the result, where the root is settled
    have hroot := ho.settled hgiven ho.root_registered
    have herase := ho.erase_unfold_root hc
    have hsame : ∀ p : ∀ {α : Type}, Node α → Bool,
        (∀ {α β : Type} (f : α → β) (n : Node α), p (n.map f) = p n) →
        (∀ (a : Unit) (l : Label), p (.labelled a l) = false) →
        ((∃ j, r.graph.Reaches r.root.node j ∧ p (r.graph.node j) = true) ↔
          ∃ j, g.Reaches i j ∧ p (g.node j) = true) := by
      intro p hmap hlabelled
      have hlayers := Graph.exists_reaches_iff_of_erase_eq hlabelled herase
      simpa only [hmap] using hlayers
    refine .of_has hok ho.wraps.mem (hroot.rank hok) (fun f => ?_) ?_
    · rw [hroot.has_iff f]
      refine hsame (contributes settings f) (fun e n => ?_) fun a l => ?_
      · simp only [contributes, Settings.declared?_map, Node.isRuntime_map]
      · simp [contributes, Settings.declared?, Node.isRuntime]
    · rw [← hsame (undeclared settings) (fun e n => ?_) fun a l => rfl]
      · exact hroot.not_undeclared
      · simp only [undeclared, Settings.declared?_map, Node.needsDeclaration_map]
  · intro l info hget
    obtain ⟨hmem, -⟩ := ho.get?_iff.1 hget
    exact (ho.settled hgiven hmem).exactDeps hok (ho.built.labels.mem hmem)

/-- The product of an argument and a derivative, used under a variable and without it. -/
def sharedDerivative : Graph :=
  .ofNodes [.argument ⟨0, []⟩, .coefficient ⟨0, none, []⟩, .multiIndex [.fixed 0],
    .spatialDerivative 1 2, .product 0 3, .labelled 4 ⟨3⟩, .sum 5 4]

theorem split_deps_exact_sharedDerivative :
    ∃ r, split (.ofForm (.ofExpression sharedDerivative 6)) sharedDerivative 6 = .ok r ∧
      sharedDerivative.Consistent 6 ∧ sharedDerivative.DirectionsGiven 6 ∧
      ExactDeps (.ofForm (.ofExpression sharedDerivative 6)) sharedDerivative 6 r.root.deps := by
  have hok : (split (.ofForm (.ofExpression sharedDerivative 6)) sharedDerivative 6).isOk = true := by
    cbv
  obtain ⟨r, hr⟩ := Except.exists_eq_ok hok
  have hmem : 6 ∈ sharedDerivative := by cbv
  have hc : sharedDerivative.Consistent 6 :=
    Graph.consistent_of_nodup hmem (of_decide_eq_true (by cbv))
  have hgiven : sharedDerivative.DirectionsGiven 6 := Graph.directionsGiven_of_all hmem (by cbv)
  exact ⟨r, hr, hc, hgiven, (split_deps_exact hr hc hgiven).1⟩

end FormStaging
