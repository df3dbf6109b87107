import FormStaging.Proofs.Graph.Reachability
import FormStaging.Proofs.LabelSupply
import FormStaging.Staging.Split

/-!
# Runs, action by action

What a successful run of each action has done. A run of a sequence is a run of its parts
(`run_bind_eq_ok`), so a run of a composed action is opened by these equivalences and never by its
definition again. A sequence fails where one of its parts does (`run_bind_eq_error`). The layers of an
expression fall into four cases, told apart by `stageNode_eq_ok`: a leaf with a dependency set of its
own, a variable, a derivative, and a plain layer that depends on what its operands depend on.
-/

set_option autoImplicit false

namespace FormStaging

/-- A layer over renamed operands is the layer rebuilt over their new names. -/
theorem Node.withOperands?_map {α β : Type} (n : Node α) (f : α → β) :
    n.withOperands? (n.operands.map f) = some (n.map f) := by
  cases n with
  | listTensor parts => simp [withOperands?, operands, map]
  | _ => rfl

namespace Staging

variable {α β : Type} {ctx : Context} {s s' : State} {i : NodeId} {r : Staged}

/-! ## Sequences -/

theorem run_bind_eq_ok {x : Action α} {f : α → Action β} {b : β} :
    (x >>= f).run s = .ok b s' ↔ ∃ a s₁, x.run s = .ok a s₁ ∧ (f a).run s₁ = .ok b s' := by
  simp only [bind, EStateM.bind, EStateM.run]
  cases x s with
  | ok a s₁ =>
    constructor
    · intro h
      exact ⟨a, s₁, rfl, h⟩
    · rintro ⟨a', s₁', h, h'⟩
      cases h
      exact h'
  | error e s₁ => simp

theorem run_bind_eq_error {x : Action α} {f : α → Action β} {e : Failure} :
    (x >>= f).run s = .error e s' ↔ x.run s = .error e s' ∨
      ∃ a s₁, x.run s = .ok a s₁ ∧ (f a).run s₁ = .error e s' := by
  simp only [bind, EStateM.bind, EStateM.run]
  cases x s with
  | ok a s₁ =>
    constructor
    · intro h
      exact Or.inr ⟨a, s₁, rfl, h⟩
    · rintro (h | ⟨a', s₁', h, h'⟩)
      · cases h
      · cases h
        exact h'
  | error e₁ s₁ => simp

theorem exists_run_eq_ok {x : Action α} (h : (x.run' s).isSome = true) :
    ∃ a s', x.run s = .ok a s' := by
  delta EStateM.run' at h
  cases hrun : x.run s with
  | ok a s' => exact ⟨a, s', rfl⟩
  | error e s' =>
    rw [hrun] at h
    cases h

theorem exists_run_eq_error {x : Action α} (h : (x.run' s).isSome = false) :
    ∃ e s', x.run s = .error e s' := by
  delta EStateM.run' at h
  cases hrun : x.run s with
  | ok a s' =>
    rw [hrun] at h
    cases h
  | error e s' => exact ⟨e, s', rfl⟩

theorem run_ite_bind_eq_ok {c : Prop} [Decidable c] {x y : Action α} {f : α → Action β} {b : β} :
    (if c then x >>= f else y >>= f).run s = .ok b s' ↔
      ∃ a s₁, (if c then x else y).run s = .ok a s₁ ∧ (f a).run s₁ = .ok b s' := by
  split <;> exact run_bind_eq_ok

theorem run_pure_eq_ok {a b : α} : (pure a : Action α).run s = .ok b s' ↔ b = a ∧ s' = s := by
  simp only [pure, EStateM.pure, EStateM.run, EStateM.Result.ok.injEq]
  exact and_congr eq_comm eq_comm

theorem run_get_bind (f : State → Action β) (s : State) : (get >>= f).run s = (f s).run s := rfl

theorem run_modify_eq_ok {f : State → State} {u : Unit} :
    (modify f : Action Unit).run s = .ok u s' ↔ s' = f s := by
  constructor
  · intro h
    cases h
    rfl
  · rintro rfl
    rfl

theorem run_throw_ne_ok {e : Failure} {a : α} : (throw e : Action α).run s ≠ .ok a s' := by
  intro h
  cases h

theorem failAt_ne_ok {cause : Cause} {a : α} : (failAt ctx i cause).run s ≠ .ok a s' := by
  intro h
  cases h

/-- A promise that is kept changes nothing. -/
theorem keepPromise_eq_ok {e : Except Misuse α} {a : α} :
    (keepPromise e).run s = .ok a s' ↔ e = .ok a ∧ s' = s := by
  cases e with
  | ok b =>
    rw [keepPromise, run_pure_eq_ok, Except.ok.injEq]
    exact and_congr_left fun _ => eq_comm
  | error m =>
    constructor
    · intro h
      exact absurd h run_throw_ne_ok
    · rintro ⟨h, -⟩
      cases h

/-! ## States after runs -/

/-- The state after a run, whether it succeeds or fails. -/
def stateAfter (x : Action α) (s : State) : State :=
  match x.run s with
  | .ok _ s' => s'
  | .error _ s' => s'

theorem stateAfter_of_ok {x : Action α} {a : α} (hrun : x.run s = .ok a s') :
    stateAfter x s = s' := by
  rw [stateAfter, hrun]

theorem stateAfter_of_error {x : Action α} {e : Failure} (hrun : x.run s = .error e s') :
    stateAfter x s = s' := by
  rw [stateAfter, hrun]

/-- Actions that do the same in a state lead to the same state. -/
theorem stateAfter_congr {x y : Action α} (h : x.run s = y.run s) :
    stateAfter x s = stateAfter y s := by
  rw [stateAfter, h, stateAfter]

/-- The state after a sequence is that after the second action, unless the first one fails. -/
theorem stateAfter_bind {P : State → Prop} {x : Action α} {f : α → Action β}
    (hx : P (stateAfter x s)) (hf : ∀ a s₁, P s₁ → P (stateAfter (f a) s₁)) :
    P (stateAfter (x >>= f) s) := by
  simp only [stateAfter, bind, EStateM.bind, EStateM.run] at hx hf ⊢
  cases hrun : x s with
  | ok a s₁ =>
    rw [hrun] at hx
    exact hf a s₁ hx
  | error e s₁ =>
    rw [hrun] at hx
    exact hx

/-! ## Labels -/

section Labels

variable {l : Label} {labels : LabelSupply} {u : Unit} {e : Failure}

theorem run_reserveLabel (h : s.labels.reserve? l = some labels) :
    (reserveLabel l).run s = .ok () { s with labels := labels } := by
  simp only [reserveLabel, EStateM.run, h]

theorem run_reserveLabel_of_none (h : s.labels.reserve? l = none) :
    (reserveLabel l).run s = .error .labelOverflow s := by
  simp only [reserveLabel, EStateM.run, h]

theorem reserveLabel_eq_ok :
    (reserveLabel l).run s = .ok u s' ↔
      ∃ labels, s.labels.reserve? l = some labels ∧ s' = { s with labels := labels } := by
  cases h : s.labels.reserve? l with
  | none => simp [run_reserveLabel_of_none h]
  | some labels => simp [run_reserveLabel h, eq_comm]

theorem reserveEach_eq_ok {ls : List Label} :
    (reserveEach ls).run s = .ok u s' ↔
      ∃ labels, s.labels.reserveAll? ls = some labels ∧ s' = { s with labels := labels } := by
  induction ls generalizing s with
  | nil =>
    rw [reserveEach, run_pure_eq_ok]
    simp [LabelSupply.reserveAll?]
  | cons l ls ih =>
    simp only [reserveEach, run_bind_eq_ok, reserveLabel_eq_ok, ih, LabelSupply.reserveAll?,
      Option.bind_eq_some_iff]
    constructor
    · rintro ⟨_, s₁, ⟨b, hb, rfl⟩, labels, hlabels, rfl⟩
      exact ⟨labels, ⟨b, hb, hlabels⟩, rfl⟩
    · rintro ⟨labels, ⟨b, hb, hlabels⟩, rfl⟩
      exact ⟨(), _, ⟨b, hb, rfl⟩, labels, hlabels, rfl⟩

theorem reserveLabels_eq_ok :
    (reserveLabels i).run s = .ok u s' ↔ ∃ labels,
      s.labels.reserveAll? (s.graph.labels i) = some labels ∧ s' = { s with labels := labels } := by
  rw [reserveLabels, run_get_bind, reserveEach_eq_ok]

theorem run_reserveLabels (h : s.labels.reserveAll? (s.graph.labels i) = some labels) :
    (reserveLabels i).run s = .ok () { s with labels := labels } :=
  reserveLabels_eq_ok.2 ⟨labels, h, rfl⟩

/-- Reserving fails at the first label that has none above it. The labels before it are reserved. -/
theorem reserveEach_eq_error {ls : List Label} :
    (reserveEach ls).run s = .error e s' ↔ e = .labelOverflow ∧ ∃ before l after labels,
      ls = before ++ l :: after ∧ s.labels.reserveAll? before = some labels ∧
      labels.reserve? l = none ∧ s' = { s with labels := labels } := by
  induction ls generalizing s with
  | nil => simp [reserveEach, pure, EStateM.pure, EStateM.run]
  | cons m ls ih =>
    rw [reserveEach, run_bind_eq_error]
    cases hm : s.labels.reserve? m with
    | none =>
      rw [run_reserveLabel_of_none hm]
      constructor
      · rintro (h | ⟨_, _, h, -⟩)
        · cases h
          exact ⟨rfl, [], m, ls, _, rfl, rfl, hm, rfl⟩
        · cases h
      · rintro ⟨rfl, before, l, after, labels, hls, hbefore, -, rfl⟩
        cases before with
        | nil =>
          cases hbefore
          exact Or.inl rfl
        | cons k before =>
          obtain ⟨rfl, -⟩ := List.cons.inj hls
          rw [LabelSupply.reserveAll?, hm] at hbefore
          cases hbefore
    | some b =>
      simp only [run_reserveLabel hm, reduceCtorEq, false_or, EStateM.Result.ok.injEq, true_and]
      constructor
      · rintro ⟨_, _, rfl, h⟩
        obtain ⟨rfl, before, l, after, labels, rfl, hbefore, hl, rfl⟩ := ih.1 h
        refine ⟨rfl, m :: before, l, after, labels, rfl, ?_, hl, rfl⟩
        rw [LabelSupply.reserveAll?, hm, Option.bind_some, hbefore]
      · rintro ⟨rfl, before, l, after, labels, hls, hbefore, hl, rfl⟩
        refine ⟨(), _, rfl, ih.2 ⟨rfl, ?_⟩⟩
        cases before with
        | nil =>
          obtain ⟨rfl, -⟩ := List.cons.inj hls
          cases hbefore
          rw [hm] at hl
          cases hl
        | cons k before =>
          obtain ⟨rfl, rfl⟩ := List.cons.inj hls
          rw [LabelSupply.reserveAll?, hm, Option.bind_some] at hbefore
          exact ⟨before, l, after, labels, rfl, hbefore, hl, rfl⟩

theorem reserveLabels_eq_error :
    (reserveLabels i).run s = .error e s' ↔ e = .labelOverflow ∧ ∃ before l after labels,
      s.graph.labels i = before ++ l :: after ∧ s.labels.reserveAll? before = some labels ∧
      labels.reserve? l = none ∧ s' = { s with labels := labels } := by
  rw [reserveLabels, run_get_bind, reserveEach_eq_error]

theorem mintLabel_eq_error :
    mintLabel.run s = .error e s' ↔ s.labels.mint? = none ∧ e = .labelOverflow ∧ s' = s := by
  simp only [mintLabel, EStateM.run]
  cases s.labels.mint? with
  | none => simp [eq_comm]
  | some minted => simp

theorem mintLabel_eq_ok :
    mintLabel.run s = .ok l s' ↔
      ∃ labels, s.labels.mint? = some (l, labels) ∧ s' = { s with labels := labels } := by
  simp only [mintLabel, EStateM.run]
  cases s.labels.mint? with
  | none => simp
  | some minted =>
    obtain ⟨m, labels⟩ := minted
    simp [eq_comm, and_assoc]

end Labels

/-! ## New nodes -/

theorem addNode_eq_ok {n : Node NodeId} :
    (addNode n).run s = .ok i s' ↔ ∃ h : ∀ j ∈ n.operands, j ∈ s.graph,
      i = s.graph.size ∧ s' = { s with graph := s.graph.push n h } := by
  simp only [addNode, EStateM.run]
  cases hp : s.graph.push? n with
  | none =>
    constructor
    · intro h
      cases h
    · rintro ⟨h, -⟩
      have hsome : s.graph.push? n = some (s.graph.push n h, s.graph.size) :=
        Graph.push?_eq_some_iff.2 ⟨h, rfl, rfl⟩
      rw [hp] at hsome
      cases hsome
  | some added =>
    obtain ⟨g, j⟩ := added
    obtain ⟨hn, rfl, rfl⟩ := Graph.push?_eq_some_iff.1 hp
    constructor
    · intro h
      cases h
      exact ⟨hn, rfl, rfl⟩
    · rintro ⟨-, rfl, rfl⟩
      rfl

/-- Node `j` of the state after a run is the layer of node `i` over other operands. The run has added
at most this node. -/
structure Rebuilds (s : State) (i : NodeId) (operands : List NodeId) (j : NodeId) (s' : State) :
    Prop where
  grows : s.graph.Extends s'.graph
  state_eq : s' = { s with graph := s'.graph }
  mem : j ∈ s'.graph
  node_eq : (s.graph.node i).withOperands? operands = some (s'.graph.node j)

theorem Rebuilds.refl (hi : i ∈ s.graph) : Rebuilds s i (s.graph.operands i) i s := by
  refine ⟨Graph.Extends.refl _, rfl, hi, ?_⟩
  have h := Node.withOperands?_map (s.graph.node i) fun j => j
  rwa [List.map_id', Node.map_id] at h

theorem Rebuilds.of_rebuildNode {operands : List NodeId} {j : NodeId} (hi : i ∈ s.graph)
    (h : (rebuildNode i operands).run s = .ok j s') : Rebuilds s i operands j s' := by
  simp only [rebuildNode, EStateM.run, Graph.rebuild] at h
  cases hm : (s.graph.node i).withOperands? operands with
  | none =>
    rw [hm] at h
    cases h
  | some m =>
    simp only [hm] at h
    have hops : m.operands = operands := (Node.withOperands?_eq_some hm).1
    by_cases hempty : operands.isEmpty = true
    · -- a layer without operands is not rebuilt
      rw [if_pos hempty] at h
      cases h
      have hnone : s.graph.operands i = operands := by
        have hlength := (Node.withOperands?_isSome (s.graph.node i) operands).1 (by rw [hm]; rfl)
        rw [List.isEmpty_iff] at hempty
        rw [hempty] at hlength ⊢
        exact List.length_eq_zero_iff.1 hlength
      rw [← hnone]
      exact Rebuilds.refl hi
    · rw [if_neg hempty] at h
      cases hp : s.graph.push? m with
      | none =>
        rw [hp] at h
        cases h
      | some added =>
        obtain ⟨g, k⟩ := added
        obtain ⟨hn, rfl, rfl⟩ := Graph.push?_eq_some_iff.1 hp
        rw [hp] at h
        cases h
        refine ⟨Graph.Extends.push _ _ hn, rfl, ?_, ?_⟩
        · rw [Graph.mem_iff, Graph.size_push]
          exact Nat.lt_succ_self _
        · rw [Graph.node_push_size, hm]

/-- A node over given operands. -/
theorem withOperands_eq_ok {new : List NodeId} {deps : DependencySet} (hi : i ∈ s.graph)
    (h : (withOperands i (s.graph.operands i) new deps).run s = .ok r s') :
    Rebuilds s i new r.node s' ∧ r.deps = deps := by
  rw [withOperands] at h
  by_cases hsame : new = s.graph.operands i
  · rw [if_pos hsame, run_pure_eq_ok] at h
    obtain ⟨rfl, rfl⟩ := h
    rw [hsame]
    exact ⟨Rebuilds.refl hi, rfl⟩
  · rw [if_neg hsame, run_bind_eq_ok] at h
    obtain ⟨j, s₁, hj, h⟩ := h
    obtain ⟨rfl, rfl⟩ := run_pure_eq_ok.1 h
    exact ⟨Rebuilds.of_rebuildNode hi hj, rfl⟩

/-! ## Lists of nodes -/

theorem stageEach_cons_eq_ok {stage : NodeId → Action Staged} {is : List NodeId}
    {rs : List Staged} :
    (stageEach stage (i :: is)).run s = .ok rs s' ↔ ∃ r s₁ rest, (stage i).run s = .ok r s₁ ∧
      (stageEach stage is).run s₁ = .ok rest s' ∧ rs = r :: rest := by
  simp only [stageEach, run_bind_eq_ok, run_pure_eq_ok]
  constructor
  · rintro ⟨r, s₁, hr, rest, s₂, hrest, rfl, rfl⟩
    exact ⟨r, s₁, rest, hr, hrest, rfl⟩
  · rintro ⟨r, s₁, rest, hr, hrest, rfl⟩
    exact ⟨r, s₁, hr, rest, s', hrest, rfl, rfl⟩

theorem nameEach_cons_eq_ok {operand : Staged} {rest : List Staged} {new : List NodeId} :
    (nameEach ctx (operand :: rest)).run s = .ok new s' ↔ ∃ v s₁ others,
      (if worthNaming (s.graph.node operand.node) then nameOperand ctx operand
        else pure operand.node).run s = .ok v s₁ ∧
      (nameEach ctx rest).run s₁ = .ok others s' ∧ new = v :: others := by
  simp only [nameEach, run_get_bind, run_ite_bind_eq_ok, run_bind_eq_ok, run_pure_eq_ok]
  constructor
  · rintro ⟨v, s₁, hv, others, s₂, hothers, rfl, rfl⟩
    exact ⟨v, s₁, others, hv, hothers, rfl⟩
  · rintro ⟨v, s₁, others, hv, hothers, rfl⟩
    exact ⟨v, s₁, hv, others, s', hothers, rfl, rfl⟩

theorem stageVariables_cons_eq_ok {is : List NodeId} {u : Unit} :
    (stageVariables ctx (i :: is)).run s = .ok u s' ↔ ∃ info s₁,
      (stageVariable ctx i).run s = .ok info s₁ ∧
      (stageVariables ctx is).run s₁ = .ok u s' := by
  simp only [stageVariables, run_bind_eq_ok]

/-! ## Layers -/

/-- The dependency set of a leaf that has one of its own: the declaration of its slot, or run-time
values for the normal of a facet. -/
def leafDeps (settings : Settings) : Node α → Option DependencySet
  | .argument arg => (settings.form.arguments.slot? arg).bind fun slot =>
      settings.argumentDeps[slot]?
  | .coefficient coeff => (settings.form.coefficients.slot? coeff).bind fun slot =>
      settings.coefficientDeps[slot]?
  | .facetNormal _ => some settings.constant.withRuntime
  | _ => none

/-- Whether a node depends on just what its operands depend on. -/
def isPlain : Node α → Bool
  | .argument _ | .coefficient _ | .facetNormal _ | .spatialDerivative _ _ | .labelled _ _ => false
  | _ => true

section Layers

variable {settings : Settings} {n : Node α} {deps : DependencySet}

@[simp] theorem isPlain_map (f : α → β) (n : Node α) : isPlain (n.map f) = isPlain n := by
  cases n <;> rfl

theorem isPlain_of_leafDeps (h : leafDeps settings n = some deps) : isPlain n = false := by
  cases n <;> first | rfl | simp [leafDeps] at h

theorem operands_of_leafDeps (h : leafDeps settings n = some deps) : n.operands = [] := by
  cases n <;> first | rfl | simp [leafDeps] at h

theorem label?_of_leafDeps (h : leafDeps settings n = some deps) : n.label? = none := by
  cases n <;> first | rfl | simp [leafDeps] at h

theorem label?_of_isPlain (h : isPlain n = true) : n.label? = none := by
  cases n <;> first | rfl | simp [isPlain] at h

end Layers

theorem declaration_eq_ok {sets : List DependencySet} {slot : Nat} {deps : DependencySet} :
    declaration sets slot = .ok deps ↔ sets[slot]? = some deps := by
  rw [declaration]
  cases sets[slot]? <;> simp

theorem argumentDeps_eq_ok {arg : Argument} {deps : DependencySet} :
    (argumentDeps ctx i arg).run s = .ok deps s' ↔
      leafDeps ctx.settings (.argument arg : Node NodeId) = some deps ∧ s' = s := by
  rw [argumentDeps, leafDeps]
  cases ctx.settings.form.arguments.slot? arg with
  | none => simp [failAt_ne_ok]
  | some slot => rw [Option.bind_some, keepPromise_eq_ok, declaration_eq_ok]

theorem coefficientDeps_eq_ok {coeff : Coefficient} {deps : DependencySet} :
    (coefficientDeps ctx i coeff).run s = .ok deps s' ↔
      leafDeps ctx.settings (.coefficient coeff : Node NodeId) = some deps ∧ s' = s := by
  rw [coefficientDeps, leafDeps]
  cases ctx.settings.form.coefficients.slot? coeff with
  | none => simp [failAt_ne_ok]
  | some slot => rw [Option.bind_some, keepPromise_eq_ok, declaration_eq_ok]

theorem registered_eq_ok {l : Label} :
    (registered ctx i l).run s = .ok r s' ↔
      ∃ info, s.code.get? l = some info ∧ r = ⟨info.node, info.deps⟩ ∧ s' = s := by
  rw [registered, run_get_bind]
  cases s.code.get? l with
  | none => simp [failAt_ne_ok]
  | some info =>
    simp only [run_pure_eq_ok, Option.some.injEq]
    constructor
    · intro h
      exact ⟨info, rfl, h⟩
    · rintro ⟨_, rfl, h⟩
      exact h

theorem stageOperator_eq_ok {stage : NodeId → Action Staged} {operands : List NodeId} :
    (stageOperator ctx stage i operands).run s = .ok r s' ↔ ∃ rs s₁ deps new s₂,
      (stageEach stage operands).run s = .ok rs s₁ ∧
      ctx.settings.constant.unionAll (rs.map Staged.deps) = .ok deps ∧
      (if isMixed s₁.graph rs deps then nameEach ctx rs
        else pure (rs.map Staged.node)).run s₁ = .ok new s₂ ∧
      (withOperands i operands new deps).run s₂ = .ok r s' := by
  simp only [stageOperator, run_bind_eq_ok, run_get_bind, keepPromise_eq_ok, run_ite_bind_eq_ok]
  constructor
  · rintro ⟨rs, s₁, hrs, deps, s₁', ⟨hdeps, rfl⟩, new, s₂, hnew, hr⟩
    exact ⟨rs, s₁', deps, new, s₂, hrs, hdeps, hnew, hr⟩
  · rintro ⟨rs, s₁, deps, new, s₂, hrs, hdeps, hnew, hr⟩
    exact ⟨rs, s₁, hrs, deps, s₁, ⟨hdeps, rfl⟩, new, s₂, hnew, hr⟩

theorem stageDerivative_eq_ok {stage : NodeId → Action Staged} {operand directions : NodeId} :
    (stageDerivative stage i operand directions).run s = .ok r s' ↔ ∃ a s₁,
      (stage operand).run s = .ok a s₁ ∧
      (withOperands i [operand, directions] [a.node, directions] a.deps.withRuntime).run s₁ =
        .ok r s' := by
  simp only [stageDerivative, run_bind_eq_ok]

/-- The four kinds of layers. -/
theorem stageNode_eq_ok {stage : NodeId → Action Staged} :
    (stageNode ctx stage i).run s = .ok r s' ↔
    (leafDeps ctx.settings (s.graph.node i) = some r.deps ∧ r.node = i ∧ s' = s) ∨
    (∃ l info, s.graph.label? i = some l ∧ s.code.get? l = some info ∧
      r = ⟨info.node, info.deps⟩ ∧ s' = s) ∨
    (∃ a b, s.graph.node i = .spatialDerivative a b ∧
      (stageDerivative stage i a b).run s = .ok r s') ∨
    (isPlain (s.graph.node i) = true ∧
      (stageOperator ctx stage i (s.graph.operands i)).run s = .ok r s') := by
  rw [stageNode, run_get_bind, Graph.label?, Graph.operands]
  constructor
  · intro h
    cases hn : s.graph.node i
    all_goals
      rw [hn] at h
      simp only at h
    case argument arg =>
      obtain ⟨deps, s₁, hrun, hret⟩ := run_bind_eq_ok.1 h
      obtain ⟨hdeps, rfl⟩ := argumentDeps_eq_ok.1 hrun
      obtain ⟨rfl, rfl⟩ := run_pure_eq_ok.1 hret
      exact Or.inl ⟨hdeps, rfl, rfl⟩
    case coefficient coeff =>
      obtain ⟨deps, s₁, hrun, hret⟩ := run_bind_eq_ok.1 h
      obtain ⟨hdeps, rfl⟩ := coefficientDeps_eq_ok.1 hrun
      obtain ⟨rfl, rfl⟩ := run_pure_eq_ok.1 hret
      exact Or.inl ⟨hdeps, rfl, rfl⟩
    case facetNormal =>
      obtain ⟨rfl, rfl⟩ := run_pure_eq_ok.1 h
      exact Or.inl ⟨rfl, rfl, rfl⟩
    case labelled c l =>
      obtain ⟨info, hinfo, rfl, rfl⟩ := registered_eq_ok.1 h
      exact Or.inr (Or.inl ⟨l, info, rfl, hinfo, rfl, rfl⟩)
    case spatialDerivative a b => exact Or.inr (Or.inr (Or.inl ⟨a, b, rfl, h⟩))
    all_goals exact Or.inr (Or.inr (Or.inr ⟨rfl, h⟩))
  · rintro (⟨hdeps, rfl, rfl⟩ | ⟨l, info, hl, hget, rfl, rfl⟩ | ⟨a, b, hn, h⟩ | ⟨hplain, h⟩)
    · cases hn : s'.graph.node r.node
      all_goals
        rw [hn] at hdeps
        simp only [leafDeps, reduceCtorEq, Option.some.injEq] at hdeps
      case argument arg =>
        exact run_bind_eq_ok.2 ⟨_, _, argumentDeps_eq_ok.2 ⟨hdeps, rfl⟩, rfl⟩
      case coefficient coeff =>
        exact run_bind_eq_ok.2 ⟨_, _, coefficientDeps_eq_ok.2 ⟨hdeps, rfl⟩, rfl⟩
      case facetNormal => exact run_pure_eq_ok.2 ⟨by rw [hdeps], rfl⟩
    · cases hn : s'.graph.node i
      all_goals rw [hn] at hl
      case labelled c m =>
        obtain rfl : m = l := Option.some.inj hl
        exact registered_eq_ok.2 ⟨info, hget, rfl, rfl⟩
      all_goals simp [Node.label?] at hl
    · rw [hn]
      exact h
    · cases hn : s.graph.node i
      all_goals rw [hn] at hplain h
      all_goals first | exact h | simp [isPlain] at hplain

/-! ## Registering -/

section Registering

variable {deps : DependencySet} {l : Label} {label : Option Label} {info : RegisteredVariable}

/-- A variable is registered as it is. -/
theorem run_register_of_label? (hl : s.graph.label? i = some l) :
    (register ctx i deps label).run s =
      (registerCandidate ctx ⟨s.graph, i, l⟩ deps).run s := by
  rw [register, run_get_bind, hl]
  simp only [pure_bind]
  rw [run_get_bind, candidate?, hl]

/-- A variable whose label cannot be reserved is not registered. -/
theorem run_registerCandidate_of_overflow {c : Candidate} (h : s.labels.reserve? c.label = none) :
    (registerCandidate ctx c deps).run s = .error .labelOverflow s := by
  rw [registerCandidate, run_bind_eq_error, run_reserveLabel_of_none h]
  exact Or.inl rfl

/-- A variable is registered once its label is reserved. -/
theorem run_registerCandidate {c : Candidate} {labels : LabelSupply}
    (h : s.labels.reserve? c.label = some labels) :
    (registerCandidate ctx c deps).run s =
      (settleCandidate ctx c deps).run { s with labels := labels } := by
  have hreserve := run_reserveLabel h
  simp only [EStateM.run] at hreserve
  simp only [registerCandidate, EStateM.run, bind, EStateM.bind, hreserve]

/-- A label that is avoided already need not be reserved. -/
theorem run_registerCandidate_of_lt {c : Candidate} (h : c.label.value < s.labels.next) :
    (registerCandidate ctx c deps).run s = (settleCandidate ctx c deps).run s :=
  run_registerCandidate (LabelSupply.reserve?_of_lt h)

/-- A variable with a new label is registered. -/
theorem run_settleCandidate_of_none {c : Candidate} (h : s.code.get? c.label = none) :
    (settleCandidate ctx c deps).run s = .ok ⟨c.label, c.node, deps⟩
      { s with graph := c.graph, code := s.code.insert ⟨c.label, c.node, deps⟩ } := by
  simp only [settleCandidate, EStateM.run, h]

/-- Under a registered label, the variable is kept if it is the same one, and by the policy to warn. -/
theorem run_settleCandidate_of_some {c : Candidate} (h : s.code.get? c.label = some info) :
    (settleCandidate ctx c deps).run s =
      if c.graph.equal info.node c.node ∧ info.deps = deps then .ok info s
      else
        match ctx.settings.collisions with
        | .warn => .ok info s
        | .error => .error
            (ctx.failure c.graph c.node (collision c.graph info ⟨c.label, c.node, deps⟩)) s := by
  cases hpolicy : ctx.settings.collisions <;>
    simp only [settleCandidate, EStateM.run, h, hpolicy]

/-- A registered variable is recognised. -/
theorem run_settleCandidate_of_same {c : Candidate} (h : s.code.get? c.label = some info)
    (hnode : info.node = c.node) (hdeps : info.deps = deps) :
    (settleCandidate ctx c deps).run s = .ok info s := by
  have hequal : c.graph.equal info.node c.node = true := by simp [Graph.equal, hnode]
  rw [run_settleCandidate_of_some h, if_pos ⟨hequal, hdeps⟩]

/-- What registering a variable comes to. Under a new label it is added. Otherwise the state stays,
and what is registered is given back, or the two collide. -/
theorem settleCandidate_cases (ctx : Context) (c : Candidate) (deps : DependencySet) (s : State) :
    (s.code.get? c.label = none ∧
      (settleCandidate ctx c deps).run s = .ok ⟨c.label, c.node, deps⟩
        { s with graph := c.graph, code := s.code.insert ⟨c.label, c.node, deps⟩ }) ∨
    ∃ info, s.code.get? c.label = some info ∧
      ((settleCandidate ctx c deps).run s = .ok info s ∨
        (settleCandidate ctx c deps).run s = .error
          (ctx.failure c.graph c.node (collision c.graph info ⟨c.label, c.node, deps⟩)) s) := by
  cases hget : s.code.get? c.label with
  | none => exact Or.inl ⟨rfl, run_settleCandidate_of_none hget⟩
  | some info =>
    refine Or.inr ⟨info, rfl, ?_⟩
    rw [run_settleCandidate_of_some hget]
    split
    · exact Or.inl rfl
    · cases ctx.settings.collisions with
      | warn => exact Or.inl rfl
      | error => exact Or.inr rfl

/-- A variable with a new label is registered with this label reserved. -/
theorem registerCandidate_new_eq_ok {c : Candidate} (hnew : s.code.get? c.label = none) :
    (registerCandidate ctx c deps).run s = .ok info s' ↔
      info = ⟨c.label, c.node, deps⟩ ∧ ∃ labels, s.labels.reserve? c.label = some labels ∧
        s' = { s with
          graph := c.graph
          code := s.code.insert ⟨c.label, c.node, deps⟩
          labels := labels } := by
  cases h : s.labels.reserve? c.label with
  | none => simp [run_registerCandidate_of_overflow h]
  | some labels =>
    have hsettle : (settleCandidate ctx c deps).run { s with labels := labels } = _ :=
      run_settleCandidate_of_none hnew
    rw [run_registerCandidate h, hsettle]
    simp [eq_comm]

/-- A variable whose label is new and avoided already is added to what is registered. -/
theorem run_register_new (hl : s.graph.label? i = some l) (hlt : l.value < s.labels.next)
    (hnew : s.code.get? l = none) :
    (register ctx i deps label).run s =
      .ok ⟨l, i, deps⟩ { s with code := s.code.insert ⟨l, i, deps⟩ } := by
  rw [run_register_of_label? hl, run_registerCandidate_of_lt hlt, run_settleCandidate_of_none hnew]

/-- A registered variable is recognised. -/
theorem run_register_known (hl : s.graph.label? i = some l) (hlt : l.value < s.labels.next)
    (hget : s.code.get? l = some ⟨l, i, deps⟩) :
    (register ctx i deps label).run s = .ok ⟨l, i, deps⟩ s := by
  rw [run_register_of_label? hl, run_registerCandidate_of_lt hlt]
  exact run_settleCandidate_of_same (c := ⟨s.graph, i, l⟩) hget rfl rfl

/-- The label that an expression is registered under: its own one, else the given one, else a new one. -/
def State.labelFor (s : State) (i : NodeId) (label : Option Label) : Label :=
  (s.graph.label? i).getD (label.getD ⟨s.labels.next⟩)

theorem State.labelFor_of_label? (hl : s.graph.label? i = none) (label : Option Label) :
    s.labelFor i label = label.getD ⟨s.labels.next⟩ := by
  rw [labelFor, hl, Option.getD_none]

theorem candidate?_of_label? {g : Graph} (hl : g.label? i = none)
    (hn : ∀ j ∈ (Node.labelled i l).operands, j ∈ g) :
    candidate? g i l = some ⟨g.push (.labelled i l) hn, g.size, l⟩ := by
  have hpush : g.push? (.labelled i l) = some (g.push _ hn, g.size) :=
    Graph.push?_eq_some_iff.2 ⟨hn, rfl, rfl⟩
  rw [candidate?, hl]
  simp only [hpush, Option.map_some]

/-- An expression of the graph can be registered under any label. -/
theorem exists_candidate? {g : Graph} (hi : i ∈ g) (l : Label) : ∃ c, candidate? g i l = some c := by
  cases hl : g.label? i with
  | some own => exact ⟨⟨g, i, own⟩, by rw [candidate?, hl]⟩
  | none => exact ⟨_, candidate?_of_label? hl fun j hj => List.mem_singleton.1 hj ▸ hi⟩

/-- Minting a label and registering a variable under it is to register the variable under the label that
is minted next. -/
theorem run_mintLabel_bind {f : Label → Action RegisteredVariable} {c : Candidate}
    (hc : c.label = ⟨s.labels.next⟩)
    (hf : ∀ labels, (f c.label).run { s with labels := labels } =
      (registerCandidate ctx c deps).run { s with labels := labels }) :
    (mintLabel >>= f).run s = (registerCandidate ctx c deps).run s := by
  simp only [bind, EStateM.bind, EStateM.run, mintLabel, LabelSupply.mint?_eq_reserve?, ← hc]
  cases hreserve : s.labels.reserve? c.label with
  | none => exact (run_registerCandidate_of_overflow hreserve).symm
  | some labels =>
    -- the label is reserved already
    have hagain : labels.reserve? c.label = some labels :=
      LabelSupply.reserve?_of_lt (LabelSupply.lt_next_of_reserve? hreserve)
    exact (hf labels).trans ((run_registerCandidate hagain).trans (run_registerCandidate hreserve).symm)

/-- To register an expression is to register its variable, under the label for the expression. -/
theorem run_register {c : Candidate} (hc : candidate? s.graph i (s.labelFor i label) = some c) :
    (register ctx i deps label).run s = (registerCandidate ctx c deps).run s := by
  cases hl : s.graph.label? i with
  | some own =>
    rw [candidate?, hl] at hc
    cases hc
    exact run_register_of_label? hl
  | none =>
    rw [State.labelFor_of_label? hl] at hc
    rw [register, run_get_bind, hl]
    cases label with
    | some l =>
      simp only [chooseLabel, pure_bind]
      rw [run_get_bind, show candidate? s.graph i l = some c from hc]
    | none =>
      have hlabel : c.label = ⟨s.labels.next⟩ := by
        simp only [candidate?, hl, Option.map_eq_some_iff] at hc
        obtain ⟨_, -, rfl⟩ := hc
        rfl
      refine run_mintLabel_bind hlabel fun labels => ?_
      rw [run_get_bind, hlabel, show candidate? s.graph i ⟨s.labels.next⟩ = some c from hc]

/-- An expression that is no variable is registered under a minted label, in a new variable. -/
theorem run_register_fresh {labels : LabelSupply} (hl : s.graph.label? i = none)
    (hfresh : s.code.get? ⟨s.labels.next⟩ = none)
    (hmint : s.labels.mint? = some (⟨s.labels.next⟩, labels))
    (hn : ∀ j ∈ (Node.labelled i ⟨s.labels.next⟩).operands, j ∈ s.graph) :
    (register ctx i deps none).run s = .ok ⟨⟨s.labels.next⟩, s.graph.size, deps⟩
      { s with
        graph := s.graph.push (.labelled i ⟨s.labels.next⟩) hn
        code := s.code.insert ⟨⟨s.labels.next⟩, s.graph.size, deps⟩
        labels := labels } := by
  have hc : candidate? s.graph i (s.labelFor i none) =
      some ⟨s.graph.push _ hn, s.graph.size, ⟨s.labels.next⟩⟩ := by
    rw [State.labelFor_of_label? hl]
    exact candidate?_of_label? hl hn
  rw [LabelSupply.mint?_eq_reserve?] at hmint
  obtain ⟨_, hreserve, h⟩ := Option.map_eq_some_iff.1 hmint
  cases h
  rw [run_register hc]
  exact (registerCandidate_new_eq_ok hfresh).2 ⟨rfl, labels, hreserve, rfl⟩

/-- Only a node of the graph gets a new variable. -/
theorem register_fresh_eq_ok (hl : s.graph.label? i = none)
    (hfresh : s.code.get? ⟨s.labels.next⟩ = none)
    (h : (register ctx i deps none).run s = .ok info s') :
    ∃ labels, s.labels.mint? = some (⟨s.labels.next⟩, labels) ∧
      ∃ hn : ∀ j ∈ (Node.labelled i ⟨s.labels.next⟩).operands, j ∈ s.graph,
        info = ⟨⟨s.labels.next⟩, s.graph.size, deps⟩ ∧
        s' = { s with
          graph := s.graph.push (.labelled i ⟨s.labels.next⟩) hn
          code := s.code.insert info
          labels := labels } := by
  have hrun := h
  rw [register, run_get_bind, hl] at hrun
  obtain ⟨minted, s₁, hminted, hrun⟩ := run_bind_eq_ok.1 hrun
  obtain ⟨labels, hmint, rfl⟩ := mintLabel_eq_ok.1 hminted
  obtain ⟨rfl, -⟩ := LabelSupply.mint?_eq_some_iff.1 hmint
  refine ⟨labels, hmint, ?_⟩
  by_cases hn : ∀ j ∈ (Node.labelled i ⟨s.labels.next⟩).operands, j ∈ s.graph
  · rw [run_register_fresh hl hfresh hmint hn] at h
    cases h
    exact ⟨hn, rfl, rfl⟩
  · have hpush : s.graph.push? (.labelled i ⟨s.labels.next⟩) = none := by
      rw [Option.eq_none_iff_forall_ne_some]
      rintro ⟨g, j⟩ hp
      exact hn (Graph.push?_eq_some_iff.1 hp).1
    rw [run_get_bind, candidate?, hl] at hrun
    simp only [hpush, Option.map_none] at hrun
    exact absurd hrun run_throw_ne_ok

/-- An expression that is no variable is not registered without a label to mint. -/
theorem register_fresh_eq_error {e : Failure} (hl : s.graph.label? i = none)
    (hmint : s.labels.mint? = none) (h : (register ctx i deps none).run s = .error e s') :
    e = .labelOverflow ∧ s' = s := by
  rw [register, run_get_bind, hl] at h
  rcases run_bind_eq_error.1 h with h | ⟨l, s₁, hminted, -⟩
  · exact (mintLabel_eq_error.1 h).2
  · obtain ⟨labels, hsome, -⟩ := mintLabel_eq_ok.1 hminted
    rw [hmint] at hsome
    cases hsome

/-- An operand has its variable already, or is registered and remembered. -/
theorem nameOperand_eq_ok {operand : Staged} {v : NodeId} :
    (nameOperand ctx operand).run s = .ok v s' ↔
      (s.named[operand.node]? = some v ∧ s' = s) ∨
      (s.named[operand.node]? = none ∧ ∃ info s₁,
        (register ctx operand.node operand.deps none).run s = .ok info s₁ ∧ v = info.node ∧
        s' = { s₁ with named := s₁.named.insert operand.node info.node }) := by
  rw [nameOperand, run_get_bind]
  cases s.named[operand.node]? with
  | some known =>
    simp only [run_pure_eq_ok, Option.some.injEq]
    constructor
    · rintro ⟨rfl, rfl⟩
      exact Or.inl ⟨rfl, rfl⟩
    · rintro (⟨rfl, rfl⟩ | ⟨h, -⟩)
      · exact ⟨rfl, rfl⟩
      · cases h
  | none =>
    simp only [run_bind_eq_ok, run_pure_eq_ok, run_modify_eq_ok]
    constructor
    · rintro ⟨info, s₁, hinfo, _, s₂, rfl, rfl, rfl⟩
      exact Or.inr ⟨trivial, info, s₁, hinfo, rfl, rfl⟩
    · rintro (⟨h, -⟩ | ⟨-, info, s₁, hinfo, rfl, rfl⟩)
      · cases h
      · exact ⟨info, s₁, hinfo, (), _, rfl, rfl, rfl⟩

end Registering

/-! ## Memos -/

/-- A remembered result is the one already there, or is computed and kept. -/
theorem remember_eq_ok {compute : Action Staged} :
    (remember i compute).run s = .ok r s' ↔ (s.staged[i]? = some r ∧ s' = s) ∨
      (s.staged[i]? = none ∧ ∃ s₁, compute.run s = .ok r s₁ ∧
        s' = { s₁ with staged := s₁.staged.insert i r }) := by
  rw [remember, run_get_bind]
  cases s.staged[i]? with
  | some known =>
    simp only [run_pure_eq_ok, Option.some.injEq]
    constructor
    · rintro ⟨rfl, rfl⟩
      exact Or.inl ⟨rfl, rfl⟩
    · rintro (⟨rfl, rfl⟩ | ⟨h, -⟩)
      · exact ⟨rfl, rfl⟩
      · cases h
  | none =>
    simp only [run_bind_eq_ok, run_pure_eq_ok, run_modify_eq_ok]
    constructor
    · rintro ⟨_, s₁, hr, _, s₂, rfl, rfl, rfl⟩
      exact Or.inr ⟨trivial, s₁, hr, rfl⟩
    · rintro (⟨h, -⟩ | ⟨-, s₁, hr, rfl⟩)
      · cases h
      · exact ⟨r, s₁, hr, (), _, rfl, rfl, rfl⟩

/-- A result fails to be remembered where it is not there yet and fails to be computed. -/
theorem remember_eq_error {compute : Action Staged} {e : Failure} :
    (remember i compute).run s = .error e s' ↔
      s.staged[i]? = none ∧ compute.run s = .error e s' := by
  rw [remember, run_get_bind]
  cases s.staged[i]? with
  | some known => simp [pure, EStateM.pure, EStateM.run]
  | none =>
    simp only [run_bind_eq_error, true_and]
    constructor
    · rintro (h | ⟨r, s₁, -, h | ⟨_, s₂, -, h⟩⟩)
      · exact h
      · cases h
      · cases h
    · exact Or.inl

/-- A result of staging is remembered, or is computed with less room. -/
theorem stage_eq_ok {room : Nat} (h : (stage ctx room i).run s = .ok r s') :
    (s.staged[i]? = some r ∧ s' = s) ∨
      ∃ less s₁, less < room ∧ s.staged[i]? = none ∧
        (stageNode ctx (stage ctx less) i).run s = .ok r s₁ ∧
        s' = { s₁ with staged := s₁.staged.insert i r } := by
  cases room with
  | zero =>
    rw [stage] at h
    rcases remember_eq_ok.1 h with hknown | ⟨-, s₁, hr, -⟩
    · exact Or.inl hknown
    · exact absurd hr run_throw_ne_ok
  | succ room =>
    rw [stage] at h
    rcases remember_eq_ok.1 h with hknown | ⟨hnone, s₁, hr, hs⟩
    · exact Or.inl hknown
    · exact Or.inr ⟨room, s₁, Nat.lt_succ_self _, hnone, hr, hs⟩

/-! ## Variables and whole expressions -/

section Splitting

variable {c : NodeId} {l : Label} {info : RegisteredVariable}

/-- A variable with a registered label is not staged again. -/
theorem run_stageVariable_of_registered (hi : s.graph.node i = .labelled c l)
    (h : s.code.get? l = some info) : (stageVariable ctx i).run s = .ok info s := by
  rw [stageVariable, run_get_bind]
  simp only [hi, Node.contentAndLabel?]
  rw [run_get_bind, h]
  rfl

/-- A variable with a new label is registered around what stands for its content. -/
theorem stageVariable_eq_ok (hi : s.graph.node i = .labelled c l) (hnew : s.code.get? l = none) :
    (stageVariable ctx i).run s = .ok info s' ↔ ∃ labels r s₁ v s₂,
      s.labels.reserveAll? (s.graph.labels i) = some labels ∧
      (stage ctx ctx.settings.maxDepth c).run { s with labels := labels } = .ok r s₁ ∧
      (if r.node = c then pure i else addNode (.labelled r.node l)).run s₁ = .ok v s₂ ∧
      (register ctx v r.deps (some l)).run s₂ = .ok info s' := by
  rw [stageVariable, run_get_bind]
  simp only [hi, Node.contentAndLabel?]
  rw [run_get_bind, hnew]
  simp only [reserveLabels_eq_ok, run_bind_eq_ok, run_ite_bind_eq_ok]
  constructor
  · rintro ⟨_, s₀, ⟨labels, hlabels, rfl⟩, r, s₁, hr, v, s₂, hv, hinfo⟩
    exact ⟨labels, r, s₁, v, s₂, hlabels, hr, hv, hinfo⟩
  · rintro ⟨labels, r, s₁, v, s₂, hlabels, hr, hv, hinfo⟩
    exact ⟨(), _, ⟨labels, hlabels, rfl⟩, r, s₁, hr, v, s₂, hv, hinfo⟩

theorem run_wrap_of_label? (h : s.graph.label? i = some l) : (wrap i).run s = .ok i s := by
  rw [wrap, run_get_bind, h]
  rfl

/-- An expression that is no variable is wrapped in one with a minted label. -/
theorem wrap_fresh_eq_ok (h : s.graph.label? i = none) {root : NodeId} :
    (wrap i).run s = .ok root s' ↔ ∃ labels, s.labels.mint? = some (⟨s.labels.next⟩, labels) ∧
      ∃ hn : ∀ j ∈ (Node.labelled i ⟨s.labels.next⟩).operands, j ∈ s.graph,
        root = s.graph.size ∧ s' = { s with
          graph := s.graph.push (.labelled i ⟨s.labels.next⟩) hn
          labels := labels } := by
  rw [wrap, run_get_bind, h]
  simp only [run_bind_eq_ok, mintLabel_eq_ok, addNode_eq_ok]
  constructor
  · rintro ⟨minted, s₁, ⟨labels, hmint, rfl⟩, hn, rfl, rfl⟩
    obtain ⟨rfl, -⟩ := LabelSupply.mint?_eq_some_iff.1 hmint
    exact ⟨labels, hmint, hn, rfl, rfl⟩
  · rintro ⟨labels, hmint, hn, rfl, rfl⟩
    exact ⟨⟨s.labels.next⟩, _, ⟨labels, hmint, rfl⟩, hn, rfl, rfl⟩

theorem splitExpression_eq_ok {settings : Settings} :
    (splitExpression settings i).run s = .ok info s' ↔ ∃ labels root s₁ s₂ s₃,
      s.labels.reserveAll? (s.graph.labels i) = some labels ∧
      (wrap i).run { s with labels := labels } = .ok root s₁ ∧
      (stageVariables ⟨settings, some i⟩ (s₁.graph.variables root)).run s₁ = .ok () s₂ ∧
      (stageVariable ⟨settings, some i⟩ root).run s₂ = .ok info s₃ ∧
      s' = { s₃ with code := s₃.code.reorder (s₃.graph.labels info.node) } := by
  simp only [splitExpression, reserveLabels_eq_ok, run_bind_eq_ok, run_modify_eq_ok, run_get_bind,
    run_pure_eq_ok]
  constructor
  · rintro ⟨_, _, ⟨labels, hlabels, rfl⟩, root, s₁, hroot, _, s₂, hvars, info', s₃, hinfo, _, _, rfl,
      rfl, rfl⟩
    exact ⟨labels, root, s₁, s₂, s₃, hlabels, hroot, hvars, hinfo, rfl⟩
  · rintro ⟨labels, root, s₁, s₂, s₃, hlabels, hroot, hvars, hinfo, rfl⟩
    exact ⟨(), _, ⟨labels, hlabels, rfl⟩, root, s₁, hroot, (), s₂, hvars, info, s₃, hinfo, (), _, rfl,
      rfl, rfl⟩

end Splitting

end Staging

/-- Settings that are not accepted are refused before the expression is looked at. -/
theorem split_of_fault {settings : Settings} {cause : Cause} (h : settings.fault? = some cause)
    (g : Graph) (i : NodeId) : split settings g i = .error (.error ⟨cause, []⟩) := by
  have hcheck : settings.check = .error (.error ⟨cause, []⟩) := by rw [Settings.check, h]
  rw [split, hcheck]
  rfl

/-- Under accepted settings a split does what its run does. -/
theorem split_eq_run {settings : Settings} (h : settings.fault? = none) (g : Graph) (i : NodeId) :
    split settings g i = match (Staging.splitExpression settings i).run { graph := g } with
      | .ok info s => .ok ⟨s.graph, info, s.code⟩
      | .error e _ => .error e := by
  have hcheck : settings.check = .ok () := by rw [Settings.check, h]
  rw [split, hcheck]
  rfl

/-- A split succeeds if the settings are accepted and its run succeeds. -/
theorem split_eq_ok {settings : Settings} {g : Graph} {root : NodeId} {r : SplitResult} :
    split settings g root = .ok r ↔ settings.fault? = none ∧ ∃ s,
      (Staging.splitExpression settings root).run { graph := g } = .ok r.root s ∧
      r.graph = s.graph ∧ r.code = s.code := by
  cases hfault : settings.fault? with
  | some cause => simp [split_of_fault hfault]
  | none =>
    rw [split_eq_run hfault]
    simp only [true_and]
    cases (Staging.splitExpression settings root).run { graph := g } with
    | error e s => simp
    | ok info s =>
      simp only [Except.ok.injEq, EStateM.Result.ok.injEq]
      constructor
      · rintro rfl
        exact ⟨s, ⟨rfl, rfl⟩, rfl, rfl⟩
      · rintro ⟨_, ⟨rfl, rfl⟩, hgraph, hcode⟩
        obtain ⟨graph, rootInfo, code⟩ := r
        rw [← hgraph, ← hcode]

end FormStaging
