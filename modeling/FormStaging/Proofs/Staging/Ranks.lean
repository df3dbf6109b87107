import FormStaging.Proofs.Staging.Calls

/-!
# No promise is broken

The sets of one run are combined with each other, so they must have one rank. `Ranked n s` says that
all sets that state `s` stores have rank `n`: those of registered variables and those of results. An
action keeps this if it is given sets of this rank (`KeepsRank`), whatever comes of it.

From such a state, and with the invariant of the memos, no promise is broken. The sets of operands have
a union, the slots of the form data have declarations, and a node is rebuilt over as many operands as
it has, all of them in the graph. So the failures that are left are those to be reported
(`stageVariable_reports`, `splitExpression_reports`).
-/

set_option autoImplicit false

namespace FormStaging

open DependencySet

/-- A failure that is no report on the expression: a promise was broken, or a node was rebuilt over a
wrong number of operands. -/
def Failure.IsInternal (e : Failure) : Prop :=
  (∃ m, e = .misuse m) ∨ ∃ kind expected given spans,
    e = .error ⟨.operandCount kind expected given, spans⟩

/-- A failure with any other cause is a report. -/
theorem Failure.not_isInternal {cause : Cause} {spans : List Span}
    (h : ∀ kind expected given, cause ≠ .operandCount kind expected given) :
    ¬ (Failure.error ⟨cause, spans⟩).IsInternal := by
  rintro (⟨m, hm⟩ | ⟨kind, expected, given, spans, he⟩)
  · cases hm
  · cases he
    exact h kind expected given rfl

namespace Staging

variable {α β : Type} {ctx : Context} {s s' : State} {i v : NodeId} {r : Staged} {n : Nat}

/-! ## Ranks -/

/-- All stored sets have one rank. -/
structure Ranked (n : Nat) (s : State) : Prop where
  registered : ∀ l info, s.code.get? l = some info → info.deps.rank = n
  staged : ∀ (i : NodeId) (r : Staged), s.staged[i]? = some r → r.deps.rank = n

/-- The part of a state that stores sets. -/
def State.sets (s : State) : CodeStructure × Std.HashMap NodeId Staged := (s.code, s.staged)

theorem Ranked.of_sets_eq (h : Ranked n s) (hsets : s'.sets = s.sets) : Ranked n s' := by
  obtain ⟨hcode, hstaged⟩ := Prod.mk.inj hsets
  refine ⟨fun l info hget => ?_, fun i r hr => ?_⟩
  · rw [hcode] at hget
    exact h.registered l info hget
  · rw [hstaged] at hr
    exact h.staged i r hr

theorem Ranked.fresh (g : Graph) : Ranked n { graph := g } := by
  refine ⟨fun l info hget => ?_, fun i r hr => ?_⟩
  · rw [CodeStructure.get?_empty] at hget
    cases hget
  · simp at hr

/-- A variable may be registered with a set of this rank. -/
theorem Ranked.register {g : Graph} {labels : LabelSupply} {info : RegisteredVariable}
    (h : Ranked n s) (hdeps : info.deps.rank = n) :
    Ranked n { s with graph := g, code := s.code.insert info, labels := labels } := by
  refine ⟨fun l known hget => ?_, h.staged⟩
  rw [CodeStructure.get?_insert] at hget
  split at hget
  · cases hget
    exact hdeps
  · exact h.registered l known hget

/-- A result with a set of this rank may be kept. -/
theorem Ranked.remember (h : Ranked n s) (hdeps : r.deps.rank = n) :
    Ranked n { s with staged := s.staged.insert i r } := by
  refine ⟨h.registered, fun j r' hr' => ?_⟩
  rcases eq_or_of_getElem?_insert hr' with ⟨rfl, rfl⟩ | hr'
  · exact hdeps
  · exact h.staged j r' hr'

/-- An action keeps the rank of the stored sets, and what it returns satisfies `P`. -/
def KeepsRank (n : Nat) (P : α → Prop) (x : Action α) : Prop :=
  ∀ s, Ranked n s → Ensures (fun a s' => Ranked n s' ∧ P a) (Ranked n) x s

namespace KeepsRank

variable {P : α → Prop} {R : β → Prop} {deps : DependencySet} {operand : Staged} {rs : List Staged}

theorem pure {a : α} (h : P a) : KeepsRank n P (Pure.pure a) := fun _ hs => .pure ⟨hs, h⟩

theorem throw (e : Failure) : KeepsRank n P (MonadExcept.throw e : Action α) :=
  fun _ hs => .throw hs

theorem failAt (i : NodeId) (cause : Cause) : KeepsRank n P (failAt ctx i cause : Action α) :=
  fun _ hs => .failAt hs

theorem keepPromise {e : Except Misuse α} (h : ∀ a, e = .ok a → P a) :
    KeepsRank n P (keepPromise e) :=
  fun _ hs => .keepPromise (fun a ha => ⟨hs, h a ha⟩) hs

theorem of_leaves {x : Action α} (h : Leaves State.sets x) : KeepsRank n (fun _ => True) x := by
  intro s hs
  have hsets := h s
  rw [stateAfter] at hsets
  rw [Ensures]
  cases hrun : x.run s with
  | ok a s' =>
    rw [hrun] at hsets
    exact ⟨hs.of_sets_eq hsets, trivial⟩
  | error e s' =>
    rw [hrun] at hsets
    exact hs.of_sets_eq hsets

theorem bind {x : Action α} {f : α → Action β} (hx : KeepsRank n P x)
    (hf : ∀ a, P a → KeepsRank n R (f a)) : KeepsRank n R (x >>= f) := by
  intro s hs
  have hrun := hx s hs
  simp only [Ensures, Bind.bind, EStateM.bind, EStateM.run] at hrun ⊢
  cases h : x s with
  | ok a s₁ =>
    rw [h] at hrun
    exact hf a hrun.2 s₁ hrun.1
  | error e s₁ =>
    rw [h] at hrun
    exact hrun

/-- What is done with the state may use the ranks of its sets. -/
theorem get_bind {f : State → Action β} (hf : ∀ s, Ranked n s → KeepsRank n R (f s)) :
    KeepsRank n R (get >>= f) :=
  fun s hs => hf s hs s hs

theorem stateAfter {x : Action α} (h : KeepsRank n P x) (hs : Ranked n s) :
    Ranked n (stateAfter x s) :=
  Ensures.stateAfter ((h s hs).mono (fun _ _ h => h.1) fun _ h => h)

/-! ### Registering -/

theorem registerCandidate (c : Candidate) (hdeps : deps.rank = n) :
    KeepsRank n (fun info => info.deps.rank = n) (registerCandidate ctx c deps) := by
  refine (of_leaves (.reserveLabel (fun _ _ => rfl) c.label)).bind fun _ _ s hs => ?_
  rcases settleCandidate_cases ctx c deps s with ⟨-, hrun⟩ | ⟨info, hget, hrun | hrun⟩
  · exact .of_run_eq_ok hrun ⟨hs.register hdeps, hdeps⟩
  · exact .of_run_eq_ok hrun ⟨hs, hs.registered _ info hget⟩
  · rw [Ensures, hrun]
    exact hs

theorem register (i : NodeId) (label : Option Label) (hdeps : deps.rank = n) :
    KeepsRank n (fun info => info.deps.rank = n) (register ctx i deps label) := by
  have hchoose : KeepsRank n (fun _ => True) (chooseLabel label) := by
    cases label with
    | some l => exact pure trivial
    | none => exact of_leaves (.mintLabel fun _ _ => rfl)
  refine get_bind fun s _ => ?_
  cases s.graph.label? i with
  | some own =>
    refine (pure (P := fun _ => True) trivial).bind fun l _ => get_bind fun s _ => ?_
    cases candidate? s.graph i l with
    | some c => exact registerCandidate c hdeps
    | none => exact throw _
  | none =>
    refine hchoose.bind fun l _ => get_bind fun s _ => ?_
    cases candidate? s.graph i l with
    | some c => exact registerCandidate c hdeps
    | none => exact throw _

theorem nameOperand (h : operand.deps.rank = n) :
    KeepsRank n (fun _ => True) (nameOperand ctx operand) := by
  refine get_bind fun s _ => ?_
  cases s.named[operand.node]? with
  | some known => exact pure trivial
  | none =>
    refine (register operand.node none h).bind fun info _ => ?_
    exact bind (of_leaves fun _ => rfl) fun _ _ => pure trivial

theorem nameEach (hrs : ∀ r ∈ rs, r.deps.rank = n) :
    KeepsRank n (fun _ => True) (nameEach ctx rs) := by
  induction rs with
  | nil => exact pure trivial
  | cons operand rest ih =>
    obtain ⟨hoperand, hrest⟩ := List.forall_mem_cons.1 hrs
    have hothers : ∀ v, KeepsRank n (fun _ => True)
        (Staging.nameEach ctx rest >>= fun others => Pure.pure (v :: others)) :=
      fun v => (ih hrest).bind fun others _ => pure trivial
    refine get_bind fun s _ => ?_
    split
    · exact (nameOperand hoperand).bind fun v _ => hothers v
    · exact (pure (P := fun _ => True) trivial).bind fun v _ => hothers v

/-! ### Staging -/

theorem withOperands (i : NodeId) (old new : List NodeId) (hdeps : deps.rank = n) :
    KeepsRank n (fun r => r.deps.rank = n) (withOperands i old new deps) := by
  rw [Staging.withOperands]
  split
  · exact pure hdeps
  · exact (of_leaves (.rebuildNode (fun _ _ => rfl) i new)).bind fun j _ => pure hdeps

theorem nameAndRebuild (i : NodeId) (operands : List NodeId) (hrs : ∀ r ∈ rs, r.deps.rank = n)
    (hdeps : deps.rank = n) :
    KeepsRank n (fun r => r.deps.rank = n) (nameAndRebuild ctx i operands rs deps) := by
  refine get_bind fun s _ => ?_
  split
  · exact (nameEach hrs).bind fun new _ => withOperands i operands new hdeps
  · exact (pure (P := fun _ => True) trivial).bind fun new _ => withOperands i operands new hdeps

theorem registered (i : NodeId) (l : Label) :
    KeepsRank n (fun r => r.deps.rank = n) (registered ctx i l) := by
  refine get_bind fun s hs => ?_
  cases hget : s.code.get? l with
  | some info => exact pure (hs.registered l info hget)
  | none => exact failAt i _

/-! Below, the rank is that of the settings, and the settings have no fault. -/

theorem argumentDeps (hok : ctx.settings.fault? = none) (i : NodeId) (arg : Argument) :
    KeepsRank ctx.settings.rank (fun deps => deps.rank = ctx.settings.rank)
      (argumentDeps ctx i arg) := by
  rw [Staging.argumentDeps]
  split
  case h_1 slot hslot =>
    obtain ⟨d, hd, hrank⟩ := (Settings.fault?_eq_none_iff.1 hok).exists_argument hslot
    exact keepPromise fun deps hdeps => Except.ok.inj (hd.symm.trans hdeps) ▸ hrank
  case h_2 => exact failAt i _

theorem coefficientDeps (hok : ctx.settings.fault? = none) (i : NodeId) (coeff : Coefficient) :
    KeepsRank ctx.settings.rank (fun deps => deps.rank = ctx.settings.rank)
      (coefficientDeps ctx i coeff) := by
  rw [Staging.coefficientDeps]
  split
  case h_1 slot hslot =>
    obtain ⟨d, hd, hrank⟩ := (Settings.fault?_eq_none_iff.1 hok).exists_coefficient hslot
    exact keepPromise fun deps hdeps => Except.ok.inj (hd.symm.trans hdeps) ▸ hrank
  case h_2 => exact failAt i _

/-- A node is finished with a set of the rank of its operands' sets. -/
theorem finishNode (hok : ctx.settings.fault? = none) (i : NodeId) (layer : Node NodeId)
    (hrs : ∀ r ∈ rs, r.deps.rank = ctx.settings.rank) :
    KeepsRank ctx.settings.rank (fun r => r.deps.rank = ctx.settings.rank)
      (finishNode ctx i layer rs) := by
  have hconstant := rank_constant ctx.settings
  by_cases hplain : isPlain layer = true
  · rw [finishNode_of_isPlain hplain]
    refine (keepPromise fun deps hdeps => ?_).bind fun deps hdeps =>
      nameAndRebuild i layer.operands hrs hdeps
    rw [rank_unionAll hdeps, hconstant]
  · cases layer
    all_goals rw [Staging.finishNode]
    case argument arg => exact (argumentDeps hok i arg).bind fun deps hdeps => pure hdeps
    case coefficient coeff => exact (coefficientDeps hok i coeff).bind fun deps hdeps => pure hdeps
    case facetNormal => exact pure hconstant
    case labelled c l => exact registered i l
    case spatialDerivative a b =>
      refine withOperands i _ _ ?_
      rw [rank_withRuntime]
      cases rs with
      | nil => exact hconstant
      | cons first rest => exact hrs first List.mem_cons_self
    all_goals exact absurd rfl hplain

theorem stageEach {stage : NodeId → Action Staged}
    (hstage : ∀ j, KeepsRank n (fun r => r.deps.rank = n) (stage j)) (is : List NodeId) :
    KeepsRank n (fun rs => ∀ r ∈ rs, r.deps.rank = n) (stageEach stage is) := by
  induction is with
  | nil => exact pure (List.forall_mem_nil _)
  | cons j is ih =>
    exact (hstage j).bind fun r hr => ih.bind fun rest hrest =>
      pure (List.forall_mem_cons.2 ⟨hr, hrest⟩)

theorem stageNode {stage : NodeId → Action Staged} (hok : ctx.settings.fault? = none)
    (hstage : ∀ j, KeepsRank ctx.settings.rank (fun r => r.deps.rank = ctx.settings.rank) (stage j))
    (i : NodeId) :
    KeepsRank ctx.settings.rank (fun r => r.deps.rank = ctx.settings.rank)
      (stageNode ctx stage i) := by
  intro s hs
  refine .of_run_eq run_stageNode ?_
  exact (stageEach hstage _).bind (fun rs hrs => finishNode hok i _ hrs) s hs

theorem remember {compute : Action Staged}
    (h : KeepsRank n (fun r => r.deps.rank = n) compute) (i : NodeId) :
    KeepsRank n (fun r => r.deps.rank = n) (remember i compute) := by
  refine get_bind fun s hs => ?_
  cases hknown : s.staged[i]? with
  | some known => exact pure (hs.staged i known hknown)
  | none =>
    refine h.bind fun r hr => ?_
    have hinsert : KeepsRank n (fun _ => True)
        (modify fun s => { s with staged := s.staged.insert i r } : Action Unit) :=
      fun s hs => ⟨hs.remember hr, trivial⟩
    exact hinsert.bind fun _ _ => pure hr

/-- Staging keeps the rank of the run. -/
theorem stage (hok : ctx.settings.fault? = none) (room : Nat) (i : NodeId) :
    KeepsRank ctx.settings.rank (fun r => r.deps.rank = ctx.settings.rank)
      (Staging.stage ctx room i) := by
  induction room generalizing i with
  | zero => exact remember (throw _) i
  | succ room ih => exact remember (stageNode hok ih i) i

theorem registerContent (i content : NodeId) (label : Label) (hr : r.deps.rank = n) :
    KeepsRank n (fun _ => True) (registerContent ctx i content label r) := by
  have hregister : ∀ node, KeepsRank n (fun _ => True)
      (Staging.register ctx node r.deps (some label)) := fun node s hs =>
    (register node (some label) hr s hs).mono (fun _ _ h => ⟨h.1, trivial⟩) fun _ h => h
  rw [Staging.registerContent]
  split
  · exact (pure (P := fun _ => True) trivial).bind fun node _ => hregister node
  · exact (of_leaves (.addNode (fun _ _ => rfl) _)).bind fun node _ => hregister node

theorem stageVariable (hok : ctx.settings.fault? = none) (i : NodeId) :
    KeepsRank ctx.settings.rank (fun _ => True) (stageVariable ctx i) := by
  refine get_bind fun s _ => ?_
  simp only
  cases (s.graph.node i).contentAndLabel? with
  | none => exact failAt i _
  | some inside =>
    obtain ⟨content, label⟩ := inside
    refine get_bind fun s _ => ?_
    cases s.code.get? label with
    | some info => exact pure trivial
    | none =>
      exact (of_leaves (.reserveLabels (fun _ _ => rfl) i)).bind fun _ _ =>
        (stage hok _ content).bind fun r hr => registerContent i content label hr

theorem stageVariables (hok : ctx.settings.fault? = none) (is : List NodeId) :
    KeepsRank ctx.settings.rank (fun _ => True) (stageVariables ctx is) := by
  induction is with
  | nil => exact pure trivial
  | cons i is ih => exact (stageVariable hok i).bind fun _ _ => ih

end KeepsRank

/-! ## Reports -/

/-- Every failure of an action in a state is a report. -/
def Reports (x : Action α) (s : State) : Prop := FailsOnly (fun e => ¬ e.IsInternal) x s

section Reports

variable {bound : Nat} {old : Label → Option RegisteredVariable} {rs : List Staged} {room : Nat}

/-- An action that never fails. -/
theorem FailsOnly.of_ensures {E : Failure → Prop} {Q : α → State → Prop} {x : Action α}
    (h : Ensures Q (fun _ => False) x s) : FailsOnly E x s :=
  fun _ _ hrun => (h.of_error hrun).elim

theorem failAt_reports {cause : Cause}
    (h : ∀ kind expected given, cause ≠ .operandCount kind expected given) :
    Reports (failAt ctx i cause : Action α) s :=
  .failAt (Failure.not_isInternal h)

/-! ### Registering -/

theorem not_isInternal_labelOverflow : ¬ Failure.labelOverflow.IsInternal := by
  rintro (⟨m, hm⟩ | ⟨kind, expected, given, spans, he⟩)
  · cases hm
  · cases he

theorem reserveLabel_reports (l : Label) : Reports (reserveLabel l) s := by
  intro e s' hrun
  cases hreserve : s.labels.reserve? l with
  | some labels =>
    rw [run_reserveLabel hreserve] at hrun
    cases hrun
  | none =>
    rw [run_reserveLabel_of_none hreserve] at hrun
    cases hrun
    exact not_isInternal_labelOverflow

theorem reserveLabels_reports (i : NodeId) : Reports (reserveLabels i) s := by
  intro e s' hrun
  obtain ⟨rfl, -⟩ := reserveLabels_eq_error.1 hrun
  exact not_isInternal_labelOverflow

/-- A registration fails by reporting a collision, or for want of labels. -/
theorem registerCandidate_reports (c : Candidate) (deps : DependencySet) :
    Reports (registerCandidate ctx c deps) s := by
  rw [registerCandidate]
  refine (reserveLabel_reports c.label).bind fun _ s₁ _ => ?_
  rcases settleCandidate_cases ctx c deps s₁ with ⟨-, hrun⟩ | ⟨info, -, hrun | hrun⟩
  · exact .of_run_eq_ok hrun
  · exact .of_run_eq_ok hrun
  · intro e s' he
    rw [hrun] at he
    cases he
    exact Failure.not_isInternal (by simp [collision])

theorem register_reports (hi : i ∈ s.graph) (deps : DependencySet) (label : Option Label) :
    Reports (register ctx i deps label) s := by
  obtain ⟨c, hc⟩ := exists_candidate? hi (s.labelFor i label)
  exact .of_run_eq (run_register hc) (registerCandidate_reports c deps)

theorem nameEach_reports (hrs : ∀ r ∈ rs, r.node ∈ s.graph) : Reports (nameEach ctx rs) s := by
  induction rs generalizing s with
  | nil => exact .pure _
  | cons operand rest ih =>
    obtain ⟨hoperand, hrest⟩ := List.forall_mem_cons.1 hrs
    have hothers : ∀ v s₁, Steps s s₁ →
        Reports (nameEach ctx rest >>= fun others => pure (v :: others)) s₁ :=
      fun v s₁ hsteps => (ih fun r hr => hsteps.grows.mem (hrest r hr)).bind fun _ _ _ => .pure _
    rw [nameEach]
    refine .get_bind ?_
    split
    · exact (FailsOnly.nameOperand fun _ => register_reports hoperand _ _).bind fun v s₁ hv =>
        hothers v s₁ ((Evolves.nameOperand operand).steps hv)
    · exact FailsOnly.bind (.pure _) fun v s₁ hv => hothers v s₁ ((Evolves.pure _).steps hv)

/-! ### Staging -/

/-- The slots of accepted settings are declared. -/
theorem argumentDeps_reports (hok : ctx.settings.fault? = none) (i : NodeId) (arg : Argument) :
    Reports (argumentDeps ctx i arg) s := by
  rw [argumentDeps]
  split
  case h_1 slot hslot =>
    obtain ⟨d, hd, -⟩ := (Settings.fault?_eq_none_iff.1 hok).exists_argument hslot
    exact .keepPromise hd
  case h_2 => exact failAt_reports (by simp)

theorem coefficientDeps_reports (hok : ctx.settings.fault? = none) (i : NodeId)
    (coeff : Coefficient) : Reports (coefficientDeps ctx i coeff) s := by
  rw [coefficientDeps]
  split
  case h_1 slot hslot =>
    obtain ⟨d, hd, -⟩ := (Settings.fault?_eq_none_iff.1 hok).exists_coefficient hslot
    exact .keepPromise hd
  case h_2 => exact failAt_reports (by simp)

/-- To finish a node breaks no promise. The sets of the operands have a union, and the node can be
rebuilt over their names or results. -/
theorem finishNode_reports (hok : ctx.settings.fault? = none) (h : Running bound old s)
    (hi : i ∈ s.graph)
    (hmirrors : List.Forall₂ (fun j r => Mirrors s.graph s.code j r) (s.graph.entered i) rs)
    (hrs : ∀ r ∈ rs, r.deps.rank = ctx.settings.rank) :
    Reports (finishNode ctx i (s.graph.node i) rs) s := by
  by_cases hplain : isPlain (s.graph.node i) = true
  · rw [Graph.entered_of_isPlain hplain] at hmirrors
    rw [finishNode_of_isPlain hplain]
    obtain ⟨deps, hdeps⟩ : ∃ u, ctx.settings.constant.unionAll (rs.map Staged.deps) = .ok u := by
      refine exists_unionAll fun d hd => ?_
      obtain ⟨r, hr, rfl⟩ := List.mem_map.1 hd
      rw [hrs r hr, rank_constant]
    refine FailsOnly.bind (.keepPromise hdeps) fun deps' s₁ hrun => ?_
    obtain ⟨-, rfl⟩ := keepPromise_eq_ok.1 hrun
    intro e s' hfails
    have hnames := ((nameAndRebuild_eq_error h hi hmirrors).1 hfails).2
    refine nameEach_reports (fun r hr => ?_) e s' hnames
    obtain ⟨j, -, hmirrored⟩ := exists_mirrored hi hmirrors r hr
    exact hmirrored.mem
  · cases hn : s.graph.node i
    all_goals rw [finishNode]
    case argument arg => exact (argumentDeps_reports hok i arg).bind fun deps s₁ _ => .pure _
    case coefficient coeff =>
      exact (coefficientDeps_reports hok i coeff).bind fun deps s₁ _ => .pure _
    case facetNormal => exact .pure _
    case labelled c l =>
      rw [registered]
      refine .get_bind ?_
      cases s.code.get? l with
      | some info => exact .pure _
      | none => exact failAt_reports (by simp)
    case spatialDerivative a b =>
      rw [Graph.entered_of_derivative hn] at hmirrors
      cases hmirrors with
      | cons hr hnil => exact .of_ensures (finishDerivative_ensures h hi hn hr)
    all_goals
      rw [hn] at hplain
      exact absurd rfl hplain

theorem stageEach_reports {is : List NodeId} (hok : ctx.settings.fault? = none)
    (hstage : ∀ {s : State} {i : NodeId}, Running bound old s → Ranked ctx.settings.rank s →
      i ∈ s.graph → Reports (stage ctx room i) s)
    (h : Running bound old s) (hs : Ranked ctx.settings.rank s) (his : ∀ j ∈ is, j ∈ s.graph) :
    Reports (stageEach (stage ctx room) is) s := by
  induction is generalizing s with
  | nil => exact .pure _
  | cons j is ih =>
    obtain ⟨hj, his⟩ := List.forall_mem_cons.1 his
    refine (hstage h hs hj).bind fun r s₁ hr => ?_
    have hsteps : Steps s s₁ := (Evolves.stage room j).steps hr
    have h₁ := ((stage_ensures ctx room h hj).of_ok hr).1
    have hs₁ := ((KeepsRank.stage hok room j s hs).of_ok hr).1
    exact (ih h₁ hs₁ fun k hk => hsteps.grows.mem (his k hk)).bind fun rest s₂ _ => .pure _

/-- Staging breaks no promise. -/
theorem stage_reports (hok : ctx.settings.fault? = none) (room : Nat) (h : Running bound old s)
    (hs : Ranked ctx.settings.rank s) (hi : i ∈ s.graph) : Reports (stage ctx room i) s := by
  induction room generalizing s i with
  | zero =>
    refine .get_bind ?_
    cases s.staged[i]? with
    | some known => exact .pure known
    | none =>
      refine FailsOnly.bind (fun e s' hrun => ?_) fun r s₁ _ => .pure _
      cases hrun
      exact Failure.not_isInternal (by simp)
  | succ room ih =>
    have hentered : ∀ j ∈ s.graph.entered i, j ∈ s.graph :=
      fun j hj => Graph.mem_of_mem_operands (Graph.entered_subset _ i hj) hi
    refine .get_bind ?_
    cases s.staged[i]? with
    | some known => exact .pure known
    | none =>
      refine FailsOnly.bind (.of_run_eq run_stageNode ?_) fun r s₁ _ => ?_
      · refine (stageEach_reports hok ih h hs hentered).bind fun rs s₁ hrs => ?_
        have hsteps : Steps s s₁ := (Evolves.stageEach (.stage room) _).steps hrs
        obtain ⟨h₁, hmirrors⟩ :=
          (stageEach_ensures (.stage room) (stage_ensures ctx room) h hentered).of_ok hrs
        have hranks := (KeepsRank.stageEach (KeepsRank.stage hok room) _ s hs).of_ok hrs
        rw [← hsteps.grows.entered_eq hi] at hmirrors
        rw [← hsteps.grows.node_eq i hi]
        exact finishNode_reports hok h₁ (hsteps.grows.mem hi) hmirrors hranks.2
      · exact FailsOnly.bind (.of_run_eq_ok rfl) fun _ _ _ => .pure _

/-! ### Splitting -/

/-- A call to stage a variable breaks no promise. -/
theorem stageVariable_reports (hok : ctx.settings.fault? = none) (h : Faithful s)
    (hs : Ranked ctx.settings.rank s) (v : NodeId) : Reports (stageVariable ctx v) s := by
  cases hl : s.graph.label? v with
  | none =>
    rw [stageVariable]
    refine .get_bind ?_
    simp only [Graph.contentAndLabel?_eq_none hl]
    exact failAt_reports (by simp)
  | some l =>
    obtain ⟨c, hv, hops⟩ := Graph.operands_of_label? hl
    have hc : c ∈ s.graph := Graph.mem_of_mem_operands (by simp [hops]) (Graph.mem_of_label? hl)
    -- a variable fails where its labels or its content do
    intro e s' hrun
    obtain ⟨-, hreserve | ⟨s₁, hreserve, hstage⟩⟩ := (stageVariable_eq_error h hv).1 hrun
    · exact reserveLabels_reports v e s' hreserve
    · have hs₁ := hs.of_sets_eq (Leaves.part_eq (.reserveLabels (fun _ _ => rfl) v) hreserve)
      exact stage_reports hok _ ((reserveLabels_ensures h v).of_ok hreserve) hs₁
        (((Evolves.reserveLabels v).steps hreserve).grows.mem hc) e s' hstage

theorem stageVariables_reports (hok : ctx.settings.fault? = none) (h : Faithful s)
    (hs : Ranked ctx.settings.rank s) (vs : List NodeId) : Reports (stageVariables ctx vs) s := by
  induction vs generalizing s with
  | nil => exact .pure ()
  | cons v vs ih =>
    refine (stageVariable_reports hok h hs v).bind fun info s₁ hrun => ?_
    exact ih ((stageVariable_ensures ctx h v).of_ok hrun).faithful
      ((KeepsRank.stageVariable hok v s hs).of_ok hrun).1

/-- A split breaks no promise, whatever was done before. -/
theorem splitExpression_reports {settings : Settings} (hok : settings.fault? = none)
    (h : Faithful s) (hs : Ranked settings.rank s) (hi : i ∈ s.graph) :
    Reports (splitExpression settings i) s := by
  rw [splitExpression]
  refine (reserveLabels_reports i).bind fun _ s₀ hreserve => ?_
  have hsteps₀ : Steps s s₀ := (Evolves.reserveLabels i).steps hreserve
  have h₀ := h.of_steps hsteps₀ (Leaves.part_eq (.reserveLabels (fun _ _ => rfl) i) hreserve)
  have hs₀ := hs.of_sets_eq (Leaves.part_eq (.reserveLabels (fun _ _ => rfl) i) hreserve)
  have hwrapped : Reports (wrap i) s₀ := (wrap_failsOnly (hsteps₀.grows.mem hi)).mono fun e he => by
    rw [he.1]
    exact not_isInternal_labelOverflow
  refine hwrapped.bind fun root s₁ hwrap => .get_bind ?_
  have h₁ := h₀.of_steps ((Evolves.wrap i).steps hwrap)
    (Leaves.part_eq (.wrap (fun _ _ _ => rfl) i) hwrap)
  have hs₁ := hs₀.of_sets_eq (Leaves.part_eq (.wrap (fun _ _ _ => rfl) i) hwrap)
  refine (stageVariables_reports hok h₁ hs₁ _).bind fun _ s₂ hvariables => ?_
  have h₂ := (stageVariables_ensures _ h₁ _).of_ok hvariables
  have hs₂ := ((KeepsRank.stageVariables hok _ s₁ hs₁).of_ok hvariables).1
  refine (stageVariable_reports hok h₂ hs₂ root).bind fun info s₃ _ => ?_
  exact FailsOnly.bind (.of_run_eq_ok rfl) fun _ _ _ => .pure _

end Reports

end Staging

end FormStaging
