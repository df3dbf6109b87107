import FormStaging.Proofs.CodeStructure.Grouping
import FormStaging.Proofs.Staging.Layers
import FormStaging.Proofs.Staging.Soundness
import Mathlib.Data.List.Induction

/-!
# What a run can do to a state

Whatever an action returns, it changes the state by few kinds of steps (`Step`): it adds nodes, avoids
more labels, registers a variable under a new label, or fills one of the memos. `Evolves x` says so of
an action `x`, for every state and for failures too, and it holds of all actions of a run. So what
every step keeps is kept by all of them. The registered variables, for one, are only added to
(`Steps.append`).

A caller makes expressions, stages variables and registers expressions in any order. `afterCalls` is
the state after a list of such calls, each of which may fail.
-/

set_option autoImplicit false

namespace FormStaging.Staging

variable {α β : Type} {ctx : Context} {s s' : State} {i : NodeId}

/-! ## Steps -/

/-- One change of a state. -/
inductive Step : State → State → Prop where
  | grow {s : State} {g : Graph} (h : s.graph.Extends g) : Step s { s with graph := g }
  | reserve {s : State} {labels : LabelSupply} (h : s.labels.next ≤ labels.next) :
      Step s { s with labels := labels }
  | register {s : State} {info : RegisteredVariable} (hnew : s.code.get? info.label = none)
      (hnode : s.graph.label? info.node = some info.label)
      (hlt : info.label.value < s.labels.next) : Step s { s with code := s.code.insert info }
  | stage {s : State} (i : NodeId) (r : Staged) : Step s { s with staged := s.staged.insert i r }
  | name {s : State} (n v : NodeId) : Step s { s with named := s.named.insert n v }

/-- Some changes of a state, one after the other. -/
abbrev Steps : State → State → Prop := Relation.ReflTransGen Step

/-- What every step keeps is kept by all of them. -/
theorem Steps.keep {P : State → Prop} (h : Steps s s')
    (hstep : ∀ s s', Step s s' → P s → P s') (hs : P s) : P s' := by
  induction h with
  | refl => exact hs
  | tail _ h ih => exact hstep _ _ h ih

/-- Nodes are only added. -/
theorem Steps.grows (h : Steps s s') : s.graph.Extends s'.graph := by
  refine h.keep (P := fun t => s.graph.Extends t.graph) (fun t t' hstep ht => ?_) (.refl _)
  cases hstep with
  | grow hg => exact ht.trans hg
  | _ => exact ht

/-- Labels are minted in ascending order. -/
theorem Steps.next_le (h : Steps s s') : s.labels.next ≤ s'.labels.next := by
  refine h.keep (P := fun t => s.labels.next ≤ t.labels.next) (fun t t' hstep ht => ?_)
    (Nat.le_refl _)
  cases hstep with
  | reserve hle => exact Nat.le_trans ht hle
  | _ => exact ht

/-- A registration is never undone. -/
theorem Steps.get?_eq_some (h : Steps s s') {l : Label} {info : RegisteredVariable}
    (hl : s.code.get? l = some info) : s'.code.get? l = some info := by
  refine h.keep (P := fun t => t.code.get? l = some info) (fun t t' hstep ht => ?_) hl
  cases hstep with
  | @register other hnew =>
    rw [CodeStructure.get?_insert, if_neg, ht]
    rintro rfl
    rw [hnew] at ht
    cases ht
  | _ => exact ht

/-- What is registered is a variable with the label that it is registered under, and this label will
not be minted. -/
def Reserved (s : State) : Prop :=
  ∀ l info, s.code.get? l = some info →
    info.label = l ∧ s.graph.label? info.node = some l ∧ l.value < s.labels.next

theorem Reserved.fresh (g : Graph) : Reserved { graph := g } := by
  intro l info hget
  rw [CodeStructure.get?_empty] at hget
  cases hget

theorem Step.reserved (h : Step s s') (hs : Reserved s) : Reserved s' := by
  intro l info hget
  cases h with
  | grow hg =>
    obtain ⟨hlabel, hnode, hlt⟩ := hs l info hget
    exact ⟨hlabel, hg.label?_eq_some hnode, hlt⟩
  | reserve hle =>
    obtain ⟨hlabel, hnode, hlt⟩ := hs l info hget
    exact ⟨hlabel, hnode, Nat.lt_of_lt_of_le hlt hle⟩
  | @register other _ hnode hlt =>
    rw [CodeStructure.get?_insert] at hget
    split at hget
    case isTrue hl =>
      cases hget
      exact ⟨hl, hl ▸ hnode, hl ▸ hlt⟩
    case isFalse => exact hs l info hget
  | stage | name => exact hs l info hget

theorem Steps.reserved (h : Steps s s') (hs : Reserved s) : Reserved s' :=
  h.keep (fun _ _ => Step.reserved) hs

/-- A label that is minted next is not registered. -/
theorem Reserved.get?_next (h : Reserved s) : s.code.get? ⟨s.labels.next⟩ = none := by
  rw [Option.eq_none_iff_forall_ne_some]
  intro info hget
  exact absurd (h _ info hget).2.2 (Nat.lt_irrefl _)

/-- Whatever an action does to a state, it does by steps. -/
def Evolves (x : Action α) : Prop := ∀ s, Steps s (stateAfter x s)

theorem Evolves.steps {x : Action α} {a : α} (h : Evolves x) (hrun : x.run s = .ok a s') :
    Steps s s' := by
  rw [← stateAfter_of_ok hrun]
  exact h s

theorem Evolves.steps_of_error {x : Action α} {e : Failure} (h : Evolves x)
    (hrun : x.run s = .error e s') : Steps s s' := by
  rw [← stateAfter_of_error hrun]
  exact h s

/-! ## Sequences -/

namespace Evolves

theorem bind {x : Action α} {f : α → Action β} (hx : Evolves x) (hf : ∀ a, Evolves (f a)) :
    Evolves (x >>= f) :=
  fun s => stateAfter_bind (P := Steps s) (hx s) fun a s₁ h => h.trans (hf a s₁)

theorem pure (a : α) : Evolves (Pure.pure a) := fun _ => .refl

theorem throw (e : Failure) : Evolves (MonadExcept.throw e : Action α) := fun _ => .refl

/-- What is done with the state is done in this state. -/
theorem get_bind_self {f : State → Action β} (hf : ∀ s, Steps s (stateAfter (f s) s)) :
    Evolves (get >>= f) :=
  fun s => hf s

theorem get_bind {f : State → Action β} (hf : ∀ s, Evolves (f s)) : Evolves (get >>= f) :=
  get_bind_self fun s => hf s s

theorem modify {f : State → State} (hf : ∀ s, Steps s (f s)) : Evolves (modify f) := hf

theorem failAt (i : NodeId) (cause : Cause) : Evolves (failAt ctx i cause : Action α) :=
  fun _ => .refl

theorem keepPromise (e : Except Misuse α) : Evolves (keepPromise e) := by
  cases e with
  | ok a => exact .pure a
  | error m => exact .throw _

/-! ## Nodes and labels -/

theorem addNode (n : Node NodeId) : Evolves (addNode n) := by
  intro s
  rw [stateAfter]
  simp only [Staging.addNode, EStateM.run]
  cases hp : s.graph.push? n with
  | none => exact .refl
  | some added =>
    obtain ⟨g, j⟩ := added
    obtain ⟨hn, rfl, rfl⟩ := Graph.push?_eq_some_iff.1 hp
    exact .single (.grow (.push _ n hn))

theorem rebuildNode (i : NodeId) (operands : List NodeId) : Evolves (rebuildNode i operands) := by
  intro s
  rw [stateAfter]
  simp only [Staging.rebuildNode, EStateM.run, Graph.rebuild]
  cases (s.graph.node i).withOperands? operands with
  | none => exact .refl
  | some m =>
    by_cases hempty : operands.isEmpty = true
    · simp only [if_pos hempty]
      exact .refl
    · simp only [if_neg hempty]
      cases hp : s.graph.push? m with
      | none => exact .refl
      | some added =>
        obtain ⟨g, j⟩ := added
        obtain ⟨hn, rfl, rfl⟩ := Graph.push?_eq_some_iff.1 hp
        exact .single (.grow (.push _ m hn))

theorem reserveLabel (l : Label) : Evolves (reserveLabel l) := by
  intro s
  cases h : s.labels.reserve? l with
  | none =>
    rw [stateAfter_of_error (run_reserveLabel_of_none h)]
  | some labels =>
    rw [stateAfter_of_ok (run_reserveLabel h)]
    exact .single (.reserve (LabelSupply.next_le_of_reserve? h))

theorem reserveEach (ls : List Label) : Evolves (reserveEach ls) := by
  induction ls with
  | nil => exact .pure ()
  | cons l ls ih => exact (reserveLabel l).bind fun _ => ih

theorem reserveLabels (i : NodeId) : Evolves (reserveLabels i) := get_bind fun _ => reserveEach _

theorem mintLabel : Evolves mintLabel := by
  intro s
  cases h : s.labels.mint? with
  | none =>
    rw [stateAfter_of_error (mintLabel_eq_error.2 ⟨h, rfl, rfl⟩)]
  | some minted =>
    obtain ⟨l, labels⟩ := minted
    rw [stateAfter_of_ok (mintLabel_eq_ok.2 ⟨labels, h, rfl⟩)]
    exact .single (.reserve (LabelSupply.next_le_of_mint? h))

end Evolves

/-! ## Registering -/

/-- A candidate with its label is registered if the label is new. Otherwise nothing but the avoided
labels changes. -/
theorem steps_registerCandidate {c : Candidate} {deps : DependencySet}
    (hg : s.graph.Extends c.graph) (hl : c.graph.label? c.node = some c.label) :
    Steps s (stateAfter (registerCandidate ctx c deps) s) := by
  cases hreserve : s.labels.reserve? c.label with
  | none =>
    rw [stateAfter_of_error (run_registerCandidate_of_overflow hreserve)]
  | some labels =>
    have hreserved : Steps s { s with labels := labels } :=
      .single (.reserve (LabelSupply.next_le_of_reserve? hreserve))
    rw [stateAfter, run_registerCandidate hreserve]
    rcases settleCandidate_cases ctx c deps { s with labels := labels } with
      ⟨hnew, hrun⟩ | ⟨info, -, hrun | hrun⟩
    · rw [hrun]
      refine (hreserved.tail (.grow hg)).tail ?_
      exact @Step.register _ ⟨c.label, c.node, deps⟩ hnew hl (LabelSupply.lt_next_of_reserve? hreserve)
    · rw [hrun]
      exact hreserved
    · rw [hrun]
      exact hreserved

namespace Evolves

theorem chooseLabel (label : Option Label) : Evolves (chooseLabel label) := by
  cases label with
  | some l => exact .pure l
  | none => exact mintLabel

/-- The variable that an expression is registered as is the expression or a new node around it. -/
theorem candidate?_grows {g : Graph} {l : Label} {c : Candidate}
    (h : candidate? g i l = some c) :
    g.Extends c.graph ∧ c.graph.label? c.node = some c.label := by
  rw [candidate?] at h
  cases hl : g.label? i with
  | some own =>
    rw [hl] at h
    cases h
    exact ⟨.refl g, hl⟩
  | none =>
    rw [hl] at h
    obtain ⟨⟨g', j⟩, hp, rfl⟩ := Option.map_eq_some_iff.1 h
    obtain ⟨hn, rfl, rfl⟩ := Graph.push?_eq_some_iff.1 hp
    refine ⟨.push _ _ hn, ?_⟩
    rw [Graph.label?, Graph.node_push_size]
    rfl

theorem register (i : NodeId) (deps : DependencySet) (label : Option Label) :
    Evolves (register ctx i deps label) := by
  have hcandidate : ∀ (l : Label) (s : State) (c : Candidate), candidate? s.graph i l = some c →
      Steps s (stateAfter (registerCandidate ctx c deps) s) := by
    intro l s c hc
    obtain ⟨hg, hl⟩ := candidate?_grows hc
    exact steps_registerCandidate hg hl
  refine get_bind fun s => ?_
  cases s.graph.label? i with
  | some own =>
    refine (pure own).bind fun l => get_bind_self fun s => ?_
    cases hc : candidate? s.graph i l with
    | none => exact .refl
    | some c => exact hcandidate l s c hc
  | none =>
    refine (chooseLabel label).bind fun l => get_bind_self fun s => ?_
    cases hc : candidate? s.graph i l with
    | none => exact .refl
    | some c => exact hcandidate l s c hc

theorem nameOperand (operand : Staged) : Evolves (nameOperand ctx operand) := by
  refine get_bind fun s => ?_
  cases s.named[operand.node]? with
  | some known => exact .pure known
  | none =>
    refine (register operand.node operand.deps none).bind fun info => ?_
    exact (modify fun s => .single (.name operand.node info.node)).bind fun _ => .pure _

/-! ## Staging -/

theorem registered (i : NodeId) (l : Label) : Evolves (registered ctx i l) := by
  refine get_bind fun s => ?_
  cases s.code.get? l with
  | some info => exact .pure _
  | none => exact .failAt i _

theorem stageEach {stage : NodeId → Action Staged} (hstage : ∀ i, Evolves (stage i))
    (is : List NodeId) : Evolves (stageEach stage is) := by
  induction is with
  | nil => exact .pure _
  | cons i is ih => exact (hstage i).bind fun r => ih.bind fun rest => .pure _

theorem nameEach (operands : List Staged) : Evolves (nameEach ctx operands) := by
  induction operands with
  | nil => exact .pure _
  | cons operand rest ih =>
    refine get_bind fun s => ?_
    split
    · exact (nameOperand operand).bind fun v => ih.bind fun others => .pure _
    · exact (pure operand.node).bind fun v => ih.bind fun others => .pure _

theorem withOperands (i : NodeId) (old new : List NodeId) (deps : DependencySet) :
    Evolves (withOperands i old new deps) := by
  rw [Staging.withOperands]
  split
  · exact .pure _
  · exact (rebuildNode i new).bind fun j => .pure _

theorem nameAndRebuild (i : NodeId) (operands : List NodeId) (rs : List Staged)
    (deps : DependencySet) : Evolves (nameAndRebuild ctx i operands rs deps) := by
  refine get_bind fun s => ?_
  split
  · exact (nameEach rs).bind fun new => withOperands i operands new deps
  · exact (pure _).bind fun new => withOperands i operands new deps

theorem argumentDeps (i : NodeId) (arg : Argument) : Evolves (argumentDeps ctx i arg) := by
  rw [Staging.argumentDeps]
  split
  · exact keepPromise _
  · exact failAt i _

theorem coefficientDeps (i : NodeId) (coeff : Coefficient) :
    Evolves (coefficientDeps ctx i coeff) := by
  rw [Staging.coefficientDeps]
  split
  · exact keepPromise _
  · exact failAt i _

theorem finishNode (i : NodeId) (layer : Node NodeId) (rs : List Staged) :
    Evolves (finishNode ctx i layer rs) := by
  cases layer with
  | argument arg => exact (argumentDeps i arg).bind fun deps => .pure _
  | coefficient coeff => exact (coefficientDeps i coeff).bind fun deps => .pure _
  | facetNormal => exact .pure _
  | labelled c l => exact registered i l
  | spatialDerivative a b => exact withOperands i _ _ _
  | _ => exact (keepPromise _).bind fun deps => nameAndRebuild i _ rs deps

theorem stageNode {stage : NodeId → Action Staged} (hstage : ∀ i, Evolves (stage i)) (i : NodeId) :
    Evolves (stageNode ctx stage i) := by
  intro s
  rw [stateAfter_congr run_stageNode]
  exact (stageEach hstage _).bind (fun rs => finishNode i _ rs) s

theorem remember {compute : Action Staged} (h : Evolves compute) (i : NodeId) :
    Evolves (remember i compute) := by
  refine get_bind fun s => ?_
  cases s.staged[i]? with
  | some known => exact .pure known
  | none =>
    refine h.bind fun r => ?_
    exact (modify fun s => .single (.stage i r)).bind fun _ => .pure _

/-- Staging an expression changes the state by steps. -/
theorem stage (room : Nat) (i : NodeId) : Evolves (stage ctx room i) := by
  induction room generalizing i with
  | zero => exact remember (throw _) i
  | succ room ih => exact remember (stageNode ih i) i

/-! ## Variables and whole expressions -/

theorem registerContent (i content : NodeId) (label : Label) (r : Staged) :
    Evolves (registerContent ctx i content label r) := by
  rw [Staging.registerContent]
  split
  · exact (pure i).bind fun node => register node r.deps _
  · exact (addNode _).bind fun node => register node r.deps _

theorem stageVariable (i : NodeId) : Evolves (stageVariable ctx i) := by
  refine get_bind fun s => ?_
  simp only
  cases (s.graph.node i).contentAndLabel? with
  | none => exact failAt i _
  | some inside =>
    obtain ⟨content, label⟩ := inside
    refine get_bind fun s => ?_
    cases s.code.get? label with
    | some info => exact .pure info
    | none =>
      exact (reserveLabels i).bind fun _ =>
        (stage _ content).bind fun r => registerContent i content label r

theorem stageVariables (is : List NodeId) : Evolves (stageVariables ctx is) := by
  induction is with
  | nil => exact .pure ()
  | cons i is ih => exact (stageVariable i).bind fun _ => ih

theorem wrap (i : NodeId) : Evolves (wrap i) := by
  refine get_bind fun s => ?_
  cases s.graph.label? i with
  | some l => exact .pure i
  | none => exact mintLabel.bind fun l => addNode _

end Evolves

/-! ## Registered variables -/

variable {infos : List RegisteredVariable}

/-- The registered variables are `infos`, in the order of their registration. -/
structure Records (s : State) (infos : List RegisteredVariable) : Prop where
  groups : s.code.Groups infos
  labels : Labels s.graph infos

/-- A step adds to the registered variables at their end. -/
theorem Step.append (h : Step s s') (hs : Records s infos) :
    ∃ more, Records s' (infos ++ more) := by
  cases h with
  | grow hg =>
    refine ⟨[], ?_⟩
    rw [List.append_nil]
    exact ⟨hs.groups, fun info hmem => hg.label?_eq_some (hs.labels info hmem)⟩
  | @register info hnew hnode =>
    refine ⟨[info], hs.groups.insert hnew, fun other hmem => ?_⟩
    rcases List.mem_append.1 hmem with hmem | hmem
    · exact hs.labels other hmem
    · rw [List.mem_singleton.1 hmem]
      exact hnode
  | reserve | stage | name =>
    refine ⟨[], ?_⟩
    rw [List.append_nil]
    exact ⟨hs.groups, hs.labels⟩

/-- Registered variables are only added to. -/
theorem Steps.append (h : Steps s s') (hs : Records s infos) :
    ∃ more, Records s' (infos ++ more) := by
  refine h.keep (P := fun s => ∃ more, Records s (infos ++ more)) ?_ ⟨[], ?_⟩
  · rintro s₁ s₂ hstep ⟨more, hmore⟩
    obtain ⟨more', hmore'⟩ := hstep.append hmore
    exact ⟨more ++ more', List.append_assoc _ _ _ ▸ hmore'⟩
  · rw [List.append_nil]
    exact hs

/-! ## Calls -/

/-- What a caller of a run does: it makes a node, stages a variable, or registers an expression with
a dependency set. -/
inductive Call where
  | make (n : Node NodeId)
  | stage (i : NodeId)
  | register (i : NodeId) (deps : DependencySet) (label : Option Label)

/-- What a call does. -/
def Call.action (ctx : Context) : Call → Action Unit
  | .make n => addNode n >>= fun _ => pure ()
  | .stage i => stageVariable ctx i >>= fun _ => pure ()
  | .register i deps label => Staging.register ctx i deps label >>= fun _ => pure ()

/-- The state of a fresh run after some calls. A call that fails leaves what it had built. -/
def afterCalls (settings : Settings) (g : Graph) (calls : List Call) : State :=
  calls.foldl (fun s call => stateAfter (call.action ⟨settings, none⟩) s) { graph := g }

section Calls

variable {settings : Settings} {g : Graph} {calls calls' : List Call}

theorem afterCalls_concat (call : Call) : afterCalls settings g (calls ++ [call]) =
    stateAfter (call.action ⟨settings, none⟩) (afterCalls settings g calls) := by
  simp only [afterCalls, List.foldl_append, List.foldl_cons, List.foldl_nil]

end Calls

theorem Call.evolves (call : Call) : Evolves (call.action ctx) := by
  cases call with
  | make n => exact (Evolves.addNode n).bind fun _ => .pure ()
  | stage i => exact (Evolves.stageVariable i).bind fun _ => .pure ()
  | register i deps label => exact (Evolves.register i deps label).bind fun _ => .pure ()

/-- Later calls change the state by steps, failed calls among them. -/
theorem steps_afterCalls_append (settings : Settings) (g : Graph) (calls later : List Call) :
    Steps (afterCalls settings g calls) (afterCalls settings g (calls ++ later)) := by
  induction later using List.reverseRecOn with
  | nil =>
    rw [List.append_nil]
  | append_singleton later call ih =>
    rw [← List.append_assoc, afterCalls_concat]
    exact ih.trans (call.evolves _)

/-- Calls change the state by steps. -/
theorem steps_afterCalls (settings : Settings) (g : Graph) (calls : List Call) :
    Steps { graph := g } (afterCalls settings g calls) :=
  steps_afterCalls_append settings g [] calls

/-- What steps keep is kept by a split, if it does not depend on the order of the variables. -/
theorem stateAfter_splitExpression {P : State → Prop} (settings : Settings) (i : NodeId)
    (hstep : ∀ s s', Step s s' → P s → P s')
    (hreorder : ∀ s v, P s → P { s with code := s.code.reorder (s.graph.labels v) }) (hs : P s) :
    P (stateAfter (splitExpression settings i) s) := by
  have hkeep : ∀ {α : Type} {x : Action α}, Evolves x → ∀ s, P s → P (stateAfter x s) :=
    fun hx s hs => (hx s).keep hstep hs
  rw [splitExpression]
  refine stateAfter_bind (hkeep (.reserveLabels i) s hs) fun _ s₁ h₁ => ?_
  refine stateAfter_bind (hkeep (.wrap i) s₁ h₁) fun root s₂ h₂ => ?_
  refine stateAfter_bind h₂ fun g s₃ h₃ => ?_
  refine stateAfter_bind (hkeep (.stageVariables _) s₃ h₃) fun _ s₄ h₄ => ?_
  refine stateAfter_bind (hkeep (.stageVariable root) s₄ h₄) fun info s₅ h₅ => ?_
  exact hreorder s₅ info.node h₅

end FormStaging.Staging
