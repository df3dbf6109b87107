import FormStaging.Proofs.Staging.Layers

/-!
# The entries of the memos

Registering an expression leaves both memos as they are, and naming operands or rebuilding a node leaves
the results of staging as they are (`Leaves`). Staging a node adds results for this node and for nodes
before it, and it changes none that is there (`FillsBelow.stage`): the operands of a node come before it,
so a result for the node is not made while it is computed. Nor is the name of an operand changed
(`named_stateAfter_nameEach`).
-/

set_option autoImplicit false

namespace FormStaging.Staging

variable {α β γ : Type} {ctx : Context} {s s' s'' : State} {i : NodeId}

/-! ## What an action leaves as it is -/

/-- An action leaves a part of the state as it is, whether it succeeds or fails. -/
def Leaves (part : State → γ) (x : Action α) : Prop := ∀ s, part (stateAfter x s) = part s

/-- The results of staging, and the names of operands. -/
def State.memos (s : State) : Std.HashMap NodeId Staged × Std.HashMap NodeId NodeId :=
  (s.staged, s.named)

namespace Leaves

variable {part : State → γ}

theorem pure (a : α) : Leaves part (Pure.pure a) := fun _ => rfl

theorem throw (e : Failure) : Leaves part (MonadExcept.throw e : Action α) := fun _ => rfl

theorem failAt (i : NodeId) (cause : Cause) : Leaves part (failAt ctx i cause : Action α) :=
  fun _ => rfl

theorem bind {x : Action α} {f : α → Action β} (hx : Leaves part x)
    (hf : ∀ a, Leaves part (f a)) : Leaves part (x >>= f) :=
  fun s => stateAfter_bind (P := fun t => part t = part s) (hx s)
    fun a s₁ hs₁ => (hf a s₁).trans hs₁

theorem get_bind {f : State → Action β} (hf : ∀ s, Leaves part (f s)) : Leaves part (get >>= f) :=
  fun s => hf s s

theorem keepPromise (e : Except Misuse α) : Leaves part (keepPromise e) := by
  cases e with
  | ok a => exact pure a
  | error m => exact throw _

theorem part_eq {x : Action α} {a : α} (h : Leaves part x) (hrun : x.run s = .ok a s') :
    part s' = part s := by
  rw [← stateAfter_of_ok hrun]
  exact h s

theorem staged_of_memos {x : Action α} (h : Leaves State.memos x) : Leaves State.staged x :=
  fun s => congrArg Prod.fst (h s)

/-! ## New nodes -/

/-- A new node changes nothing but the graph. -/
theorem addNode (hpart : ∀ s g, part { s with graph := g } = part s) (n : Node NodeId) :
    Leaves part (addNode n) := by
  intro s
  rw [stateAfter]
  simp only [Staging.addNode, EStateM.run]
  cases s.graph.push? n with
  | none => rfl
  | some added => exact hpart s added.1

theorem rebuildNode (hpart : ∀ s g, part { s with graph := g } = part s) (i : NodeId)
    (operands : List NodeId) : Leaves part (rebuildNode i operands) := by
  intro s
  rw [stateAfter]
  simp only [Staging.rebuildNode, EStateM.run]
  cases s.graph.rebuild i operands with
  | error e => rfl
  | ok added => exact hpart s added.1

theorem withOperands (hpart : ∀ s g, part { s with graph := g } = part s) (i : NodeId)
    (old new : List NodeId) (deps : DependencySet) : Leaves part (withOperands i old new deps) := by
  rw [Staging.withOperands]
  split
  · exact pure _
  · exact (rebuildNode hpart i new).bind fun j => pure _

/-! ## Labels -/

theorem reserveLabel (hpart : ∀ s labels, part { s with labels := labels } = part s) (l : Label) :
    Leaves part (reserveLabel l) := by
  intro s
  rw [stateAfter]
  simp only [Staging.reserveLabel, EStateM.run]
  cases s.labels.reserve? l with
  | none => rfl
  | some labels => exact hpart s labels

theorem reserveLabels (hpart : ∀ s labels, part { s with labels := labels } = part s) (i : NodeId) :
    Leaves part (reserveLabels i) := by
  refine get_bind fun s => ?_
  induction s.graph.labels i with
  | nil => exact pure ()
  | cons l ls ih => exact (reserveLabel hpart l).bind fun _ => ih

theorem mintLabel (hpart : ∀ s labels, part { s with labels := labels } = part s) :
    Leaves part mintLabel := by
  intro s
  rw [stateAfter]
  simp only [Staging.mintLabel, EStateM.run]
  cases s.labels.mint? with
  | none => rfl
  | some minted => exact hpart s minted.2

/-- A variable around an expression changes nothing but the graph and the labels. -/
theorem wrap (hpart : ∀ s g labels, part { s with graph := g, labels := labels } = part s)
    (i : NodeId) : Leaves part (wrap i) := by
  refine get_bind fun s => ?_
  cases s.graph.label? i with
  | some l => exact pure i
  | none =>
    refine (mintLabel fun s labels => hpart s s.graph labels).bind fun l => ?_
    exact addNode (fun s g => hpart s g s.labels) _

/-! ## Registering -/

theorem registerCandidate (c : Candidate) (deps : DependencySet) :
    Leaves State.memos (registerCandidate ctx c deps) := by
  refine (reserveLabel (fun _ _ => rfl) c.label).bind fun _ s => ?_
  rw [stateAfter]
  rcases settleCandidate_cases ctx c deps s with ⟨-, hrun⟩ | ⟨info, -, hrun | hrun⟩
  all_goals simp only [hrun, State.memos]

theorem register (i : NodeId) (deps : DependencySet) (label : Option Label) :
    Leaves State.memos (register ctx i deps label) := by
  have hchoose : ∀ label, Leaves State.memos (chooseLabel label) := by
    intro label
    cases label with
    | some l => exact pure l
    | none => exact mintLabel fun _ _ => rfl
  refine get_bind fun s => ?_
  cases s.graph.label? i with
  | some own =>
    refine (pure own).bind fun l => get_bind fun s => ?_
    cases candidate? s.graph i l with
    | some c => exact registerCandidate c deps
    | none => exact throw _
  | none =>
    refine (hchoose label).bind fun l => get_bind fun s => ?_
    cases candidate? s.graph i l with
    | some c => exact registerCandidate c deps
    | none => exact throw _

theorem nameOperand (operand : Staged) : Leaves State.staged (nameOperand ctx operand) := by
  refine get_bind fun s => ?_
  cases s.named[operand.node]? with
  | some known => exact pure known
  | none =>
    refine (staged_of_memos (register operand.node operand.deps none)).bind fun info => ?_
    exact bind (fun _ => rfl) fun _ => pure _

theorem nameEach (operands : List Staged) : Leaves State.staged (nameEach ctx operands) := by
  induction operands with
  | nil => exact pure _
  | cons operand rest ih =>
    refine get_bind fun s => ?_
    split
    · exact (nameOperand operand).bind fun v => ih.bind fun others => pure _
    · exact (pure operand.node).bind fun v => ih.bind fun others => pure _

end Leaves

/-! ## Leaves of an expression -/

namespace Leaves

variable {part : State → γ}

theorem argumentDeps (i : NodeId) (arg : Argument) : Leaves part (argumentDeps ctx i arg) := by
  rw [Staging.argumentDeps]
  split
  · exact keepPromise _
  · exact failAt i _

theorem coefficientDeps (i : NodeId) (coeff : Coefficient) :
    Leaves part (coefficientDeps ctx i coeff) := by
  rw [Staging.coefficientDeps]
  split
  · exact keepPromise _
  · exact failAt i _

theorem registered (i : NodeId) (l : Label) : Leaves part (registered ctx i l) := by
  refine get_bind fun s => ?_
  cases s.code.get? l with
  | some info => exact pure _
  | none => exact failAt i _

end Leaves

/-! ## Finishing -/

namespace Leaves

theorem nameAndRebuild (i : NodeId) (operands : List NodeId) (rs : List Staged)
    (deps : DependencySet) : Leaves State.staged (nameAndRebuild ctx i operands rs deps) := by
  have hrebuild : ∀ new, Leaves State.staged (Staging.withOperands i operands new deps) :=
    fun new => withOperands (fun _ _ => rfl) i operands new deps
  refine get_bind fun s => ?_
  split
  · exact (nameEach rs).bind fun new => hrebuild new
  · exact (pure _).bind fun new => hrebuild new

/-- After the nodes entered from a node were staged, no other result is made. -/
theorem finishNode (i : NodeId) (layer : Node NodeId) (rs : List Staged) :
    Leaves State.staged (finishNode ctx i layer rs) := by
  cases layer with
  | argument arg => exact (argumentDeps i arg).bind fun deps => pure _
  | coefficient coeff => exact (coefficientDeps i coeff).bind fun deps => pure _
  | facetNormal => exact pure _
  | labelled c l => exact registered i l
  | spatialDerivative a b => exact withOperands (fun _ _ => rfl) i _ _ _
  | _ => exact (keepPromise _).bind fun deps => nameAndRebuild i _ rs deps

theorem registerContent_memos (i content : NodeId) (label : Label) (r : Staged) :
    Leaves State.memos (registerContent ctx i content label r) := by
  have hregister : ∀ node, Leaves State.memos (Staging.register ctx node r.deps (some label)) :=
    fun node => register node r.deps _
  rw [Staging.registerContent]
  split
  · exact (pure i).bind fun node => hregister node
  · exact (addNode (fun _ _ => rfl) _).bind fun node => hregister node

theorem registerContent (i content : NodeId) (label : Label) (r : Staged) :
    Leaves State.staged (registerContent ctx i content label r) :=
  staged_of_memos (registerContent_memos i content label r)

end Leaves

/-! ## What staging adds -/

/-- From one state to another, results are added for nodes before `bound` only, and no result is
changed. -/
structure Fills (bound : NodeId) (s s' : State) : Prop where
  kept : ∀ (k : NodeId) (r : Staged), s.staged[k]? = some r → s'.staged[k]? = some r
  from_bound : ∀ k : NodeId, bound ≤ k → s'.staged[k]? = s.staged[k]?

namespace Fills

variable {bound bound' : NodeId}

theorem of_staged_eq (h : s'.staged = s.staged) : Fills bound s s' := by
  refine ⟨fun k r hr => ?_, fun k _ => ?_⟩
  · rwa [h]
  · rw [h]

theorem trans (h : Fills bound s s') (h' : Fills bound s' s'') : Fills bound s s'' :=
  ⟨fun k r hr => h'.kept k r (h.kept k r hr),
    fun k hk => (h'.from_bound k hk).trans (h.from_bound k hk)⟩

theorem mono (h : Fills bound s s') (hle : bound ≤ bound') : Fills bound' s s' :=
  ⟨h.kept, fun k hk => h.from_bound k (Nat.le_trans hle hk)⟩

/-- The result for a node is added. -/
theorem insert (h : Fills i s s') (hi : s.staged[i]? = none) (r : Staged) :
    Fills (i + 1) s { s' with staged := s'.staged.insert i r } := by
  refine ⟨fun k r' hk => ?_, fun k hk => ?_⟩
  · rw [Std.HashMap.getElem?_insert, if_neg, h.kept k r' hk]
    rw [beq_iff_eq]
    rintro rfl
    rw [hi] at hk
    cases hk
  · have hne : ¬ (i == k) = true := by
      rw [beq_iff_eq]
      exact Nat.ne_of_lt hk
    rw [Std.HashMap.getElem?_insert, if_neg hne, h.from_bound k (Nat.le_of_succ_le hk)]

end Fills

/-- An action adds results for nodes before `bound` only, and changes none. -/
def FillsBelow (bound : NodeId) (x : Action α) : Prop := ∀ s, Fills bound s (stateAfter x s)

namespace FillsBelow

variable {bound bound' : NodeId}

theorem of_leaves {x : Action α} (h : Leaves State.staged x) : FillsBelow bound x :=
  fun s => .of_staged_eq (h s)

theorem mono {x : Action α} (h : FillsBelow bound x) (hle : bound ≤ bound') : FillsBelow bound' x :=
  fun s => (h s).mono hle

theorem bind {x : Action α} {f : α → Action β} (hx : FillsBelow bound x)
    (hf : ∀ a, FillsBelow bound (f a)) : FillsBelow bound (x >>= f) :=
  fun s => stateAfter_bind (P := Fills bound s) (hx s) fun a s₁ hs₁ => hs₁.trans (hf a s₁)

theorem fills {x : Action α} {a : α} (h : FillsBelow bound x) (hrun : x.run s = .ok a s') :
    Fills bound s s' := by
  rw [← stateAfter_of_ok hrun]
  exact h s

theorem fills_of_error {x : Action α} {e : Failure} (h : FillsBelow bound x)
    (hrun : x.run s = .error e s') : Fills bound s s' := by
  rw [← stateAfter_of_error hrun]
  exact h s

theorem stageEach {stage : NodeId → Action Staged} {is : List NodeId}
    (hstage : ∀ j, FillsBelow (j + 1) (stage j))
    (his : ∀ j ∈ is, j < bound) : FillsBelow bound (stageEach stage is) := by
  induction is with
  | nil => exact of_leaves (.pure _)
  | cons j is ih =>
    obtain ⟨hj, his⟩ := List.forall_mem_cons.1 his
    exact ((hstage j).mono hj).bind fun r => (ih his).bind fun rest => of_leaves (.pure _)

theorem stageNode {stage : NodeId → Action Staged}
    (hstage : ∀ j, FillsBelow (j + 1) (stage j)) (i : NodeId) :
    FillsBelow i (stageNode ctx stage i) := by
  intro s
  have hentered : ∀ j ∈ s.graph.entered i, j < i :=
    fun j hj => Graph.lt_of_mem_operands (Graph.entered_subset _ i hj)
  rw [stateAfter_congr run_stageNode]
  exact (stageEach hstage hentered).bind (fun rs => of_leaves (.finishNode i _ rs)) s

theorem remember {compute : Action Staged} (h : FillsBelow i compute) :
    FillsBelow (i + 1) (remember i compute) := by
  intro s
  rw [stateAfter]
  cases hrun : (Staging.remember i compute).run s with
  | ok r s' =>
    rcases remember_eq_ok.1 hrun with ⟨-, rfl⟩ | ⟨hnone, s₁, hr, rfl⟩
    · exact .of_staged_eq rfl
    · exact (h.fills hr).insert hnone r
  | error e s' => exact (h.fills_of_error (remember_eq_error.1 hrun).2).mono (Nat.le_succ i)

/-- Staging a node adds results up to this node. -/
theorem stage (ctx : Context) (room : Nat) (i : NodeId) :
    FillsBelow (i + 1) (Staging.stage ctx room i) := by
  induction room generalizing i with
  | zero => exact remember (of_leaves (.throw _))
  | succ room ih => exact remember (stageNode ih i)

end FillsBelow

/-! ## What staging finds again -/

variable {room : Nat} {r : Staged}

/-- A node with a result is not staged again. -/
theorem run_stage_of_staged (h : s.staged[i]? = some r) : (stage ctx room i).run s = .ok r s := by
  cases room with
  | zero => exact remember_eq_ok.2 (Or.inl ⟨h, rfl⟩)
  | succ room => exact remember_eq_ok.2 (Or.inl ⟨h, rfl⟩)

/-- A node that was staged has its result. -/
theorem staged_of_stage (h : (stage ctx room i).run s = .ok r s') : s'.staged[i]? = some r := by
  rcases stage_eq_ok h with ⟨hr, rfl⟩ | ⟨_, s₁, -, -, -, rfl⟩
  · exact hr
  · simp

/-- Nodes that were staged one after the other have their results. -/
theorem staged_of_stageEach {is : List NodeId} {rs : List Staged} {bound : NodeId}
    (his : ∀ j ∈ is, j < bound) (h : (stageEach (stage ctx room) is).run s = .ok rs s') :
    List.Forall₂ (fun (j : NodeId) r => s'.staged[j]? = some r) is rs := by
  induction is generalizing s rs with
  | nil =>
    obtain ⟨rfl, -⟩ := run_pure_eq_ok.1 h
    exact .nil
  | cons j is ih =>
    obtain ⟨-, his⟩ := List.forall_mem_cons.1 his
    obtain ⟨r, s₁, rest, hr, hrest, rfl⟩ := stageEach_cons_eq_ok.1 h
    have hkept := (FillsBelow.stageEach (.stage ctx room) his).fills hrest
    exact .cons (hkept.kept j r (staged_of_stage hr)) (ih his hrest)

/-- Nodes with results are not staged again. -/
theorem run_stageEach_of_staged {is : List NodeId} {rs : List Staged}
    (h : List.Forall₂ (fun (j : NodeId) r => s.staged[j]? = some r) is rs) :
    (stageEach (stage ctx room) is).run s = .ok rs s := by
  induction h with
  | nil => rfl
  | cons hr _ ih =>
    exact stageEach_cons_eq_ok.2 ⟨_, s, _, run_stage_of_staged hr, ih, rfl⟩

/-! ## Names -/

section Names

variable {operand : Staged} {n v : NodeId}

/-- An operand that was named has its name. -/
theorem named_of_nameOperand (h : (nameOperand ctx operand).run s = .ok v s') :
    s'.named[operand.node]? = some v := by
  rcases nameOperand_eq_ok.1 h with ⟨hv, rfl⟩ | ⟨-, info, s₁, -, rfl, rfl⟩
  · exact hv
  · simp

/-- The name of a node is not changed when an operand is named. -/
theorem named_stateAfter_nameOperand (operand : Staged) (h : s.named[n]? = some v) :
    (stateAfter (nameOperand ctx operand) s).named[n]? = some v := by
  rw [nameOperand, stateAfter_congr (run_get_bind _ s)]
  cases hknown : s.named[operand.node]? with
  | some known => exact h
  | none =>
    have hne : ¬ (operand.node == n) = true := by
      rw [beq_iff_eq]
      rintro rfl
      rw [hknown] at h
      cases h
    have hregister : (stateAfter (register ctx operand.node operand.deps none) s).named = s.named :=
      congrArg Prod.snd (Leaves.register operand.node operand.deps none s)
    refine stateAfter_bind (P := fun t => t.named[n]? = some v) ?_ fun info s₁ hs₁ => ?_
    · rw [hregister, h]
    · exact (Std.HashMap.getElem?_insert.trans (if_neg hne)).trans hs₁

/-- No name is changed when operands are named. -/
theorem named_stateAfter_nameEach (rs : List Staged) (h : s.named[n]? = some v) :
    (stateAfter (nameEach ctx rs) s).named[n]? = some v := by
  induction rs generalizing s with
  | nil => exact h
  | cons operand rest ih =>
    have hrest : ∀ w s₁, s₁.named[n]? = some v →
        (stateAfter (nameEach ctx rest >>= fun others => pure (w :: others)) s₁).named[n]? = some v :=
      fun w s₁ hs₁ => stateAfter_bind (P := fun t => t.named[n]? = some v) (ih hs₁) fun _ _ ht => ht
    rw [nameEach, stateAfter_congr (run_get_bind _ s)]
    split
    · exact stateAfter_bind (P := fun t => t.named[n]? = some v)
        (named_stateAfter_nameOperand operand h) hrest
    · exact hrest operand.node s h

end Names

end FormStaging.Staging
