import FormStaging.Proofs.Staging.Runs

/-!
# What the options decide

The collision policy is asked when a registration collides, and the greatest nesting when there is no
room for a node. So an action under other options does what it did before, unless it fails before in
one of these ways. `AgreesUnless E x y` says so of two actions, where the first one may fail with `E`.
If registrations agree in this sense under two pairs of options, and staging without room agrees with
staging in the additional room, then all actions agree.

There are two cases. Any policy agrees with the strict one unless this fails with a collision
(`split_withPolicy`), and any greater nesting agrees with a smaller one unless this is exceeded
(`split_withDepth`).
-/

set_option autoImplicit false

namespace FormStaging

/-- The settings with other options. -/
def Settings.withOptions (settings : Settings) (policy : CollisionPolicy) (depth : Nat) : Settings :=
  { settings with collisions := policy, maxDepth := depth }

/-- The settings with another greatest nesting. -/
def Settings.withDepth (settings : Settings) (depth : Nat) : Settings :=
  { settings with maxDepth := depth }

/-- A failure that reports the nesting. -/
def Failure.IsTooDeep (e : Failure) : Prop :=
  ∃ depth spans, e = .error ⟨.tooDeep depth, spans⟩

namespace Staging

variable {α β : Type} {E : Failure → Prop}

/-- Two actions do the same in every state, unless the first one fails with `E` there. -/
def AgreesUnless (E : Failure → Prop) (x y : Action α) : Prop :=
  ∀ s, x.run s = y.run s ∨ ∃ e s', x.run s = .error e s' ∧ E e

/-- The context with other options. -/
def Context.withOptions (ctx : Context) (policy : CollisionPolicy) (depth : Nat) : Context :=
  { ctx with settings := ctx.settings.withOptions policy depth }

namespace AgreesUnless

theorem refl (x : Action α) : AgreesUnless E x x := fun _ => Or.inl rfl

theorem of_throw {e : Failure} {y : Action α} (h : E e) : AgreesUnless E (throw e) y :=
  fun s => Or.inr ⟨e, s, rfl, h⟩

theorem bind {x y : Action α} {f f' : α → Action β} (hx : AgreesUnless E x y)
    (hf : ∀ a, AgreesUnless E (f a) (f' a)) : AgreesUnless E (x >>= f) (y >>= f') := by
  intro s
  simp only [AgreesUnless, Bind.bind, EStateM.bind, EStateM.run] at hx hf ⊢
  rcases hx s with hsame | ⟨e, s', hrun, he⟩
  · rw [← hsame]
    cases x s with
    | ok a s₁ => exact hf a s₁
    | error e s₁ => exact Or.inl rfl
  · rw [hrun]
    exact Or.inr ⟨e, s', rfl, he⟩

/-- What comes after an action that no option is asked in. -/
theorem bind_right {x : Action α} {f f' : α → Action β} (hf : ∀ a, AgreesUnless E (f a) (f' a)) :
    AgreesUnless E (x >>= f) (x >>= f') :=
  bind (refl x) hf

/-! ## Registering -/

section Options

variable {ctx : Context} {p p' : CollisionPolicy} {d d' : Nat}

/-- Registrations agree under two pairs of options. -/
def OfRegistrations (E : Failure → Prop) (ctx : Context) (p p' : CollisionPolicy) (d d' : Nat) :
    Prop :=
  ∀ (c : Candidate) (deps : DependencySet),
    AgreesUnless E (registerCandidate (ctx.withOptions p d) c deps)
      (registerCandidate (ctx.withOptions p' d') c deps)

theorem register (hregister : OfRegistrations E ctx p p' d d') (i : NodeId) (deps : DependencySet)
    (label : Option Label) :
    AgreesUnless E (register (ctx.withOptions p d) i deps label)
      (register (ctx.withOptions p' d') i deps label) := by
  refine bind_right fun s => ?_
  cases s.graph.label? i
  all_goals
    refine bind_right fun l => bind_right fun s => ?_
    cases candidate? s.graph i l with
    | none => exact refl _
    | some c => exact hregister c deps

theorem nameOperand (hregister : OfRegistrations E ctx p p' d d') (operand : Staged) :
    AgreesUnless E (nameOperand (ctx.withOptions p d) operand)
      (nameOperand (ctx.withOptions p' d') operand) := by
  refine bind_right fun s => ?_
  cases s.named[operand.node]? with
  | some known => exact refl _
  | none => exact bind (register hregister _ _ _) fun info => refl _

theorem nameEach (hregister : OfRegistrations E ctx p p' d d') (operands : List Staged) :
    AgreesUnless E (nameEach (ctx.withOptions p d) operands)
      (nameEach (ctx.withOptions p' d') operands) := by
  induction operands with
  | nil => exact refl _
  | cons operand rest ih =>
    refine bind_right fun s => ?_
    split
    · exact bind (nameOperand hregister operand) fun v => bind ih fun others => refl _
    · exact bind_right fun v => bind ih fun others => refl _

/-! ## Staging -/

theorem stageEach {stage stage' : NodeId → Action Staged}
    (hstage : ∀ i, AgreesUnless E (stage i) (stage' i)) (is : List NodeId) :
    AgreesUnless E (stageEach stage is) (stageEach stage' is) := by
  induction is with
  | nil => exact refl _
  | cons i is ih => exact bind (hstage i) fun r => bind ih fun rest => refl _

theorem stageOperator (hregister : OfRegistrations E ctx p p' d d')
    {stage stage' : NodeId → Action Staged} (hstage : ∀ i, AgreesUnless E (stage i) (stage' i))
    (i : NodeId) (operands : List NodeId) :
    AgreesUnless E (stageOperator (ctx.withOptions p d) stage i operands)
      (stageOperator (ctx.withOptions p' d') stage' i operands) := by
  refine bind (stageEach hstage operands) fun staged => bind_right fun deps => ?_
  refine bind_right fun s => ?_
  split
  · exact bind (nameEach hregister staged) fun new => refl _
  · exact refl _

theorem stageDerivative {stage stage' : NodeId → Action Staged}
    (hstage : ∀ i, AgreesUnless E (stage i) (stage' i)) (i operand directions : NodeId) :
    AgreesUnless E (stageDerivative stage i operand directions)
      (stageDerivative stage' i operand directions) :=
  bind (hstage operand) fun _ => refl _

theorem stageNode (hregister : OfRegistrations E ctx p p' d d')
    {stage stage' : NodeId → Action Staged} (hstage : ∀ i, AgreesUnless E (stage i) (stage' i))
    (i : NodeId) :
    AgreesUnless E (stageNode (ctx.withOptions p d) stage i)
      (stageNode (ctx.withOptions p' d') stage' i) := by
  refine bind_right fun s => ?_
  cases s.graph.node i with
  | argument arg | coefficient coeff | facetNormal | labelled c l => exact refl _
  | spatialDerivative a b => exact stageDerivative hstage i a b
  | _ => exact stageOperator hregister hstage i _

theorem remember {compute compute' : Action Staged} (h : AgreesUnless E compute compute')
    (i : NodeId) : AgreesUnless E (remember i compute) (remember i compute') := by
  refine bind_right fun s => ?_
  cases s.staged[i]? with
  | some known => exact refl _
  | none => exact bind h fun r => refl _

/-- Staging without room agrees with staging in the room that the second options add. -/
def OfNoRoom (E : Failure → Prop) (ctx : Context) (p p' : CollisionPolicy) (d d' : Nat) : Prop :=
  ∀ i, AgreesUnless E (stage (ctx.withOptions p d) 0 i) (stage (ctx.withOptions p' d') (d' - d) i)

/-- Staging in some room agrees with staging in more room. -/
theorem stage (hregister : OfRegistrations E ctx p p' d d') (hzero : OfNoRoom E ctx p p' d d')
    (room : Nat) (i : NodeId) :
    AgreesUnless E (stage (ctx.withOptions p d) room i)
      (stage (ctx.withOptions p' d') (d' - d + room) i) := by
  induction room generalizing i with
  | zero => exact hzero i
  | succ room ih => exact remember (stageNode hregister ih i) i

/-! ## Variables and whole expressions -/

theorem stageVariable (hregister : OfRegistrations E ctx p p' d d')
    (hzero : OfNoRoom E ctx p p' d d') (hle : d ≤ d') (i : NodeId) :
    AgreesUnless E (stageVariable (ctx.withOptions p d) i)
      (stageVariable (ctx.withOptions p' d') i) := by
  have hstage : ∀ c, AgreesUnless E (FormStaging.Staging.stage (ctx.withOptions p d) d c)
      (FormStaging.Staging.stage (ctx.withOptions p' d') d' c) := by
    intro c
    have hroom := stage hregister hzero d c
    rwa [Nat.sub_add_cancel hle] at hroom
  refine bind_right fun s => ?_
  simp only
  cases (s.graph.node i).contentAndLabel? with
  | none => exact refl _
  | some inside =>
    obtain ⟨content, label⟩ := inside
    refine bind_right fun s => ?_
    cases s.code.get? label with
    | some info => exact refl _
    | none =>
      refine bind_right fun _ => bind (hstage content) fun staged => ?_
      split
      · exact bind_right fun node => register hregister _ _ _
      · exact bind_right fun node => register hregister _ _ _

theorem stageVariables (hregister : OfRegistrations E ctx p p' d d')
    (hzero : OfNoRoom E ctx p p' d d') (hle : d ≤ d') (is : List NodeId) :
    AgreesUnless E (stageVariables (ctx.withOptions p d) is)
      (stageVariables (ctx.withOptions p' d') is) := by
  induction is with
  | nil => exact refl _
  | cons i is ih => exact bind (stageVariable hregister hzero hle i) fun _ => ih

theorem splitExpression {settings : Settings} {i : NodeId}
    (hregister : OfRegistrations E ⟨settings, some i⟩ p p' d d')
    (hzero : OfNoRoom E ⟨settings, some i⟩ p p' d d') (hle : d ≤ d') :
    AgreesUnless E (splitExpression (settings.withOptions p d) i)
      (splitExpression (settings.withOptions p' d') i) := by
  refine bind_right fun _ => bind_right fun root => bind_right fun s => ?_
  refine bind (stageVariables hregister hzero hle _) fun _ => ?_
  exact bind (stageVariable hregister hzero hle root) fun info => refl _

end Options

/-! ## The two options -/

/-- The greatest nesting decides where there is no room. -/
theorem ofNoRoom_isTooDeep (ctx : Context) (p p' : CollisionPolicy) (d d' : Nat) :
    OfNoRoom Failure.IsTooDeep ctx p p' d d' := by
  intro i
  have hthrow : ∀ y : Action Staged,
      AgreesUnless Failure.IsTooDeep (throw (.error ⟨.tooDeep d, []⟩)) y :=
    fun _ => of_throw ⟨d, [], rfl⟩
  cases d' - d with
  | zero => exact remember (hthrow _) i
  | succ room => exact remember (hthrow _) i

end AgreesUnless

end Staging

open Staging

/-- Splits agree under options that their runs agree under. -/
theorem split_withOptions {E : Failure → Prop} {settings : Settings} {p p' : CollisionPolicy}
    {d d' : Nat} {g : Graph} {i : NodeId}
    (h : AgreesUnless E (splitExpression (settings.withOptions p d) i)
      (splitExpression (settings.withOptions p' d') i)) :
    split (settings.withOptions p d) g i = split (settings.withOptions p' d') g i ∨
      ∃ e, split (settings.withOptions p d) g i = .error e ∧ E e := by
  have hcheck : ∀ p d, (settings.withOptions p d).check = settings.check := fun _ _ => rfl
  have hagrees := h { graph := g }
  rw [split, split, hcheck, hcheck]
  generalize (splitExpression (settings.withOptions p d) i).run { graph := g } = x at hagrees ⊢
  generalize (splitExpression (settings.withOptions p' d') i).run { graph := g } = y at hagrees ⊢
  rcases hagrees with rfl | ⟨e, s, rfl, he⟩
  · exact Or.inl rfl
  · cases settings.check with
    | error e' => exact Or.inl rfl
    | ok u => exact Or.inr ⟨e, rfl, he⟩

/-- A split that accepts more nesting is that which accepts less, unless this fails for the
nesting. -/
theorem split_withDepth (settings : Settings) {depth : Nat} (h : settings.maxDepth ≤ depth)
    (g : Graph) (i : NodeId) :
    split settings g i = split (settings.withDepth depth) g i ∨
      ∃ e, split settings g i = .error e ∧ e.IsTooDeep := by
  refine @split_withOptions _ settings settings.collisions settings.collisions _ _ g i ?_
  exact AgreesUnless.splitExpression (fun _ _ => .refl _)
    (AgreesUnless.ofNoRoom_isTooDeep _ _ _ _ _) h

end FormStaging
