import FormStaging.Proofs.Dependencies
import FormStaging.Proofs.Graph.Nesting
import FormStaging.Proofs.Staging.Room

/-!
# How a run can fail

`FailsOnly E x s` says that whatever failure action `x` gives in state `s` satisfies `E`. It follows
the parts of an action (`FailsOnly.bind`): the later parts start in the states that successful runs of
the earlier ones end in, where the invariant of a run holds.

From a sound state, the bookkeeping never fails. A promise could be broken by sets of different ranks or
by nodes that are not in the graph, a label could be met before it is registered, and a registration
could collide with another one; the invariant excludes each of these. What is left (`Refusal`) are an
argument or a coefficient of the expression without a slot, a chain of nested nodes that is longer than
allowed, and labels that run out. This is shown for `stage` in `stage_refuses` and for the variables of
an expression in `stageVariables_refuse`.
-/

set_option autoImplicit false

namespace FormStaging

open DependencySet

namespace Staging

variable {α β : Type} {E E' : Failure → Prop} {ctx : Context} {s : State}

/-! ## Failures of sequences -/

/-- Every failure of an action in a state satisfies `E`. -/
def FailsOnly (E : Failure → Prop) (x : Action α) (s : State) : Prop :=
  ∀ e s', x.run s = .error e s' → E e

namespace FailsOnly

theorem mono {x : Action α} (h : FailsOnly E x s) (himp : ∀ e, E e → E' e) : FailsOnly E' x s :=
  fun e s' hrun => himp e (h e s' hrun)

/-- A run that succeeds does not fail. -/
theorem of_run_eq_ok {x : Action α} {a : α} {s' : State} (h : x.run s = .ok a s') :
    FailsOnly E x s := by
  intro e s₁ hrun
  rw [h] at hrun
  cases hrun

/-- Actions with the same run fail alike. -/
theorem of_run_eq {x y : Action α} (h : x.run s = y.run s) (hy : FailsOnly E y s) :
    FailsOnly E x s := by
  intro e s' hrun
  rw [h] at hrun
  exact hy e s' hrun

theorem pure (a : α) : FailsOnly E (Pure.pure a) s := of_run_eq_ok rfl

/-- A sequence fails in the first action, or in the second one after the first has succeeded. -/
theorem bind {x : Action α} {f : α → Action β} (hx : FailsOnly E x s)
    (hf : ∀ a s₁, x.run s = .ok a s₁ → FailsOnly E (f a) s₁) : FailsOnly E (x >>= f) s := by
  intro e s' hrun
  simp only [Bind.bind, EStateM.bind, EStateM.run] at hrun
  cases hx' : x s with
  | ok a s₁ =>
    rw [hx'] at hrun
    exact hf a s₁ hx' e s' hrun
  | error e₁ s₁ =>
    rw [hx'] at hrun
    cases hrun
    exact hx _ _ hx'

theorem ite_bind {c : Prop} [Decidable c] {x y : Action α} {f : α → Action β}
    (hxy : FailsOnly E (if c then x else y) s)
    (hf : ∀ a s₁, (if c then x else y).run s = .ok a s₁ → FailsOnly E (f a) s₁) :
    FailsOnly E (if c then x >>= f else y >>= f) s := by
  split
  case isTrue hc =>
    rw [if_pos hc] at hxy
    simp only [if_pos hc] at hf
    exact hxy.bind hf
  case isFalse hc =>
    rw [if_neg hc] at hxy
    simp only [if_neg hc] at hf
    exact hxy.bind hf

theorem get_bind {f : State → Action β} (hf : FailsOnly E (f s) s) : FailsOnly E (get >>= f) s := hf

theorem failAt {i : NodeId} {cause : Cause} (h : E (ctx.failure s.graph i cause)) :
    FailsOnly E (failAt ctx i cause : Action α) s := by
  intro e s' hrun
  cases hrun
  exact h

theorem keepPromise {e : Except Misuse α} {a : α} (h : e = .ok a) :
    FailsOnly E (keepPromise e) s := by
  rw [h]
  exact .pure a

end FailsOnly

/-! ## New nodes -/

variable {i : NodeId}

theorem addNode_failsOnly {n : Node NodeId} (h : ∀ j ∈ n.operands, j ∈ s.graph) :
    FailsOnly E (addNode n) s :=
  .of_run_eq_ok (addNode_eq_ok.2 ⟨h, rfl, rfl⟩)

/-- A node can be rebuilt over as many operands as it has. -/
theorem rebuildNode_failsOnly {operands : List NodeId}
    (hlength : (s.graph.operands i).length = operands.length) (h : ∀ j ∈ operands, j ∈ s.graph) :
    FailsOnly E (rebuildNode i operands) s := by
  obtain ⟨m, hm⟩ := Option.isSome_iff_exists.1
    ((Node.withOperands?_isSome (s.graph.node i) operands).2 hlength)
  have hops : m.operands = operands := (Node.withOperands?_eq_some hm).1
  have hn : ∀ j ∈ m.operands, j ∈ s.graph := hops ▸ h
  have hpush : s.graph.push? m = some (s.graph.push m hn, s.graph.size) :=
    Graph.push?_eq_some_iff.2 ⟨hn, rfl, rfl⟩
  intro e s' hrun
  simp only [rebuildNode, EStateM.run, Graph.rebuild, hm, hpush] at hrun
  cases hempty : operands.isEmpty <;> rw [hempty] at hrun <;> cases hrun

theorem withOperands_failsOnly {old new : List NodeId} {deps : DependencySet}
    (hold : s.graph.operands i = old) (hlength : old.length = new.length)
    (h : ∀ j ∈ new, j ∈ s.graph) : FailsOnly E (withOperands i old new deps) s := by
  rw [withOperands]
  split
  · exact .pure _
  · refine (rebuildNode_failsOnly ?_ h).bind fun j s₁ _ => .pure _
    rw [hold, hlength]

/-- A node of the graph has a variable around it, or one can be added if a label is left. -/
theorem wrap_failsOnly (hi : i ∈ s.graph) :
    FailsOnly (fun e => e = .labelOverflow ∧ s.labels.mint? = none) (wrap i) s := by
  rw [wrap]
  refine .get_bind ?_
  cases s.graph.label? i with
  | some l => exact .pure i
  | none =>
    refine FailsOnly.bind (fun e s' hrun => ?_) fun l s₁ hmint => addNode_failsOnly fun j hj => ?_
    · obtain ⟨hmint, he, -⟩ := mintLabel_eq_error.1 hrun
      exact ⟨he, hmint⟩
    · obtain ⟨labels, -, rfl⟩ := mintLabel_eq_ok.1 hmint
      rw [List.mem_singleton.1 hj]
      exact hi

/-! ## Ranks -/

section Ranks

variable {settings : Settings} {src g : Graph} {root : NodeId} {r : Staged}
  {infos : List RegisteredVariable}

/-- What stands for a node has a set of the rank of the run, if the registered variables have. -/
theorem Stands.rank (h : Stands settings src g infos i r) (hok : settings.fault? = none)
    (hinfos : ∀ info ∈ infos, info.deps.rank = settings.rank) : r.deps.rank = settings.rank := by
  induction h with
  | leaf h => exact rank_of_leafDeps hok h
  | labelled _ hinfo => exact hinfos _ hinfo
  | derivative _ _ _ _ _ ih => rw [rank_withRuntime, ih]
  | operator _ _ _ _ hdeps => rw [rank_unionAll hdeps, rank_constant]

/-- Every registered set has the rank of the run. -/
theorem Built.rank (h : Built settings src root g infos) (hok : settings.fault? = none)
    (hroot : root ∈ src) : ∀ info ∈ infos, info.deps.rank = settings.rank := by
  refine h.forall_of_earlier fun earlier _ info _ _ ho hearlier => ?_
  obtain ⟨i, r, -, hstands, -, hdeps⟩ := ho.exists_stands hroot
  rw [hdeps]
  exact hstands.rank hok hearlier

end Ranks

/-! ## Naming the operands -/

section Naming

variable {src : Graph} {root : NodeId} {infos : List RegisteredVariable} {operand : Staged}

/-- An operand is named where it is registered. -/
theorem FailsOnly.nameOperand
    (h : s.named[operand.node]? = none →
      FailsOnly E (register ctx operand.node operand.deps none) s) :
    FailsOnly E (nameOperand ctx operand) s := by
  rw [Staging.nameOperand]
  refine .get_bind ?_
  cases hnamed : s.named[operand.node]? with
  | some known => exact .pure known
  | none =>
    refine (h hnamed).bind fun info s₁ _ => ?_
    exact FailsOnly.bind (.of_run_eq_ok rfl) fun _ _ _ => .pure _

/-- No registration of an operand collides. A variable that stands for a node is registered already,
just as it is, and a minted label is new. So it fails only if there is none to mint. -/
theorem register_failsOnly (hs : Sound ctx.settings src root s infos) (hroot : root ∈ src)
    (hr : StagedOperand src root s operand) (hnone : s.named[operand.node]? = none) :
    FailsOnly (fun e => e = .labelOverflow ∧ RunsOut src root)
      (register ctx operand.node operand.deps none) s := by
  cases hl : s.graph.label? operand.node with
  | some l => exact .of_run_eq_ok (hr.run_register hs hroot hl).2
  | none =>
    obtain ⟨i, hi, hstands⟩ := hr.exists_stands hs
    have hn : ∀ j ∈ (Node.labelled operand.node ⟨s.labels.next⟩).operands, j ∈ s.graph := by
      intro j hj
      rw [List.mem_singleton.1 hj]
      exact hs.mem hroot hi hstands
    cases hmint : s.labels.mint? with
    | some minted =>
      obtain ⟨l, labels⟩ := minted
      obtain ⟨rfl, -⟩ := LabelSupply.mint?_eq_some_iff.1 hmint
      exact .of_run_eq_ok (run_register_fresh hl hs.get?_next hmint hn)
    | none =>
      intro e s' hrun
      obtain ⟨rfl, -⟩ := register_fresh_eq_error hl hmint hrun
      exact ⟨rfl, hs.runsOut hr hnone hmint⟩

theorem nameOperand_failsOnly (hs : Sound ctx.settings src root s infos) (hroot : root ∈ src)
    (hr : StagedOperand src root s operand) :
    FailsOnly (fun e => e = .labelOverflow ∧ RunsOut src root) (nameOperand ctx operand) s :=
  .nameOperand (register_failsOnly hs hroot hr)

theorem nameEach_failsOnly {rs : List Staged} (hs : Sound ctx.settings src root s infos)
    (hroot : root ∈ src) (hrs : ∀ r ∈ rs, StagedOperand src root s r) :
    FailsOnly (fun e => e = .labelOverflow ∧ RunsOut src root) (nameEach ctx rs) s := by
  induction rs generalizing s infos with
  | nil => exact .pure _
  | cons operand rest ih =>
    have hr := hrs operand List.mem_cons_self
    -- naming one operand leaves a state in which the others can be named
    have hrest : ∀ s₁ more, Progress ctx.settings src root s infos s₁ more →
        FailsOnly (fun e => e = .labelOverflow ∧ RunsOut src root) (nameEach ctx rest) s₁ :=
      fun s₁ more hprogress => ih hprogress.sound fun r hmem =>
        (hrs r (List.mem_cons_of_mem _ hmem)).mono hprogress
    rw [nameEach]
    refine .get_bind (.ite_bind ?_ fun v s₁ hv => ?_)
    · split
      · exact nameOperand_failsOnly hs hroot hr
      · exact .pure _
    · obtain ⟨more, hprogress⟩ : ∃ more, Progress ctx.settings src root s infos s₁ more := by
        split at hv
        case isTrue =>
          obtain ⟨more, hprogress, -⟩ := nameOperand_sound hs hroot hr hv
          exact ⟨more, hprogress⟩
        case isFalse =>
          obtain ⟨-, rfl⟩ := run_pure_eq_ok.1 hv
          exact ⟨[], .refl hs⟩
      exact (hrest s₁ more hprogress).bind fun others s₂ _ => .pure _

end Naming

/-! ## Staging -/

/-- The failure at an argument or a coefficient of an expression that has no slot. -/
inductive MissesSlot (ctx : Context) (g : Graph) (i : NodeId) : Failure → Prop where
  | argument {j : NodeId} {arg : Argument} {g' : Graph} (hg : g.Extends g') (hj : g.Reaches i j)
      (h : g.node j = .argument arg) (hslot : ctx.settings.form.arguments.slot? arg = none) :
      MissesSlot ctx g i (ctx.failure g' j (.unknownArgument arg.text ctx.settings.form.rank))
  | coefficient {j : NodeId} {coeff : Coefficient} {g' : Graph} (hg : g.Extends g')
      (hj : g.Reaches i j) (h : g.node j = .coefficient coeff)
      (hslot : ctx.settings.form.coefficients.slot? coeff = none) :
      MissesSlot ctx g i (ctx.failure g' j
        (.unknownCoefficient coeff.text (suggestions ctx.settings.form coeff.text)))

/-- The failures of staging node `i` of the expression `root` with some room: a slot is missing, the
nodes below are nested too deeply, or labels run out. -/
inductive Refusal (ctx : Context) (src : Graph) (root i : NodeId) (room : Nat) : Failure → Prop where
  | slot {e : Failure} (h : MissesSlot ctx src root e) : Refusal ctx src root i room e
  | deep (h : src.Nests i (room + 1)) :
      Refusal ctx src root i room (.error ⟨.tooDeep ctx.settings.maxDepth, []⟩)
  | overflow (h : RunsOut src root) : Refusal ctx src root i room .labelOverflow

section Refusals

variable {src : Graph} {root j : NodeId} {room : Nat} {infos : List RegisteredVariable}
  {stage : NodeId → Action Staged}

/-- A node is refused where a node is refused that is entered from it. -/
theorem Refusal.under {e : Failure} (hj : j ∈ src.entered i) (h : Refusal ctx src root j room e) :
    Refusal ctx src root i (room + 1) e := by
  cases h with
  | slot h => exact .slot h
  | deep h => exact .deep (.under hj h)
  | overflow h => exact .overflow h

/-- What is asked of an action that stages nodes with some room: it fails by refusing only. -/
def Refuses (ctx : Context) (src : Graph) (root : NodeId) (room : Nat)
    (stage : NodeId → Action Staged) : Prop :=
  ∀ {s : State} {infos : List RegisteredVariable} {i : NodeId},
    Sound ctx.settings src root s infos → src.Reaches root i → Ready src infos i →
    FailsOnly (Refusal ctx src root i room) (stage i) s

theorem stageEach_refuses {is : List NodeId} (hsound : StagesSoundly ctx.settings src root stage)
    (hrefuses : Refuses ctx src root room stage) (hs : Sound ctx.settings src root s infos)
    (hi : src.Reaches root i) (his : is ⊆ src.entered i)
    (hready : ∀ j ∈ is, Ready src infos j) :
    FailsOnly (Refusal ctx src root i (room + 1)) (stageEach stage is) s := by
  induction is generalizing s infos with
  | nil => exact .pure _
  | cons j is ih =>
    have hj := his List.mem_cons_self
    have hreach := hi.tail (Graph.entered_subset src i hj)
    have hj' := hready j List.mem_cons_self
    refine ((hrefuses hs hreach hj').mono fun e => Refusal.under hj).bind fun r s₁ hr => ?_
    obtain ⟨more, hprogress, -⟩ := hsound hs hreach hj' hr
    refine (ih hprogress.sound (fun k hk => his (List.mem_cons_of_mem j hk)) fun k hk => ?_).bind
      fun rest s₂ _ => .pure _
    exact (hready k (List.mem_cons_of_mem j hk)).mono (List.subset_append_left _ _)

/-- A new operand belongs to the graph. -/
theorem Replaces.mem {g : Graph} {is : List NodeId} {staged : NodeId → Staged}
    {deps : DependencySet} {new : NodeId → NodeId} (h : Replaces g infos is staged deps new)
    (hlabels : Labels g infos) (hstaged : ∀ j ∈ is, (staged j).node ∈ g) (hj : j ∈ is) :
    new j ∈ g := by
  cases h with
  | uniform h =>
    rw [(h j hj).1]
    exact hstaged j hj
  | named h =>
    have hname := h j hj
    split at hname
    · obtain ⟨info, hinfo, hnode, -⟩ := hname
      exact hnode ▸ hlabels.mem hinfo
    · rw [hname]
      exact hstaged j hj

/-- A plain node is refused where an operand is, or if labels run out when its operands are named. The
sets of the operands have one rank, and the node can be rebuilt over the names. -/
theorem stageOperator_refuses (hok : ctx.settings.fault? = none)
    (hsound : StagesSoundly ctx.settings src root stage)
    (hrefuses : Refuses ctx src root room stage) (hs : Sound ctx.settings src root s infos)
    (hroot : root ∈ src) (hi : src.Reaches root i) (hready : Ready src infos i)
    (hplain : isPlain (src.node i) = true) :
    FailsOnly (Refusal ctx src root i (room + 1)) (stageOperator ctx stage i (src.operands i)) s := by
  have hops : ∀ j ∈ src.operands i, src.Reaches root j := fun j hj => hi.tail hj
  have hready' : ∀ j ∈ src.operands i, Ready src infos j := fun j hj => hready.operand hj
  have hentered : src.operands i ⊆ src.entered i :=
    fun j hj => Graph.entered_of_isPlain hplain ▸ hj
  rw [stageOperator]
  refine (stageEach_refuses hsound hrefuses hs hi hentered hready').bind fun rs s₁ hrs => ?_
  obtain ⟨more, hprogress, rfl, hall, -⟩ := stageEach_sound hsound hroot hs hops hready' hrs
  have hs₁ := hprogress.sound
  have hstands : ∀ j ∈ src.operands i,
      Stands ctx.settings src s₁.graph (infos ++ more) j (s₁.standIn j) :=
    fun j hj => (hs₁.staged j _ (hall j hj)).2
  -- the union
  have hranks : ∀ d ∈ ((src.operands i).map s₁.standIn).map Staged.deps,
      d.rank = ctx.settings.constant.rank := by
    rw [List.map_map, List.forall_mem_map]
    intro j hj
    rw [rank_constant]
    exact (hstands j hj).rank hok (hs₁.built.rank hok hroot)
  obtain ⟨deps, hdeps⟩ := exists_unionAll hranks
  refine FailsOnly.bind (.keepPromise hdeps) fun deps' s₂ hrun => ?_
  obtain ⟨hdeps', rfl⟩ := keepPromise_eq_ok.1 hrun
  -- the names
  refine .get_bind (.ite_bind ?_ fun new s₃ hnew => ?_)
  · split
    · refine (nameEach_failsOnly hs₁ hroot ?_).mono ?_
      · exact List.forall_mem_map.2 fun j hj => ⟨j, ⟨i, hi, hplain, hj⟩, hall j hj⟩
      · rintro e ⟨rfl, hout⟩
        exact .overflow hout
    · exact .pure _
  · -- the node over them
    obtain ⟨more', names, hprogress', rfl, hreplaces, -⟩ :=
      replaces_of_names hs₁ hroot (fun j hj => ⟨i, hi, hplain, hj⟩) hall hnew
    have hs₃ := hprogress'.sound
    refine withOperands_failsOnly (hs₃.grows.operands_eq (hi.mem hroot)) (by simp) ?_
    rw [List.forall_mem_map]
    refine fun j hj => hreplaces.mem hs₃.built.labels (fun k hk => ?_) hj
    exact hprogress'.grows.mem (hs₁.mem hroot (hops k hk) (hstands k hk))

theorem stageDerivative_refuses {a b : NodeId} (hsound : StagesSoundly ctx.settings src root stage)
    (hrefuses : Refuses ctx src root room stage) (hs : Sound ctx.settings src root s infos)
    (hroot : root ∈ src) (hi : src.Reaches root i) (hready : Ready src infos i)
    (hn : src.node i = .spatialDerivative a b) :
    FailsOnly (Refusal ctx src root i (room + 1)) (stageDerivative stage i a b) s := by
  have hops := Graph.operands_of_derivative hn
  have ha : a ∈ src.operands i := by simp [hops]
  have hb : b ∈ src.operands i := by simp [hops]
  have hentered : a ∈ src.entered i := by simp [Graph.entered_of_derivative hn]
  rw [stageDerivative]
  refine FailsOnly.bind ?_ fun r s₁ hr => ?_
  · exact (hrefuses hs (hi.tail ha) (hready.operand ha)).mono fun e => Refusal.under hentered
  · obtain ⟨more, hprogress, hstaged, -⟩ := hsound hs (hi.tail ha) (hready.operand ha) hr
    have hs₁ := hprogress.sound
    refine withOperands_failsOnly ?_ rfl fun j hj => ?_
    · rw [hs₁.grows.operands_eq (hi.mem hroot), hops]
    · rw [List.mem_cons, List.mem_singleton] at hj
      rcases hj with rfl | rfl
      · exact hs₁.mem hroot (hi.tail ha) (hs₁.staged a r hstaged).2
      · exact hs₁.grows.mem ((hi.tail hb).mem hroot)

theorem argumentDeps_failsOnly {arg : Argument} (hok : ctx.settings.fault? = none)
    (hg : src.Extends s.graph) (hi : src.Reaches root i) (hn : src.node i = .argument arg) :
    FailsOnly (MissesSlot ctx src root) (argumentDeps ctx i arg) s := by
  rw [argumentDeps]
  cases hslot : ctx.settings.form.arguments.slot? arg with
  | some slot =>
    obtain ⟨d, hd, -⟩ := (Settings.fault?_eq_none_iff.1 hok).exists_argument hslot
    exact .keepPromise hd
  | none => exact .failAt (.argument hg hi hn hslot)

theorem coefficientDeps_failsOnly {coeff : Coefficient} (hok : ctx.settings.fault? = none)
    (hg : src.Extends s.graph) (hi : src.Reaches root i) (hn : src.node i = .coefficient coeff) :
    FailsOnly (MissesSlot ctx src root) (coefficientDeps ctx i coeff) s := by
  rw [coefficientDeps]
  cases hslot : ctx.settings.form.coefficients.slot? coeff with
  | some slot =>
    obtain ⟨d, hd, -⟩ := (Settings.fault?_eq_none_iff.1 hok).exists_coefficient hslot
    exact .keepPromise hd
  | none => exact .failAt (.coefficient hg hi hn hslot)

/-- A layer is refused for want of a slot or of labels, or where a node is that is entered from it. -/
theorem stageNode_refuses (hok : ctx.settings.fault? = none)
    (hsound : StagesSoundly ctx.settings src root stage)
    (hrefuses : Refuses ctx src root room stage) (hs : Sound ctx.settings src root s infos)
    (hroot : root ∈ src) (hi : src.Reaches root i) (hready : Ready src infos i) :
    FailsOnly (Refusal ctx src root i (room + 1)) (stageNode ctx stage i) s := by
  have hnode := hs.grows.node_eq i (hi.mem hroot)
  have hplain : isPlain (src.node i) = true → FailsOnly (Refusal ctx src root i (room + 1))
      (stageOperator ctx stage i (src.operands i)) s :=
    stageOperator_refuses hok hsound hrefuses hs hroot hi hready
  rw [stageNode]
  refine .get_bind ?_
  cases hn : s.graph.node i
  all_goals
    rw [hnode] at hn
    simp only
  case argument arg =>
    exact ((argumentDeps_failsOnly hok hs.grows hi hn).mono fun e => Refusal.slot).bind
      fun deps s₁ _ => .pure _
  case coefficient coeff =>
    exact ((coefficientDeps_failsOnly hok hs.grows hi hn).mono fun e => Refusal.slot).bind
      fun deps s₁ _ => .pure _
  case facetNormal => exact .pure _
  case labelled c l =>
    -- the label was registered before
    obtain ⟨info, hinfo, rfl⟩ :=
      hready i l (Graph.Reaches.refl src i) (Graph.label?_of_labelled hn)
    exact .of_run_eq_ok (registered_eq_ok.2 ⟨info, hs.groups.get?_of_mem hinfo, rfl, rfl⟩)
  case spatialDerivative a b =>
    exact stageDerivative_refuses hsound hrefuses hs hroot hi hready hn
  all_goals
    rw [Graph.operands, hn] at hplain
    exact hplain rfl

/-- Staging refuses a node only for want of a slot, of room or of labels. -/
theorem stage_refuses (hok : ctx.settings.fault? = none) (hroot : root ∈ src) (room : Nat) :
    Refuses ctx src root room (FormStaging.Staging.stage ctx room) := by
  induction room with
  | zero =>
    intro s infos i _ _ _
    rw [FormStaging.Staging.stage, remember]
    refine .get_bind ?_
    cases s.staged[i]? with
    | some known => exact .pure known
    | none =>
      refine FailsOnly.bind (fun e s' hrun => ?_) fun r s₁ _ => .pure _
      cases hrun
      exact .deep (.one i)
  | succ room ih =>
    intro s infos i hs hi hready
    rw [FormStaging.Staging.stage, remember]
    refine .get_bind ?_
    cases s.staged[i]? with
    | some known => exact .pure known
    | none =>
      refine (stageNode_refuses hok (stage_sound ctx hroot room) ih hs hroot hi hready).bind ?_
      exact fun r s₁ _ => FailsOnly.bind (.of_run_eq_ok rfl) fun _ _ _ => .pure _

end Refusals

/-! ## Variables and whole expressions -/

/-- The failures of splitting the expression `root`: a slot is missing, the content of a variable is
nested too deeply, or labels run out. -/
inductive SplitRefusal (ctx : Context) (src : Graph) (root : NodeId) : Failure → Prop where
  | slot {e : Failure} (h : MissesSlot ctx src root e) : SplitRefusal ctx src root e
  | deep {v c : NodeId} {l : Label} (hv : src.firstVariable? root l = some v)
      (hc : src.node v = .labelled c l) (h : src.Nests c (ctx.settings.maxDepth + 1)) :
      SplitRefusal ctx src root (.error ⟨.tooDeep ctx.settings.maxDepth, []⟩)
  | overflow (h : RunsOut src root) : SplitRefusal ctx src root .labelOverflow

section Splitting

variable {src : Graph} {root v c : NodeId} {l : Label} {infos : List RegisteredVariable}

theorem stageVariable_refuses (hok : ctx.settings.fault? = none)
    (hs : Sound ctx.settings src root s infos) (hroot : root ∈ src)
    (hv : src.firstVariable? root l = some v) (hc : src.node v = .labelled c l)
    (hready : Ready src infos c) : FailsOnly (SplitRefusal ctx src root) (stageVariable ctx v) s := by
  have hreach : src.Reaches root v := Graph.reaches_of_firstVariable? hroot hv
  have hcv : c ∈ src.operands v := by simp [Graph.operands_of_labelled hc]
  have hnode : s.graph.node v = .labelled c l := by
    rw [hs.grows.node_eq v (hreach.mem hroot), hc]
  cases hget : s.code.get? l with
  | some info => exact .of_run_eq_ok (run_stageVariable_of_registered hnode hget)
  | none =>
    rw [stageVariable]
    refine .get_bind ?_
    simp only [hnode, Node.contentAndLabel?]
    refine .get_bind ?_
    simp only [hget]
    -- the labels are reserved already
    have hreserve : (reserveLabels v).run s = .ok () s :=
      run_reserveLabels (hs.reserveAll?_labels hroot hreach)
    refine FailsOnly.bind (.of_run_eq_ok hreserve) fun _ s₀ hs₀ => ?_
    rw [hreserve] at hs₀
    cases hs₀
    refine FailsOnly.bind ?_ fun r s₁ hr => .ite_bind ?_ fun w s₂ hw => ?_
    · refine (stage_refuses hok hroot _ hs (hreach.tail hcv) hready).mono fun e he => ?_
      cases he with
      | slot h => exact .slot h
      | deep h => exact .deep hv hc h
      | overflow h => exact .overflow h
    all_goals
      obtain ⟨more, hprogress, hstaged, -⟩ :=
        stage_sound ctx hroot _ hs (hreach.tail hcv) hready hr
    · split
      · exact .pure v
      · refine addNode_failsOnly fun j hj => ?_
        rw [List.mem_singleton.1 hj]
        exact hprogress.sound.mem hroot (hreach.tail hcv) (hprogress.sound.staged c r hstaged).2
    · -- the label is new, for no label of the expression is minted
      have hnode₁ : s₁.graph.node v = .labelled c l := by
        rw [hprogress.sound.grows.node_eq v (hreach.mem hroot), hc]
      obtain ⟨-, hstate, hwnode⟩ := variable_eq_ok hnode₁ hw
      have hl : l ∈ src.labels root :=
        (Graph.mem_labels_iff hroot).2 ⟨v, hreach, Graph.label?_of_firstVariable? hv⟩
      refine .of_run_eq_ok (run_register_new (Graph.label?_of_labelled hwnode) ?_ ?_)
      · rw [hstate]
        exact hprogress.sound.source_lt l hl
      · rw [hstate]
        exact hprogress.get?_eq_none hs hl hget

/-- Staging the variables of an expression fails only for want of a slot, of room or of labels. -/
theorem stageVariables_refuse {before rest : List NodeId} (hok : ctx.settings.fault? = none)
    (hs : Sound ctx.settings src root s infos) (hroot : root ∈ src)
    (hsplit : src.variables root = before ++ rest)
    (hbefore : ∀ w ∈ before, ∀ m, src.label? w = some m → Registers infos m) :
    FailsOnly (SplitRefusal ctx src root) (stageVariables ctx rest) s := by
  induction rest generalizing s infos before with
  | nil => exact .pure ()
  | cons v rest ih =>
    have hmem : v ∈ src.variables root := by simp [hsplit]
    obtain ⟨l, hl, hv⟩ := Graph.firstVariable?_of_mem_variables hmem
    obtain ⟨c, hc, -⟩ := Graph.operands_of_label? hl
    have hready : Ready src infos c := ready_of_before hroot hsplit hc hbefore
    refine (stageVariable_refuses hok hs hroot hv hc hready).bind fun info s₁ hrun => ?_
    obtain ⟨more, hs₁, -, hin, hlabel, -⟩ := stageVariable_sound hs hroot hv hc hready hrun
    have hbefore₁ := registers_concat hbefore hl ⟨info, hin, hlabel⟩
    exact ih hs₁ (by rw [hsplit, List.append_assoc]; rfl) hbefore₁

end Splitting

end Staging

end FormStaging
