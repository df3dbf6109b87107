import FormStaging.Proofs.Staging.Calls

/-!
# Trying again after a failure

An action that fails has changed the state before. `Repeats x s` says that this makes no difference to
the action: if `x` fails in state `s`, then in the state that it leaves it fails again in the same way,
and changes nothing.

Staging a node repeats (`stage_repeats`). What was staged or named before the failure is found again, so
the same node is met in the same state; and a node that is not staged leaves no result behind, for a
result is kept only when all is done. The labels that could be reserved stay reserved, so they are not
in the way.
-/

set_option autoImplicit false

namespace FormStaging.Staging

variable {α : Type} {ctx : Context} {s s' : State} {i v c : NodeId} {l : Label} {room : Nat}
  {bound : Nat} {old : Label → Option RegisteredVariable}

/-- If an action fails, then it fails in the same way in the state that it leaves, and leaves it as it
is. -/
def Repeats (x : Action α) (s : State) : Prop :=
  ∀ e s', x.run s = .error e s' → x.run s' = .error e s'

/-- An action that leaves the state as it is when it fails. -/
theorem Repeats.of_ensures {Q : α → State → Prop} {x : Action α}
    (h : Ensures Q (fun t => t = s) x s) : Repeats x s := by
  intro e s' hrun
  obtain rfl := h.of_error hrun
  exact hrun

/-! ## Labels and names -/

/-- The labels that were reserved are reserved, and the next one cannot be. -/
theorem reserveLabels_repeats (i : NodeId) (s : State) : Repeats (reserveLabels i) s := by
  intro e s' hrun
  obtain ⟨rfl, before, l, after, labels, hsplit, hbefore, hl, rfl⟩ := reserveLabels_eq_error.1 hrun
  refine reserveLabels_eq_error.2 ⟨rfl, before, l, after, labels, hsplit, ?_, hl, rfl⟩
  exact LabelSupply.reserveAll?_of_lt fun m hm => LabelSupply.lt_next_of_reserveAll? hbefore hm

/-- An operand that cannot be named is met again without a name. Those before it have theirs. -/
theorem nameEach_repeats {rs : List Staged} (h : Running bound old s)
    (hrs : ∀ r ∈ rs, ∃ i ∈ s.graph, Mirrors s.graph s.code i r) : Repeats (nameEach ctx rs) s := by
  intro e s' hrun
  induction rs generalizing s with
  | nil => cases hrun
  | cons operand rest ih =>
    obtain ⟨⟨i, hi, hr⟩, hrest⟩ := List.forall_mem_cons.1 hrs
    have hgrows := ((Evolves.nameEach (operand :: rest)).steps_of_error hrun).grows
    have hothers : ∀ {v : NodeId} {s₁ : State},
        (nameEach ctx rest >>= fun others => pure (v :: others)).run s₁ = .error e s' →
        (nameEach ctx rest).run s₁ = .error e s' := by
      intro v s₁ hrun
      refine (run_bind_eq_error.1 hrun).resolve_right ?_
      rintro ⟨others, s₂, -, hpure⟩
      cases hpure
    rw [nameEach, run_get_bind] at hrun ⊢
    rw [hgrows.node_eq operand.node hr.mem]
    split at hrun
    case isTrue hworth =>
      rw [if_pos hworth]
      rcases run_bind_eq_error.1 hrun with hfirst | ⟨v, s₁, hv, hrun⟩
      · have hrepeats : Repeats (nameOperand ctx operand) s :=
          .of_ensures (nameOperand_ensures h hr rfl)
        exact run_bind_eq_error.2 (Or.inl (hrepeats e s' hfirst))
      · -- the operand has its name already
        have hsteps : Steps s s₁ := (Evolves.nameOperand operand).steps hv
        have hagain := ih ((nameOperand_ensures h hr h).of_ok hv).1 (fun r hmem => by
          obtain ⟨j, hj, hmirrors⟩ := hrest r hmem
          exact ⟨j, hsteps.grows.mem hj, hmirrors.mono h.reserved hj hsteps⟩) (hothers hrun)
        have hkept : s'.named[operand.node]? = some v := by
          rw [← stateAfter_of_error (hothers hrun)]
          exact named_stateAfter_nameEach rest (named_of_nameOperand hv)
        exact run_bind_eq_error.2 (Or.inr ⟨v, s', nameOperand_eq_ok.2 (Or.inl ⟨hkept, rfl⟩),
          run_bind_eq_error.2 (Or.inl hagain)⟩)
    case isFalse hworth =>
      rw [if_neg hworth]
      exact run_bind_eq_error.2 (Or.inr ⟨operand.node, s', rfl,
        run_bind_eq_error.2 (Or.inl (ih h hrest (hothers hrun)))⟩)

/-- A node that cannot be finished is finished no further the second time. -/
theorem finishNode_repeats {rs : List Staged} (h : Running bound old s) (hi : i ∈ s.graph)
    (hrs : List.Forall₂ (fun j r => Mirrors s.graph s.code j r) (s.graph.entered i) rs) :
    Repeats (finishNode ctx i (s.graph.node i) rs) s := by
  cases hplain : isPlain (s.graph.node i) with
  | false => exact .of_ensures (finishOther_ensures h rfl hi hplain hrs)
  | true =>
    intro e s' hrun
    rw [Graph.entered_of_isPlain hplain] at hrs
    rw [finishNode_of_isPlain hplain] at hrun ⊢
    rcases run_bind_eq_error.1 hrun with hunion | ⟨deps, s₁, hunion, hrebuild⟩
    · have hrepeats : Repeats (keepPromise (ctx.settings.constant.unionAll (rs.map Staged.deps))) s :=
        .of_ensures (Q := fun _ _ => True) (.keepPromise (fun _ _ => trivial) rfl)
      exact run_bind_eq_error.2 (Or.inl (hrepeats e s' hunion))
    · obtain ⟨hdeps, hsame⟩ := keepPromise_eq_ok.1 hunion
      rw [hsame] at hrebuild
      obtain ⟨hmixed, hnames⟩ := (nameAndRebuild_eq_error h hi hrs).1 hrebuild
      have hof := exists_mirrored hi hrs
      have hsteps := (Evolves.nameEach rs).steps_of_error hnames
      have h' := (nameEach_ensures h hof).of_error hnames
      have hops := hsteps.grows.operands_eq hi
      have hmixed' : isMixed s'.graph rs deps = true := by
        rw [isMixed, List.any_eq_true] at hmixed ⊢
        obtain ⟨r, hr, hworth⟩ := hmixed
        obtain ⟨j, -, hmirrors⟩ := hof r hr
        exact ⟨r, hr, by rwa [hsteps.grows.node_eq r.node hmirrors.mem]⟩
      have hrs' : List.Forall₂ (fun j r => Mirrors s'.graph s'.code j r) (s'.graph.operands i) rs := by
        have hmem : ∀ j ∈ s.graph.operands i, j ∈ s.graph :=
          fun j hj => Graph.mem_of_mem_operands hj hi
        rw [hops]
        exact ((List.forall₂_and_left _ _).2 ⟨hmem, hrs⟩).imp fun j r hjr =>
          hjr.2.mono h.reserved hjr.1 hsteps
      have hagain := (nameAndRebuild_eq_error h' (hsteps.grows.mem hi) hrs').2
        ⟨hmixed', nameEach_repeats h hof e s' hnames⟩
      rw [hops] at hagain
      exact run_bind_eq_error.2 (Or.inr ⟨deps, s', keepPromise_eq_ok.2 ⟨hdeps, rfl⟩, hagain⟩)

/-! ## Staging -/

theorem stageEach_repeats {is : List NodeId}
    (hstage : ∀ {s : State} {i : NodeId}, Running bound old s → i ∈ s.graph →
      Repeats (stage ctx room i) s)
    (h : Running bound old s) (his : ∀ j ∈ is, j ∈ s.graph) :
    Repeats (stageEach (stage ctx room) is) s := by
  intro e s' hrun
  induction is generalizing s with
  | nil => cases hrun
  | cons j is ih =>
    obtain ⟨hj, his⟩ := List.forall_mem_cons.1 his
    rcases run_bind_eq_error.1 hrun with hfirst | ⟨r, s₁, hr, hrest⟩
    · exact run_bind_eq_error.2 (Or.inl (hstage h hj e s' hfirst))
    · -- the first node is found again
      have hrest : (stageEach (stage ctx room) is).run s₁ = .error e s' := by
        rcases run_bind_eq_error.1 hrest with hrest | ⟨_, _, -, hpure⟩
        · exact hrest
        · cases hpure
      have hsteps : Steps s s₁ := (Evolves.stage room j).steps hr
      have h₁ := ((stage_ensures ctx room h hj).of_ok hr).1
      have hagain := ih h₁ (fun k hk => hsteps.grows.mem (his k hk)) hrest
      have hkept := (FillsBelow.stageEach (.stage ctx room) his).fills_of_error hrest
      have hfound : s'.staged[j]? = some r := hkept.kept j r (staged_of_stage hr)
      exact run_bind_eq_error.2 (Or.inr ⟨r, s', run_stage_of_staged hfound,
        run_bind_eq_error.2 (Or.inl hagain)⟩)

/-- A layer that cannot be staged is met again in the same state. -/
theorem stageNode_repeats
    (hstage : ∀ {s : State} {i : NodeId}, Running bound old s → i ∈ s.graph →
      Repeats (stage ctx room i) s)
    (h : Running bound old s) (hi : i ∈ s.graph) : Repeats (stageNode ctx (stage ctx room) i) s := by
  intro e s' hrun
  have hgrows := (Evolves.stageNode (.stage room) i).steps_of_error hrun |>.grows
  have hentered : ∀ j ∈ s.graph.entered i, j ∈ s.graph :=
    fun j hj => Graph.mem_of_mem_operands (Graph.entered_subset _ i hj) hi
  rw [run_stageNode] at hrun ⊢
  rw [hgrows.entered_eq hi, hgrows.node_eq i hi]
  rcases run_bind_eq_error.1 hrun with hoperands | ⟨rs, s₁, hrs, hfinish⟩
  · exact run_bind_eq_error.2 (Or.inl (stageEach_repeats hstage h hentered e s' hoperands))
  · have hsteps : Steps s s₁ := (Evolves.stageEach (.stage room) _).steps hrs
    obtain ⟨h₁, hmirrors⟩ := (stageEach_ensures (.stage room) (stage_ensures ctx room) h hentered).of_ok
      hrs
    -- the operands are staged already
    rw [← hsteps.grows.entered_eq hi] at hmirrors
    have hrepeats : Repeats (finishNode ctx i (s₁.graph.node i) rs) s₁ :=
      finishNode_repeats h₁ (hsteps.grows.mem hi) hmirrors
    rw [hsteps.grows.node_eq i hi] at hrepeats
    have hkept : s'.staged = s₁.staged := by
      rw [← stateAfter_of_error hfinish]
      exact Leaves.finishNode i _ rs s₁
    have hfound := staged_of_stageEach hentered hrs
    rw [← hkept] at hfound
    exact run_bind_eq_error.2 (Or.inr ⟨rs, s', run_stageEach_of_staged hfound,
      hrepeats e s' hfinish⟩)

/-- A node that cannot be staged is refused again, and the second time nothing changes. -/
theorem stage_repeats (ctx : Context) (room : Nat) (h : Running bound old s) (hi : i ∈ s.graph) :
    Repeats (stage ctx room i) s := by
  induction room generalizing s i with
  | zero =>
    intro e s' hrun
    obtain ⟨hnone, hthrow⟩ := remember_eq_error.1 hrun
    cases hthrow
    exact hrun
  | succ room ih =>
    intro e s' hrun
    obtain ⟨hnone, hcompute⟩ := remember_eq_error.1 hrun
    -- the node has no result yet
    have hfills := (FillsBelow.stageNode (.stage ctx room) i).fills_of_error hcompute
    have hnone' : s'.staged[i]? = none := (hfills.from_bound i (Nat.le_refl i)).trans hnone
    exact remember_eq_error.2 ⟨hnone', stageNode_repeats ih h hi e s' hcompute⟩

/-- A variable that cannot be staged is refused again, and the second time nothing changes. -/
theorem stageVariable_repeats (ctx : Context) (hs : Faithful s)
    (hv : s.graph.node v = .labelled c l) : Repeats (stageVariable ctx v) s := by
  intro e s' hrun
  have hmem : v ∈ s.graph := Graph.mem_of_label? (Graph.label?_of_labelled hv)
  have hc : c ∈ s.graph := Graph.mem_of_mem_operands (by simp [Graph.operands_of_labelled hv]) hmem
  have hgrows : s.graph.Extends s'.graph := ((Evolves.stageVariable v).steps_of_error hrun).grows
  have hv' : s'.graph.node v = .labelled c l := by rw [hgrows.node_eq v hmem, hv]
  obtain ⟨hnew, hreserve | ⟨s₁, hreserve, hstage⟩⟩ := (stageVariable_eq_error hs hv).1 hrun
  · have hfails := (reserveLabels_ensures hs v).of_error hreserve
    obtain ⟨-, -, -, -, labels, -, -, -, rfl⟩ := reserveLabels_eq_error.1 hreserve
    exact (stageVariable_eq_error hfails.faithful hv').2
      ⟨hnew, Or.inl (reserveLabels_repeats v s e _ hreserve)⟩
  · have h₁ := (reserveLabels_ensures hs v).of_ok hreserve
    have hc₁ := ((Evolves.reserveLabels v).steps hreserve).grows.mem hc
    have hrunning := (stage_ensures ctx _ h₁ hc₁).of_error hstage
    refine (stageVariable_eq_error hrunning.toFaithful hv').2 ⟨?_, Or.inr ⟨s', ?_, ?_⟩⟩
    · -- its own label was reserved and so not minted
      rw [hrunning.below l (State.lt_firstMinted hmem (Graph.Reaches.refl _ v)
        (Graph.label?_of_labelled hv)), hnew]
    · -- there is nothing left to reserve
      refine run_reserveLabels (LabelSupply.reserveAll?_of_lt fun m hm => ?_)
      rw [hgrows.labels_eq hmem] at hm
      exact Nat.lt_of_lt_of_le (LabelSupply.lt_nextAbove s.labels hm) hrunning.bound_le
    · exact stage_repeats ctx _ h₁ hc₁ e s' hstage

end FormStaging.Staging
