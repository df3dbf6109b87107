import FormStaging.Proofs.Staging.NormalForm
import FormStaging.Proofs.Staging.Soundness

/-!
# Staging a normal form

A run on an expression in normal form only finds out what is there. `Replays` is its invariant: the
graph and the reserved labels stay as they are, the variables registered so far are the first ones of
the normal form, and the memos give every node itself. An action `Reproduces` a result if it gives
this result and changes nothing but the memos.

`Reproduces.stage` says so of staging a node, given enough room, and `stageVariables_replays` of the
registration of all variables. So a run gives back the normal form (`NormalForm.run_splitExpression`).
-/

set_option autoImplicit false

namespace FormStaging.Staging

open FormStaging.Graph

/-! ## The invariant -/

/-- What is true of every state of a run on the normal form `infos` of the expression `root`, when the
variables `done` are registered. -/
structure Replays (settings : Settings) (g : Graph) (root : NodeId)
    (infos done : List RegisteredVariable) (s : State) : Prop where
  graph_eq : s.graph = g
  labels_eq : LabelSupply.reserveAll? {} (g.labels root) = some s.labels
  groups : s.code.Groups done
  staged : ∀ (i : NodeId) (r : Staged), s.staged[i]? = some r →
    r.node = i ∧ Settled settings g infos i r.deps
  named : ∀ (n v : NodeId), s.named[n]? = some v → v = n

/-- An action has a result and changes nothing but the memos. -/
def Reproduces (settings : Settings) (g : Graph) (root : NodeId)
    (infos done : List RegisteredVariable) {α : Type} (x : Action α) (a : α) : Prop :=
  ∀ s, Replays settings g root infos done s →
    ∃ s', x.run s = .ok a s' ∧ Replays settings g root infos done s'

variable {ctx : Context} {g : Graph} {root i j : NodeId} {d : DependencySet} {l : Label}
  {infos done rest : List RegisteredVariable} {info : RegisteredVariable} {s : State}

theorem Settled.eq_of_registered {settings : Settings} (h : Settled settings g infos i d)
    (hnodup : (infos.map RegisteredVariable.label).Nodup) (hl : g.label? i = some info.label)
    (hinfo : info ∈ infos) : info.node = i ∧ info.deps = d := by
  obtain ⟨c, hc, -⟩ := operands_of_label? hl
  obtain ⟨other, hother, hnode, hdeps, hlabel, -⟩ := h.cases_labelled hc
  obtain rfl := List.inj_on_of_nodup_map hnodup hother hinfo hlabel
  exact ⟨hnode, hdeps⟩

namespace Replays

theorem keep_staged {settings : Settings} (h : Replays settings g root infos done s)
    (hi : Settled settings g infos i d) :
    Replays settings g root infos done { s with staged := s.staged.insert i ⟨i, d⟩ } := by
  refine { h with staged := fun k r hr => ?_ }
  rcases eq_or_of_getElem?_insert hr with ⟨rfl, rfl⟩ | hr
  · exact ⟨rfl, hi⟩
  · exact h.staged k r hr

theorem keep_named {settings : Settings} (h : Replays settings g root infos done s) (n : NodeId) :
    Replays settings g root infos done { s with named := s.named.insert n n } := by
  refine { h with named := fun m v hv => ?_ }
  rcases eq_or_of_getElem?_insert hv with ⟨rfl, rfl⟩ | hv
  · rfl
  · exact h.named m v hv

/-- The labels of the expression are avoided. -/
theorem lt_next {settings : Settings} (h : Replays settings g root infos done s)
    (hl : l ∈ g.labels root) : l.value < s.labels.next :=
  LabelSupply.lt_next_of_reserveAll? h.labels_eq hl

theorem reserveAll?_labels {settings : Settings} (h : Replays settings g root infos done s)
    (hroot : root ∈ g) (hi : g.Reaches root i) :
    s.labels.reserveAll? (s.graph.labels i) = some s.labels := by
  rw [h.graph_eq]
  refine LabelSupply.reserveAll?_of_lt fun l hl => h.lt_next ?_
  obtain ⟨j, hj, hjl⟩ := (mem_labels_iff (hi.mem hroot)).1 hl
  exact (mem_labels_iff hroot).2 ⟨j, hi.trans hj, hjl⟩

end Replays

/-! ## Operands -/

namespace Reproduces

variable {settings : Settings}

theorem pure {α : Type} (a : α) : Reproduces settings g root infos done (Pure.pure a) a :=
  fun s hs => ⟨s, rfl, hs⟩

theorem remember {compute : Action Staged} (hi : Settled settings g infos i d)
    (hnodup : (infos.map RegisteredVariable.label).Nodup)
    (h : Reproduces settings g root infos done compute ⟨i, d⟩) :
    Reproduces settings g root infos done (remember i compute) ⟨i, d⟩ := by
  intro s hs
  cases hknown : s.staged[i]? with
  | some r =>
    obtain ⟨hnode, hsettled⟩ := hs.staged i r hknown
    have hr : r = ⟨i, d⟩ := by
      obtain ⟨node, deps⟩ := r
      obtain rfl : node = i := hnode
      obtain rfl : deps = d := hsettled.functional hnodup hi
      rfl
    exact ⟨s, remember_eq_ok.2 (Or.inl ⟨hr ▸ hknown, rfl⟩), hs⟩
  | none =>
    obtain ⟨s₁, hrun, hs₁⟩ := h s hs
    exact ⟨_, remember_eq_ok.2 (Or.inr ⟨hknown, s₁, hrun, rfl⟩), hs₁.keep_staged hi⟩

theorem stageEach {stage : NodeId → Action Staged} {staged : NodeId → Staged} {is : List NodeId}
    (h : ∀ j ∈ is, Reproduces settings g root infos done (stage j) (staged j)) :
    Reproduces settings g root infos done (stageEach stage is) (is.map staged) := by
  induction is with
  | nil => exact .pure _
  | cons i is ih =>
    intro s hs
    obtain ⟨s₁, hrun, hs₁⟩ := h i List.mem_cons_self s hs
    obtain ⟨s₂, hrest, hs₂⟩ := ih (fun j hj => h j (List.mem_cons_of_mem i hj)) s₁ hs₁
    exact ⟨s₂, stageEach_cons_eq_ok.2 ⟨_, s₁, _, hrun, hrest, rfl⟩, hs₂⟩

theorem nameEach {deps : NodeId → DependencySet} {is : List NodeId}
    (h : ∀ j ∈ is, worthNaming (g.node j) = true →
      Reproduces settings g root infos done (nameOperand ctx ⟨j, deps j⟩) j) :
    Reproduces settings g root infos done (nameEach ctx (is.map fun j => ⟨j, deps j⟩)) is := by
  induction is with
  | nil => exact .pure _
  | cons i is ih =>
    intro s hs
    obtain ⟨s₁, hrun, hs₁⟩ : ∃ s₁, (if worthNaming (s.graph.node i) then nameOperand ctx ⟨i, deps i⟩
        else Pure.pure i).run s = .ok i s₁ ∧ Replays settings g root infos done s₁ := by
      rw [hs.graph_eq]
      split
      case isTrue hworth => exact h i List.mem_cons_self hworth s hs
      case isFalse => exact ⟨s, rfl, hs⟩
    obtain ⟨s₂, hrest, hs₂⟩ := ih (fun j hj => h j (List.mem_cons_of_mem i hj)) s₁ hs₁
    exact ⟨s₂, nameEach_cons_eq_ok.2 ⟨i, s₁, is, hrun, hrest, rfl⟩, hs₂⟩

/-- A variable of the normal form is its own name. -/
theorem nameOperand (h : NormalForm settings g root infos) (hsub : done ⊆ infos)
    (hi : Settled settings g infos i d) (hready : Ready g done i) (hl : g.label? i = some l) :
    Reproduces settings g root infos done (nameOperand ctx ⟨i, d⟩) i := by
  intro s hs
  cases hknown : s.named[i]? with
  | some v =>
    obtain rfl : v = i := hs.named i v hknown
    exact ⟨s, nameOperand_eq_ok.2 (Or.inl ⟨hknown, rfl⟩), hs⟩
  | none =>
    obtain ⟨info, hinfo, rfl⟩ := hready i l (Reaches.refl g i) hl
    obtain ⟨hnode, hdeps⟩ := hi.eq_of_registered h.nodup hl (hsub hinfo)
    have hreserved : info.label ∈ g.labels root :=
      (mem_labels_iff h.mem).2 ⟨info.node, h.reaches (hsub hinfo), h.label? (hsub hinfo)⟩
    obtain ⟨label, node, deps⟩ := info
    obtain rfl : node = i := hnode
    obtain rfl : deps = d := hdeps
    have hrun : (register ctx node deps none).run s = .ok ⟨label, node, deps⟩ s :=
      run_register_known (by rw [hs.graph_eq, hl]) (hs.lt_next hreserved)
        (hs.groups.get?_of_mem hinfo)
    exact ⟨_, nameOperand_eq_ok.2 (Or.inr ⟨hknown, _, s, hrun, rfl, rfl⟩), hs.keep_named node⟩

end Reproduces

/-! ## Nodes -/

theorem run_withOperands_same (s : State) (i : NodeId) (is : List NodeId) (d : DependencySet) :
    (withOperands i is is d).run s = .ok ⟨i, d⟩ s := by
  rw [withOperands, if_pos rfl]
  rfl

namespace Reproduces

/-- The operands of a plain layer in normal form are not replaced: those that depend on something else
than the layer are variables. -/
theorem new {deps : NodeId → DependencySet} (h : NormalForm ctx.settings g root infos)
    (hsub : done ⊆ infos) (hready : Ready g done i)
    (hops : ∀ j ∈ g.operands i, Settled ctx.settings g infos j (deps j))
    (hnames : (∀ j ∈ g.operands i, worthNaming (g.node j) = true → deps j = d) ∨
      ∀ j ∈ g.operands i, worthNaming (g.node j) = true → ∃ l, g.label? j = some l) :
    Reproduces ctx.settings g root infos done
      (if isMixed g ((g.operands i).map fun j => ⟨j, deps j⟩) d
        then Staging.nameEach ctx ((g.operands i).map fun j => ⟨j, deps j⟩)
        else Pure.pure (((g.operands i).map fun j => ⟨j, deps j⟩).map Staged.node))
      (g.operands i) := by
  have hmap : ((g.operands i).map fun j => (⟨j, deps j⟩ : Staged)).map Staged.node =
      g.operands i := by
    rw [List.map_map]
    exact List.map_id _
  rw [hmap]
  split
  case isFalse => exact .pure _
  case isTrue hmixed =>
    refine nameEach fun j hj hworth => ?_
    rcases hnames with huniform | hnamed
    · simp only [isMixed, List.any_map, List.any_eq_true, Function.comp_apply,
        Bool.and_eq_true, bne_iff_ne] at hmixed
      obtain ⟨k, hk, hkworth, hne⟩ := hmixed
      exact absurd (huniform k hk hkworth) hne
    · -- a variable is its own name
      obtain ⟨m, hm⟩ := hnamed j hj hworth
      exact nameOperand h hsub (hops j hj) (hready.operand hj) hm

/-- A layer in normal form, if what is below it is reproduced. -/
theorem stageNode {stage : NodeId → Action Staged} (h : NormalForm ctx.settings g root infos)
    (hsub : done ⊆ infos) (hi : Settled ctx.settings g infos i d) (hready : Ready g done i)
    (hbelow : ∀ j ∈ g.operands i, ∀ e, Settled ctx.settings g infos j e →
      Reproduces ctx.settings g root infos done (stage j) ⟨j, e⟩) :
    Reproduces ctx.settings g root infos done (stageNode ctx stage i) ⟨i, d⟩ := by
  intro s hs
  cases hi with
  | leaf hleaf =>
    refine ⟨s, stageNode_eq_ok.2 (Or.inl ⟨?_, rfl, rfl⟩), hs⟩
    rw [hs.graph_eq, hleaf]
  | @labelled _ c info _ hinfo hnode hdeps hn hc =>
    -- the label is registered already, and by no other variable of the normal form
    have hl := label?_of_labelled hn
    obtain ⟨other, hother, hlabel⟩ := hready i info.label (Reaches.refl g i) hl
    obtain rfl := List.inj_on_of_nodup_map h.nodup (hsub hother) hinfo hlabel
    refine ⟨s, stageNode_eq_ok.2 (Or.inr (Or.inl ⟨other.label, other, ?_, ?_, ?_, rfl⟩)), hs⟩
    · rw [hs.graph_eq, hl]
    · exact hs.groups.get?_of_mem hother
    · rw [hnode, hdeps]
  | @derivative _ a b items e hn hb ha =>
    have hops : a ∈ g.operands i := by simp [operands_of_derivative hn]
    obtain ⟨s₁, hrun, hs₁⟩ := hbelow a hops e ha s hs
    refine ⟨s₁, stageNode_eq_ok.2 (Or.inr (Or.inr (Or.inl ⟨a, b, ?_, ?_⟩))), hs₁⟩
    · rw [hs.graph_eq, hn]
    · exact stageDerivative_eq_ok.2 ⟨⟨a, e⟩, s₁, hrun, run_withOperands_same s₁ i _ _⟩
  | operator deps hplain hops hdeps hnames =>
    obtain ⟨s₁, hrun, hs₁⟩ :=
      stageEach (fun j hj => hbelow j hj (deps j) (hops j hj)) s hs
    obtain ⟨s₂, hnew, hs₂⟩ := new h hsub hready hops hnames s₁ hs₁
    refine ⟨s₂, stageNode_eq_ok.2 (Or.inr (Or.inr (Or.inr ⟨?_, ?_⟩))), hs₂⟩
    · rw [hs.graph_eq, hplain]
    · rw [hs.graph_eq]
      refine stageOperator_eq_ok.2
        ⟨_, s₁, d, g.operands i, s₂, hrun, ?_, ?_, run_withOperands_same s₂ i _ d⟩
      · rw [List.map_map]
        exact hdeps
      · rw [hs₁.graph_eq]
        exact hnew

/-- A node in normal form stands for itself. -/
theorem stage (ctx : Context) (h : NormalForm ctx.settings g root infos) (hsub : done ⊆ infos)
    {room : Nat} (hi : Settled ctx.settings g infos i d) (hmem : i ∈ g) (hready : Ready g done i)
    (hroom : (g.postOrder i).length ≤ room) :
    Reproduces ctx.settings g root infos done (stage ctx room i) ⟨i, d⟩ := by
  -- the expression below an operand has fewer nodes, so the room suffices for it
  induction room generalizing i d with
  | zero =>
    have hin := (mem_postOrder hmem).2 (Reaches.refl g i)
    rw [List.length_eq_zero_iff.1 (Nat.le_zero.1 hroom)] at hin
    exact absurd hin List.not_mem_nil
  | succ room ih =>
    rw [Staging.stage]
    refine remember hi h.nodup (stageNode h hsub hi hready fun j hj e he => ?_)
    refine ih he (mem_of_mem_operands hj hmem) (hready.operand hj) ?_
    have hlt := length_postOrder_lt hmem hj
    omega

end Reproduces

/-! ## Variables -/

/-- The variables that a variable of the normal form refers to stand before it. -/
theorem NormalForm.ready {settings : Settings} (h : NormalForm settings g root infos)
    (hsplit : infos = done ++ info :: rest) {c : NodeId} (hc : c ∈ g.operands info.node) :
    Ready g done c := by
  intro j m hj hm
  have hvariables : g.variables root = done.map RegisteredVariable.node ++
      info.node :: rest.map RegisteredVariable.node := by
    rw [h.variables_eq, hsplit, List.map_append, List.map_cons]
  have hne : j ≠ info.node := Nat.ne_of_lt (hj.lt_of_operand hc)
  obtain ⟨w, hw, hwm⟩ := exists_mem_before h.mem hvariables (Reaches.head hc hj) hne hm
  obtain ⟨other, hother, rfl⟩ := List.mem_map.1 hw
  rw [h.label? (hsplit ▸ List.mem_append_left _ hother)] at hwm
  exact ⟨other, hother, Option.some.inj hwm⟩

/-- The label of the next variable is new. -/
theorem Replays.get?_eq_none {settings : Settings} (h : Replays settings g root infos done s)
    (hnodup : (infos.map RegisteredVariable.label).Nodup) (hsplit : infos = done ++ info :: rest) :
    s.code.get? info.label = none := by
  cases hget : s.code.get? info.label with
  | none => rfl
  | some other =>
    obtain ⟨hother, hlabel⟩ := (h.groups.get?_iff _ _).1 hget
    rw [hsplit, List.map_append, List.map_cons] at hnodup
    obtain ⟨-, -, hdisjoint⟩ := List.nodup_append.1 hnodup
    exact absurd hlabel (hdisjoint _ (List.mem_map_of_mem hother) _ List.mem_cons_self)

/-- A variable of the normal form is registered as it is. -/
theorem stageVariable_replays (h : NormalForm ctx.settings g root infos)
    (hs : Replays ctx.settings g root infos done s) (hsplit : infos = done ++ info :: rest)
    (hroom : (g.postOrder root).length ≤ ctx.settings.maxDepth) :
    ∃ s', (stageVariable ctx info.node).run s = .ok info s' ∧
      Replays ctx.settings g root infos (done ++ [info]) s' := by
  have hmem : info ∈ infos := by simp [hsplit]
  have hsub : done ⊆ infos := hsplit ▸ List.subset_append_left _ _
  have hreach := h.reaches hmem
  have hl := h.label? hmem
  obtain ⟨c, hc, hsettled⟩ := h.settled info hmem
  have hcv : c ∈ g.operands info.node := by simp [operands_of_labelled hc]
  have hnode : s.graph.node info.node = .labelled c info.label := by rw [hs.graph_eq, hc]
  have hcroom : (g.postOrder c).length ≤ ctx.settings.maxDepth :=
    Nat.le_trans (length_postOrder_le h.mem (hreach.tail hcv)) hroom
  obtain ⟨s₁, hrun, hs₁⟩ := Reproduces.stage ctx h hsub hsettled
    ((hreach.tail hcv).mem h.mem) (h.ready hsplit hcv) hcroom s hs
  have hreserved : info.label ∈ g.labels root := (mem_labels_iff h.mem).2 ⟨_, hreach, hl⟩
  have hnew := hs.get?_eq_none h.nodup hsplit
  have hnew₁ := hs₁.get?_eq_none h.nodup hsplit
  refine ⟨{ s₁ with code := s₁.code.insert info }, ?_, ?_⟩
  · refine (stageVariable_eq_ok hnode hnew).2
      ⟨s.labels, ⟨c, info.deps⟩, s₁, info.node, s₁, hs.reserveAll?_labels h.mem hreach, ?_, ?_, ?_⟩
    · exact hrun
    · rw [if_pos rfl]
      rfl
    · exact run_register_new (by rw [hs₁.graph_eq, hl]) (hs₁.lt_next hreserved) hnew₁
  · exact { hs₁ with groups := hs₁.groups.insert hnew₁ }

/-- The variables of the normal form are registered in their order. -/
theorem stageVariables_replays (ctx : Context) (h : NormalForm ctx.settings g root infos)
    (hs : Replays ctx.settings g root infos done s) (hsplit : infos = done ++ rest)
    (hroom : (g.postOrder root).length ≤ ctx.settings.maxDepth) :
    ∃ s', (stageVariables ctx (rest.map RegisteredVariable.node)).run s = .ok () s' ∧
      Replays ctx.settings g root infos infos s' := by
  induction rest generalizing done s with
  | nil =>
    rw [List.append_nil] at hsplit
    exact ⟨s, rfl, hsplit ▸ hs⟩
  | cons info rest ih =>
    obtain ⟨s₁, hrun, hs₁⟩ := stageVariable_replays h hs hsplit hroom
    obtain ⟨s₂, hrest, hs₂⟩ := ih hs₁ (by rw [hsplit, List.append_assoc]; rfl)
    exact ⟨s₂, stageVariables_cons_eq_ok.2 ⟨info, s₁, hrun, hrest⟩, hs₂⟩

/-! ## The expression -/

/-- A run on a normal form gives it back. -/
theorem NormalForm.run_splitExpression {settings : Settings} {labels : LabelSupply}
    (h : NormalForm settings g root infos) (hmem : info ∈ infos) (hroot : info.node = root)
    (hlabels : LabelSupply.reserveAll? {} (g.labels root) = some labels)
    (hroom : (g.postOrder root).length ≤ settings.maxDepth) :
    ∃ s, (splitExpression settings root).run { graph := g } = .ok info s ∧ s.graph = g ∧
      s.labels = labels ∧ s.code.Groups infos := by
  have hl := h.label? hmem
  rw [hroot] at hl
  have hstart : Replays settings g root infos [] { graph := g, labels := labels } :=
    ⟨rfl, hlabels, .empty, fun _ _ hr => by simp at hr, fun _ _ hv => by simp at hv⟩
  obtain ⟨s, hrun, hs⟩ :=
    stageVariables_replays ⟨settings, some root⟩ h hstart (List.nil_append _).symm hroom
  obtain ⟨c, hc, -⟩ := operands_of_label? hl
  -- all registered labels are listed, so the reordering gives the list
  have hall : s.code.order ⊆ g.labels root := by
    intro l hl
    rw [hs.groups.order_perm.mem_iff, ← h.labels_eq] at hl
    exact hl
  have hgroups := hs.groups.reorder_of_subset (g.nodup_labels root) hall
  rw [h.labels_eq, hs.groups.resolve_map_label, ← h.labels_eq] at hgroups
  refine ⟨_, splitExpression_eq_ok.2 ⟨labels, root, _, s, s, hlabels, run_wrap_of_label? hl, ?_, ?_,
    rfl⟩, hs.graph_eq, Option.some.inj (hs.labels_eq.symm.trans hlabels), ?_⟩
  · rw [h.variables_eq]
    exact hrun
  · refine run_stageVariable_of_registered (l := info.label) (c := c) ?_
      (hs.groups.get?_of_mem hmem)
    rw [hs.graph_eq, hc]
  · rw [hs.graph_eq, hroot]
    exact hgroups

end FormStaging.Staging
