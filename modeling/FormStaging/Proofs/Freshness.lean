import FormStaging.Proofs.Staging.Calls
import FormStaging.Proofs.Staging.Outcome

/-!
# Minted labels

The supply stays above every registered label, so a label that it mints is a new one, for an
expression that is registered without a label as well as for an operand (`MintsFresh`). This is so in
every state that a run passes through, also when it fails.

No minted label is wasted. Staging a variable registers all labels that it mints (`RegistersMinted`),
and once the labels of a whole expression are avoided, no variable in it makes the supply skip any
(`stageVariables_registers`). So a split registers the labels of the expression and a range right
above them (`RegistersRange`).
-/

set_option autoImplicit false

namespace FormStaging

open Staging

/-! ## The labels of an expression -/

/-- Label `l` is that of a variable in the expression at node `i`. -/
def Graph.HasLabel (g : Graph) (i : NodeId) (l : Label) : Prop :=
  ∃ v, g.Reaches i v ∧ g.label? v = some l

/-- The value `m` is the first one above those of some labels: one more than the largest of them, and
0 if there is none. -/
structure FirstAbove (P : Label → Prop) (m : Nat) : Prop where
  above : ∀ l, P l → l.value.val < m
  least : m = 0 ∨ ∃ l, P l ∧ m = l.value.val + 1

/-- Only a node of the graph has labels below it. -/
theorem Graph.HasLabel.mem {g : Graph} {i : NodeId} {l : Label} (h : g.HasLabel i l) : i ∈ g := by
  obtain ⟨v, hv, hl⟩ := h
  by_contra hnot
  have hops : g.operands i = [] := by
    rw [Graph.operands, Graph.node_of_not_mem hnot]
    rfl
  rw [hv.eq_of_operands_eq_nil hops] at hl
  exact hnot (Graph.mem_of_label? hl)

/-- A fresh run mints the first label above those of the expression. -/
theorem Graph.firstAbove_firstLabel {g : Graph} {i : NodeId} (hi : i ∈ g) :
    FirstAbove (g.HasLabel i) (g.firstLabel i) := by
  refine ⟨fun l hl => LabelSupply.lt_nextAbove {} ((Graph.mem_labels_iff hi).2 hl), ?_⟩
  refine (LabelSupply.firstFrom_eq 0 (g.labels i)).imp id ?_
  rintro ⟨l, hl, hnext⟩
  exact ⟨l, (Graph.mem_labels_iff hi).1 hl, hnext⟩

/-- The variable around an expression has the labels of the expression and its own. -/
theorem Wraps.hasLabel_iff {g src : Graph} {i root : NodeId} (h : Wraps g i src root) (l : Label) :
    src.HasLabel root l ↔ g.HasLabel i l ∨ src.label? root = some l := by
  constructor
  · rintro ⟨v, hv, hl⟩
    rcases h.eq_or_reaches hv with rfl | hgv
    · exact Or.inr hl
    · rw [h.grows.label?_eq (hgv.mem h.mem)] at hl
      exact Or.inl ⟨v, hgv, hl⟩
  · rintro (⟨v, hv, hl⟩ | hl)
    · exact ⟨v, h.reaches.trans (h.grows.reaches h.mem hv), h.grows.label?_eq_some hl⟩
    · exact ⟨root, Graph.Reaches.refl src root, hl⟩

namespace Staging

variable {ctx : Context} {s s' : State} {i root : NodeId}

/-! ## Minted labels are new -/

/-- A label minted in state `s` is a new one. -/
structure MintsFresh (ctx : Context) (s : State) : Prop where
  /-- The next label to mint is above every registered one. -/
  above : ∀ l info, s.code.get? l = some info → l.value < s.labels.next
  /-- If it is not the last one of all, it is given to an expression that is registered without a
  label. -/
  registration : s.labels.next.val + 1 < Label.count →
    ∀ i ∈ s.graph, ∀ deps, s.graph.label? i = none →
    ∃ info s', (register ctx i deps none).run s = .ok info s' ∧ info.label = ⟨s.labels.next⟩ ∧
      s.code.get? info.label = none ∧ s'.code.get? info.label = some info
  /-- Then it is also given to an operand that is named. -/
  promotion : s.labels.next.val + 1 < Label.count →
    ∀ operand : Staged, operand.node ∈ s.graph → s.graph.label? operand.node = none →
    s.named[operand.node]? = none →
    ∃ info s', (nameOperand ctx operand).run s = .ok info.node s' ∧ info.label = ⟨s.labels.next⟩ ∧
      s.code.get? info.label = none ∧ s'.code.get? info.label = some info

theorem Reserved.mintsFresh (h : Reserved s) (ctx : Context) : MintsFresh ctx s := by
  have hoperands : ∀ i ∈ s.graph, ∀ j ∈ (Node.labelled i ⟨s.labels.next⟩).operands, j ∈ s.graph := by
    intro i hi j hj
    rwa [List.mem_singleton.1 hj]
  have hmints : s.labels.next.val + 1 < Label.count →
      ∃ labels, s.labels.mint? = some (⟨s.labels.next⟩, labels) :=
    fun hlt => ⟨⟨⟨_, hlt⟩⟩, LabelSupply.mint?_eq_some_iff.2 ⟨rfl, rfl⟩⟩
  refine ⟨fun l info hget => (h l info hget).2.2, fun hlt i hi deps hl => ?_,
    fun hlt operand hi hl hnamed => ?_⟩
  · obtain ⟨labels, hmint⟩ := hmints hlt
    refine ⟨_, _, run_register_fresh hl h.get?_next hmint (hoperands i hi), rfl, h.get?_next, ?_⟩
    rw [CodeStructure.get?_insert, if_pos rfl]
  · obtain ⟨labels, hmint⟩ := hmints hlt
    have hrun : (register ctx operand.node operand.deps none).run s = _ :=
      run_register_fresh hl h.get?_next hmint (hoperands _ hi)
    refine ⟨_, _, nameOperand_eq_ok.2 (Or.inr ⟨hnamed, _, _, hrun, rfl, rfl⟩), rfl, h.get?_next, ?_⟩
    rw [CodeStructure.get?_insert, if_pos rfl]

/-- What is registered in the state `s'` after variable `v` was staged in state `s`, successfully or
not: apart from the label of the variable, these are the labels that were registered before and all
that were minted, from `m` on. -/
structure RegistersMinted (s : State) (v : NodeId) (s' : State) (m : Nat) : Prop where
  next_le : s.labels.next.val ≤ m
  above : ∀ l, s.graph.HasLabel v l → l.value.val < m
  has_iff : ∀ l, s.graph.label? v ≠ some l →
    (s'.Has l ↔ s.Has l ∨ (m ≤ l.value ∧ l.value < s'.labels.next))

theorem registersMinted_stageVariable (ctx : Context) (hs : Faithful s) (v : NodeId) :
    RegistersMinted s v (stateAfter (stageVariable ctx v) s) (s.firstMinted v) := by
  have habove : ∀ l, s.graph.HasLabel v l → l.value.val < s.firstMinted v := by
    intro l hl
    exact LabelSupply.lt_nextAbove _ ((Graph.mem_labels_iff hl.mem).2 hl)
  refine Ensures.stateAfter (E := fun s' => RegistersMinted s v s' (s.firstMinted v))
    ((stageVariable_ensures ctx hs v).mono (fun info s' h => ?_) fun s' h => ?_)
  · refine ⟨s.next_le_firstMinted v, habove, fun l hl => ?_⟩
    have hne : l ≠ info.label := by
      rintro rfl
      exact hl h.label
    rw [h.has_iff l]
    exact or_congr_right (or_iff_right hne)
  · exact ⟨s.next_le_firstMinted v, habove, fun l _ => h.has_iff l⟩

/-! ## Minted labels leave no gap -/

/-- The variables of an expression register their own labels and a range of minted ones, if their
labels are avoided before. -/
theorem stageVariables_registers {vs : List NodeId} {u : Unit} (hs : Faithful s)
    (hvs : ∀ v ∈ vs, v ∈ s.graph ∧ ∀ l ∈ s.graph.labels v, l.value < s.labels.next)
    (h : (stageVariables ctx vs).run s = .ok u s') :
    Faithful s' ∧ ∀ l, s'.Has l ↔ s.Has l ∨ (∃ v ∈ vs, s.graph.label? v = some l) ∨
      (s.labels.next ≤ l.value ∧ l.value < s'.labels.next) := by
  induction vs generalizing s with
  | nil =>
    rw [stageVariables, run_pure_eq_ok] at h
    obtain ⟨-, rfl⟩ := h
    refine ⟨hs, fun l => ⟨Or.inl, ?_⟩⟩
    rintro (hl | ⟨v, hv, -⟩ | ⟨hle, hlt⟩)
    · exact hl
    · exact absurd hv List.not_mem_nil
    · exact absurd hle (Nat.not_le_of_lt hlt)
  | cons v rest ih =>
    obtain ⟨info, s₁, hv, hrest⟩ := stageVariables_cons_eq_ok.1 h
    have hstages := (stageVariable_ensures ctx hs v).of_ok hv
    have hsteps : Steps s s₁ := (Evolves.stageVariable v).steps hv
    have hle := hsteps.next_le
    have hle' := ((Evolves.stageVariables rest).steps hrest).next_le
    -- nothing is left to reserve below `v`
    have hfirst : s.firstMinted v = s.labels.next.val :=
      LabelSupply.nextAbove_of_lt (hvs v List.mem_cons_self).2
    have hvs₁ : ∀ w ∈ rest, w ∈ s₁.graph ∧ ∀ l ∈ s₁.graph.labels w, l.value < s₁.labels.next := by
      intro w hw
      obtain ⟨hmem, hlt⟩ := hvs w (List.mem_cons_of_mem v hw)
      rw [hsteps.grows.labels_eq hmem]
      exact ⟨hsteps.grows.mem hmem, fun l hl => Nat.lt_of_lt_of_le (hlt l hl) hle⟩
    obtain ⟨hs', hiff⟩ := ih hstages.faithful hvs₁ hrest
    refine ⟨hs', fun l => ?_⟩
    have hothers : (∃ w ∈ rest, s₁.graph.label? w = some l) ↔
        ∃ w ∈ rest, s.graph.label? w = some l := by
      refine exists_congr fun w => and_congr_right fun hw => ?_
      rw [hsteps.grows.label?_eq (hvs w (List.mem_cons_of_mem v hw)).1]
    have hown : (∃ w ∈ v :: rest, s.graph.label? w = some l) ↔
        l = info.label ∨ ∃ w ∈ rest, s.graph.label? w = some l := by
      rw [List.exists_mem_cons_iff, hstages.label, Option.some.injEq, eq_comm]
    have hrange : (s.labels.next ≤ l.value ∧ l.value < s'.labels.next) ↔
        (s.labels.next ≤ l.value ∧ l.value < s₁.labels.next) ∨
          (s₁.labels.next ≤ l.value ∧ l.value < s'.labels.next) := by
      omega
    rw [hiff l, hstages.has_iff l, hfirst, hothers, hown, hrange]
    exact or_assoc.trans (or_congr_right or_or_or_comm)

/-- In a run that only avoids labels so far, nothing is registered. -/
theorem State.not_has_start (g : Graph) (a : LabelSupply) (l : Label) :
    ¬ State.Has { graph := g, labels := a } l := by
  rintro ⟨info, hget⟩
  rw [CodeStructure.get?_empty] at hget
  cases hget

theorem Faithful.avoiding (g : Graph) (a : LabelSupply) : Faithful { graph := g, labels := a } :=
  (Faithful.fresh g).of_steps (.single (.reserve (Fin.zero_le a.next))) rfl

/-- The state `s` after the expression at node `i` was wrapped in the variable `root`. If it was no
variable, then this one has the label `m` that was minted for it. -/
structure WrapsLabels (g : Graph) (i : NodeId) (m : Nat) (s : State) (root : NodeId) : Prop where
  faithful : Faithful s
  not_has : ∀ l, ¬ s.Has l
  next_le : m ≤ s.labels.next.val
  hasLabel_iff : ∀ l, s.graph.HasLabel root l ↔
    g.HasLabel i l ∨ (m ≤ l.value ∧ l.value < s.labels.next)
  label_root : g.label? i = none → m < s.labels.next ∧
    ∃ l, s.graph.label? root = some l ∧ l.value.val = m

theorem wrapsLabels_of_wrap {g : Graph} {a : LabelSupply}
    (h : (wrap i).run { graph := g, labels := a } = .ok root s) (hwraps : Wraps g i s.graph root) :
    WrapsLabels g i a.next.val s root := by
  cases hl : g.label? i with
  | some m =>
    rw [run_wrap_of_label? hl] at h
    cases h
    refine ⟨.avoiding g a, State.not_has_start g a, Nat.le_refl _, fun l => ⟨Or.inl, ?_⟩, ?_⟩
    · rintro (hl | ⟨hle, hlt⟩)
      · exact hl
      · exact absurd hle (Nat.not_le_of_lt hlt)
    · rw [hl]
      exact nofun
  | none =>
    obtain ⟨labels, hmint, hn, rfl, rfl⟩ := (wrap_fresh_eq_ok hl).1 h
    obtain ⟨-, hnext⟩ := LabelSupply.mint?_eq_some_iff.1 hmint
    have hroot : (g.push (.labelled i ⟨a.next⟩) hn).label? g.size = some ⟨a.next⟩ := by
      rw [Graph.label?, Graph.node_push_size]
      rfl
    refine ⟨.avoiding _ _, State.not_has_start _ _, LabelSupply.next_le_of_mint? hmint,
      fun l => ?_, fun _ => ⟨LabelSupply.lt_next_of_mint? hmint, _, hroot, rfl⟩⟩
    rw [hwraps.hasLabel_iff, hroot, Option.some.injEq]
    refine or_congr_right ⟨?_, ?_⟩
    · rintro rfl
      exact ⟨Nat.le_refl _, LabelSupply.lt_next_of_mint? hmint⟩
    · rintro ⟨hle, hlt⟩
      have hlt' : l.value.val < a.next.val + 1 := hnext ▸ hlt
      rw [Fin.ext (Nat.le_antisymm hle (Nat.le_of_lt_succ hlt'))]

end Staging

/-- What a split registers: the labels of the expression and `k` minted labels, from `m` on, which is
the first value above those of the expression. If the expression is no variable, then `m` is the label
of the variable around it. -/
structure RegistersRange (g : Graph) (i : NodeId) (r : SplitResult) (m k : Nat) : Prop where
  first : FirstAbove (g.HasLabel i) m
  has_iff : ∀ l, (∃ info, r.code.get? l = some info) ↔
    g.HasLabel i l ∨ (m ≤ l.value ∧ l.value < m + k)
  root_label : g.label? i = none → r.root.label.value.val = m ∧ 0 < k

theorem exists_registersRange {settings : Settings} {g : Graph} {i : NodeId} {r : SplitResult}
    (h : split settings g i = .ok r) : ∃ m k, RegistersRange g i r m k := by
  obtain ⟨-, s, hrun, -, hcode⟩ := split_eq_ok.1 h
  obtain ⟨labels, root, s₁, s₂, s₃, hlabels₀, hwrap, hvars, hroot, rfl⟩ :=
    splitExpression_eq_ok.1 hrun
  obtain ⟨hwraps, hsound⟩ := wrap_sound settings hlabels₀ hwrap
  obtain ⟨m, hfirst, hw⟩ : ∃ m, FirstAbove (g.HasLabel i) m ∧ WrapsLabels g i m s₁ root := by
    refine ⟨_, Graph.firstAbove_firstLabel hwraps.mem, ?_⟩
    rw [Graph.firstLabel, ← LabelSupply.next_of_reserveAll? hlabels₀]
    exact wrapsLabels_of_wrap hwrap hwraps
  have hlabels : ∀ l, l ∈ s₁.graph.labels root ↔ s₁.graph.HasLabel root l :=
    fun l => Graph.mem_labels_iff hwraps.root_mem
  -- all labels of the expression are avoided
  have hvs : ∀ v ∈ s₁.graph.variables root, v ∈ s₁.graph ∧
      ∀ l ∈ s₁.graph.labels v, l.value < s₁.labels.next := by
    intro v hv
    have hreach := Graph.reaches_of_mem_variables hwraps.root_mem hv
    have hmem := hreach.mem hwraps.root_mem
    refine ⟨hmem, fun l hl => hsound.source_lt l ?_⟩
    obtain ⟨j, hj, hjl⟩ := (Graph.mem_labels_iff hmem).1 hl
    exact (hlabels l).2 ⟨j, hreach.trans hj, hjl⟩
  have hsteps : Steps s₁ s₂ := (Evolves.stageVariables _).steps hvars
  obtain ⟨hs₂, hhas⟩ := stageVariables_registers hw.faithful hvs hvars
  have hlisted : ∀ l, (∃ v ∈ s₁.graph.variables root, s₁.graph.label? v = some l) ↔
      s₁.graph.HasLabel root l := by
    intro l
    rw [← hlabels, Graph.labels, List.mem_filterMap]
  -- the variable of the expression was registered with the others
  have hstages := (stageVariable_ensures _ hs₂ root).of_ok hroot
  have hlabel : s₁.graph.label? root = some r.root.label := by
    rw [← hsteps.grows.label?_eq hwraps.root_mem]
    exact hstages.label
  have hsame : s₃ = s₂ := by
    refine hstages.known ((hhas _).2 (Or.inr (Or.inl ((hlisted _).2 ?_))))
    exact ⟨root, Graph.Reaches.refl _ root, hlabel⟩
  have hle := hw.next_le
  have hle' := hsteps.next_le
  obtain ⟨k, hk⟩ := Nat.exists_eq_add_of_le (hle.trans hle')
  refine ⟨m, k, hfirst, fun l => ?_, fun hl => ?_⟩
  · rw [hcode, CodeStructure.get?_reorder, hsame, ← hk]
    calc s₂.Has l
        ↔ s₁.Has l ∨ s₁.graph.HasLabel root l ∨
            (s₁.labels.next ≤ l.value ∧ l.value < s₂.labels.next) := by rw [hhas, hlisted]
      _ ↔ s₁.graph.HasLabel root l ∨ (s₁.labels.next ≤ l.value ∧ l.value < s₂.labels.next) :=
          or_iff_right (hw.not_has l)
      _ ↔ g.HasLabel i l ∨ (m ≤ l.value ∧ l.value < s₂.labels.next) := by
          rw [hw.hasLabel_iff, or_assoc]
          refine or_congr_right ?_
          omega
  · obtain ⟨hlt, l, hrootLabel, hvalue⟩ := hw.label_root hl
    rw [hlabel, Option.some.injEq] at hrootLabel
    refine ⟨hrootLabel ▸ hvalue, ?_⟩
    omega

/-! ## The theorem -/

/-- Minted labels are fresh and leave no gap. The first part is about all states that a run passes
through after any calls, the second one about staging a variable there, and the third one about
splitting an expression. -/
theorem minted_labels_fresh (settings : Settings) (g : Graph) :
    (∀ calls s, Steps (afterCalls settings g calls) s → MintsFresh ⟨settings, none⟩ s) ∧
      (∀ calls v, ∃ m, RegistersMinted (afterCalls settings g calls) v
        (stateAfter (stageVariable ⟨settings, none⟩ v) (afterCalls settings g calls)) m) ∧
      ∀ i r, split settings g i = .ok r → ∃ m k, RegistersRange g i r m k := by
  refine ⟨fun calls s hsteps => ?_, fun calls v => ?_, fun i r hr => exists_registersRange hr⟩
  · have hreserved : Reserved (afterCalls settings g calls) :=
      (faithful_afterCalls settings g calls).reserved
    exact (hsteps.reserved hreserved).mintsFresh _
  · exact ⟨_, registersMinted_stageVariable _ (faithful_afterCalls settings g calls) v⟩

/-- An argument times a variable. -/
def scaledArgument : Graph :=
  .ofNodes [.argument ⟨0, []⟩, .symbol "c", .labelled 1 ⟨4⟩, .product 0 2]

/-- The settings for this product. -/
def scaledSettings : Settings := .ofForm (.ofExpression scaledArgument 3)

/-- After a registration under label 7, label 8 is minted, for an expression and for an operand. A
split of the product mints label 5 first. -/
theorem minted_labels_fresh_scaledArgument :
    (∃ s info s', s = afterCalls scaledSettings scaledArgument
        [.stage 2, .register 1 scaledSettings.constant (some ⟨7⟩)] ∧
      (register ⟨scaledSettings, none⟩ 0 scaledSettings.constant none).run s = .ok info s' ∧
      info.label = ⟨8⟩ ∧ s.code.get? ⟨8⟩ = none ∧
      ∃ (named : RegisteredVariable) (t : State),
        (nameOperand ⟨scaledSettings, none⟩ ⟨0, scaledSettings.constant⟩).run s =
          .ok named.node t ∧ named.label = ⟨8⟩) ∧
    ∃ r k, split scaledSettings scaledArgument 3 = .ok r ∧
      RegistersRange scaledArgument 3 r 5 k ∧ r.root.label = ⟨5⟩ := by
  have hfresh := minted_labels_fresh scaledSettings scaledArgument
  constructor
  · have hg := (steps_afterCalls scaledSettings scaledArgument
      [.stage 2, .register 1 scaledSettings.constant (some ⟨7⟩)]).grows
    have hmem : 0 ∈ scaledArgument := by cbv
    have hlabel : scaledArgument.label? 0 = none := by cbv
    have hnext : (afterCalls scaledSettings scaledArgument
      [.stage 2, .register 1 scaledSettings.constant (some ⟨7⟩)]).labels.next = 8 := by cbv
    have hunnamed : (afterCalls scaledSettings scaledArgument
      [.stage 2, .register 1 scaledSettings.constant (some ⟨7⟩)]).named[0]? = none := by cbv
    have hmints := hfresh.1 [.stage 2, .register 1 scaledSettings.constant (some ⟨7⟩)] _ .refl
    have hleft : (afterCalls scaledSettings scaledArgument
        [.stage 2, .register 1 scaledSettings.constant (some ⟨7⟩)]).labels.next.val + 1 <
        Label.count := by
      rw [hnext]
      decide
    rw [← hg.label?_eq hmem] at hlabel
    obtain ⟨info, s', hrun, hinfo, hnew, -⟩ :=
      hmints.registration hleft 0 (hg.mem hmem) scaledSettings.constant hlabel
    obtain ⟨named, t, hrun', hnamed, -, -⟩ :=
      hmints.promotion hleft ⟨0, scaledSettings.constant⟩ (hg.mem hmem) hlabel hunnamed
    rw [hnext] at hinfo hnamed
    rw [hinfo] at hnew
    exact ⟨_, info, s', rfl, hrun, hinfo, hnew, named, t, hrun', hnamed⟩
  · have hok : (split scaledSettings scaledArgument 3).isOk = true := by cbv
    obtain ⟨r, hr⟩ := Except.exists_eq_ok hok
    obtain ⟨m, k, hrange⟩ := hfresh.2.2 3 r hr
    have hmem : 3 ∈ scaledArgument := by cbv
    have hlabels : scaledArgument.labels 3 = [⟨4⟩] := by cbv
    have hiff : ∀ l, scaledArgument.HasLabel 3 l ↔ l = ⟨4⟩ := by
      intro l
      rw [← List.mem_singleton, ← hlabels]
      exact (Graph.mem_labels_iff hmem).symm
    obtain rfl : m = 5 := by
      rcases hrange.first.least with rfl | ⟨l, hl, rfl⟩
      · exact absurd (hrange.first.above ⟨4⟩ ((hiff _).2 rfl)) (Nat.not_lt_zero _)
      · rw [(hiff l).1 hl]
        rfl
    have hroot : scaledArgument.label? 3 = none := by cbv
    exact ⟨r, k, hr, hrange, congrArg Label.mk (Fin.ext (hrange.root_label hroot).1)⟩

end FormStaging
