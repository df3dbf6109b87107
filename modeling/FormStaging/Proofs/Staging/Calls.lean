import FormStaging.Proofs.Staging.Memos

/-!
# Calls one after the other

What one call of a run does to the registered labels and contents, and that the invariant of the memos
holds between any calls (`faithful_afterCalls`). A variable whose label is registered is not staged,
and nothing changes. Otherwise its own label is registered last, after labels that were minted for
operands (`stageVariable_ensures`). All labels below the variable are reserved before, so none of them
is minted, and the content is staged by what was registered before the call.
-/

set_option autoImplicit false

namespace FormStaging.Staging

variable {ctx : Context} {s s' : State} {i v : NodeId}

/-! ## Staging variables -/

section Variables

variable {l : Label} {info : RegisteredVariable}

/-- A label is registered in a state. -/
def State.Has (s : State) (l : Label) : Prop := ∃ info, s.code.get? l = some info

/-- The first label that may be minted when a variable is staged. -/
def State.firstMinted (s : State) (v : NodeId) : Nat := s.labels.nextAbove (s.graph.labels v)

/-- What staging variable `v` in state `s` gives, and the state `s'` after it. -/
structure StagesVariable (s : State) (v : NodeId) (info : RegisteredVariable) (s' : State) :
    Prop where
  faithful : Faithful s'
  /-- The variable is registered under its label. -/
  label : s.graph.label? v = some info.label
  get?_eq : s'.code.get? info.label = some info
  /-- If the label was registered, then nothing has changed. -/
  known : s.Has info.label → s' = s
  /-- Otherwise the content is kept up to variables, where the variables met in it agree with what is
  registered under their labels. -/
  erase_eq : ¬ s.Has info.label → s.graph.AgreesBelow s.code (s.graph.content v) →
    (s'.graph.unfold info.node).erase = (s.graph.unfold v).erase
  /-- The other new labels are the minted ones. -/
  has_iff : ∀ m, s'.Has m ↔ s.Has m ∨ m = info.label ∨
    (s.firstMinted v ≤ m.value ∧ m.value < s'.labels.next)

/-- The state `s'` after variable `v` was not staged in state `s`. -/
structure FailsToStage (s : State) (v : NodeId) (s' : State) : Prop where
  faithful : Faithful s'
  /-- The new labels are the minted ones. -/
  has_iff : ∀ m, s'.Has m ↔ s.Has m ∨ (s.firstMinted v ≤ m.value ∧ m.value < s'.labels.next)

theorem Reserved.lt_of_has (h : Reserved s) (hl : s.Has l) : l.value < s.labels.next := by
  obtain ⟨info, hget⟩ := hl
  exact (h l info hget).2.2

theorem State.next_le_firstMinted (s : State) (v : NodeId) :
    s.labels.next.val ≤ s.firstMinted v :=
  s.labels.le_nextAbove _

/-- The labels below the variable are not minted. -/
theorem State.lt_firstMinted {j : NodeId} {m : Label} (hv : v ∈ s.graph) (hj : s.graph.Reaches v j)
    (hm : s.graph.label? j = some m) : m.value.val < s.firstMinted v :=
  LabelSupply.lt_nextAbove _ ((Graph.mem_labels_iff hv).2 ⟨j, hj, hm⟩)

/-- Up to the first label that may be minted, none is. -/
theorem State.has_iff_of_le {n : Nat} (h : n ≤ s.firstMinted v) (m : Label) :
    s.Has m ↔ s.Has m ∨ (s.firstMinted v ≤ m.value ∧ m.value < n) := by
  refine ⟨Or.inl, ?_⟩
  rintro (hm | ⟨hle, hlt⟩)
  · exact hm
  · exact absurd (h.trans hle) (Nat.not_le_of_lt hlt)

/-- The registered labels of a running state. -/
theorem Running.has_iff {bound : Nat} (h : Running bound s.code.get? s')
    (hs : Reserved s) (hle : s.labels.next.val ≤ bound) (m : Label) :
    s'.Has m ↔ s.Has m ∨ (bound ≤ m.value ∧ m.value < s'.labels.next) := by
  constructor
  · intro hm
    by_cases hlt : m.value.val < bound
    · rw [State.Has, h.below m hlt] at hm
      exact Or.inl hm
    · exact Or.inr ⟨Nat.le_of_not_lt hlt, h.reserved.lt_of_has hm⟩
  · rintro (hm | ⟨hle', hlt⟩)
    · rw [State.Has, h.below m (Nat.lt_of_lt_of_le (hs.lt_of_has hm) hle)]
      exact hm
    · exact h.above m hle' hlt

/-- What agrees with the registered variables agrees with those of a running state. -/
theorem Running.agreesBelow {bound : Nat} {c : NodeId} (h : Running bound s.code.get? s')
    (hs : Reserved s) (hg : s.graph.Extends s'.graph) (hc : c ∈ s.graph)
    (hlt : ∀ j m, s.graph.Reaches c j → s.graph.label? j = some m → m.value.val < bound)
    (hagree : s.graph.AgreesBelow s.code c) : s'.graph.AgreesBelow s'.code c := by
  intro j m info hj hm hget
  have hj' := (hg.meets_iff hc).1 hj
  have hmem := hj'.reaches.mem hc
  rw [hg.label?_eq hmem] at hm
  rw [h.below m (hlt j m hj'.reaches hm)] at hget
  have hnode := Graph.mem_of_label? (hs m info hget).2.1
  rw [hg.unfold_eq _ hnode, hg.unfold_eq j hmem]
  exact hagree j m info hj' hm hget

/-- The variable of a staged content, with the label that was reserved for it, is registered. -/
theorem register_ensures {E : State → Prop} {c w : NodeId} {r : Staged} (hs : Faithful s)
    (hv : s.graph.node v = .labelled c l) (hnew : s.code.get? l = none)
    (hsteps : Steps s s') (h : Running (s.firstMinted v) s.code.get? s')
    (hr : Mirrors s'.graph s'.code c r) (hw : s'.graph.node w = .labelled r.node l) :
    Ensures (StagesVariable s v) E (register ctx w r.deps (some l)) s' := by
  have hl : s.graph.label? v = some l := Graph.label?_of_labelled hv
  have hmem : v ∈ s.graph := Graph.mem_of_label? hl
  have hcv : c ∈ s.graph.operands v := by simp [Graph.operands_of_labelled hv]
  -- the labels below the variable were reserved, its own among them
  have hlt : l.value.val < s.firstMinted v := State.lt_firstMinted hmem (Graph.Reaches.refl _ v) hl
  have hnew' : s'.code.get? l = none := by rw [h.below l hlt, hnew]
  have hrun : (register ctx w r.deps (some l)).run s' =
      .ok ⟨l, w, r.deps⟩ { s' with code := s'.code.insert ⟨l, w, r.deps⟩ } :=
    run_register_new (Graph.label?_of_labelled hw) (Nat.lt_of_lt_of_le hlt h.bound_le) hnew'
  have hregister : Steps s' { s' with code := s'.code.insert ⟨l, w, r.deps⟩ } :=
    Evolves.steps (.register w r.deps (some l)) hrun
  refine .of_run_eq_ok hrun ⟨h.toFaithful.of_steps hregister rfl, hl, ?_, ?_, ?_, fun m => ?_⟩
  · rw [CodeStructure.get?_insert, if_pos rfl]
  · rintro ⟨info, hinfo⟩
    rw [hnew] at hinfo
    cases hinfo
  · intro _ hagree
    rw [Graph.content_eq hv] at hagree
    have hc : c ∈ s.graph := Graph.mem_of_mem_operands hcv hmem
    have hbelow : ∀ j m, s.graph.Reaches c j → s.graph.label? j = some m →
        m.value.val < s.firstMinted v := fun j m hj => State.lt_firstMinted hmem (.head hcv hj)
    have hagree' := h.agreesBelow hs.reserved hsteps.grows hc hbelow hagree
    calc (s'.graph.unfold w).erase = (s'.graph.unfold r.node).erase :=
          Graph.erase_unfold_of_labelled hw
      _ = (s'.graph.unfold c).erase := hr.erase_eq hagree'
      _ = (s.graph.unfold c).erase := by rw [hsteps.grows.unfold_eq c hc]
      _ = (s.graph.unfold v).erase := (Graph.erase_unfold_of_labelled hv).symm
  · have hiff := h.has_iff hs.reserved (s.next_le_firstMinted v) m
    rw [State.Has, CodeStructure.get?_insert]
    split
    case isTrue heq =>
      subst heq
      simp
    case isFalse hne =>
      have hne' : m ≠ l := fun heq => hne heq.symm
      simp only [hne', false_or]
      exact hiff

/-- A variable is registered with the result for its content. This never fails. -/
theorem registerContent_ensures {E : State → Prop} {c : NodeId} {r : Staged} (hs : Faithful s)
    (hv : s.graph.node v = .labelled c l) (hnew : s.code.get? l = none) (hsteps : Steps s s')
    (h : Running (s.firstMinted v) s.code.get? s') (hr : Mirrors s'.graph s'.code c r) :
    Ensures (StagesVariable s v) E (registerContent ctx v c l r) s' := by
  have hmem : v ∈ s.graph := Graph.mem_of_label? (Graph.label?_of_labelled hv)
  have hc : c ∈ s.graph :=
    Graph.mem_of_mem_operands (by simp [Graph.operands_of_labelled hv]) hmem
  rw [registerContent]
  split
  case isTrue hkept =>
    have hw : s'.graph.node v = .labelled r.node l := by
      rw [hsteps.grows.node_eq v hmem, hv, hkept]
    exact register_ensures hs hv hnew hsteps h hr hw
  case isFalse =>
    have hn : ∀ j ∈ (Node.labelled r.node l).operands, j ∈ s'.graph := by
      intro j hj
      rw [List.mem_singleton.1 hj]
      exact hr.mem
    have hgrow := Graph.Extends.push s'.graph (.labelled r.node l) hn
    refine Ensures.bind (Q := fun w s₂ => w = s'.graph.size ∧
      s₂ = { s' with graph := s'.graph.push (.labelled r.node l) hn })
      (.of_run_eq_ok (addNode_eq_ok.2 ⟨hn, rfl, rfl⟩) ⟨rfl, rfl⟩) (.addNode _) ?_
    rintro w s₂ hsteps₂ ⟨rfl, rfl⟩
    have hr₂ := hr.mono h.reserved (hsteps.grows.mem hc) hsteps₂
    exact register_ensures hs hv hnew (hsteps.trans hsteps₂) (h.grow hgrow) hr₂
      (Graph.node_push_size _ hn)

/-- The labels below a variable are reserved before its content is staged. If this fails, then the
variable is not staged. -/
theorem reserveLabels_ensures (hs : Faithful s) (v : NodeId) :
    Ensures (fun _ s' => Running (s.firstMinted v) s.code.get? s') (FailsToStage s v)
      (reserveLabels v) s := by
  have hreserve : ∀ {ls : List Label} {labels : LabelSupply},
      s.labels.reserveAll? ls = some labels → Faithful { s with labels := labels } :=
    fun h => hs.of_steps (.single (.reserve (LabelSupply.next_le_of_reserveAll? h))) rfl
  rw [Ensures]
  split
  case h_1 s' hrun =>
    obtain ⟨labels, hlabels, rfl⟩ := reserveLabels_eq_ok.1 hrun
    have hrunning := Running.start (hreserve hlabels)
    rwa [LabelSupply.next_of_reserveAll? hlabels] at hrunning
  case h_2 e s' hrun =>
    obtain ⟨-, before, l, after, labels, hsplit, hbefore, -, rfl⟩ := reserveLabels_eq_error.1 hrun
    refine ⟨hreserve hbefore, fun m => State.has_iff_of_le (s := s) ?_ m⟩
    rw [LabelSupply.next_of_reserveAll? hbefore]
    refine LabelSupply.nextAbove_le (s.next_le_firstMinted v) fun m hm => ?_
    exact LabelSupply.lt_nextAbove _ (by rw [hsplit]; exact List.mem_append_left _ hm)

/-- A variable is not staged if its label is new and the labels below it cannot be reserved or its content
cannot be staged. -/
theorem stageVariable_eq_error {c : NodeId} {e : Failure} (hs : Faithful s)
    (hv : s.graph.node v = .labelled c l) :
    (stageVariable ctx v).run s = .error e s' ↔ s.code.get? l = none ∧
      ((reserveLabels v).run s = .error e s' ∨ ∃ s₁, (reserveLabels v).run s = .ok () s₁ ∧
        (stage ctx ctx.settings.maxDepth c).run s₁ = .error e s') := by
  have hc : c ∈ s.graph := Graph.mem_of_mem_operands (by simp [Graph.operands_of_labelled hv])
    (Graph.mem_of_label? (Graph.label?_of_labelled hv))
  cases hget : s.code.get? l with
  | some info =>
    rw [run_stageVariable_of_registered hv hget]
    simp
  | none =>
    rw [run_stageVariable_of_new hv hget, run_bind_eq_error]
    simp only [true_and]
    refine or_congr_right ⟨?_, fun ⟨s₁, hreserve, hfails⟩ =>
      ⟨(), s₁, hreserve, run_bind_eq_error.2 (Or.inl hfails)⟩⟩
    rintro ⟨_, s₁, hreserve, hrest⟩
    refine ⟨s₁, hreserve, (run_bind_eq_error.1 hrest).resolve_right ?_⟩
    rintro ⟨r, s₂, hr, hregister⟩
    -- with its content staged, a variable can be registered
    have hsteps : Steps s s₁ := (Evolves.reserveLabels v).steps hreserve
    obtain ⟨h₂, hmirrors⟩ := (stage_ensures ctx _ ((reserveLabels_ensures hs v).of_ok hreserve)
      (hsteps.grows.mem hc)).of_ok hr
    have hnever : Ensures _ (fun _ => False) (registerContent ctx v c l r) s₂ :=
      registerContent_ensures hs hv hget (hsteps.trans ((Evolves.stage _ c).steps hr)) h₂ hmirrors
    exact (hnever.of_error hregister).elim

/-- Staging a variable. -/
theorem stageVariable_ensures (ctx : Context) (hs : Faithful s) (v : NodeId) :
    Ensures (StagesVariable s v) (FailsToStage s v) (stageVariable ctx v) s := by
  have hsame : FailsToStage s v s := ⟨hs, State.has_iff_of_le (s.next_le_firstMinted v)⟩
  cases hl : s.graph.label? v with
  | none =>
    rw [stageVariable]
    apply Ensures.get_bind
    simp only [Graph.contentAndLabel?_eq_none hl]
    exact .failAt hsame
  | some l =>
    obtain ⟨c, hc, hops⟩ := Graph.operands_of_label? hl
    cases hget : s.code.get? l with
    | some info =>
      obtain ⟨rfl, -, -⟩ := hs.reserved l info hget
      refine .of_run_eq_ok (run_stageVariable_of_registered hc hget)
        ⟨hs, hl, hget, fun _ => rfl, fun hnot => absurd ⟨info, hget⟩ hnot, fun m => ?_⟩
      rw [or_left_comm, Fin.lt_def, ← State.has_iff_of_le (s.next_le_firstMinted v) m]
      refine ⟨Or.inr, fun hm => hm.elim (fun heq => ?_) id⟩
      exact heq ▸ ⟨info, hget⟩
    | none =>
      have hmem : c ∈ s.graph := Graph.mem_of_mem_operands (by simp [hops]) (Graph.mem_of_label? hl)
      -- a failure leaves a running state
      have hfails : ∀ s₁, Running (s.firstMinted v) s.code.get? s₁ → FailsToStage s v s₁ :=
        fun s₁ h₁ => ⟨h₁.toFaithful, h₁.has_iff hs.reserved (s.next_le_firstMinted v)⟩
      rw [Ensures, run_stageVariable_of_new hc hget]
      refine (reserveLabels_ensures hs v).bind (.reserveLabels v) ?_
      rintro _ s₁ hsteps₁ h₁
      refine ((stage_ensures ctx _ h₁ (hsteps₁.grows.mem hmem)).mono (fun _ _ h => h) hfails).bind
        (.stage _ c) ?_
      rintro r s₂ hsteps₂ ⟨h₂, hr⟩
      exact registerContent_ensures hs hc hget (hsteps₁.trans hsteps₂) h₂ hr

/-- The invariant holds between variables that are staged one after the other. -/
theorem stageVariables_ensures (ctx : Context) (hs : Faithful s) (vs : List NodeId) :
    Ensures (fun _ => Faithful) Faithful (stageVariables ctx vs) s := by
  induction vs generalizing s with
  | nil => exact .pure hs
  | cons v vs ih =>
    refine ((stageVariable_ensures ctx hs v).mono (fun _ _ h => h.faithful)
      fun _ h => h.faithful).bind (.stageVariable v) ?_
    exact fun info s₁ _ h₁ => ih h₁

end Variables

/-! ## Any calls -/

/-- The invariant holds between calls, failed calls among them. -/
theorem faithful_afterCalls (settings : Settings) (g : Graph) (calls : List Call) :
    Faithful (afterCalls settings g calls) := by
  induction calls using List.reverseRecOn with
  | nil => exact .fresh g
  | append_singleton calls call ih =>
    rw [afterCalls_concat]
    generalize afterCalls settings g calls = s at ih
    cases call with
    | make n =>
      have hmemos : Leaves State.memos (Call.action ⟨settings, none⟩ (.make n)) :=
        (Leaves.addNode (fun _ _ => rfl) n).bind fun _ => .pure ()
      exact ih.of_steps (Call.evolves (.make n) s) (hmemos s)
    | stage i =>
      refine stateAfter_bind (P := Faithful) ?_ fun _ _ h => h
      exact ((stageVariable_ensures _ ih i).mono (fun _ _ h => h.faithful)
        fun _ h => h.faithful).stateAfter
    | register i deps label =>
      have hmemos : Leaves State.memos (Call.action ⟨settings, none⟩ (.register i deps label)) :=
        (Leaves.register i deps label).bind fun _ => .pure ()
      exact ih.of_steps (Call.evolves (.register i deps label) s) (hmemos s)

end FormStaging.Staging
