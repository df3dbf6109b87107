import FormStaging.Proofs.Staging.Memos

/-!
# Where the results of staging come from

The memo of a run holds a result for each staged node and nothing about how it was found. It can be read
off again, since the results for the nodes entered from a staged node are there too: `Explained` gives
for each kind of layer the dependency set of the result, and says when the node stands for itself. A
derivative does so if its operand does. An operator does so if its operands do and, where names are
given, if those worth a name are variables, because a variable is its own name (`NamedBy`).

`Traced` is the invariant of the state, and `stage_traced` says that staging keeps it.
-/

set_option autoImplicit false

namespace FormStaging

/-! ## Kinds of layers -/

section Kinds

variable {α β : Type} {n : Node α} {m : Node β}

theorem Node.isSome_label?_iff_of_kind_eq (h : m.kind = n.kind) :
    (∃ l, m.label? = some l) ↔ ∃ l, n.label? = some l := by
  have hkind : ∀ {γ : Type} (k : Node γ), (∃ l, k.label? = some l) ↔ k.kind = .labelled := by
    intro γ k
    cases k <;> simp [Node.label?, Node.kind]
  rw [hkind, hkind, h]

theorem Staging.worthNaming_eq_of_kind_eq (h : m.kind = n.kind) :
    Staging.worthNaming m = Staging.worthNaming n := by
  cases m <;> cases n <;> first | rfl | cases h

end Kinds

namespace Staging

variable {α : Type} {ctx : Context} {settings : Settings} {src : Graph} {s s' : State}
  {i j n v : NodeId} {r : Staged} {l : Label}

/-! ## The invariant -/

/-- A node is a variable that names node `n`: this node itself if it is a variable. -/
structure NamedBy (g : Graph) (n v : NodeId) : Prop where
  mem : n ∈ g
  label : ∃ l, g.label? v = some l
  self : ∀ l, g.label? n = some l → v = n

/-- How the result for node `i` comes from the results for the nodes entered from it, and when it is
this node. -/
inductive Explained (settings : Settings) (src : Graph) (s : State) (i : NodeId) : Staged → Prop where
  | leaf {d : DependencySet} (h : leafDeps settings (src.node i) = some d) :
      Explained settings src s i ⟨i, d⟩
  | labelled {l : Label} {info : RegisteredVariable} (h : src.label? i = some l)
      (hget : s.code.get? l = some info) : Explained settings src s i ⟨info.node, info.deps⟩
  | derivative {a b n : NodeId} {r : Staged} (h : src.node i = .spatialDerivative a b)
      (ha : s.staged[a]? = some r) (hn : n = i ↔ r.node = a) :
      Explained settings src s i ⟨n, r.deps.withRuntime⟩
  | operator {n : NodeId} {d : DependencySet} (results : NodeId → Staged)
      (h : isPlain (src.node i) = true)
      (hops : ∀ j ∈ src.operands i, s.staged[j]? = some (results j))
      (hdeps : settings.constant.unionAll ((src.operands i).map fun j => (results j).deps) = .ok d)
      (hn : n = i ↔ ∀ j ∈ src.operands i, (results j).node = j ∧
        ((∃ k ∈ src.operands i, worthNaming (src.node k) = true ∧ (results k).deps ≠ d) →
          worthNaming (src.node j) = true → ∃ l, src.label? j = some l)) :
      Explained settings src s i ⟨n, d⟩

/-- The node of a result is there, and if it is a variable, then it is what is registered under its
label. -/
structure Recorded (s : State) (r : Staged) : Prop where
  mem : r.node ∈ s.graph
  registered : ∀ l, s.graph.label? r.node = some l → s.code.get? l = some ⟨l, r.node, r.deps⟩

/-- What is true of the result for node `i` of the source. -/
structure Result (settings : Settings) (src : Graph) (s : State) (i : NodeId) (r : Staged) : Prop
    extends Recorded s r where
  kind_eq : (s.graph.node r.node).kind = (src.node i).kind
  explained : Explained settings src s i r

/-- What is true of a state in which nodes of the source were staged. -/
structure Traced (settings : Settings) (src : Graph) (s : State) : Prop where
  grows : src.Extends s.graph
  reserved : Reserved s
  staged : ∀ i r, s.staged[i]? = some r → i ∈ src ∧ Result settings src s i r
  named : ∀ n v, s.named[n]? = some v → NamedBy s.graph n v

theorem NamedBy.mono {g g' : Graph} (h : NamedBy g n v) (hg : g.Extends g') : NamedBy g' n v := by
  refine ⟨hg.mem h.mem, h.label.imp fun l hl => hg.label?_eq_some hl, fun l hl => h.self l ?_⟩
  rwa [hg.label?_eq h.mem] at hl

theorem Explained.mono (h : Explained settings src s i r)
    (hstaged : ∀ (j : NodeId) (r : Staged), s.staged[j]? = some r → s'.staged[j]? = some r)
    (hcode : ∀ l info, s.code.get? l = some info → s'.code.get? l = some info) :
    Explained settings src s' i r := by
  cases h with
  | leaf h => exact .leaf h
  | labelled h hget => exact .labelled h (hcode _ _ hget)
  | derivative h ha hn => exact .derivative h (hstaged _ _ ha) hn
  | operator results h hops hdeps hn =>
    exact .operator results h (fun j hj => hstaged _ _ (hops j hj)) hdeps hn

theorem Recorded.mono (h : Recorded s r) (hsteps : Steps s s') : Recorded s' r := by
  refine ⟨hsteps.grows.mem h.mem, fun l hl => ?_⟩
  rw [hsteps.grows.label?_eq h.mem] at hl
  exact hsteps.get?_eq_some (h.registered l hl)

/-- A node that is no variable is recorded. -/
theorem Recorded.of_label?_eq_none {d : DependencySet} (hi : i ∈ s.graph)
    (hl : s.graph.label? i = none) : Recorded s ⟨i, d⟩ := by
  refine ⟨hi, fun l hl' => ?_⟩
  rw [hl] at hl'
  cases hl'

theorem Result.mono (h : Result settings src s i r) (hsteps : Steps s s')
    (hstaged : ∀ (j : NodeId) (r : Staged), s.staged[j]? = some r → s'.staged[j]? = some r) :
    Result settings src s' i r := by
  refine ⟨h.toRecorded.mono hsteps, ?_,
    h.explained.mono hstaged fun l info => hsteps.get?_eq_some⟩
  rw [hsteps.grows.node_eq _ h.mem]
  exact h.kind_eq

namespace Traced

theorem fresh (settings : Settings) (g : Graph) : Traced settings g { graph := g } := by
  refine ⟨.refl g, .fresh g, fun i r hr => ?_, fun n v hv => ?_⟩
  · simp at hr
  · simp at hv

/-- Steps that leave the results alone and give names only keep the invariant. -/
theorem of_staged_eq (h : Traced settings src s) (hsteps : Steps s s')
    (hstaged : s'.staged = s.staged)
    (hnamed : ∀ n v, s'.named[n]? = some v → s.named[n]? = some v ∨ NamedBy s'.graph n v) :
    Traced settings src s' := by
  refine ⟨h.grows.trans hsteps.grows, hsteps.reserved h.reserved, fun i r hr => ?_, fun n v hv => ?_⟩
  · rw [hstaged] at hr
    obtain ⟨hi, hresult⟩ := h.staged i r hr
    refine ⟨hi, hresult.mono hsteps fun j r' hr' => ?_⟩
    rwa [hstaged]
  · exact (hnamed n v hv).elim (fun hv => (h.named n v hv).mono hsteps.grows) id

/-- Steps that leave the memos alone keep the invariant. -/
theorem of_memos_eq (h : Traced settings src s) (hsteps : Steps s s') (hmemos : s'.memos = s.memos) :
    Traced settings src s' := by
  obtain ⟨hstaged, hnamed⟩ := Prod.mk.inj hmemos
  refine h.of_staged_eq hsteps hstaged fun n v hv => Or.inl ?_
  rwa [hnamed] at hv

/-- A new result may be remembered. -/
theorem remember (h : Traced settings src s) (hi : i ∈ src) (hnone : s.staged[i]? = none)
    (hr : Result settings src s i r) :
    Traced settings src { s with staged := s.staged.insert i r } := by
  have hfills : Fills (i + 1) s { s with staged := s.staged.insert i r } :=
    (Fills.of_staged_eq rfl).insert hnone r
  have hstep : Steps s { s with staged := s.staged.insert i r } := .single (.stage i r)
  refine ⟨h.grows, h.reserved, fun j r' hr' => ?_, h.named⟩
  rcases eq_or_of_getElem?_insert hr' with ⟨rfl, rfl⟩ | hr'
  · exact ⟨hi, hr.mono hstep hfills.kept⟩
  · obtain ⟨hj, hresult⟩ := h.staged j r' hr'
    exact ⟨hj, hresult.mono hstep hfills.kept⟩

end Traced

/-! ## Names -/

/-- The name of a recorded operand is a variable for it. -/
theorem nameOperand_traced {operand : Staged} (h : Traced settings src s)
    (hr : Recorded s operand) (hrun : (nameOperand ctx operand).run s = .ok v s') :
    Traced settings src s' ∧ NamedBy s'.graph operand.node v := by
  rcases nameOperand_eq_ok.1 hrun with ⟨hknown, rfl⟩ | ⟨-, info, s₁, hinfo, rfl, rfl⟩
  · exact ⟨h, h.named _ _ hknown⟩
  · have hsteps : Steps s s₁ := (Evolves.register operand.node operand.deps none).steps hinfo
    have hmemos := (Leaves.register operand.node operand.deps none).part_eq hinfo
    -- a variable is registered already, and around any other node there is a new one
    have hname : NamedBy s₁.graph operand.node info.node := by
      have hmem := hsteps.grows.mem hr.mem
      cases hl : s.graph.label? operand.node with
      | some l =>
        have hget := hr.registered l hl
        rw [run_register_known hl (h.reserved l _ hget).2.2 hget] at hinfo
        cases hinfo
        exact ⟨hmem, ⟨l, hl⟩, fun _ _ => rfl⟩
      | none =>
        obtain ⟨labels, -, hn, rfl, rfl⟩ := register_fresh_eq_ok hl h.reserved.get?_next hinfo
        refine ⟨hmem, ⟨_, Graph.label?_of_labelled (Graph.node_push_size _ hn)⟩, fun l hl' => ?_⟩
        rw [hsteps.grows.label?_eq hr.mem, hl] at hl'
        cases hl'
    refine ⟨(h.of_memos_eq hsteps hmemos).of_staged_eq (.single (.name _ _)) rfl fun m w hw => ?_,
      hname⟩
    rcases eq_or_of_getElem?_insert hw with ⟨rfl, rfl⟩ | hw
    · exact Or.inr hname
    · exact Or.inl hw

/-- What replaces a recorded operand where names are given. -/
def NameFor (g : Graph) (n v : NodeId) : Prop :=
  if worthNaming (g.node n) = true then NamedBy g n v else v = n

theorem NameFor.mono {g g' : Graph} (h : NameFor g n v) (hn : n ∈ g) (hg : g.Extends g') :
    NameFor g' n v := by
  rw [NameFor] at h ⊢
  rw [hg.node_eq n hn]
  split at h
  case isTrue hworth =>
    rw [if_pos hworth]
    exact h.mono hg
  case isFalse hworth =>
    rw [if_neg hworth]
    exact h

theorem nameEach_traced {rs : List Staged} {new : List NodeId} (h : Traced settings src s)
    (hrs : ∀ r ∈ rs, Recorded s r) (hrun : (nameEach ctx rs).run s = .ok new s') :
    Traced settings src s' ∧ List.Forall₂ (fun r v => NameFor s'.graph r.node v) rs new := by
  induction rs generalizing s new with
  | nil =>
    obtain ⟨rfl, rfl⟩ := run_pure_eq_ok.1 hrun
    exact ⟨h, .nil⟩
  | cons operand rest ih =>
    obtain ⟨v, s₁, others, hv, hothers, rfl⟩ := nameEach_cons_eq_ok.1 hrun
    obtain ⟨hr, hrs⟩ := List.forall_mem_cons.1 hrs
    obtain ⟨hsteps, h₁, hname⟩ : Steps s s₁ ∧ Traced settings src s₁ ∧
        NameFor s₁.graph operand.node v := by
      rw [NameFor]
      split at hv
      case isTrue hworth =>
        have hsteps := (Evolves.nameOperand operand).steps hv
        obtain ⟨h₁, hname⟩ := nameOperand_traced h hr hv
        rw [hsteps.grows.node_eq _ hr.mem, if_pos hworth]
        exact ⟨hsteps, h₁, hname⟩
      case isFalse hworth =>
        obtain ⟨rfl, rfl⟩ := run_pure_eq_ok.1 hv
        rw [if_neg hworth]
        exact ⟨.refl, h, rfl⟩
    obtain ⟨h', hnames⟩ := ih h₁ (fun r hmem => (hrs r hmem).mono hsteps) hothers
    have hgrows := ((Evolves.nameEach rest).steps hothers).grows
    exact ⟨h', .cons (hname.mono (hsteps.grows.mem hr.mem) hgrows) hnames⟩

/-! ## New operands -/

/-- A list is that of the old operands if each of its entries is. -/
theorem eq_iff_of_forall₂ {P : α → Prop} {as bs : List α}
    (h : List.Forall₂ (fun a b => b = a ↔ P a) as bs) : bs = as ↔ ∀ a ∈ as, P a := by
  induction h with
  | nil => simp
  | cons hab _ ih => rw [List.cons.injEq, hab, ih, List.forall_mem_cons]

/-- A name of a result is the old operand exactly if the result is, and is a variable. -/
theorem NameFor.eq_iff (h : NameFor s.graph r.node v) (hg : src.Extends s.graph) (hj : j ∈ src)
    (hkind : (s.graph.node r.node).kind = (src.node j).kind) :
    v = j ↔ r.node = j ∧ (worthNaming (src.node j) = true → ∃ l, src.label? j = some l) := by
  rw [NameFor, worthNaming_eq_of_kind_eq hkind] at h
  split at h
  case isFalse hworth => simp [h, hworth]
  case isTrue hworth =>
    simp only [hworth, true_implies]
    constructor
    · rintro rfl
      -- the name is a variable, so the result is one too, and this is its own name
      obtain ⟨l, hl⟩ := h.label
      rw [hg.label?_eq hj] at hl
      obtain ⟨m, hm⟩ := (Node.isSome_label?_iff_of_kind_eq hkind).2 ⟨l, hl⟩
      exact ⟨(h.self m hm).symm, l, hl⟩
    · rintro ⟨rfl, l, hl⟩
      exact h.self l (hg.label?_eq_some hl)

/-- A rebuilt node is the old one exactly if the operands are. -/
theorem withOperands_node_eq_iff {new : List NodeId} {deps : DependencySet} (hi : i ∈ s.graph)
    (h : (withOperands i (s.graph.operands i) new deps).run s = .ok r s') :
    r.node = i ↔ new = s.graph.operands i := by
  constructor
  · intro hsame
    obtain ⟨hrebuilds, -⟩ := withOperands_eq_ok hi h
    have hops := (Node.withOperands?_eq_some hrebuilds.node_eq).1
    rw [← hops, hsame, hrebuilds.grows.node_eq i hi]
    rfl
  · rintro rfl
    rw [withOperands, if_pos rfl] at h
    obtain ⟨rfl, -⟩ := run_pure_eq_ok.1 h
    rfl

/-- A node rebuilt over other operands is recorded, and it has the old kind. -/
theorem recorded_of_withOperands {new : List NodeId} {deps : DependencySet} (hg : src.Extends s.graph)
    (hi : i ∈ src) (hl : src.label? i = none)
    (h : (withOperands i (s.graph.operands i) new deps).run s = .ok r s') :
    Recorded s' r ∧ (s'.graph.node r.node).kind = (src.node i).kind ∧ r.deps = deps := by
  obtain ⟨hrebuilds, hdeps⟩ := withOperands_eq_ok (hg.mem hi) h
  obtain ⟨-, hkind, -, hlabel⟩ := Node.withOperands?_eq_some hrebuilds.node_eq
  rw [hg.node_eq i hi] at hkind hlabel
  refine ⟨?_, hkind, hdeps⟩
  exact .of_label?_eq_none hrebuilds.mem (hlabel.trans hl)

/-! ## Staging -/

/-- What is asked of an action that stages nodes of the source. -/
def StagesTraced (settings : Settings) (src : Graph) (stage : NodeId → Action Staged) : Prop :=
  ∀ {s s' : State} {i : NodeId} {r : Staged}, Traced settings src s → i ∈ src →
    (stage i).run s = .ok r s' → Traced settings src s' ∧ s'.staged[i]? = some r

theorem stageEach_traced {stage : NodeId → Action Staged} {is : List NodeId} {rs : List Staged}
    {bound : NodeId} (hfills : ∀ j, FillsBelow (j + 1) (stage j))
    (hstage : StagesTraced settings src stage) (h : Traced settings src s) (his : ∀ j ∈ is, j ∈ src)
    (hlt : ∀ j ∈ is, j < bound) (hrun : (stageEach stage is).run s = .ok rs s') :
    Traced settings src s' ∧ rs = is.map s'.standIn ∧
      ∀ j ∈ is, s'.staged[j]? = some (s'.standIn j) := by
  induction is generalizing s rs with
  | nil =>
    obtain ⟨rfl, rfl⟩ := run_pure_eq_ok.1 hrun
    exact ⟨h, rfl, List.forall_mem_nil _⟩
  | cons j is ih =>
    obtain ⟨r, s₁, rest, hr, hrest, rfl⟩ := stageEach_cons_eq_ok.1 hrun
    obtain ⟨hj, his⟩ := List.forall_mem_cons.1 his
    obtain ⟨-, hlt⟩ := List.forall_mem_cons.1 hlt
    obtain ⟨h₁, hstaged⟩ := hstage h hj hr
    obtain ⟨h', rfl, hall⟩ := ih h₁ his hlt hrest
    have hkept := ((FillsBelow.stageEach hfills hlt).fills hrest).kept j r hstaged
    have hof := State.standIn_eq hkept
    exact ⟨h', by rw [List.map_cons, hof], List.forall_mem_cons.2 ⟨hof ▸ hkept, hall⟩⟩

/-- What replaces the operands of a node is these operands exactly if their results are, and if those
that are named are variables. -/
theorem replaced_eq_iff {results : NodeId → Staged} {d : DependencySet} {is new : List NodeId}
    (h : Traced settings src s) (his : ∀ j ∈ is, s.staged[j]? = some (results j))
    (hrun : (if isMixed s.graph (is.map results) d then nameEach ctx (is.map results)
      else pure ((is.map results).map Staged.node)).run s = .ok new s') :
    Traced settings src s' ∧ (new = is ↔ ∀ j ∈ is, (results j).node = j ∧
      ((∃ k ∈ is, worthNaming (src.node k) = true ∧ (results k).deps ≠ d) →
        worthNaming (src.node j) = true → ∃ l, src.label? j = some l)) := by
  have hresults : ∀ j ∈ is, j ∈ src ∧ Result settings src s j (results j) :=
    fun j hj => h.staged j _ (his j hj)
  have hmixed : isMixed s.graph (is.map results) d = true ↔
      ∃ k ∈ is, worthNaming (src.node k) = true ∧ (results k).deps ≠ d := by
    simp only [isMixed, List.any_map, List.any_eq_true, Function.comp_apply, Bool.and_eq_true,
      bne_iff_ne]
    refine exists_congr fun k => and_congr_right fun hk => ?_
    rw [worthNaming_eq_of_kind_eq (hresults k hk).2.kind_eq]
  simp only [← hmixed]
  split at hrun
  case isTrue hyes =>
    have hrecorded : ∀ r ∈ is.map results, Recorded s r := by
      intro r hr
      obtain ⟨j, hj, rfl⟩ := List.mem_map.1 hr
      exact (hresults j hj).2.toRecorded
    obtain ⟨h', hnames⟩ := nameEach_traced h hrecorded hrun
    have hgrows := ((Evolves.nameEach _).steps hrun).grows
    refine ⟨h', eq_iff_of_forall₂ ?_⟩
    rw [List.forall₂_map_left_iff] at hnames
    refine ((List.forall₂_and_left _ _).2 ⟨hresults, hnames⟩).imp fun j v hjv => ?_
    obtain ⟨⟨hj, hresult⟩, hname⟩ := hjv
    rw [hname.eq_iff h'.grows hj (by rw [hgrows.node_eq _ hresult.mem, hresult.kind_eq])]
    simp [hyes]
  case isFalse hno =>
    obtain ⟨rfl, rfl⟩ := run_pure_eq_ok.1 hrun
    refine ⟨h, eq_iff_of_forall₂ ?_⟩
    rw [List.map_map, List.forall₂_map_right_iff, List.forall₂_same]
    intro j hj
    simp [hno]

theorem stageOperator_traced {stage : NodeId → Action Staged}
    (hfills : ∀ j, FillsBelow (j + 1) (stage j)) (hstage : StagesTraced ctx.settings src stage)
    (h : Traced ctx.settings src s) (hi : i ∈ src) (hplain : isPlain (src.node i) = true)
    (hrun : (stageOperator ctx stage i (src.operands i)).run s = .ok r s') :
    Traced ctx.settings src s' ∧ Result ctx.settings src s' i r := by
  obtain ⟨rs, s₁, d, new, s₂, hrs, hdeps, hnew, hr⟩ := stageOperator_eq_ok.1 hrun
  have hops : ∀ j ∈ src.operands i, j ∈ src := fun j hj => Graph.mem_of_mem_operands hj hi
  obtain ⟨h₁, rfl, hall⟩ := stageEach_traced hfills hstage h hops
    (fun j hj => Graph.lt_of_mem_operands hj) hrs
  obtain ⟨h₂, hiff⟩ := replaced_eq_iff h₁ hall hnew
  rw [← h₂.grows.operands_eq hi] at hr
  have hsame := withOperands_node_eq_iff (h₂.grows.mem hi) hr
  obtain ⟨hrecorded, hkind, hrdeps⟩ :=
    recorded_of_withOperands h₂.grows hi (label?_of_isPlain hplain) hr
  have hsteps := (Evolves.withOperands i _ new d).steps hr
  have hmemos : s'.memos = s₂.memos := (Leaves.withOperands (fun _ _ => rfl) i _ new d).part_eq hr
  have hstaged : s'.staged = s₁.staged := by
    have hnaming : s₂.staged = s₁.staged := by
      split at hnew
      · exact (Leaves.nameEach _).part_eq hnew
      · exact congrArg State.staged (run_pure_eq_ok.1 hnew).2
    exact (congrArg Prod.fst hmemos).trans hnaming
  refine ⟨h₂.of_memos_eq hsteps hmemos, hrecorded, hkind, ?_⟩
  have hexplained : Explained ctx.settings src s' i ⟨r.node, d⟩ := by
    refine .operator s₁.standIn hplain (fun j hj => ?_) ?_ ?_
    · rw [hstaged]
      exact hall j hj
    · rw [List.map_map] at hdeps
      exact hdeps
    · rw [hsame, h₂.grows.operands_eq hi]
      exact hiff
  rwa [← hrdeps] at hexplained

theorem stageDerivative_traced {stage : NodeId → Action Staged} {a b : NodeId}
    (hstage : StagesTraced settings src stage) (h : Traced settings src s) (hi : i ∈ src)
    (hn : src.node i = .spatialDerivative a b)
    (hrun : (stageDerivative stage i a b).run s = .ok r s') :
    Traced settings src s' ∧ Result settings src s' i r := by
  obtain ⟨ra, s₁, hra, hr⟩ := stageDerivative_eq_ok.1 hrun
  have hops := Graph.operands_of_derivative hn
  have ha : a ∈ src := Graph.mem_of_mem_operands (by simp [hops]) hi
  obtain ⟨h₁, hstaged⟩ := hstage h ha hra
  rw [← hops, ← h₁.grows.operands_eq hi] at hr
  have hsame := withOperands_node_eq_iff (h₁.grows.mem hi) hr
  rw [h₁.grows.operands_eq hi, hops, List.cons.injEq, and_iff_left rfl] at hsame
  have hlabel : src.label? i = none := by rw [Graph.label?, hn]; rfl
  obtain ⟨hrecorded, hkind, hrdeps⟩ := recorded_of_withOperands h₁.grows hi hlabel hr
  have hmemos : s'.memos = s₁.memos := (Leaves.withOperands (fun _ _ => rfl) i _ _ _).part_eq hr
  refine ⟨h₁.of_memos_eq ((Evolves.withOperands i _ _ _).steps hr) hmemos, hrecorded, hkind, ?_⟩
  have hexplained : Explained settings src s' i ⟨r.node, ra.deps.withRuntime⟩ := by
    refine .derivative hn ?_ hsame
    rw [show s'.staged = s₁.staged from congrArg Prod.fst hmemos]
    exact hstaged
  rwa [← hrdeps] at hexplained

/-- The result for a layer comes from the results for the nodes entered from it. -/
theorem stageNode_traced {stage : NodeId → Action Staged} (hfills : ∀ j, FillsBelow (j + 1) (stage j))
    (hstage : StagesTraced ctx.settings src stage) (h : Traced ctx.settings src s) (hi : i ∈ src)
    (hrun : (stageNode ctx stage i).run s = .ok r s') :
    Traced ctx.settings src s' ∧ Result ctx.settings src s' i r := by
  have hnode := h.grows.node_eq i hi
  rcases stageNode_eq_ok.1 hrun with ⟨hdeps, hri, rfl⟩ | ⟨l, info, hl, hget, rfl, rfl⟩ |
    ⟨a, b, hab, hrun⟩ | ⟨hplain, hrun⟩
  · obtain ⟨n, d⟩ := r
    subst hri
    refine ⟨h, .of_label?_eq_none (h.grows.mem hi) (label?_of_leafDeps hdeps), by rw [hnode], ?_⟩
    exact .leaf (hnode ▸ hdeps)
  · obtain ⟨rfl, hlabel, -⟩ := h.reserved l info hget
    rw [h.grows.label?_eq hi] at hl
    refine ⟨h, ⟨Graph.mem_of_label? hlabel, fun m hm => ?_⟩, ?_, .labelled hl hget⟩
    · rw [hlabel, Option.some.injEq] at hm
      rw [← hm, hget]
    · obtain ⟨_, hi', -⟩ := Graph.operands_of_label? hl
      obtain ⟨_, hinfo, -⟩ := Graph.operands_of_label? hlabel
      rw [hi', hinfo]
      rfl
  · exact stageDerivative_traced hstage h hi (hnode ▸ hab) hrun
  · rw [h.grows.operands_eq hi] at hrun
    exact stageOperator_traced hfills hstage h hi (hnode ▸ hplain) hrun

/-- Staging keeps the invariant. -/
theorem stage_traced (ctx : Context) (src : Graph) (room : Nat) :
    StagesTraced ctx.settings src (stage ctx room) := by
  induction room using Nat.strongRecOn with
  | ind room ih =>
    intro s s' i r h hi hrun
    rcases stage_eq_ok hrun with ⟨hknown, rfl⟩ | ⟨less, s₁, hless, hnone, hr, rfl⟩
    · exact ⟨h, hknown⟩
    · obtain ⟨h₁, hresult⟩ := stageNode_traced (fun j => .stage ctx less j) (ih less hless) h hi hr
      -- the result for the node is not made while it is computed
      have hnone₁ : s₁.staged[i]? = none := by
        rw [((FillsBelow.stageNode (fun j => .stage ctx less j) i).fills hr).from_bound i
          (Nat.le_refl i), hnone]
      exact ⟨h₁.remember hi hnone₁ hresult, Std.HashMap.getElem?_insert_self⟩

end Staging

end FormStaging
