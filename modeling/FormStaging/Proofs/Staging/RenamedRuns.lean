import FormStaging.Proofs.Staging.Renaming

/-!
# Runs under other labels

`Simulates ρ f P x y s s'` says that action `y` does in state `s'` what action `x` does in state `s`. If
`x` gives `a`, then `a` satisfies `P`, `y` gives `f a`, and the states after the two runs match again. If
`x` fails, then `y` fails with the same cause, unless this cause names a variable. Nothing is said once
labels run out in one of the two runs, for the other one may have some left.

Simulations are put together as the actions are (`Simulates.bind`, `Simulates.get_bind`), so every
action of a run simulates itself on renamed nodes. Two places look at labels: whether a label is
registered, and whether two variables are structurally equal. Both questions have the same answer in
matching states.
-/

set_option autoImplicit false

namespace FormStaging

/-! ## Failures -/

/-- Whether a cause names a variable of the expression. -/
def Cause.namesVariable : Cause → Bool
  | .unprocessedVariable _ | .registrationCollision _ _ _ _ _ | .notVariable _ => true
  | _ => false

/-- The failure without the places that it points to. -/
def Failure.withoutPlaces : Failure → Failure
  | .error e => .error ⟨e.cause, []⟩
  | .misuse m => .misuse m
  | .labelOverflow => .labelOverflow

/-- Two failures are the same but for their places, or the first one names a variable. -/
def Failure.SameCause (e e' : Failure) : Prop :=
  e'.withoutPlaces = e.withoutPlaces ∨
    ∃ cause spans, e = .error ⟨cause, spans⟩ ∧ cause.namesVariable = true

namespace Staging

variable {α β : Type} {ρ : Renaming} {s s' : State} {i : NodeId} {l : Label}

/-- Results of two runs. The second result is the first one, renamed. -/
inductive RenamesResult (ρ : Renaming) (f : α → α) (P : α → Prop) :
    EStateM.Result Failure State α → EStateM.Result Failure State α → Prop where
  | ok {a : α} {s s' : State} (h : Matches ρ s s') (ha : P a) :
      RenamesResult ρ f P (.ok a s) (.ok (f a) s')
  | error {e e' : Failure} {s s' : State} (h : e.SameCause e') :
      RenamesResult ρ f P (.error e s) (.error e' s')
  | overflow {s : State} {x' : EStateM.Result Failure State α} :
      RenamesResult ρ f P (.error .labelOverflow s) x'
  | overflow' {x : EStateM.Result Failure State α} {s' : State} :
      RenamesResult ρ f P x (.error .labelOverflow s')

/-- Action `y` does in state `s'` what action `x` does in state `s`. -/
def Simulates (ρ : Renaming) (f : α → α) (P : α → Prop) (x y : Action α) (s s' : State) : Prop :=
  RenamesResult ρ f P (x.run s) (y.run s')

/-! ## New nodes -/

/-- A layer and its copy are added to matching graphs, or both have an operand that is not there. -/
theorem Matches.push?_cases {n : Node NodeId} (h : Matches ρ s s')
    (hops : ∀ j ∈ n.operands, j ∈ ρ.nodes)
    (hl : ∀ l, n.label? = some l → Avoided ρ s.labels s'.labels l) :
    (s.graph.push? n = none ∧ s'.graph.push? (ρ.layer n) = none) ∨
      ∃ g g', s.graph.push? n = some (g, s.graph.size) ∧
        s'.graph.push? (ρ.layer n) = some (g', ρ.node s.graph.size) ∧
        Matches ρ { s with graph := g } { s' with graph := g' } := by
  have hiff : (∀ j ∈ (ρ.layer n).operands, j ∈ s'.graph) ↔ ∀ j ∈ n.operands, j ∈ s.graph := by
    simp only [Renaming.layer, Node.operands_relabel, Node.operands_map, List.forall_mem_map]
    exact forall₂_congr fun j hj => h.copies.mem_iff j (hops j hj)
  by_cases hn : ∀ j ∈ n.operands, j ∈ s.graph
  · right
    refine ⟨_, _, Graph.push?_eq_some_iff.2 ⟨hn, rfl, rfl⟩,
      Graph.push?_eq_some_iff.2 ⟨hiff.2 hn, rfl, (h.next_node 0).2⟩, ?_⟩
    exact h.push hops hl hn (hiff.2 hn)
  · left
    constructor
    · rw [Graph.push?, dif_neg hn]
    · rw [Graph.push?, dif_neg fun hn' => hn (hiff.1 hn')]

/-- The variable to register is there in both states, renamed, or in none. -/
theorem Matches.candidate?_cases (h : Matches ρ s s') (hi : i ∈ ρ.nodes)
    (hl : Avoided ρ s.labels s'.labels l) :
    (candidate? s.graph i l = none ∧ candidate? s'.graph (ρ.node i) (ρ.label l) = none) ∨
      ∃ c g', candidate? s.graph i l = some c ∧
        candidate? s'.graph (ρ.node i) (ρ.label l) = some ⟨g', ρ.node c.node, ρ.label c.label⟩ ∧
        c.node ∈ ρ.nodes ∧ c.graph.label? c.node = some c.label ∧
        Matches ρ { s with graph := c.graph } { s' with graph := g' } := by
  rcases h.copies.label?_cases hi with ⟨hown, hown'⟩ | ⟨own, hown, hown'⟩
  · rw [candidate?, candidate?, hown, hown']
    have hpush := h.push?_cases (n := .labelled i l) (fun j hj => List.mem_singleton.1 hj ▸ hi)
      (fun m hm => Option.some.inj hm ▸ hl)
    rcases hpush with ⟨hnone, hnone'⟩ | ⟨g, g', hsome, hsome', hmatches⟩
    · left
      constructor
      · simp only [hnone, Option.map_none]
      · simp only [show s'.graph.push? (.labelled (ρ.node i) (ρ.label l)) = none from hnone',
          Option.map_none]
    · right
      refine ⟨⟨g, s.graph.size, l⟩, g', ?_, ?_, (h.next_node 0).1, ?_, hmatches⟩
      · simp only [hsome, Option.map_some]
      · simp only [show s'.graph.push? (.labelled (ρ.node i) (ρ.label l)) = _ from hsome',
          Option.map_some]
      · obtain ⟨hn, rfl, -⟩ := Graph.push?_eq_some_iff.1 hsome
        exact Graph.label?_of_labelled (Graph.node_push_size _ hn)
  · right
    refine ⟨⟨s.graph, i, own⟩, s'.graph, ?_, ?_, hi, hown, h⟩
    · rw [candidate?, hown]
    · rw [candidate?, hown']

namespace Simulates

variable {f : α → α} {P : α → Prop} {f' : β → β} {P' : β → Prop}

/-! ## Sequences -/

theorem pure {a : α} (h : Matches ρ s s') (ha : P a) :
    Simulates ρ f P (Pure.pure a) (Pure.pure (f a)) s s' :=
  .ok h ha

theorem throw {e e' : Failure} (h : e.SameCause e') :
    Simulates ρ f P (MonadExcept.throw e) (MonadExcept.throw e') s s' :=
  .error h

theorem bind {x y : Action α} {k k' : α → Action β} (hx : Simulates ρ f P x y s s')
    (hk : ∀ a t t', x.run s = .ok a t → Matches ρ t t' → P a →
      Simulates ρ f' P' (k a) (k' (f a)) t t') :
    Simulates ρ f' P' (x >>= k) (y >>= k') s s' := by
  simp only [Simulates, Bind.bind, EStateM.bind, EStateM.run] at hx hk ⊢
  generalize hrun : x s = result at hx hk
  generalize y s' = result' at hx
  cases hx with
  | ok h ha => exact hk _ _ _ rfl h ha
  | error h => exact .error h
  | overflow => exact .overflow
  | overflow' => exact .overflow'

/-- After a label was chosen that is the same in both states. -/
theorem bind_of_label {k k' : Label → Action β} (h : Matches ρ s s')
    (hl : Avoided ρ s.labels s'.labels l)
    (hk : ∀ l t t', Matches ρ t t' → Avoided ρ t.labels t'.labels l →
      Simulates ρ f' P' (k l) (k' (ρ.label l)) t t') :
    Simulates ρ f' P' (Pure.pure l >>= k) (Pure.pure (ρ.label l) >>= k') s s' :=
  hk l s s' h hl

/-- After a label was minted in both states. -/
theorem bind_of_mintLabel {k k' : Label → Action β} (h : Matches ρ s s')
    (hk : ∀ l t t', Matches ρ t t' → Avoided ρ t.labels t'.labels l →
      Simulates ρ f' P' (k l) (k' (ρ.label l)) t t') :
    Simulates ρ f' P' (mintLabel >>= k) (mintLabel >>= k') s s' := by
  simp only [Simulates, Bind.bind, EStateM.bind, EStateM.run, mintLabel]
  cases hmint : s.labels.mint? with
  | none => exact .overflow
  | some minted =>
    cases hmint' : s'.labels.mint? with
    | none => exact .overflow'
    | some minted' =>
      obtain ⟨l, labels⟩ := minted
      obtain ⟨l', labels'⟩ := minted'
      obtain ⟨ht, hl, rfl⟩ := h.mint hmint hmint'
      exact hk l _ _ ht hl

/-- What is done with the states is done in these states. -/
theorem get_bind {k k' : State → Action β} (h : Simulates ρ f' P' (k s) (k' s') s s') :
    Simulates ρ f' P' (get >>= k) (get >>= k') s s' :=
  h

/-! ## Failures and promises -/

section Contexts

variable {settings : Settings} {src src' : Option NodeId}

theorem failAt {j : NodeId} {cause cause' : Cause}
    (h : cause' = cause ∨ cause.namesVariable = true) :
    Simulates ρ f P (failAt ⟨settings, src⟩ i cause) (failAt ⟨settings, src'⟩ j cause') s s' := by
  apply RenamesResult.error
  rcases h with rfl | hnames
  · exact Or.inl rfl
  · exact Or.inr ⟨_, _, rfl, hnames⟩

theorem keepPromise (h : Matches ρ s s') (e : Except Misuse α) :
    Simulates ρ id (fun _ => True) (keepPromise e) (keepPromise e) s s' := by
  cases e with
  | ok a => exact .pure h trivial
  | error m => exact .throw (Or.inl rfl)

/-! ## Nodes -/

theorem addNode {n : Node NodeId} (h : Matches ρ s s') (hops : ∀ j ∈ n.operands, j ∈ ρ.nodes)
    (hl : ∀ l, n.label? = some l → Avoided ρ s.labels s'.labels l) :
    Simulates ρ ρ.node (· ∈ ρ.nodes) (addNode n) (addNode (ρ.layer n)) s s' := by
  rcases h.push?_cases hops hl with ⟨hnone, hnone'⟩ | ⟨g, g', hsome, hsome', hmatches⟩
  · simp only [Simulates, Staging.addNode, EStateM.run, hnone, hnone']
    exact .error (Or.inl rfl)
  · simp only [Simulates, Staging.addNode, EStateM.run, hsome, hsome']
    exact .ok hmatches (h.next_node 0).1

theorem rebuildNode {operands : List NodeId} (h : Matches ρ s s') (hi : i ∈ ρ.nodes)
    (hops : ∀ j ∈ operands, j ∈ ρ.nodes) :
    Simulates ρ ρ.node (· ∈ ρ.nodes) (rebuildNode i operands)
      (rebuildNode (ρ.node i) (operands.map ρ.node)) s s' := by
  have hcopy := Node.withOperands?_copy ρ.label ρ.node ρ.node (s.graph.node i) operands
  simp only [Simulates, Staging.rebuildNode, EStateM.run, Graph.rebuild, h.node_eq hi, Renaming.layer,
    hcopy, List.isEmpty_map]
  cases hrebuilt : (s.graph.node i).withOperands? operands with
  | none =>
    apply RenamesResult.error
    left
    simp [Failure.withoutPlaces]
  | some m =>
    simp only [Option.map_some]
    obtain ⟨hm, -, -, hlabel⟩ := Node.withOperands?_eq_some hrebuilt
    have hl : ∀ l, m.label? = some l → Avoided ρ s.labels s'.labels l := by
      intro l hl
      rw [hlabel] at hl
      exact h.avoided_of_label? hi hl
    have hpush := h.push?_cases (fun j hj => hops j (hm ▸ hj)) hl
    rw [Renaming.layer] at hpush
    by_cases hempty : operands.isEmpty = true
    · simp only [hempty, if_true]
      exact .ok h hi
    · simp only [hempty, Bool.false_eq_true, if_false]
      rcases hpush with ⟨hnone, hnone'⟩ | ⟨g, g', hsome, hsome', hmatches⟩
      · simp only [hnone, hnone']
        exact .error (Or.inl rfl)
      · simp only [hsome, hsome']
        exact .ok hmatches (h.next_node 0).1

theorem withOperands {old new : List NodeId} (h : Matches ρ s s') (hi : i ∈ ρ.nodes)
    (hold : ∀ j ∈ old, j ∈ ρ.nodes) (hnew : ∀ j ∈ new, j ∈ ρ.nodes) (deps : DependencySet) :
    Simulates ρ (Staged.rename ρ.node) (fun r => r.node ∈ ρ.nodes) (withOperands i old new deps)
      (withOperands (ρ.node i) (old.map ρ.node) (new.map ρ.node) deps) s s' := by
  have hsame : new.map ρ.node = old.map ρ.node ↔ new = old := by
    exact ⟨Renaming.eq_of_map_node_eq hnew hold, fun he => he ▸ rfl⟩
  by_cases heq : new = old
  · rw [Staging.withOperands, Staging.withOperands, if_pos heq, if_pos (hsame.2 heq)]
    exact .pure h hi
  · rw [Staging.withOperands, Staging.withOperands, if_neg heq, if_neg (hsame.not.2 heq)]
    exact (rebuildNode h hi hnew).bind fun j t t' _ ht hj => .pure ht hj

/-! ## Registering -/

/-- Two candidates are registered alike, if the second one is the first one renamed. -/
theorem registerCandidate {c : Candidate} {g' : Graph} (h : Matches ρ s s') (hi : c.node ∈ ρ.nodes)
    (hl : c.graph.label? c.node = some c.label)
    (hc : Matches ρ { s with graph := c.graph } { s' with graph := g' }) (deps : DependencySet) :
    Simulates ρ (RegisteredVariable.rename ρ.node ρ.label) (fun info => info.node ∈ ρ.nodes)
      (registerCandidate ⟨settings, src⟩ c deps)
      (registerCandidate ⟨settings, src'⟩ ⟨g', ρ.node c.node, ρ.label c.label⟩ deps) s s' := by
  -- the label is avoided already, and it is registered in both states or in none
  obtain ⟨hmem, hlt, hlt'⟩ := hc.avoided_of_label? hi hl
  rw [Simulates, run_registerCandidate_of_lt (s := s) hlt, run_registerCandidate_of_lt (s := s') hlt']
  rcases hc.get?_cases hmem with ⟨hnone, hnone'⟩ | ⟨info, hknown, hknown', hinfo, hlabel⟩
  · rw [run_settleCandidate_of_none (s := s) hnone, run_settleCandidate_of_none (s := s') hnone']
    exact .ok (f := RegisteredVariable.rename ρ.node ρ.label) (hc.register hi hl hnone) hi
  · have hequal : g'.equal (ρ.node info.node) (ρ.node c.node) = c.graph.equal info.node c.node :=
      hc.copies.equal_eq hc.labels_injOn hinfo hi (Graph.mem_of_label? hlabel)
        (Graph.mem_of_label? hl)
    rw [run_settleCandidate_of_some (s := s) hknown, run_settleCandidate_of_some (s := s') hknown']
    simp only [RegisteredVariable.rename, hequal]
    by_cases hsame : c.graph.equal info.node c.node = true ∧ info.deps = deps
    · simp only [if_pos hsame]
      exact .ok (f := RegisteredVariable.rename ρ.node ρ.label) h hinfo
    · simp only [if_neg hsame]
      cases settings.collisions with
      | warn => exact .ok (f := RegisteredVariable.rename ρ.node ρ.label) h hinfo
      | error => exact .error (Or.inr ⟨_, _, rfl, rfl⟩)

theorem register (h : Matches ρ s s') (hi : i ∈ ρ.nodes) (deps : DependencySet)
    (label : Option Label) (hlabel : ∀ l, label = some l → Avoided ρ s.labels s'.labels l) :
    Simulates ρ (RegisteredVariable.rename ρ.node ρ.label) (fun info => info.node ∈ ρ.nodes)
      (register ⟨settings, src⟩ i deps label)
      (register ⟨settings, src'⟩ (ρ.node i) deps (label.map ρ.label)) s s' := by
  apply get_bind
  -- whatever label is chosen, it is avoided from then on
  rcases h.copies.label?_cases hi with ⟨hown, hown'⟩ | ⟨own, hown, hown'⟩
  all_goals simp only [hown, hown']
  case' inl =>
    cases label
    case' some l => refine bind_of_label h (hlabel l rfl) ?_
    case' none => refine bind_of_mintLabel h ?_
  case' inr => refine bind_of_label h (h.avoided_of_label? hi hown) ?_
  all_goals
    intro l t t' ht hl
    apply get_bind
    rcases ht.candidate?_cases hi hl with ⟨hnone, hnone'⟩ | ⟨c, g', hsome, hsome', hc, hown, hmatches⟩
    · simp only [hnone, hnone']
      exact .throw (Or.inl rfl)
    · simp only [hsome, hsome']
      exact registerCandidate ht hc hown hmatches deps

theorem nameOperand {operand : Staged} (h : Matches ρ s s') (hi : operand.node ∈ ρ.nodes) :
    Simulates ρ ρ.node (· ∈ ρ.nodes) (nameOperand ⟨settings, src⟩ operand)
      (nameOperand ⟨settings, src'⟩ (operand.rename ρ.node)) s s' := by
  obtain ⟨hnamed, hmem⟩ := h.named operand.node hi
  apply get_bind
  simp only [Staged.rename, hnamed]
  cases hknown : s.named[operand.node]? with
  | some v => exact .pure h (hmem v hknown)
  | none =>
    have hregister : Simulates ρ (RegisteredVariable.rename ρ.node ρ.label)
        (fun info => info.node ∈ ρ.nodes)
        (Staging.register ⟨settings, src⟩ operand.node operand.deps none)
        (Staging.register ⟨settings, src'⟩ (ρ.node operand.node) operand.deps none) s s' :=
      register h hi operand.deps none fun l hl => by cases hl
    refine hregister.bind fun info t t' _ ht hinfo => ?_
    exact .pure (ht.rememberName hi hinfo) hinfo

theorem nameEach {operands : List Staged} (h : Matches ρ s s')
    (hi : ∀ r ∈ operands, r.node ∈ ρ.nodes) :
    Simulates ρ (List.map ρ.node) (fun vs => ∀ v ∈ vs, v ∈ ρ.nodes)
      (nameEach ⟨settings, src⟩ operands)
      (nameEach ⟨settings, src'⟩ (operands.map (Staged.rename ρ.node))) s s' := by
  induction operands generalizing s s' with
  | nil => exact .pure h (List.forall_mem_nil _)
  | cons operand rest ih =>
    obtain ⟨hoperand, hrest⟩ := List.forall_mem_cons.1 hi
    have hrec : ∀ v t t', Matches ρ t t' → v ∈ ρ.nodes →
        Simulates ρ (List.map ρ.node) (fun vs => ∀ v ∈ vs, v ∈ ρ.nodes)
          (Staging.nameEach ⟨settings, src⟩ rest >>= fun others => Pure.pure (v :: others))
          (Staging.nameEach ⟨settings, src'⟩ (rest.map (Staged.rename ρ.node)) >>= fun others =>
            Pure.pure (ρ.node v :: others)) t t' := by
      intro v t t' ht hv
      refine (ih ht hrest).bind fun others u u' _ hu hothers => ?_
      exact .pure hu (List.forall_mem_cons.2 ⟨hv, hothers⟩)
    have hworth : worthNaming (s'.graph.node (ρ.node operand.node)) =
        worthNaming (s.graph.node operand.node) := by
      rw [h.node_eq hoperand, Renaming.worthNaming_layer]
    apply get_bind
    simp only [Staged.rename, hworth]
    by_cases hw : worthNaming (s.graph.node operand.node) = true
    · simp only [if_pos hw]
      exact (nameOperand h hoperand).bind fun v t t' _ ht hv => hrec v t t' ht hv
    · simp only [if_neg hw]
      exact hrec operand.node s s' h hoperand

/-! ## Staging -/

theorem argumentDeps (h : Matches ρ s s') (i j : NodeId) (arg : Argument) :
    Simulates ρ id (fun _ => True) (argumentDeps ⟨settings, src⟩ i arg)
      (argumentDeps ⟨settings, src'⟩ j arg) s s' := by
  rw [Staging.argumentDeps, Staging.argumentDeps]
  cases settings.form.arguments.slot? arg with
  | some slot => exact keepPromise h _
  | none => exact failAt (Or.inl rfl)

theorem coefficientDeps (h : Matches ρ s s') (i j : NodeId) (coeff : Coefficient) :
    Simulates ρ id (fun _ => True) (coefficientDeps ⟨settings, src⟩ i coeff)
      (coefficientDeps ⟨settings, src'⟩ j coeff) s s' := by
  rw [Staging.coefficientDeps, Staging.coefficientDeps]
  cases settings.form.coefficients.slot? coeff with
  | some slot => exact keepPromise h _
  | none => exact failAt (Or.inl rfl)

theorem registered (h : Matches ρ s s') (hl : l ∈ ρ.labels) (i j : NodeId) :
    Simulates ρ (Staged.rename ρ.node) (fun r => r.node ∈ ρ.nodes)
      (registered ⟨settings, src⟩ i l) (registered ⟨settings, src'⟩ j (ρ.label l)) s s' := by
  apply get_bind
  rcases h.get?_cases hl with ⟨hnone, hnone'⟩ | ⟨info, hknown, hknown', hinfo, -⟩
  · simp only [hnone, hnone']
    exact failAt (Or.inr rfl)
  · simp only [hknown, hknown']
    exact .pure h hinfo

/-- Action `stage'` stages renamed nodes as `stage` stages the nodes. -/
def OfStage (ρ : Renaming) (stage stage' : NodeId → Action Staged) : Prop :=
  ∀ i ∈ ρ.nodes, ∀ s s', Matches ρ s s' →
    Simulates ρ (Staged.rename ρ.node) (fun r => r.node ∈ ρ.nodes) (stage i) (stage' (ρ.node i)) s s'

section Nodes

variable {stage stage' : NodeId → Action Staged}

theorem stageEach (hstage : OfStage ρ stage stage') {is : List NodeId} (h : Matches ρ s s')
    (his : ∀ i ∈ is, i ∈ ρ.nodes) :
    Simulates ρ (List.map (Staged.rename ρ.node)) (fun rs => ∀ r ∈ rs, r.node ∈ ρ.nodes)
      (stageEach stage is) (stageEach stage' (is.map ρ.node)) s s' := by
  induction is generalizing s s' with
  | nil => exact .pure h (List.forall_mem_nil _)
  | cons i is ih =>
    obtain ⟨hi, his⟩ := List.forall_mem_cons.1 his
    refine (hstage i hi s s' h).bind fun r t t' _ ht hr => ?_
    refine (ih ht his).bind fun rs u u' _ hu hrs => ?_
    exact .pure hu (List.forall_mem_cons.2 ⟨hr, hrs⟩)

theorem isMixed_eq {rs : List Staged} (h : Matches ρ s s') (hrs : ∀ r ∈ rs, r.node ∈ ρ.nodes)
    (deps : DependencySet) :
    isMixed s'.graph (rs.map (Staged.rename ρ.node)) deps = isMixed s.graph rs deps := by
  rw [isMixed, isMixed, List.any_map, Bool.eq_iff_iff, List.any_eq_true, List.any_eq_true]
  apply exists_congr
  intro r
  apply and_congr_right
  intro hr
  simp only [Function.comp_apply, Staged.rename, h.node_eq (hrs r hr), Renaming.worthNaming_layer]

theorem stageOperator (hstage : OfStage ρ stage stage') {operands : List NodeId}
    (h : Matches ρ s s') (hi : i ∈ ρ.nodes) (hops : ∀ j ∈ operands, j ∈ ρ.nodes) :
    Simulates ρ (Staged.rename ρ.node) (fun r => r.node ∈ ρ.nodes)
      (stageOperator ⟨settings, src⟩ stage i operands)
      (stageOperator ⟨settings, src'⟩ stage' (ρ.node i) (operands.map ρ.node)) s s' := by
  refine (stageEach hstage h hops).bind fun rs t t' _ ht hrs => ?_
  have hdeps : (rs.map (Staged.rename ρ.node)).map Staged.deps = rs.map Staged.deps := by
    simp [Staged.rename]
  have hnodes : (rs.map (Staged.rename ρ.node)).map Staged.node = (rs.map Staged.node).map ρ.node := by
    simp [Staged.rename]
  rw [hdeps]
  refine (keepPromise ht _).bind fun deps u u' _ hu _ => ?_
  apply get_bind
  simp only [id, isMixed_eq hu hrs deps, hnodes]
  by_cases hmixed : isMixed u.graph rs deps = true
  · simp only [if_pos hmixed]
    exact (nameEach hu hrs).bind fun new v v' _ hv hnew => withOperands hv hi hops hnew deps
  · simp only [if_neg hmixed]
    exact withOperands hu hi hops (List.forall_mem_map.2 hrs) deps

theorem stageDerivative (hstage : OfStage ρ stage stage') {a b : NodeId} (h : Matches ρ s s')
    (hi : i ∈ ρ.nodes) (ha : a ∈ ρ.nodes) (hb : b ∈ ρ.nodes) :
    Simulates ρ (Staged.rename ρ.node) (fun r => r.node ∈ ρ.nodes) (stageDerivative stage i a b)
      (stageDerivative stage' (ρ.node i) (ρ.node a) (ρ.node b)) s s' := by
  refine (hstage a ha s s' h).bind fun r t t' _ ht hr => ?_
  have hpair : ∀ c ∈ ρ.nodes, ∀ j ∈ [c, b], j ∈ ρ.nodes := by
    intro c hc
    simp [hc, hb]
  exact withOperands ht hi (hpair a ha) (hpair r.node hr) r.deps.withRuntime

/-- A layer is staged as its copy is, whatever kind of layer it is. -/
theorem stageNode (hstage : OfStage ρ stage stage') (h : Matches ρ s s') (hi : i ∈ ρ.nodes) :
    Simulates ρ (Staged.rename ρ.node) (fun r => r.node ∈ ρ.nodes)
      (stageNode ⟨settings, src⟩ stage i) (stageNode ⟨settings, src'⟩ stage' (ρ.node i)) s s' := by
  have hnode := h.node_eq hi
  have hops : ∀ j ∈ (s.graph.node i).operands, j ∈ ρ.nodes := h.copies.closed i hi
  apply get_bind
  cases hn : s.graph.node i
  all_goals
    rw [hn] at hnode hops
    simp only [hnode, Renaming.layer, Node.map, Node.relabel]
  case argument arg =>
    exact (argumentDeps h i (ρ.node i) arg).bind fun deps t t' _ ht _ => .pure ht hi
  case coefficient coeff =>
    exact (coefficientDeps h i (ρ.node i) coeff).bind fun deps t t' _ ht _ => .pure ht hi
  case facetNormal => exact .pure h hi
  case labelled c l =>
    exact registered h (h.avoided_of_label? hi (Graph.label?_of_labelled hn)).mem i (ρ.node i)
  case spatialDerivative a b =>
    exact stageDerivative hstage h hi (hops a (by simp [Node.operands]))
      (hops b (by simp [Node.operands]))
  all_goals exact stageOperator hstage h hi hops

theorem remember {compute compute' : Action Staged} (h : Matches ρ s s') (hi : i ∈ ρ.nodes)
    (hcompute : Simulates ρ (Staged.rename ρ.node) (fun r => r.node ∈ ρ.nodes) compute compute' s s') :
    Simulates ρ (Staged.rename ρ.node) (fun r => r.node ∈ ρ.nodes) (remember i compute)
      (remember (ρ.node i) compute') s s' := by
  obtain ⟨hstaged, hmem⟩ := h.staged i hi
  apply get_bind
  simp only [hstaged]
  cases hknown : s.staged[i]? with
  | some r => exact .pure h (hmem r hknown)
  | none => exact hcompute.bind fun r t t' _ ht hr => .pure (ht.remember hi hr) hr

end Nodes

/-- Staging does the same for renamed nodes. -/
theorem stage (room : Nat) :
    OfStage ρ (stage ⟨settings, src⟩ room) (Staging.stage ⟨settings, src'⟩ room) := by
  induction room with
  | zero => exact fun i hi s s' h => remember h hi (.throw (Or.inl rfl))
  | succ room ih => exact fun i hi s s' h => remember h hi (stageNode ih h hi)

/-! ## Variables and whole expressions -/

/-- The labels below a renamed node are avoided already. -/
theorem reserveLabels (h : Matches ρ s s') (hi : i ∈ ρ.nodes) :
    Simulates ρ id (fun _ => True) (reserveLabels i) (reserveLabels (ρ.node i)) s s' := by
  obtain ⟨hreserve, hreserve'⟩ := h.reserveAll?_eq hi
  rw [Simulates, run_reserveLabels hreserve, run_reserveLabels hreserve']
  exact .ok (f := id) h trivial

theorem stageVariable (h : Matches ρ s s') (hi : i ∈ ρ.nodes) :
    Simulates ρ (RegisteredVariable.rename ρ.node ρ.label) (fun info => info.node ∈ ρ.nodes)
      (stageVariable ⟨settings, src⟩ i) (stageVariable ⟨settings, src'⟩ (ρ.node i)) s s' := by
  apply get_bind
  simp only
  rcases h.copies.label?_cases hi with ⟨hl, hl'⟩ | ⟨l, hl, hl'⟩
  · simp only [Graph.contentAndLabel?_eq_none hl, Graph.contentAndLabel?_eq_none hl']
    exact failAt (Or.inr rfl)
  have hnode := h.node_eq hi
  obtain ⟨c, hn, hops⟩ := Graph.operands_of_label? hl
  have hc : c ∈ ρ.nodes := h.copies.closed i hi c (by simp [hops])
  rw [hn] at hnode
  simp only [hn, hnode, Renaming.layer, Node.map, Node.relabel, Node.contentAndLabel?]
  apply get_bind
  rcases h.get?_cases (h.avoided_of_label? hi hl).mem with
    ⟨hnone, hnone'⟩ | ⟨info, hknown, hknown', hinfo, -⟩
  · simp only [hnone, hnone']
    -- the label of the variable stays avoided while its content is staged
    have hregister : ∀ (v : NodeId) (deps : DependencySet) (t t' : State), Steps s t →
        Matches ρ t t' → v ∈ ρ.nodes →
        Simulates ρ (RegisteredVariable.rename ρ.node ρ.label) (fun info => info.node ∈ ρ.nodes)
          (Staging.register ⟨settings, src⟩ v deps (some l))
          (Staging.register ⟨settings, src'⟩ (ρ.node v) deps (some (ρ.label l))) t t' := by
      intro v deps t t' hsteps ht hv
      refine register ht hv deps (some l) fun m hm => ?_
      cases hm
      exact ht.avoided_of_label? hi (hsteps.grows.label?_eq_some hl)
    refine (reserveLabels h hi).bind fun _ s₀ s₀' hreserve h₀ _ => ?_
    refine (stage settings.maxDepth c hc s₀ s₀' h₀).bind fun r t t' hstage ht hr => ?_
    have hsteps : Steps s t := ((Evolves.reserveLabels i).steps hreserve).trans
      ((Evolves.stage settings.maxDepth c).steps hstage)
    by_cases hsame : r.node = c
    · have hsame' : (r.rename ρ.node).node = ρ.node c := congrArg ρ.node hsame
      simp only [if_pos hsame, if_pos hsame']
      exact hregister i r.deps t t' hsteps ht hi
    · have hsame' : (r.rename ρ.node).node ≠ ρ.node c := fun he => hsame (ρ.node_injOn hr hc he)
      simp only [if_neg hsame, if_neg hsame']
      have hadd : Simulates ρ ρ.node (· ∈ ρ.nodes) (Staging.addNode (.labelled r.node l))
          (Staging.addNode (.labelled (ρ.node r.node) (ρ.label l))) t t' := by
        refine addNode ht (fun j hj => List.mem_singleton.1 hj ▸ hr) fun m hm => ?_
        cases hm
        exact ht.avoided_of_label? hi (hsteps.grows.label?_eq_some hl)
      refine hadd.bind fun v u u' hrun hu hv => ?_
      exact hregister v r.deps u u' (hsteps.trans ((Evolves.addNode _).steps hrun)) hu hv
  · simp only [hknown, hknown']
    exact .pure h hinfo

theorem stageVariables {is : List NodeId} (h : Matches ρ s s') (his : ∀ i ∈ is, i ∈ ρ.nodes) :
    Simulates ρ id (fun _ => True) (stageVariables ⟨settings, src⟩ is)
      (stageVariables ⟨settings, src'⟩ (is.map ρ.node)) s s' := by
  induction is generalizing s s' with
  | nil => exact .pure h trivial
  | cons i is ih =>
    obtain ⟨hi, his⟩ := List.forall_mem_cons.1 his
    exact (stageVariable h hi).bind fun _ t t' _ ht _ => ih ht his

theorem wrap (h : Matches ρ s s') (hi : i ∈ ρ.nodes) :
    Simulates ρ ρ.node (· ∈ ρ.nodes) (wrap i) (wrap (ρ.node i)) s s' := by
  apply get_bind
  rcases h.copies.label?_cases hi with ⟨hown, hown'⟩ | ⟨own, hown, hown'⟩
  · simp only [hown, hown']
    refine bind_of_mintLabel h fun l t t' ht hl => ?_
    exact addNode (n := .labelled i l) ht (fun j hj => List.mem_singleton.1 hj ▸ hi)
      fun m hm => Option.some.inj hm ▸ hl
  · simp only [hown, hown']
    exact .pure h hi

/-- A whole expression is split as its copy is, once the labels of both are avoided. -/
theorem splitExpression (settings : Settings) (h : Matches ρ s s') (hi : i ∈ ρ.nodes) :
    Simulates ρ (RegisteredVariable.rename ρ.node ρ.label) (fun info => info.node ∈ ρ.nodes)
      (splitExpression settings i) (splitExpression settings (ρ.node i)) s s' := by
  refine (reserveLabels h hi).bind fun _ s₀ s₀' _ h₀ _ => ?_
  refine (wrap h₀ hi).bind fun root s₁ s₁' _ h₁ hroot => get_bind ?_
  rw [h₁.copies.variables_eq h₁.labels_injOn hroot]
  refine (stageVariables h₁ fun v hv => ?_).bind fun _ s₂ s₂' _ h₂ _ => ?_
  · exact h₁.copies.mem_of_mem_variables hroot hv
  · refine (stageVariable h₂ hroot).bind fun info s₃ s₃' _ h₃ hinfo => ?_
    exact .ok (f := RegisteredVariable.rename ρ.node ρ.label) (h₃.reorder hinfo) hinfo

end Contexts

end Simulates

end Staging

end FormStaging
