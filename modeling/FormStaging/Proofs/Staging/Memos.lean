import FormStaging.Proofs.Staging.Evolution
import FormStaging.Proofs.Staging.Failures

/-!
# The memos of a run that goes on

A run keeps its memos from call to call, also after a call that failed, and the nodes in them were
staged when fewer variables were registered. `Faithful` is what the memos hold nevertheless: the
result for a node is this node up to variables, provided that every variable met on the way agrees
with what is registered under its label (`Mirrors`), and the name of an operand is this operand up to
variables. A registration is never undone, so an entry stays right.

`Running bound old` adds what staging does to the labels. Below `bound` the registered variables stay
those of `old`, and from `bound` on every label that was minted is registered.

`Ensures Q E x s` says that action `x` ends in a state with `E` if it fails and with `Q` if it
succeeds. The main statement, `stage_ensures`, says that staging a node keeps the invariant whatever
comes of it, and that a result mirrors the node.
-/

set_option autoImplicit false

namespace FormStaging

/-! ## The nodes that staging meets -/

namespace Graph

variable {g g' : Graph} {code code' : CodeStructure} {i j : NodeId}

/-- Staging node `i` comes to node `j`, entering neither variables nor directions. -/
def Meets (g : Graph) : NodeId → NodeId → Prop :=
  Relation.ReflTransGen fun i j => j ∈ g.entered i

/-- The variables met from node `i` are, up to variables, what is registered under their labels. -/
def AgreesBelow (g : Graph) (code : CodeStructure) (i : NodeId) : Prop :=
  ∀ j l info, g.Meets i j → g.label? j = some l → code.get? l = some info →
    (g.unfold info.node).erase = (g.unfold j).erase

theorem Meets.reaches (h : g.Meets i j) : g.Reaches i j := by
  induction h with
  | refl => exact Reaches.refl g i
  | tail _ hm ih => exact ih.tail (entered_subset g _ hm)

/-- An old node meets what it met. -/
theorem Extends.meets_iff (h : g.Extends g') (hi : i ∈ g) : g'.Meets i j ↔ g.Meets i j := by
  constructor
  · intro hj
    induction hj with
    | refl => exact .refl
    | @tail k m _ hm ih =>
      rw [h.entered_eq ((Meets.reaches ih).mem hi)] at hm
      exact ih.tail hm
  · intro hj
    induction hj with
    | refl => exact .refl
    | @tail k m hk hm ih =>
      rw [← h.entered_eq ((Meets.reaches hk).mem hi)] at hm
      exact ih.tail hm

theorem AgreesBelow.entered (h : g.AgreesBelow code i) (hj : j ∈ g.entered i) :
    g.AgreesBelow code j :=
  fun k l info hk => h k l info (.head hj hk)

/-- What agrees with more variables, in a larger graph, agrees with fewer. -/
theorem AgreesBelow.of_grown (h : g'.AgreesBelow code' i) (hg : g.Extends g') (hi : i ∈ g)
    (hcode : ∀ l info, code.get? l = some info → info.node ∈ g ∧ code'.get? l = some info) :
    g.AgreesBelow code i := by
  intro j l info hj hl hget
  obtain ⟨hnode, hget'⟩ := hcode l info hget
  have hmem := hj.reaches.mem hi
  rw [← hg.unfold_eq _ hnode, ← hg.unfold_eq _ hmem]
  exact h j l info ((hg.meets_iff hi).2 hj) (hg.label?_eq_some hl) hget'

end Graph

namespace Staging

variable {α β : Type} {ctx : Context} {s s' : State} {i v : NodeId} {r : Staged}

/-- Functions with equal values at related elements map related lists to one list. -/
theorem map_eq_of_forall₂ {γ : Type} {f : α → γ} {g : β → γ} {as : List α} {bs : List β}
    (h : List.Forall₂ (fun a b => f a = g b) as bs) : as.map f = bs.map g := by
  rw [← List.forall₂_eq_eq_eq, List.forall₂_map_left_iff, List.forall₂_map_right_iff]
  exact h

theorem forall_mem_of_forall₂ {R : α → β → Prop} {p : β → Prop} {as : List α} {bs : List β}
    (h : List.Forall₂ R as bs) (hp : ∀ a b, R a b → p b) : ∀ b ∈ bs, p b := by
  induction h with
  | nil => exact List.forall_mem_nil _
  | cons hab _ ih => exact List.forall_mem_cons.2 ⟨hp _ _ hab, ih⟩

/-! ## Outcomes of actions -/

section Outcomes

variable {Q : α → State → Prop} {R : β → State → Prop} {E : State → Prop}

/-- An action gives a result and a state with `Q`, or it fails in a state with `E`. -/
def Ensures (Q : α → State → Prop) (E : State → Prop) (x : Action α) (s : State) : Prop :=
  match x.run s with
  | .ok a s' => Q a s'
  | .error _ s' => E s'

namespace Ensures

theorem of_run_eq_ok {x : Action α} {a : α} (h : x.run s = .ok a s') (hQ : Q a s') :
    Ensures Q E x s := by
  rw [Ensures, h]
  exact hQ

/-- Actions with the same run have the same outcomes. -/
theorem of_run_eq {x y : Action α} (h : x.run s = y.run s) (hy : Ensures Q E y s) :
    Ensures Q E x s := by
  rw [Ensures, h]
  exact hy

theorem of_ok {x : Action α} {a : α} (h : Ensures Q E x s) (hrun : x.run s = .ok a s') :
    Q a s' := by
  rw [Ensures, hrun] at h
  exact h

theorem of_error {x : Action α} {e : Failure} (h : Ensures Q E x s)
    (hrun : x.run s = .error e s') : E s' := by
  rw [Ensures, hrun] at h
  exact h

theorem mono {Q' : α → State → Prop} {E' : State → Prop} {x : Action α} (h : Ensures Q E x s)
    (hQ : ∀ a s', Q a s' → Q' a s') (hE : ∀ s', E s' → E' s') : Ensures Q' E' x s := by
  rw [Ensures] at h ⊢
  split at h
  · exact hQ _ _ h
  · exact hE _ h

/-- What holds of both outcomes holds of the state after the run. -/
theorem stateAfter {x : Action α} (h : Ensures (fun _ => E) E x s) : E (stateAfter x s) := by
  rw [FormStaging.Staging.stateAfter]
  cases hrun : x.run s with
  | ok a s' => exact h.of_ok hrun
  | error e s' => exact h.of_error hrun

theorem pure {a : α} (h : Q a s) : Ensures Q E (Pure.pure a) s := h

theorem throw {e : Failure} (h : E s) : Ensures Q E (MonadExcept.throw e : Action α) s := h

theorem failAt {cause : Cause} (h : E s) : Ensures Q E (failAt ctx i cause : Action α) s := h

theorem keepPromise {e : Except Misuse α} (hQ : ∀ a, e = .ok a → Q a s) (hE : E s) :
    Ensures Q E (keepPromise e) s := by
  cases e with
  | ok a => exact hQ a rfl
  | error => exact hE

/-- A sequence. The second action starts in a state that the first one has reached by steps. -/
theorem bind {x : Action α} {f : α → Action β} (hx : Ensures Q E x s) (hsteps : Evolves x)
    (hf : ∀ a s₁, Steps s s₁ → Q a s₁ → Ensures R E (f a) s₁) : Ensures R E (x >>= f) s := by
  have hrun := hsteps s
  simp only [Ensures, FormStaging.Staging.stateAfter, Bind.bind, EStateM.bind, EStateM.run]
    at hx hrun ⊢
  cases h : x s with
  | ok a s₁ =>
    rw [h] at hx hrun
    exact hf a s₁ hrun hx
  | error e s₁ =>
    rw [h] at hx
    exact hx

theorem get_bind {f : State → Action β} (hf : Ensures R E (f s) s) :
    Ensures R E (get >>= f) s := hf

end Ensures

end Outcomes

/-! ## The invariant -/

/-- The result `r` is node `i` up to variables, if the variables met on the way agree with what is
registered under their labels. If `r` is a variable, it is what is registered under its label. -/
structure Mirrors (g : Graph) (code : CodeStructure) (i : NodeId) (r : Staged) : Prop where
  mem : r.node ∈ g
  erase_eq : g.AgreesBelow code i → (g.unfold r.node).erase = (g.unfold i).erase
  registered : ∀ l, g.label? r.node = some l → code.get? l = some ⟨l, r.node, r.deps⟩

/-- Node `v` is node `n` up to variables. -/
structure Resembles (g : Graph) (n v : NodeId) : Prop where
  mem : v ∈ g
  erase_eq : (g.unfold v).erase = (g.unfold n).erase

/-- What is true of every state of a run, after failed calls too. -/
structure Faithful (s : State) : Prop where
  reserved : Reserved s
  staged : ∀ (i : NodeId) (r : Staged), s.staged[i]? = some r →
    i ∈ s.graph ∧ Mirrors s.graph s.code i r
  named : ∀ n v : NodeId, s.named[n]? = some v → n ∈ s.graph ∧ Resembles s.graph n v

/-- What is true while an expression is staged: below `bound` the registered variables are those of
`old`, and from `bound` on all labels are registered that were minted. -/
structure Running (bound : Nat) (old : Label → Option RegisteredVariable) (s : State) : Prop
    extends Faithful s where
  bound_le : bound ≤ s.labels.next.val
  below : ∀ l, l.value < bound → s.code.get? l = old l
  above : ∀ l, bound ≤ l.value → l.value < s.labels.next → ∃ info, s.code.get? l = some info

section Invariant

variable {bound : Nat} {old : Label → Option RegisteredVariable} {n : NodeId}

theorem Resembles.refl {g : Graph} (hn : n ∈ g) : Resembles g n n := ⟨hn, rfl⟩

theorem Resembles.mono {g g' : Graph} (h : Resembles g n v) (hn : n ∈ g) (hg : g.Extends g') :
    Resembles g' n v := by
  refine ⟨hg.mem h.mem, ?_⟩
  rw [hg.unfold_eq v h.mem, hg.unfold_eq n hn]
  exact h.erase_eq

/-- A result stays right, whatever is added and registered. -/
theorem Mirrors.mono (h : Mirrors s.graph s.code i r) (hs : Reserved s) (hi : i ∈ s.graph)
    (hsteps : Steps s s') : Mirrors s'.graph s'.code i r := by
  have hg := hsteps.grows
  refine ⟨hg.mem h.mem, fun hagree => ?_, fun l hl => ?_⟩
  · rw [hg.unfold_eq _ h.mem, hg.unfold_eq _ hi]
    refine h.erase_eq (hagree.of_grown hg hi fun l info hget => ?_)
    exact ⟨Graph.mem_of_label? (hs l info hget).2.1, hsteps.get?_eq_some hget⟩
  · rw [hg.label?_eq h.mem] at hl
    exact hsteps.get?_eq_some (h.registered l hl)

/-- A node mirrors itself unless it is a variable. -/
theorem Mirrors.of_label?_eq_none {g : Graph} {code : CodeStructure} {deps : DependencySet}
    (hi : i ∈ g) (hl : g.label? i = none) : Mirrors g code i ⟨i, deps⟩ := by
  refine ⟨hi, fun _ => rfl, fun l hl' => ?_⟩
  rw [hl] at hl'
  cases hl'

namespace Faithful

theorem fresh (g : Graph) : Faithful { graph := g } := by
  refine ⟨.fresh g, fun i r hr => ?_, fun n v hv => ?_⟩
  · simp at hr
  · simp at hv

/-- Steps that leave the memos alone keep the invariant. -/
theorem of_steps (h : Faithful s) (hsteps : Steps s s') (hmemos : s'.memos = s.memos) :
    Faithful s' := by
  obtain ⟨hstaged, hnamed⟩ := Prod.mk.inj hmemos
  refine ⟨hsteps.reserved h.reserved, fun i r hr => ?_, fun n v hv => ?_⟩
  · rw [hstaged] at hr
    obtain ⟨hi, hmirrors⟩ := h.staged i r hr
    exact ⟨hsteps.grows.mem hi, hmirrors.mono h.reserved hi hsteps⟩
  · rw [hnamed] at hv
    obtain ⟨hn, hresembles⟩ := h.named n v hv
    exact ⟨hsteps.grows.mem hn, hresembles.mono hn hsteps.grows⟩

end Faithful

namespace Running

/-- Nothing was minted yet. -/
theorem start (h : Faithful s) : Running s.labels.next.val s.code.get? s :=
  { h with
    bound_le := Nat.le_refl _
    below := fun _ _ => rfl
    above := fun _ hle hlt => absurd hlt (Nat.not_lt_of_le hle) }

/-- New nodes keep the invariant. -/
theorem grow {g : Graph} (h : Running bound old s) (hg : s.graph.Extends g) :
    Running bound old { s with graph := g } :=
  { h.toFaithful.of_steps (.single (.grow hg)) rfl with
    bound_le := h.bound_le
    below := h.below
    above := h.above }

/-- A result may be remembered. -/
theorem remember (h : Running bound old s) (hi : i ∈ s.graph) (hr : Mirrors s.graph s.code i r) :
    Running bound old { s with staged := s.staged.insert i r } := by
  refine ⟨⟨h.reserved, fun j r' hr' => ?_, h.named⟩, h.bound_le, h.below, h.above⟩
  rcases eq_or_of_getElem?_insert hr' with ⟨rfl, rfl⟩ | hr'
  · exact ⟨hi, hr⟩
  · exact h.staged j r' hr'

/-- A name may be remembered. -/
theorem rememberName (h : Running bound old s) (hn : n ∈ s.graph) (hv : Resembles s.graph n v) :
    Running bound old { s with named := s.named.insert n v } := by
  refine ⟨⟨h.reserved, h.staged, fun m w hw => ?_⟩, h.bound_le, h.below, h.above⟩
  rcases eq_or_of_getElem?_insert hw with ⟨rfl, rfl⟩ | hw
  · exact ⟨hn, hv⟩
  · exact h.named m w hw

/-- The next label may be minted, if it is registered at once. -/
theorem register {g : Graph} {labels : LabelSupply} (info : RegisteredVariable)
    (h : Running bound old s) (hg : s.graph.Extends g)
    (hmint : s.labels.mint? = some (info.label, labels))
    (hnode : g.label? info.node = some info.label) :
    Running bound old
      { s with graph := g, code := s.code.insert info, labels := labels } := by
  obtain ⟨hl, hnext⟩ := LabelSupply.mint?_eq_some_iff.1 hmint
  have hle := LabelSupply.next_le_of_mint? hmint
  have hreserve : Step s { s with labels := labels } := .reserve hle
  have hregister := @Step.register { s with graph := g, labels := labels } info
    (by rw [hl]; exact h.reserved.get?_next) hnode (LabelSupply.lt_next_of_mint? hmint)
  have hsteps := ((Relation.ReflTransGen.single hreserve).tail (.grow hg)).tail hregister
  refine ⟨h.toFaithful.of_steps hsteps rfl, Nat.le_trans h.bound_le hle, fun l hlt => ?_,
    fun l hl' hlt => ?_⟩
  · rw [CodeStructure.get?_insert, if_neg]
    · exact h.below l hlt
    · rintro rfl
      rw [hl] at hlt
      exact absurd hlt (Nat.not_lt_of_le h.bound_le)
  · rw [CodeStructure.get?_insert]
    split
    case isTrue => exact ⟨info, rfl⟩
    case isFalse hne =>
      have hlt' : l.value.val < s.labels.next.val + 1 := hnext ▸ hlt
      refine h.above l hl' (Nat.lt_of_le_of_ne (Nat.le_of_lt_succ hlt') fun heq => hne ?_)
      rw [hl, ← Fin.ext heq]

end Running

end Invariant

/-! ## Naming operands -/

section Naming

variable {bound : Nat} {old : Label → Option RegisteredVariable} {operand : Staged}
  {E : State → Prop}

/-- A new variable around an operand is the operand up to variables. Without a label to mint, nothing
changes. -/
theorem register_fresh_ensures {deps : DependencySet} (h : Running bound old s) (hi : i ∈ s.graph)
    (hl : s.graph.label? i = none) (hE : E s) :
    Ensures (fun info s' => Running bound old s' ∧ i ∈ s'.graph ∧ Resembles s'.graph i info.node) E
      (register ctx i deps none) s := by
  cases hmint : s.labels.mint? with
  | none =>
    rw [Ensures]
    split
    case h_1 info s' hrun =>
      obtain ⟨labels, hsome, -⟩ := register_fresh_eq_ok hl h.reserved.get?_next hrun
      rw [hmint] at hsome
      cases hsome
    case h_2 e s' hrun =>
      obtain ⟨-, rfl⟩ := register_fresh_eq_error hl hmint hrun
      exact hE
  | some minted =>
    obtain ⟨m, labels⟩ := minted
    obtain ⟨rfl, -⟩ := LabelSupply.mint?_eq_some_iff.1 hmint
    have hn : ∀ j ∈ (Node.labelled i ⟨s.labels.next⟩).operands, j ∈ s.graph := by
      intro j hj
      rw [List.mem_singleton.1 hj]
      exact hi
    have hg := Graph.Extends.push s.graph (.labelled i ⟨s.labels.next⟩) hn
    have hnode := Graph.node_push_size (g := s.graph) (.labelled i ⟨s.labels.next⟩) hn
    have hlabel := Graph.label?_of_labelled hnode
    refine .of_run_eq_ok (run_register_fresh hl h.reserved.get?_next hmint hn) ⟨?_, hg.mem hi, ?_⟩
    · exact h.register ⟨⟨s.labels.next⟩, s.graph.size, deps⟩ hg hmint hlabel
    · exact ⟨Graph.mem_of_label? hlabel, Graph.erase_unfold_of_labelled hnode⟩

/-- An operand gets a name that is this operand up to variables. A variable is registered already,
and a minted label is new. Without a label to mint, nothing changes. -/
theorem nameOperand_ensures (h : Running bound old s)
    (hr : Mirrors s.graph s.code i operand) (hE : E s) :
    Ensures (fun v s' => Running bound old s' ∧ Resembles s'.graph operand.node v) E
      (nameOperand ctx operand) s := by
  rw [nameOperand]
  apply Ensures.get_bind
  cases hknown : s.named[operand.node]? with
  | some known => exact .pure ⟨h, (h.named _ _ hknown).2⟩
  | none =>
    cases hl : s.graph.label? operand.node with
    | some l =>
      have hget := hr.registered l hl
      have hrun : (register ctx operand.node operand.deps none).run s =
          .ok ⟨l, operand.node, operand.deps⟩ s :=
        run_register_known hl (h.reserved l _ hget).2.2 hget
      refine Ensures.bind (Q := fun info s₁ => s₁ = s ∧ info.node = operand.node)
        (.of_run_eq_ok hrun ⟨rfl, rfl⟩) (.register _ _ _) ?_
      rintro info s₁ - ⟨rfl, hnode⟩
      rw [hnode]
      have hself : Resembles s₁.graph operand.node operand.node := .refl hr.mem
      exact .of_run_eq_ok rfl ⟨h.rememberName hr.mem hself, hself⟩
    | none =>
      refine (register_fresh_ensures h hr.mem hl hE).bind (.register _ _ _) ?_
      rintro info s₁ - ⟨h₁, hmem₁, hname⟩
      exact .of_run_eq_ok rfl ⟨h₁.rememberName hmem₁ hname, hname⟩

/-- Names of operands are these operands up to variables. -/
theorem nameEach_ensures {rs : List Staged} (h : Running bound old s)
    (hrs : ∀ r ∈ rs, ∃ i ∈ s.graph, Mirrors s.graph s.code i r) :
    Ensures (fun new s' => Running bound old s' ∧
        List.Forall₂ (fun r v => Resembles s'.graph r.node v) rs new) (Running bound old)
      (nameEach ctx rs) s := by
  induction rs generalizing s with
  | nil => exact .pure ⟨h, .nil⟩
  | cons operand rest ih =>
    obtain ⟨i, hi, hr⟩ := hrs operand List.mem_cons_self
    -- the others are named in a state that has grown
    have hrest : ∀ v s₁, Steps s s₁ → Running bound old s₁ ∧ Resembles s₁.graph operand.node v →
        Ensures (fun new s' => Running bound old s' ∧
            List.Forall₂ (fun r v => Resembles s'.graph r.node v) (operand :: rest) new)
          (Running bound old) (nameEach ctx rest >>= fun others => pure (v :: others)) s₁ := by
      rintro v s₁ hsteps ⟨h₁, hv⟩
      refine (ih h₁ fun r hmem => ?_).bind (.nameEach rest) ?_
      · obtain ⟨j, hj, hmirrors⟩ := hrs r (List.mem_cons_of_mem _ hmem)
        exact ⟨j, hsteps.grows.mem hj, hmirrors.mono h.reserved hj hsteps⟩
      · rintro others s₂ hsteps₂ ⟨h₂, hothers⟩
        exact .pure ⟨h₂, .cons (hv.mono (hsteps.grows.mem hr.mem) hsteps₂.grows) hothers⟩
    rw [nameEach]
    apply Ensures.get_bind
    split
    · exact (nameOperand_ensures h hr h).bind (.nameOperand operand) hrest
    · exact Ensures.bind (.pure ⟨h, .refl hr.mem⟩) (.pure _) hrest

end Naming

/-! ## Staging -/

section Staging

variable {bound : Nat} {old : Label → Option RegisteredVariable} {stage : NodeId → Action Staged}
  {E : State → Prop}

/-- What is asked of an action that stages nodes: it keeps the invariant, and its results mirror the
nodes. -/
def StagesFaithfully (bound : Nat) (old : Label → Option RegisteredVariable)
    (stage : NodeId → Action Staged) : Prop :=
  ∀ {s : State} {i : NodeId}, Running bound old s → i ∈ s.graph →
    Ensures (fun r s' => Running bound old s' ∧ Mirrors s'.graph s'.code i r) (Running bound old)
      (stage i) s

theorem stageEach_ensures {is : List NodeId} (hevolves : ∀ i, Evolves (stage i))
    (hstage : StagesFaithfully bound old stage) (h : Running bound old s)
    (his : ∀ i ∈ is, i ∈ s.graph) :
    Ensures (fun rs s' => Running bound old s' ∧
        List.Forall₂ (fun i r => Mirrors s'.graph s'.code i r) is rs)
      (Running bound old) (stageEach stage is) s := by
  induction is generalizing s with
  | nil => exact .pure ⟨h, .nil⟩
  | cons i is ih =>
    have hi := his i List.mem_cons_self
    refine (hstage h hi).bind (hevolves i) ?_
    rintro r s₁ hsteps₁ ⟨h₁, hr⟩
    have his₁ : ∀ j ∈ is, j ∈ s₁.graph :=
      fun j hj => hsteps₁.grows.mem (his j (List.mem_cons_of_mem i hj))
    refine (ih h₁ his₁).bind (.stageEach hevolves is) ?_
    rintro rest s₂ hsteps₂ ⟨h₂, hrest⟩
    exact .pure ⟨h₂, .cons (hr.mono h₁.reserved (hsteps₁.grows.mem hi) hsteps₂) hrest⟩

/-- A node over new operands that are the old ones up to variables is the old node up to variables.
It can always be built. -/
theorem withOperands_ensures {old' new : List NodeId} {deps : DependencySet}
    (h : Running bound old s) (hi : i ∈ s.graph) (hl : s.graph.label? i = none)
    (hops : s.graph.operands i = old') (hnew : ∀ j ∈ new, j ∈ s.graph)
    (hlength : old'.length = new.length)
    (heq : s.graph.AgreesBelow s.code i →
      new.map (fun j => (s.graph.unfold j).erase) = old'.map fun j => (s.graph.unfold j).erase) :
    Ensures (fun r s' => Running bound old s' ∧ Mirrors s'.graph s'.code i r) E
      (withOperands i old' new deps) s := by
  subst hops
  cases hrun : (withOperands i (s.graph.operands i) new deps).run s with
  | error e s' =>
    exact absurd hrun (withOperands_failsOnly (E := fun _ => False) rfl hlength hnew e s')
  | ok r s' =>
    obtain ⟨hrebuilds, -⟩ := withOperands_eq_ok hi hrun
    have hg := hrebuilds.grows
    have hcode : s'.code = s.code := by rw [hrebuilds.state_eq]
    have hl' : s'.graph.label? r.node = none := by
      rw [Graph.label?, (Node.withOperands?_eq_some hrebuilds.node_eq).2.2.2]
      exact hl
    refine .of_run_eq_ok hrun ⟨?_, hrebuilds.mem, fun hagree => ?_, fun l hl'' => ?_⟩
    · rw [hrebuilds.state_eq]
      exact h.grow hg
    · -- the old and the new operands have the terms that they had before
      have hagree' : s.graph.AgreesBelow s.code i := by
        refine hagree.of_grown hg hi fun l info hget => ⟨?_, hcode ▸ hget⟩
        exact Graph.mem_of_label? (h.reserved l info hget).2.1
      have hkept : ∀ is : List NodeId, (∀ j ∈ is, j ∈ s.graph) →
          is.map (fun j => (s'.graph.unfold j).erase) =
            is.map fun j => (s.graph.unfold j).erase :=
        fun is his => List.map_congr_left fun j hj => by rw [hg.unfold_eq j (his j hj)]
      have hmap : new.map (fun j => (s'.graph.unfold j).erase) =
          (s.graph.operands i).map fun j => (s'.graph.unfold j).erase := by
        rw [hkept new hnew, heq hagree',
          hkept _ fun j hj => Graph.mem_of_mem_operands hj hi]
      rw [Graph.erase_unfold_of_label? hl', Graph.erase_unfold_of_label? (by rw [hg.label?_eq hi, hl]),
        hg.node_eq i hi]
      exact congrArg Term.mk (Node.map_eq_of_withOperands? hrebuilds.node_eq hmap)
    · rw [hl'] at hl''
      cases hl''

/-- Every result for an operand mirrors a node. -/
theorem exists_mirrored {rs : List Staged} (hi : i ∈ s.graph)
    (hrs : List.Forall₂ (fun j r => Mirrors s.graph s.code j r) (s.graph.operands i) rs) :
    ∀ r ∈ rs, ∃ j ∈ s.graph, Mirrors s.graph s.code j r := by
  have hops : ∀ j ∈ s.graph.operands i, j ∈ s.graph := fun j hj => Graph.mem_of_mem_operands hj hi
  exact forall_mem_of_forall₂ ((List.forall₂_and_left _ _).2 ⟨hops, hrs⟩) fun r j hjr => ⟨r, hjr⟩

/-- A plain node is rebuilt over results or names of its operands. -/
theorem nameAndRebuild_ensures {rs : List Staged} {deps : DependencySet} (h : Running bound old s)
    (hi : i ∈ s.graph) (hplain : isPlain (s.graph.node i) = true)
    (hrs : List.Forall₂ (fun j r => Mirrors s.graph s.code j r) (s.graph.operands i) rs) :
    Ensures (fun r s' => Running bound old s' ∧ Mirrors s'.graph s'.code i r) (Running bound old)
      (nameAndRebuild ctx i (s.graph.operands i) rs deps) s := by
  have hops : ∀ j ∈ s.graph.operands i, j ∈ s.graph := fun j hj => Graph.mem_of_mem_operands hj hi
  have hpairs := (List.forall₂_and_left _ _).2 ⟨hops, hrs⟩
  have hof := exists_mirrored hi hrs
  -- the new operands are the old ones up to variables, named or not
  have hrebuild : ∀ new s₁, Steps s s₁ → Running bound old s₁ ∧
      List.Forall₂ (fun r v => Resembles s₁.graph r.node v) rs new →
      Ensures (fun r s' => Running bound old s' ∧ Mirrors s'.graph s'.code i r)
        (Running bound old) (withOperands i (s.graph.operands i) new deps) s₁ := by
    rintro new s₁ hsteps ⟨h₁, hnew⟩
    have hg := hsteps.grows
    have hlabel : s₁.graph.label? i = none := by
      rw [hg.label?_eq hi]
      exact label?_of_isPlain hplain
    have hentered : s₁.graph.entered i = s.graph.operands i := by
      rw [hg.entered_eq hi, Graph.entered_of_isPlain hplain]
    have hmirrors : List.Forall₂ (fun j r => Mirrors s₁.graph s₁.code j r) (s.graph.operands i) rs :=
      hpairs.imp fun j r hjr => hjr.2.mono h.reserved hjr.1 hsteps
    refine withOperands_ensures h₁ (hg.mem hi) hlabel (hg.operands_eq hi) ?_ ?_ fun hagree => ?_
    · exact forall_mem_of_forall₂ hnew fun r v hv => hv.mem
    · exact hmirrors.length_eq.trans hnew.length_eq
    · have hagrees : ∀ j ∈ s.graph.operands i, s₁.graph.AgreesBelow s₁.code j :=
        fun j hj => hagree.entered (hentered ▸ hj)
      have hnames := map_eq_of_forall₂ (hnew.imp fun r v hv => hv.erase_eq.symm)
      have hagreeing := (List.forall₂_and_left _ _).2 ⟨hagrees, hmirrors⟩
      have hresults := map_eq_of_forall₂ (hagreeing.imp fun j r hjr => (hjr.2.erase_eq hjr.1).symm)
      exact (hresults.trans hnames).symm
  rw [nameAndRebuild]
  apply Ensures.get_bind
  split
  · exact (nameEach_ensures h hof).bind (.nameEach rs) hrebuild
  · refine Ensures.bind (.pure ⟨h, ?_⟩) (.pure _) hrebuild
    rw [List.forall₂_map_right_iff, List.forall₂_same]
    intro r hr
    obtain ⟨j, -, hmirrors⟩ := hof r hr
    exact .refl hmirrors.mem

/-- Only the naming of the operands can fail. -/
theorem nameAndRebuild_eq_error {rs : List Staged} {deps : DependencySet} {e : Failure}
    (h : Running bound old s) (hi : i ∈ s.graph)
    (hrs : List.Forall₂ (fun j r => Mirrors s.graph s.code j r) (s.graph.operands i) rs) :
    (nameAndRebuild ctx i (s.graph.operands i) rs deps).run s = .error e s' ↔
      isMixed s.graph rs deps = true ∧ (nameEach ctx rs).run s = .error e s' := by
  have hof := exists_mirrored hi hrs
  -- a node can be rebuilt over as many operands as it has
  have hnever : ∀ new s₁ s₂, Steps s s₁ →
      List.Forall₂ (fun r v => Resembles s₁.graph r.node v) rs new →
      (withOperands i (s.graph.operands i) new deps).run s₁ ≠ .error e s₂ := by
    intro new s₁ s₂ hsteps hnew
    refine withOperands_failsOnly (E := fun _ => False) (hsteps.grows.operands_eq hi) ?_ ?_ e s₂
    · exact hrs.length_eq.trans hnew.length_eq
    · exact forall_mem_of_forall₂ hnew fun r v hv => hv.mem
  rw [nameAndRebuild, run_get_bind]
  cases hmixed : isMixed s.graph rs deps with
  | true =>
    simp only [if_true, true_and]
    rw [run_bind_eq_error]
    refine ⟨fun hrun => hrun.resolve_right ?_, Or.inl⟩
    rintro ⟨new, s₁, hnames, hrebuild⟩
    have hnew := ((nameEach_ensures h hof).of_ok hnames).2
    exact hnever new s₁ s' ((Evolves.nameEach rs).steps hnames) hnew hrebuild
  | false =>
    simp only [Bool.false_eq_true, if_false, false_and, iff_false]
    refine hnever _ s s' .refl ?_
    rw [List.forall₂_map_right_iff, List.forall₂_same]
    intro r hr
    obtain ⟨j, -, hmirrors⟩ := hof r hr
    exact .refl hmirrors.mem

/-- A derivative is rebuilt over the result for its operand. -/
theorem finishDerivative_ensures {a b : NodeId} {deps : DependencySet} (h : Running bound old s)
    (hi : i ∈ s.graph) (hn : s.graph.node i = .spatialDerivative a b)
    (hr : Mirrors s.graph s.code a r) :
    Ensures (fun r s' => Running bound old s' ∧ Mirrors s'.graph s'.code i r) E
      (withOperands i [a, b] [r.node, b] deps) s := by
  have hops := Graph.operands_of_derivative hn
  have hentered : a ∈ s.graph.entered i := by simp [Graph.entered_of_derivative hn]
  refine withOperands_ensures h hi ?_ hops (fun j hj => ?_) rfl fun hagree => ?_
  · rw [Graph.label?, hn]
    rfl
  · rw [List.mem_cons, List.mem_singleton] at hj
    rcases hj with rfl | rfl
    · exact hr.mem
    · exact Graph.mem_of_mem_operands (by simp [hops]) hi
  · simp only [List.map_cons, hr.erase_eq (hagree.entered hentered)]

theorem argumentDeps_ensures {arg : Argument} (h : E s) :
    Ensures (fun _ s' => s' = s) E (argumentDeps ctx i arg) s := by
  rw [argumentDeps]
  split
  · exact .keepPromise (fun _ _ => rfl) h
  · exact .failAt h

theorem coefficientDeps_ensures {coeff : Coefficient} (h : E s) :
    Ensures (fun _ s' => s' = s) E (coefficientDeps ctx i coeff) s := by
  rw [coefficientDeps]
  split
  · exact .keepPromise (fun _ _ => rfl) h
  · exact .failAt h

/-- What is registered under the label of a variable mirrors it. -/
theorem registered_ensures {l : Label} (h : Running bound old s) (hE : E s)
    (hl : s.graph.label? i = some l) :
    Ensures (fun r s' => Running bound old s' ∧ Mirrors s'.graph s'.code i r) E
      (registered ctx i l) s := by
  rw [registered]
  apply Ensures.get_bind
  cases hget : s.code.get? l with
  | none => exact .failAt hE
  | some info =>
    obtain ⟨rfl, hnode, -⟩ := h.reserved l info hget
    refine .pure ⟨h, Graph.mem_of_label? hnode, fun hagree => ?_, fun l' hl' => ?_⟩
    · exact hagree i info.label info .refl hl hget
    · rw [hnode] at hl'
      cases hl'
      exact hget

/-- A node that is not plain is finished with results that mirror the nodes entered from it. If this
fails, then nothing has changed. -/
theorem finishOther_ensures {rs : List Staged} (h : Running bound old s) (hE : E s)
    (hi : i ∈ s.graph) (hplain : isPlain (s.graph.node i) = false)
    (hrs : List.Forall₂ (fun j r => Mirrors s.graph s.code j r) (s.graph.entered i) rs) :
    Ensures (fun r s' => Running bound old s' ∧ Mirrors s'.graph s'.code i r) E
      (finishNode ctx i (s.graph.node i) rs) s := by
  have hself : s.graph.label? i = none → ∀ deps s₁, s₁ = s →
      Ensures (fun r s' => Running bound old s' ∧ Mirrors s'.graph s'.code i r) E
        (pure ⟨i, deps⟩) s₁ := by
    rintro hl deps s₁ rfl
    exact .pure ⟨h, .of_label?_eq_none hi hl⟩
  cases hn : s.graph.node i
  all_goals
    rw [Graph.label?, hn] at hself
    rw [finishNode]
  case argument arg =>
    exact (argumentDeps_ensures hE).bind (.argumentDeps i arg) fun deps s₁ _ => hself rfl deps s₁
  case coefficient coeff =>
    exact (coefficientDeps_ensures hE).bind (.coefficientDeps i coeff)
      fun deps s₁ _ => hself rfl deps s₁
  case facetNormal => exact hself rfl _ s rfl
  case labelled c l => exact registered_ensures h hE (Graph.label?_of_labelled hn)
  case spatialDerivative a b =>
    rw [Graph.entered_of_derivative hn] at hrs
    cases hrs with
    | cons hr hnil =>
      cases hnil
      exact finishDerivative_ensures h hi hn hr
  all_goals
    rw [hn] at hplain
    cases hplain

/-- A node is finished with results that mirror the nodes entered from it. -/
theorem finishNode_ensures {rs : List Staged} (h : Running bound old s) (hi : i ∈ s.graph)
    (hrs : List.Forall₂ (fun j r => Mirrors s.graph s.code j r) (s.graph.entered i) rs) :
    Ensures (fun r s' => Running bound old s' ∧ Mirrors s'.graph s'.code i r) (Running bound old)
      (finishNode ctx i (s.graph.node i) rs) s := by
  cases hplain : isPlain (s.graph.node i) with
  | false => exact finishOther_ensures h h hi hplain hrs
  | true =>
    rw [Graph.entered_of_isPlain hplain] at hrs
    rw [finishNode_of_isPlain hplain]
    refine Ensures.bind (Q := fun _ s' => s' = s) (.keepPromise (fun _ _ => rfl) h)
      (.keepPromise _) ?_
    rintro deps s₁ - rfl
    exact nameAndRebuild_ensures h hi hplain hrs

/-- A layer is mirrored by what is staged for it. -/
theorem stageNode_ensures (hevolves : ∀ i, Evolves (stage i))
    (hstage : StagesFaithfully bound old stage) (h : Running bound old s) (hi : i ∈ s.graph) :
    Ensures (fun r s' => Running bound old s' ∧ Mirrors s'.graph s'.code i r) (Running bound old)
      (stageNode ctx stage i) s := by
  have hentered : ∀ j ∈ s.graph.entered i, j ∈ s.graph :=
    fun j hj => Graph.mem_of_mem_operands (Graph.entered_subset _ i hj) hi
  refine .of_run_eq run_stageNode ?_
  refine (stageEach_ensures hevolves hstage h hentered).bind (.stageEach hevolves _) ?_
  rintro rs s₁ hsteps ⟨h₁, hrs⟩
  rw [← hsteps.grows.entered_eq hi] at hrs
  rw [← hsteps.grows.node_eq i hi]
  exact finishNode_ensures h₁ (hsteps.grows.mem hi) hrs

theorem remember_ensures {compute : Action Staged} (h : Running bound old s) (hi : i ∈ s.graph)
    (hevolves : Evolves compute)
    (hcompute : Ensures (fun r s' => Running bound old s' ∧ Mirrors s'.graph s'.code i r)
      (Running bound old) compute s) :
    Ensures (fun r s' => Running bound old s' ∧ Mirrors s'.graph s'.code i r) (Running bound old)
      (remember i compute) s := by
  rw [remember]
  apply Ensures.get_bind
  cases hknown : s.staged[i]? with
  | some known => exact .pure ⟨h, (h.staged i known hknown).2⟩
  | none =>
    refine hcompute.bind hevolves ?_
    rintro r s₁ hsteps ⟨h₁, hr⟩
    exact .of_run_eq_ok rfl ⟨h₁.remember (hsteps.grows.mem hi) hr, hr⟩

/-- Staging gives a node that mirrors the old one. -/
theorem stage_ensures (ctx : Context) (room : Nat) :
    StagesFaithfully bound old (FormStaging.Staging.stage ctx room) := by
  induction room with
  | zero =>
    intro s i h hi
    exact remember_ensures h hi (.throw _) (.throw h)
  | succ room ih =>
    intro s i h hi
    have hevolves : ∀ j, Evolves (FormStaging.Staging.stage ctx room j) := fun j => .stage room j
    exact remember_ensures h hi (.stageNode hevolves i) (stageNode_ensures hevolves ih h hi)

end Staging

end Staging

end FormStaging
