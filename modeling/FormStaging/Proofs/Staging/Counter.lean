import FormStaging.Proofs.Staging.Evolution
import FormStaging.Proofs.Staging.Layers

/-!
# Counting the levels

`stage` is told how much room is left below a node. Here the run counts instead how many nodes it is
inside of. The counter goes up when a node is entered and down when it is left, whether the node could
be staged or not, and a node is refused if the counter stands at the limit (`visit`).

The two do the same (`counts_visit`): the room is what the counter leaves of the limit. In particular
the counter is balanced. A call that starts at zero ends at zero, also if it fails deep down
(`countedAfterCalls_eq`).
-/

set_option autoImplicit false

namespace FormStaging.Staging

/-- A state with the number of nodes that the run is inside of. -/
structure Counted where
  state : State
  depth : Nat := 0

/-- A step of a run that counts. -/
abbrev CountedAction := EStateM Failure Counted

variable {α β : Type}

/-- An action that enters no node. -/
def uncounted (x : Action α) : CountedAction α := fun t =>
  match x t.state with
  | .ok a s => .ok a ⟨s, t.depth⟩
  | .error e s => .error e ⟨s, t.depth⟩

/-- An action inside of a node. -/
def inside (x : CountedAction α) : CountedAction α := fun t =>
  match x { t with depth := t.depth + 1 } with
  | .ok a t' => .ok a { t' with depth := t'.depth - 1 }
  | .error e t' => .error e { t' with depth := t'.depth - 1 }

/-- Visits the nodes of a list from left to right. -/
def visitEach : (is : List NodeId) → (∀ j ∈ is, CountedAction Staged) → CountedAction (List Staged)
  | [], _ => pure []
  | j :: rest, visit => do
    let first ← visit j List.mem_cons_self
    let others ← visitEach rest fun k hk => visit k (List.mem_cons_of_mem j hk)
    pure (first :: others)

/-- Stages a node, given how to visit the nodes before it. -/
def visitNode (ctx : Context) (i : NodeId) (visit : ∀ j < i, CountedAction Staged) :
    CountedAction Staged := do
  let g := (← get).state.graph
  let staged ← visitEach (g.entered i) fun j hj =>
    visit j (Graph.lt_of_mem_operands (Graph.entered_subset g i hj))
  uncounted (finishNode ctx i (g.node i) staged)

/-- Stages the expression below a node, unless the run is inside of too many nodes. -/
def visit (ctx : Context) (i : NodeId) : CountedAction Staged := do
  match (← get).state.staged[i]? with
  | some result => pure result
  | none =>
    if ctx.settings.maxDepth ≤ (← get).depth then
      throw (.error ⟨.tooDeep ctx.settings.maxDepth, []⟩)
    else
      let result ← inside (visitNode ctx i fun j _ => visit ctx j)
      modify fun t => { t with state := { t.state with staged := t.state.staged.insert i result } }
      pure result
termination_by i

/-- Visits the content of a variable and registers the variable, unless its label is registered. -/
def visitVariable (ctx : Context) (i : NodeId) : CountedAction RegisteredVariable := do
  let g := (← get).state.graph
  match (g.node i).contentAndLabel? with
  | none => uncounted (failAt ctx i (.notVariable (g.namedText i)))
  | some (content, label) =>
    match (← get).state.code.get? label with
    | some info => pure info
    | none =>
      uncounted (reserveLabels i)
      let staged ← visit ctx content
      uncounted (registerContent ctx i content label staged)

/-! ## The counter and the room -/

/-- From level `d`, the first action does what the second one does, and it ends at level `d`. -/
def Counts (d : Nat) (x : CountedAction α) (y : Action α) : Prop :=
  ∀ s, x.run ⟨s, d⟩ = (uncounted y).run ⟨s, d⟩

namespace Counts

variable {d : Nat} {ctx : Context} {i : NodeId}

theorem uncounted (y : Action α) : Counts d (uncounted y) y := fun _ => rfl

theorem pure (a : α) : Counts d (Pure.pure a) (Pure.pure a) := fun _ => rfl

theorem bind {x : CountedAction α} {y : Action α} {f : α → CountedAction β} {f' : α → Action β}
    (hx : Counts d x y) (hf : ∀ a, Counts d (f a) (f' a)) : Counts d (x >>= f) (y >>= f') := by
  intro s
  have hs := hx s
  simp only [Counts, Staging.uncounted, Bind.bind, EStateM.bind, EStateM.run] at hs hf ⊢
  rw [hs]
  cases y s with
  | ok a s₁ => exact hf a s₁
  | error e s₁ => rfl

/-- Actions that are chosen by the same state. -/
theorem get_bind {f : Counted → CountedAction β} {f' : State → Action β}
    (hf : ∀ s, Counts d (f ⟨s, d⟩) (f' s)) : Counts d (get >>= f) (get >>= f') :=
  fun s => hf s s

/-- To look at the counter changes nothing. -/
theorem get_bind_left {f : Counted → CountedAction β} {y : Action β}
    (hf : ∀ s, Counts d (f ⟨s, d⟩) y) : Counts d (get >>= f) y :=
  fun s => hf s s

/-- An action inside of a node ends where it started. -/
theorem inside {x : CountedAction α} {y : Action α} (hx : Counts (d + 1) x y) :
    Counts d (inside x) y := by
  intro s
  have hs := hx s
  simp only [Staging.inside, Staging.uncounted, EStateM.run] at hs ⊢
  rw [hs]
  cases y s <;> rfl

/-- A run that counts fails where the run does. -/
theorem run_eq_error {x : CountedAction α} {y : Action α} {e : Failure} {s s' : State}
    (h : Counts d x y) (hrun : y.run s = .error e s') : x.run ⟨s, d⟩ = .error e ⟨s', d⟩ := by
  rw [h s]
  simp only [EStateM.run] at hrun
  simp only [Staging.uncounted, EStateM.run, hrun]

theorem visitEach {stage : NodeId → Action Staged} {is : List NodeId}
    {visit : ∀ j ∈ is, CountedAction Staged} (hvisit : ∀ j hj, Counts d (visit j hj) (stage j)) :
    Counts d (visitEach is visit) (stageEach stage is) := by
  induction is with
  | nil => exact pure []
  | cons j is ih =>
    refine bind (hvisit j _) fun first => bind (ih fun k hk => ?_) fun others => pure _
    exact hvisit k (List.mem_cons_of_mem j hk)

theorem visitNode {stage : NodeId → Action Staged} {visit : ∀ j < i, CountedAction Staged}
    (hvisit : ∀ j hj, Counts d (visit j hj) (stage j)) :
    Counts d (visitNode ctx i visit) (stageNode ctx stage i) := by
  intro s
  have hparts : Counts d (Staging.visitEach (s.graph.entered i) (fun j hj =>
      visit j (Graph.lt_of_mem_operands (Graph.entered_subset s.graph i hj))) >>=
        fun staged => Staging.uncounted (finishNode ctx i (s.graph.node i) staged))
      (stageEach stage (s.graph.entered i) >>= finishNode ctx i (s.graph.node i)) :=
    bind (visitEach fun j hj => hvisit j _) fun staged => uncounted _
  have hstage : (stageNode ctx stage i).run s = _ := run_stageNode
  simp only [Staging.uncounted, EStateM.run] at hstage ⊢
  rw [hstage]
  exact hparts s

/-- The room below a node is what the counter leaves of the limit. -/
theorem visit (ctx : Context) (d : Nat) (i : NodeId) :
    Counts d (visit ctx i) (stage ctx (ctx.settings.maxDepth - d) i) := by
  induction i using Nat.strongRecOn generalizing d with
  | ind i ih =>
    rw [Staging.visit]
    have hmodify : ∀ result : Staged, Counts d
        (modify fun t => { t with state := { t.state with staged := t.state.staged.insert i result } })
        (modify fun s => { s with staged := s.staged.insert i result }) := fun _ _ => rfl
    by_cases hle : ctx.settings.maxDepth ≤ d
    · rw [Nat.sub_eq_zero_of_le hle, stage, remember]
      refine get_bind fun s => ?_
      cases s.staged[i]? with
      | some result => exact pure result
      | none =>
        refine get_bind_left fun s' => ?_
        simp only [if_pos hle]
        exact fun _ => rfl
    · obtain ⟨room, hroom⟩ : ∃ room, ctx.settings.maxDepth - d = room + 1 :=
        Nat.exists_eq_succ_of_ne_zero (by omega)
      have hless : room = ctx.settings.maxDepth - (d + 1) := by omega
      rw [hroom, stage, remember, hless]
      refine get_bind fun s => ?_
      cases s.staged[i]? with
      | some result => exact pure result
      | none =>
        have hnode := inside (@visitNode _ ctx i _ (fun j _ => Staging.visit ctx j)
          fun j hj => ih j hj (d + 1))
        refine get_bind_left fun s' => ?_
        simp only [if_neg hle]
        exact bind hnode fun result => bind (hmodify result) fun _ => pure result

theorem visitVariable (ctx : Context) (i : NodeId) :
    Counts 0 (visitVariable ctx i) (stageVariable ctx i) := by
  refine get_bind fun s => ?_
  simp only
  cases (s.graph.node i).contentAndLabel? with
  | none => exact uncounted _
  | some inside =>
    obtain ⟨content, label⟩ := inside
    refine get_bind fun s => ?_
    simp only
    cases s.code.get? label with
    | some info => exact pure info
    | none =>
      refine bind (uncounted _) fun _ => bind (visit ctx 0 content) fun staged => ?_
      exact uncounted (registerContent ctx i content label staged)

end Counts

/-! ## Calls -/

/-- What a call does in a run that counts. -/
def Call.counted (ctx : Context) : Call → CountedAction Unit
  | .stage i => visitVariable ctx i >>= fun _ => pure ()
  | call => uncounted (call.action ctx)

/-- The state of a fresh run that counts after some calls. -/
def countedAfterCalls (settings : Settings) (g : Graph) (calls : List Call) : Counted :=
  calls.foldl (fun t call =>
    match (call.counted ⟨settings, none⟩).run t with
    | .ok _ t' => t'
    | .error _ t' => t') ⟨{ graph := g }, 0⟩

theorem Call.counts (ctx : Context) (call : Call) : Counts 0 (call.counted ctx) (call.action ctx) := by
  cases call with
  | stage i => exact (Counts.visitVariable ctx i).bind fun _ => .pure ()
  | make n => exact .uncounted _
  | register i deps label => exact .uncounted _

/-- The counter stands at zero after every call, also after one that failed. -/
theorem countedAfterCalls_eq (settings : Settings) (g : Graph) (calls : List Call) :
    countedAfterCalls settings g calls = ⟨afterCalls settings g calls, 0⟩ := by
  induction calls using List.reverseRecOn with
  | nil => rfl
  | append_singleton calls call ih =>
    rw [countedAfterCalls, afterCalls, List.foldl_append, List.foldl_append]
    rw [countedAfterCalls] at ih
    rw [ih, afterCalls]
    simp only [List.foldl_cons, List.foldl_nil]
    rw [call.counts ⟨settings, none⟩, stateAfter]
    simp only [uncounted, EStateM.run]
    generalize call.action _ _ = result
    cases result <;> rfl

end FormStaging.Staging
