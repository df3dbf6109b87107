import FormStaging.Proofs.Failures
import FormStaging.Proofs.Rendering.Spans

/-!
# Reports point at the culprit

A split that fails for want of a slot reports the name of an argument or of a coefficient and the places
of the node in the text of the expression. The node is one of the expression itself, and all its
occurrences are shown there, provided that the index lists of indexings and derivatives are
multi-indices. So there are places, they are all the occurrences of this node, whatever variables and
parents it has, and at each of them stands the reported name (`culprit_of_failure`).
-/

set_option autoImplicit false

namespace FormStaging

open Staging

/-- The name of an argument or of a coefficient that is reported as unknown. -/
def Cause.unknownName? : Cause → Option String
  | unknownArgument name _ | unknownCoefficient name _ => some name
  | _ => none

/-- A leaf has no slot, and this is what a cause reports. -/
inductive FormData.Lacks (form : FormData) : Node NodeId → Cause → Prop where
  | argument {arg : Argument} (h : form.arguments.slot? arg = none) :
      Lacks form (.argument arg) (.unknownArgument arg.text form.rank)
  | coefficient {coeff : Coefficient} (h : form.coefficients.slot? coeff = none) :
      Lacks form (.coefficient coeff)
        (.unknownCoefficient coeff.text (suggestions form coeff.text))

/-- Every indexing and every derivative of an expression has a multi-index as its second operand. -/
def Graph.SelectorsGiven (g : Graph) (root : NodeId) : Prop :=
  ∀ i a b, g.Reaches root i → g.node i = .indexed a b ∨ g.node i = .spatialDerivative a b →
    ∃ items, g.node b = .multiIndex items

theorem Graph.selectorsGiven_of_all {g : Graph} {root : NodeId} (h : root ∈ g)
    (hall : (g.postOrder root).all fun i =>
      match g.node i with
      | .indexed _ b | .spatialDerivative _ b => (g.node b).kind = .multiIndex
      | _ => true) : g.SelectorsGiven root := by
  intro i a b hi hn
  have hkind : (g.node b).kind = .multiIndex := by
    have hthis := List.all_eq_true.1 hall i ((Graph.mem_postOrder h).2 hi)
    rcases hn with hn | hn <;> simpa [hn] using hthis
  cases hb : g.node b with
  | multiIndex items => exact ⟨items, rfl⟩
  | _ => simp [hb, Node.kind] at hkind

/-! ## Occurrences that are shown -/

namespace Graph

variable {g : Graph} {i j : NodeId} {n : Nat} {p : Position}

/-- An operand is shown, or it is the multi-index of an indexing or of a derivative. -/
theorem shown_or_multiIndex (h : g.SelectorsGiven i) (hj : (g.operands i)[n]? = some j) :
    (g.shown i)[n]? = some j ∨ ∃ items, g.node j = .multiIndex items := by
  have hselector : ∀ a b, g.node i = .indexed a b ∨ g.node i = .spatialDerivative a b →
      [a, b][n]? = some j → [a][n]? = some j ∨ ∃ items, g.node j = .multiIndex items := by
    intro a b hn hj
    match n, hj with
    | 0, hj => exact Or.inl hj
    | 1, hj =>
      obtain rfl : b = j := Option.some.inj hj
      exact Or.inr (h i a b (Reaches.refl g i) hn)
  rw [operands] at hj
  rw [shown]
  cases hn : g.node i
  all_goals rw [hn] at hj
  case indexed a b => exact hselector a b (Or.inl hn) hj
  case spatialDerivative a b => exact hselector a b (Or.inr hn) hj
  all_goals exact Or.inl hj

theorem getElem?_operands_of_shown (h : (g.shown i)[n]? = some j) :
    (g.operands i)[n]? = some j := by
  obtain ⟨hidden, hall⟩ := (g.node i).shown_isPrefix
  have hlt := (List.getElem?_eq_some_iff.1 h).1
  rw [operands, ← hall]
  exact (List.getElem?_append_left hlt).trans h

theorem SelectorsGiven.operand (h : g.SelectorsGiven i) (hj : j ∈ g.operands i) :
    g.SelectorsGiven j :=
  fun k a b hk => h k a b (hk.head hj)

/-- Where index lists are multi-indices, every occurrence of another node is shown. -/
theorem follow_shown_iff {leaf : NodeId} (hleaf : ∀ items, g.node leaf ≠ .multiIndex items)
    (h : g.SelectorsGiven i) :
    Position.follow g.shown i p = some leaf ↔ Position.follow g.operands i p = some leaf := by
  induction p generalizing i with
  | nil => rfl
  | cons n p ih =>
    rw [Position.follow_cons_eq_some, Position.follow_cons_eq_some]
    constructor
    · rintro ⟨j, hj, hp⟩
      have hj' := getElem?_operands_of_shown hj
      exact ⟨j, hj', (ih (h.operand (List.mem_of_getElem? hj'))).1 hp⟩
    · rintro ⟨j, hj, hp⟩
      rcases shown_or_multiIndex h hj with hshown | ⟨items, hitems⟩
      · exact ⟨j, hshown, (ih (h.operand (List.mem_of_getElem? hj))).2 hp⟩
      · -- a multi-index has nothing below it, so it would be the leaf
        have hreach := Position.reaches_of_follow (fun _ => List.Subset.refl _) hp
        obtain rfl := hreach.eq_of_operands_eq_nil (operands_of_multiIndex hitems)
        exact absurd hitems (hleaf items)

end Graph

/-! ## Causes -/

namespace FormData.Lacks

variable {form : FormData} {g : Graph} {leaf : NodeId} {cause : Cause} {name : String}

theorem ne_multiIndex {n : Node NodeId} (h : form.Lacks n cause) (items : List IndexItem) :
    n ≠ .multiIndex items := by
  cases h <;> exact nofun

/-- The reported name is the text of the leaf. -/
theorem text_eq (h : form.Lacks (g.node leaf) cause) (hname : cause.unknownName? = some name) :
    g.text leaf = name := by
  rw [Graph.text_eq_text_unfold, Graph.text_unfold]
  generalize g.node leaf = n at h
  cases h <;> (cases hname; simp [Node.pieces, Graph.piecesText])

end FormData.Lacks

/-- A missing slot is reported at a leaf of the expression. -/
theorem Staging.MissesSlot.exists_leaf {ctx : Context} {g : Graph} {i : NodeId} {e : Failure}
    (h : MissesSlot ctx g i e) : ∃ leaf g' cause, g.Extends g' ∧ g.Reaches i leaf ∧
      ctx.settings.form.Lacks (g.node leaf) cause ∧ e = ctx.failure g' leaf cause := by
  cases h with
  | argument hg hj hn hslot => exact ⟨_, _, _, hg, hj, hn ▸ .argument hslot, rfl⟩
  | coefficient hg hj hn hslot => exact ⟨_, _, _, hg, hj, hn ▸ .coefficient hslot, rfl⟩

/-- The faults of settings are no unknown names. -/
theorem Settings.unknownName?_of_fault? {settings : Settings} {cause : Cause}
    (h : settings.fault? = some cause) : cause.unknownName? = none := by
  simp only [fault?, declarationFault?, slotFault?, Option.orElse_eq_some, Option.map_eq_some_iff,
    Option.map_eq_none_iff] at h
  rcases h with ⟨_, -, rfl⟩ | ⟨-, ⟨_, -, rfl⟩ | ⟨-, ⟨_, -, rfl⟩ | ⟨-, _, -, rfl⟩⟩⟩ <;> rfl

/-! ## The theorem -/

/-- An error reports a leaf of an expression without a slot, under its name and with all its places. -/
structure PointsAt (form : FormData) (g : Graph) (i leaf : NodeId) (name : String) (e : Error) :
    Prop where
  reaches : g.Reaches i leaf
  /-- The leaf has no slot. -/
  lacks : form.Lacks (g.node leaf) e.cause
  spans_ne_nil : e.spans ≠ []
  /-- At each of the places stands the reported name. -/
  covers : ∀ s ∈ e.spans, s.Covers (g.text i) name
  /-- The places are all the occurrences of the leaf, from left to right. -/
  spans_eq : ∃ positions : List Position, positions.Pairwise (· < ·) ∧
    (∀ p, p ∈ positions ↔ Position.follow g.operands i p = some leaf) ∧
      e.spans = positions.map (g.spanAt i)

/-- A report of an unknown name points at the culprit. -/
theorem culprit_of_failure {settings : Settings} {g : Graph} {i : NodeId} {e : Error}
    {name : String} (hi : i ∈ g) (hselectors : g.SelectorsGiven i)
    (h : split settings g i = .error (.error e)) (hname : e.cause.unknownName? = some name) :
    ∃ leaf, PointsAt settings.form g i leaf name e := by
  have hok : settings.fault? = none := by
    cases hfault : settings.fault? with
    | none => rfl
    | some cause =>
      rw [split_of_fault hfault] at h
      cases h
      rw [Settings.unknownName?_of_fault? hfault] at hname
      cases hname
  -- neither the nesting nor the labels have a name
  rcases cause_of_failure hok hi h with hslot | ⟨hdeep, -⟩ | ⟨hoverflow, -⟩
  rotate_left
  · cases hdeep
    cases hname
  · cases hoverflow
  obtain ⟨leaf, g', cause, hg, hreach, hlacks, he⟩ := hslot.exists_leaf
  obtain rfl : e = ⟨cause, _⟩ := Failure.error.inj he
  have hiff : ∀ p, p ∈ g.shownAt (some leaf) i ↔ Position.follow g.operands i p = some leaf :=
    fun p => Graph.mem_shownAt_some_iff.trans
      (Graph.follow_shown_iff hlacks.ne_multiIndex hselectors)
  have hne : g.spansOf i leaf ≠ [] := by
    obtain ⟨p, hp⟩ := Position.exists_follow hreach
    rw [Graph.spansOf_eq, Graph.spansIn]
    exact List.ne_nil_of_mem (List.mem_map_of_mem ((hiff p).2 hp))
  have hspans : Context.places ⟨settings, some i⟩ g' leaf = g.spansOf i leaf := by
    simp only [Context.places, hg.rendering_eq hi]
    exact if_neg (by simpa [Graph.spansOf] using hne)
  refine ⟨leaf, hreach, hlacks, ?_, ?_, ⟨_, g.pairwise_shownAt _ i, hiff, ?_⟩⟩
  · rw [hspans]
    exact hne
  · rw [hspans, ← hlacks.text_eq hname]
    exact fun s hs => Graph.covers_of_mem_spansOf hs
  · rw [hspans, Graph.spansOf_eq, Graph.spansIn]

/-- A sum over a variable, with a coefficient in the variable and outside of it. -/
def coefficientTwice : Graph :=
  .ofNodes [.argument ⟨0, []⟩, .coefficient ⟨1, some "größe", []⟩, .product 1 0, .labelled 2 ⟨4⟩,
    .sum 3 1]

/-- The form data of the argument alone have no slot for the coefficient. Its name has seven bytes. -/
theorem culprit_of_failure_coefficientTwice :
    ∃ e name, 4 ∈ coefficientTwice ∧ coefficientTwice.SelectorsGiven 4 ∧
      split (.ofForm (.ofExpression coefficientTwice 0)) coefficientTwice 4 = .error (.error e) ∧
      e.cause.unknownName? = some name ∧
      (∃ leaf, PointsAt (.ofExpression coefficientTwice 0) coefficientTwice 4 leaf name e) ∧
      name = "größe" ∧ e.spans = [⟨5, 12⟩, ⟨22, 29⟩] := by
  have hmem : 4 ∈ coefficientTwice := by cbv
  have hselectors : coefficientTwice.SelectorsGiven 4 := Graph.selectorsGiven_of_all hmem (by cbv)
  have hsplit : split (.ofForm (.ofExpression coefficientTwice 0)) coefficientTwice 4 =
      .error (.error ⟨.unknownCoefficient "größe" [], [⟨5, 12⟩, ⟨22, 29⟩]⟩) := by
    cbv
  exact ⟨_, _, hmem, hselectors, hsplit, rfl, culprit_of_failure hmem hselectors hsplit rfl, rfl, rfl⟩

end FormStaging
