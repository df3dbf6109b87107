import FormStaging.Proofs.FormData

/-!
# The numbering of arguments and coefficients is canonical

A slot table numbers its keys along an order if its slots are the numbers below its size, each given
once, and ascend with the keys (`SlotTable.Numbers`). The form data of an expression number its
arguments by number and shape and its coefficients by count. So the form data say nothing about how the
expression is built: expressions with the same arguments and coefficients have equal form data, if
counts identify the coefficients (`slots_canonical`).
-/

set_option autoImplicit false

namespace FormStaging

open Std

/-! ## The order of arguments -/

namespace Argument

variable {a b : Argument}

/-- Arguments go by number, and those with one number by shape, in lexicographic order. -/
def Precedes (a b : Argument) : Prop :=
  a.number < b.number ∨ a.number = b.number ∧ a.shape < b.shape

instance : TransOrd Argument :=
  inferInstanceAs (TransCmp (compareLex (compareOn number) (compareOn shape)))

theorem compare_eq_then (a b : Argument) :
    compare a b = (compare a.number b.number).then (compare a.shape b.shape) := rfl

instance : LawfulEqOrd Argument where
  eq_of_compare {a b} h := by
    rw [compare_eq_then, Ordering.then_eq_eq] at h
    obtain ⟨hnumber, hshape⟩ := h
    cases a
    cases b
    rw [mk.injEq]
    exact ⟨LawfulEqCmp.eq_of_compare hnumber, LawfulEqCmp.eq_of_compare hshape⟩

theorem compare_eq_lt_iff : compare a b = .lt ↔ a.Precedes b := by
  rw [compare_eq_then, Ordering.then_eq_lt, compare_shape_eq_lt_iff, Nat.compare_eq_lt,
    Nat.compare_eq_eq, Precedes]

theorem Precedes.asymm (h : a.Precedes b) : ¬ b.Precedes a := by
  rw [← compare_eq_lt_iff] at h ⊢
  exact OrientedCmp.not_lt_of_lt h

end Argument

/-! ## Tables that number their keys -/

/-- The slots of the table are `0, …, size - 1`, each given to one key, and they ascend with the
keys. -/
structure SlotTable.Numbers {κ : Type} [DecidableEq κ] (table : SlotTable κ)
    (precedes : κ → κ → Prop) : Prop where
  /-- A slot is below the number of keys. -/
  slot_lt : ∀ key slot, table.slot? key = some slot → slot < table.size
  /-- Each number below it is the slot of one key. -/
  existsUnique_key : ∀ slot < table.size, ∃! key, table.slot? key = some slot
  /-- The lesser key has the lesser slot. -/
  slot_lt_iff : ∀ key key' slot slot', table.slot? key = some slot → table.slot? key' = some slot' →
    (slot < slot' ↔ precedes key key')

/-- The table of an ascending list of keys numbers them. -/
theorem SlotTable.numbers_numbering {κ : Type} [DecidableEq κ] {precedes : κ → κ → Prop}
    {keys : List κ} (hasymm : ∀ a b, precedes a b → ¬ precedes b a) (h : keys.Pairwise precedes) :
    (numbering keys).Numbers precedes := by
  have hnodup : keys.Nodup := h.imp fun {a b} hab => by
    rintro rfl
    exact hasymm a a hab hab
  have hlt : ∀ (key key' : κ) (slot slot' : Nat), keys[slot]? = some key →
      keys[slot']? = some key' → slot < slot' → precedes key key' := by
    intro key key' slot slot' hkey hkey' hslots
    obtain ⟨hs, rfl⟩ := List.getElem?_eq_some_iff.1 hkey
    obtain ⟨hs', rfl⟩ := List.getElem?_eq_some_iff.1 hkey'
    exact List.pairwise_iff_getElem.1 h slot slot' hs hs' hslots
  refine ⟨fun key slot hkey => ?_, fun slot hslot => ?_, fun key key' slot slot' hkey hkey' => ?_⟩
  · rw [size_numbering hnodup]
    exact (List.getElem?_eq_some_iff.1 ((slot?_numbering hnodup).1 hkey)).1
  · rw [size_numbering hnodup] at hslot
    refine ⟨keys[slot], (slot?_numbering hnodup).2 (List.getElem?_eq_getElem hslot), ?_⟩
    intro key hkey
    rw [slot?_numbering hnodup, List.getElem?_eq_getElem hslot, Option.some.injEq] at hkey
    exact hkey.symm
  · rw [slot?_numbering hnodup] at hkey hkey'
    refine ⟨hlt key key' slot slot' hkey hkey', fun hprecedes => ?_⟩
    rcases Nat.lt_trichotomy slot slot' with hslots | rfl | hslots
    · exact hslots
    · obtain rfl : key = key' := Option.some.inj (hkey.symm.trans hkey')
      exact absurd hprecedes (hasymm key key hprecedes)
    · exact absurd (hlt key' key slot' slot hkey' hkey hslots) (hasymm key key' hprecedes)

/-! ## The form data of an expression -/

/-- The arguments and the coefficients of two expressions are the same. -/
structure Graph.SameTerminals (g : Graph) (i : NodeId) (g' : Graph) (i' : NodeId) : Prop where
  argument_iff : ∀ arg, (∃ j, g.Reaches i j ∧ g.node j = .argument arg) ↔
    ∃ j, g'.Reaches i' j ∧ g'.node j = .argument arg
  coefficient_iff : ∀ coeff, (∃ j, g.Reaches i j ∧ g.node j = .coefficient coeff) ↔
    ∃ j, g'.Reaches i' j ∧ g'.node j = .coefficient coeff

namespace Graph

variable {g g' : Graph} {i i' : NodeId} {coeff : Coefficient}

theorem nodup_counts (g : Graph) (i : NodeId) :
    ((g.coefficients i).map Coefficient.count).Nodup := by
  have h := nodup_keys_firstPer (fun c => some c.count) (g.metCoefficients i)
  rwa [List.filterMap_eq_map'] at h

/-- Where counts identify the coefficients, the collected ones are those of the expression. -/
theorem CountsIdentify.mem_coefficients (h : g.CountsIdentify i) (hi : i ∈ g) :
    coeff ∈ g.coefficients i ↔ ∃ j, g.Reaches i j ∧ g.node j = .coefficient coeff := by
  rw [← mem_metCoefficients hi]
  exact ⟨fun hcoeff => List.mem_of_find?_eq_some (Graph.mem_coefficients.1 hcoeff),
    fun hcoeff => (countsIdentify_iff_subset hi).1 h hcoeff⟩

theorem SameTerminals.countsIdentify (h : SameTerminals g i g' i') (hcounts : g.CountsIdentify i) :
    g'.CountsIdentify i' := by
  intro j k c d hj hk hc hd hcount
  obtain ⟨j', hj', hc'⟩ := (h.coefficient_iff c).2 ⟨j, hj, hc⟩
  obtain ⟨k', hk', hd'⟩ := (h.coefficient_iff d).2 ⟨k, hk, hd⟩
  exact hcounts j' k' c d hj' hk' hc' hd' hcount

end Graph

namespace FormData

variable {g g' : Graph} {i i' : NodeId}

theorem numbers_arguments (g : Graph) (i : NodeId) :
    (ofExpression g i).arguments.Numbers Argument.Precedes := by
  have hascending : (ascendingBy id (g.arguments i)).Pairwise fun a b => compare a b = .lt :=
    pairwise_lt_ascendingBy (by simpa using g.nodup_arguments i)
  exact SlotTable.numbers_numbering (fun _ _ => Argument.Precedes.asymm)
    (hascending.imp fun hlt => Argument.compare_eq_lt_iff.1 hlt)

theorem numbers_coefficients (g : Graph) (i : NodeId) :
    (ofExpression g i).coefficients.Numbers fun c d => c.count < d.count := by
  have hascending : (ascendingBy Coefficient.count (g.coefficients i)).Pairwise fun c d =>
      compare c.count d.count = .lt := pairwise_lt_ascendingBy (g.nodup_counts i)
  exact SlotTable.numbers_numbering (fun _ _ => Nat.lt_asymm)
    (hascending.imp fun hlt => Nat.compare_eq_lt.1 hlt)

/-- The form data are determined by the arguments and the coefficients. -/
theorem ofExpression_eq_of_sameTerminals (hi : i ∈ g) (hi' : i' ∈ g')
    (h : Graph.SameTerminals g i g' i') (hcounts : g.CountsIdentify i) :
    ofExpression g i = ofExpression g' i' := by
  have harguments : (g.arguments i).Perm (g'.arguments i') := by
    refine (List.perm_ext_iff_of_nodup (g.nodup_arguments i) (g'.nodup_arguments i')).2 fun arg => ?_
    rw [Graph.mem_arguments hi, Graph.mem_arguments hi', h.argument_iff]
  have hcoefficients : (g.coefficients i).Perm (g'.coefficients i') := by
    refine (List.perm_ext_iff_of_nodup (g.nodup_coefficients i)
      (g'.nodup_coefficients i')).2 fun coeff => ?_
    rw [hcounts.mem_coefficients hi, (h.countsIdentify hcounts).mem_coefficients hi',
      h.coefficient_iff]
  rw [ofExpression, ofExpression, ascendingBy_eq_of_perm (by simpa using g.nodup_arguments i) harguments,
    ascendingBy_eq_of_perm (g.nodup_counts i) hcoefficients]

/-- No slot of a default declaration is past the rank. -/
theorem ofSlot_default (form : FormData) {slot : Nat} (h : slot < form.rank) :
    ∃ d, DependencySet.ofSlot form.rank slot = .ok d ∧
      form.defaultArgumentDeps[slot]? = some d.withCoordinates :=
  ⟨.single form.rank slot, if_pos h, by simp [defaultArgumentDeps, h]⟩

end FormData

/-! ## The theorem -/

/-- The numbering of the arguments and coefficients of an expression is canonical. -/
structure NumbersCanonically (g : Graph) (i : NodeId) : Prop where
  /-- The arguments of the expression have slots, and no others. -/
  argument_iff : ∀ arg, (∃ slot, (FormData.ofExpression g i).arguments.slot? arg = some slot) ↔
    ∃ j, g.Reaches i j ∧ g.node j = .argument arg
  /-- Their slots go by number and shape. -/
  arguments : (FormData.ofExpression g i).arguments.Numbers Argument.Precedes
  /-- The first coefficients with their counts have slots, and no others. -/
  coefficient_iff : ∀ coeff,
    (∃ slot, (FormData.ofExpression g i).coefficients.slot? coeff = some slot) ↔
      g.firstCoefficient? i coeff.count = some coeff
  /-- Their slots go by count. -/
  coefficients : (FormData.ofExpression g i).coefficients.Numbers fun c d => c.count < d.count
  /-- Every slot of an argument has a default declaration. -/
  declared : ∀ slot < (FormData.ofExpression g i).rank,
    ∃ d, DependencySet.ofSlot (FormData.ofExpression g i).rank slot = .ok d ∧
      (FormData.ofExpression g i).defaultArgumentDeps[slot]? = some d.withCoordinates
  /-- The default declarations are accepted, whatever the options are. -/
  accepted : ∀ policy depth,
    ((Settings.ofForm (.ofExpression g i)).withOptions policy depth).check = .ok ()
  /-- Nothing but the arguments and the coefficients matters, if counts identify the coefficients. -/
  determined : ∀ g' i', i' ∈ g' → Graph.SameTerminals g i g' i' → g.CountsIdentify i →
    FormData.ofExpression g i = FormData.ofExpression g' i'

/-- Slots are numbered canonically. -/
theorem slots_canonical {g : Graph} {i : NodeId} (hi : i ∈ g) : NumbersCanonically g i where
  argument_iff arg := by rw [FormData.exists_argument_slot, Graph.mem_arguments hi]
  arguments := FormData.numbers_arguments g i
  coefficient_iff coeff := by rw [FormData.exists_coefficient_slot, Graph.mem_coefficients]
  coefficients := FormData.numbers_coefficients g i
  declared _ hslot := (FormData.ofExpression g i).ofSlot_default hslot
  accepted _ _ := by
    have hcomplete := Settings.complete_ofExpression g i
    exact Settings.check_eq_ok_iff.2 ⟨hcomplete.argument_rank, hcomplete.coefficient_rank,
      hcomplete.argument_slot, hcomplete.coefficient_slot⟩
  determined _ _ hi' hsame hcounts := FormData.ofExpression_eq_of_sameTerminals hi hi' hsame hcounts

/-- Another expression with the terminals of `repeatedCoefficient`, met in another order. -/
def reorderedCoefficient : Graph :=
  .ofNodes [.argument ⟨0, [2]⟩, .coefficient ⟨1, some "g", []⟩, .sum 1 1, .coefficient ⟨3, some "f", []⟩,
    .division 0 3, .argument ⟨0, []⟩, .product 2 5, .labelled 6 ⟨2⟩, .product 4 7]

/-- Both number the argument of shape `[]` before the one of shape `[2]`, and `g` before `f`. -/
theorem slots_canonical_reorderedCoefficient :
    9 ∈ repeatedCoefficient ∧ 8 ∈ reorderedCoefficient ∧
      NumbersCanonically repeatedCoefficient 9 ∧
      Graph.SameTerminals repeatedCoefficient 9 reorderedCoefficient 8 ∧
      repeatedCoefficient.CountsIdentify 9 ∧
      FormData.ofExpression repeatedCoefficient 9 = FormData.ofExpression reorderedCoefficient 8 ∧
      (FormData.ofExpression repeatedCoefficient 9).arguments.entries =
        [(⟨0, []⟩, 0), (⟨0, [2]⟩, 1)] ∧
      (FormData.ofExpression repeatedCoefficient 9).coefficients.entries =
        [(⟨1, some "g", []⟩, 0), (⟨3, some "f", []⟩, 1)] := by
  have hmem : 9 ∈ repeatedCoefficient := by cbv
  have hmem' : 8 ∈ reorderedCoefficient := by cbv
  have harguments : repeatedCoefficient.arguments 9 = [⟨0, []⟩, ⟨0, [2]⟩] := by cbv
  have harguments' : reorderedCoefficient.arguments 8 = [⟨0, []⟩, ⟨0, [2]⟩].reverse := by cbv
  have hmet : repeatedCoefficient.metCoefficients 9 =
      [⟨3, some "f", []⟩, ⟨3, some "f", []⟩, ⟨1, some "g", []⟩] := by cbv
  have hmet' : reorderedCoefficient.metCoefficients 8 =
      [⟨3, some "f", []⟩, ⟨1, some "g", []⟩] := by cbv
  have hsame : Graph.SameTerminals repeatedCoefficient 9 reorderedCoefficient 8 := by
    refine ⟨fun arg => ?_, fun coeff => ?_⟩
    · rw [← Graph.mem_arguments hmem, ← Graph.mem_arguments hmem', harguments, harguments',
        List.mem_reverse]
    · rw [← Graph.mem_metCoefficients hmem, ← Graph.mem_metCoefficients hmem', hmet, hmet']
      simp
  have hcounts : repeatedCoefficient.CountsIdentify 9 := by
    rw [Graph.countsIdentify_iff_forall hmem, hmet]
    simp
  have hcanonical := slots_canonical hmem
  exact ⟨hmem, hmem', hcanonical, hsame, hcounts,
    hcanonical.determined _ _ hmem' hsame hcounts, by cbv, by cbv⟩

end FormStaging
