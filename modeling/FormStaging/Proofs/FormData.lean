import FormStaging.Proofs.Failures
import FormStaging.Proofs.FirstOccurrence
import FormStaging.Proofs.Sorting

/-!
# Form data collected from an expression

The form data of an expression give a slot to each of its arguments, and of the coefficients with one
count to the one that the walk meets first. A count is meant to identify its coefficient
(`Graph.CountsIdentify`). Where it does, all coefficients have slots, and only there, and a split with
the form data of its own expression and their conservative declarations fails for want of room only
(`collected_data_suffice`).
-/

set_option autoImplicit false

namespace FormStaging

open Staging

/-! ## Collecting -/

namespace Graph

variable {g : Graph} {root j : NodeId} {arg : Argument} {coeff : Coefficient}

/-- The coefficients of an expression in the order in which the walk meets them. -/
def metCoefficients (g : Graph) (root : NodeId) : List Coefficient :=
  (g.postOrder root).filterMap fun i => (g.node i).coefficient?

/-- The first coefficient with a count. -/
def firstCoefficient? (g : Graph) (root : NodeId) (count : Nat) : Option Coefficient :=
  (g.metCoefficients root).find? fun c => c.count = count

/-- Coefficients of an expression with equal counts are equal. -/
def CountsIdentify (g : Graph) (root : NodeId) : Prop :=
  ∀ j k c d, g.Reaches root j → g.Reaches root k → g.node j = .coefficient c →
    g.node k = .coefficient d → c.count = d.count → c = d

theorem mem_metCoefficients (h : root ∈ g) :
    coeff ∈ g.metCoefficients root ↔ ∃ j, g.Reaches root j ∧ g.node j = .coefficient coeff := by
  simp only [metCoefficients, List.mem_filterMap, mem_postOrder h]
  refine exists_congr fun j => and_congr_right fun _ => ?_
  cases g.node j <;> simp [Node.coefficient?]

/-- The collected arguments are those of the expression. -/
theorem mem_arguments (h : root ∈ g) :
    arg ∈ g.arguments root ↔ ∃ j, g.Reaches root j ∧ g.node j = .argument arg := by
  simp only [arguments, firstPer_some_eq_eraseDups, List.mem_eraseDups, List.mem_filterMap,
    mem_postOrder h]
  refine exists_congr fun j => and_congr_right fun _ => ?_
  cases g.node j <;> simp [Node.argument?]

theorem nodup_arguments (g : Graph) (root : NodeId) : (g.arguments root).Nodup := by
  simpa [arguments] using
    nodup_keys_firstPer some ((g.postOrder root).filterMap fun i => (g.node i).argument?)

/-- The collected coefficients are the first ones with their counts. -/
theorem mem_coefficients :
    coeff ∈ g.coefficients root ↔ g.firstCoefficient? root coeff.count = some coeff := by
  have hfirst : coeff ∈ firstPer (fun c => some c.count) (g.metCoefficients root) ↔
      (g.metCoefficients root).find? (fun c => some c.count = some coeff.count) = some coeff :=
    mem_firstPer_iff rfl
  simpa [firstCoefficient?, coefficients, metCoefficients] using hfirst

theorem nodup_coefficients (g : Graph) (root : NodeId) : (g.coefficients root).Nodup := by
  have h := nodup_keys_firstPer (fun c => some c.count) (g.metCoefficients root)
  rw [List.filterMap_eq_map'] at h
  exact h.of_map

theorem countsIdentify_iff_forall (h : root ∈ g) :
    g.CountsIdentify root ↔ ∀ c ∈ g.metCoefficients root, ∀ d ∈ g.metCoefficients root,
      c.count = d.count → c = d := by
  simp only [CountsIdentify, mem_metCoefficients h]
  constructor
  · rintro hcounts c ⟨j, hj, hc⟩ d ⟨k, hk, hd⟩
    exact hcounts j k c d hj hk hc hd
  · intro hall j k c d hj hk hc hd
    exact hall c ⟨j, hj, hc⟩ d ⟨k, hk, hd⟩

/-- Where counts identify the coefficients, all coefficients are collected, and only there. -/
theorem countsIdentify_iff_subset (h : root ∈ g) :
    g.CountsIdentify root ↔ g.metCoefficients root ⊆ g.coefficients root := by
  rw [countsIdentify_iff_forall h]
  constructor
  · intro hcounts c hc
    have hmet : ((g.metCoefficients root).find? fun d => d.count = c.count).isSome :=
      List.find?_isSome.2 ⟨c, hc, by simp⟩
    obtain ⟨d, hd⟩ := Option.isSome_iff_exists.1 hmet
    have hcount : d.count = c.count := by simpa using List.find?_some hd
    rw [mem_coefficients, firstCoefficient?, hd,
      hcounts d (List.mem_of_find?_eq_some hd) c hc hcount]
  · intro hsubset c hc d hd hcount
    have hfirst := mem_coefficients.1 (hsubset hc)
    rw [hcount, mem_coefficients.1 (hsubset hd)] at hfirst
    exact (Option.some.inj hfirst).symm

end Graph

/-! ## Slots -/

section Slots

variable {g : Graph} {i : NodeId} {arg : Argument} {coeff : Coefficient}

theorem FormData.exists_argument_slot :
    (∃ slot, (ofExpression g i).arguments.slot? arg = some slot) ↔ arg ∈ g.arguments i := by
  have hperm := ascendingBy_perm id (g.arguments i)
  rw [ofExpression, SlotTable.exists_slot?_numbering (hperm.nodup_iff.2 (g.nodup_arguments i)),
    hperm.mem_iff]

theorem FormData.exists_coefficient_slot :
    (∃ slot, (ofExpression g i).coefficients.slot? coeff = some slot) ↔
      coeff ∈ g.coefficients i := by
  have hperm := ascendingBy_perm Coefficient.count (g.coefficients i)
  rw [ofExpression, SlotTable.exists_slot?_numbering (hperm.nodup_iff.2 (g.nodup_coefficients i)),
    hperm.mem_iff]

/-- An expression has slots for all its terminals exactly if counts identify its coefficients. -/
theorem FormData.hasSlots_ofExpression (h : i ∈ g) :
    (ofExpression g i).HasSlots g i ↔ g.CountsIdentify i := by
  simp only [HasSlots, exists_argument_slot, exists_coefficient_slot,
    Graph.countsIdentify_iff_subset h]
  constructor
  · intro hslots coeff hcoeff
    obtain ⟨j, hj, hn⟩ := (Graph.mem_metCoefficients h).1 hcoeff
    exact (hslots j hj).2 coeff hn
  · intro hsubset j hj
    exact ⟨fun arg hn => (Graph.mem_arguments h).2 ⟨j, hj, hn⟩,
      fun coeff hn => hsubset ((Graph.mem_metCoefficients h).2 ⟨j, hj, hn⟩)⟩

/-- The conservative declarations are complete if the slots are below the numbers of keys. -/
theorem Settings.complete_ofForm {form : FormData}
    (harguments : ∀ entry ∈ form.arguments.entries, entry.2 < form.arguments.size)
    (hcoefficients : ∀ entry ∈ form.coefficients.entries, entry.2 < form.coefficients.size) :
    (ofForm form).Complete := by
  have hrank : form.defaultArgumentDeps.length = form.rank := by simp [FormData.defaultArgumentDeps]
  refine ⟨fun d hd => ?_, fun d hd => ?_, fun entry hentry => ?_, fun entry hentry => ?_⟩
  · obtain ⟨slot, -, rfl⟩ := List.mem_map.1 hd
    simp [ofForm, hrank]
  · obtain rfl := List.eq_of_mem_replicate hd
    simp [ofForm, hrank]
  · simpa [ofForm, hrank, FormData.rank] using harguments entry hentry
  · simpa [ofForm, FormData.defaultCoefficientDeps] using hcoefficients entry hentry

/-- The conservative declarations of the form data of an expression are complete. -/
theorem Settings.complete_ofExpression (g : Graph) (i : NodeId) :
    (ofForm (.ofExpression g i)).Complete :=
  complete_ofForm
    (fun _ => SlotTable.lt_size_numbering
      ((ascendingBy_perm id _).nodup_iff.2 (g.nodup_arguments i)))
    (fun _ => SlotTable.lt_size_numbering
      ((ascendingBy_perm Coefficient.count _).nodup_iff.2 (g.nodup_coefficients i)))

end Slots

/-! ## The theorem -/

/-- What the form data of an expression are good for when the expression is split. -/
structure CollectedDataSuffice (g : Graph) (i : NodeId) : Prop where
  /-- Every argument has a slot. -/
  argument : ∀ j arg, g.Reaches i j → g.node j = .argument arg →
    ∃ slot, (FormData.ofExpression g i).arguments.slot? arg = some slot
  /-- Just the first coefficient with a count has a slot. -/
  coefficient : ∀ coeff,
    (∃ slot, (FormData.ofExpression g i).coefficients.slot? coeff = some slot) ↔
      g.firstCoefficient? i coeff.count = some coeff
  /-- All arguments and coefficients have slots if counts identify the coefficients, and only then. -/
  hasSlots_iff : (FormData.ofExpression g i).HasSlots g i ↔ g.CountsIdentify i
  /-- Under the conservative declarations, whatever the options are, a split fails for want of room, for
  want of labels, or for a coefficient with the count of another one. -/
  cause : ∀ policy depth e,
    split ((Settings.ofForm (.ofExpression g i)).withOptions policy depth) g i = .error e →
      e = .error ⟨.tooDeep depth, []⟩ ∨ e = .labelOverflow ∧ ¬ g.LeavesRoom i ∨
        ¬ g.CountsIdentify i ∧
          ∃ name suggestions spans, e = .error ⟨.unknownCoefficient name suggestions, spans⟩

/-- The form data of an expression suffice to split it, if counts identify its coefficients. -/
theorem collected_data_suffice {g : Graph} {i : NodeId} (hi : i ∈ g) : CollectedDataSuffice g i := by
  have hargument : ∀ j arg, g.Reaches i j → g.node j = .argument arg →
      ∃ slot, (FormData.ofExpression g i).arguments.slot? arg = some slot :=
    fun j arg hj hn => FormData.exists_argument_slot.2 ((Graph.mem_arguments hi).2 ⟨j, hj, hn⟩)
  have hslots := FormData.hasSlots_ofExpression hi
  refine ⟨hargument, fun coeff => ?_, hslots, fun policy depth e he => ?_⟩
  · rw [FormData.exists_coefficient_slot, Graph.mem_coefficients]
  · have hok := Settings.fault?_eq_none_iff.2 (Settings.complete_ofExpression g i)
    have hok' : ((Settings.ofForm (.ofExpression g i)).withOptions policy depth).fault? = none := hok
    rcases cause_of_failure hok' hi he with hmisses | ⟨hdeep, -⟩ | hoverflow
    · refine Or.inr (Or.inr ⟨fun hcounts => hmisses.not_hasSlots (hslots.2 hcounts), ?_⟩)
      cases hmisses with
      | argument _ hj hn hslot =>
        obtain ⟨slot, hsome⟩ := hargument _ _ hj hn
        exact absurd (hslot.symm.trans hsome) nofun
      | coefficient => exact ⟨_, _, _, rfl⟩
    · exact Or.inl hdeep
    · exact Or.inr (Or.inl hoverflow)

/-- A coefficient in a variable and, as another node, outside of it, and two arguments with one number. -/
def repeatedCoefficient : Graph :=
  .ofNodes [.coefficient ⟨3, some "f", []⟩, .argument ⟨0, []⟩, .product 0 1, .labelled 2 ⟨4⟩,
    .coefficient ⟨3, some "f", []⟩, .coefficient ⟨1, some "g", []⟩, .sum 4 5, .argument ⟨0, [2]⟩,
    .product 6 7, .product 3 8]

/-- The coefficient has one slot, the arguments have two. -/
theorem collected_data_suffice_repeatedCoefficient :
    9 ∈ repeatedCoefficient ∧ CollectedDataSuffice repeatedCoefficient 9 ∧
      repeatedCoefficient.CountsIdentify 9 ∧
      (FormData.ofExpression repeatedCoefficient 9).HasSlots repeatedCoefficient 9 ∧
      (FormData.ofExpression repeatedCoefficient 9).arguments.entries =
        [(⟨0, []⟩, 0), (⟨0, [2]⟩, 1)] ∧
      (FormData.ofExpression repeatedCoefficient 9).coefficients.entries =
        [(⟨1, some "g", []⟩, 0), (⟨3, some "f", []⟩, 1)] := by
  have hmem : 9 ∈ repeatedCoefficient := by cbv
  have hmet : repeatedCoefficient.metCoefficients 9 =
      [⟨3, some "f", []⟩, ⟨3, some "f", []⟩, ⟨1, some "g", []⟩] := by cbv
  have hcounts : repeatedCoefficient.CountsIdentify 9 := by
    rw [Graph.countsIdentify_iff_forall hmem, hmet]
    simp
  have hsuffice := collected_data_suffice hmem
  exact ⟨hmem, hsuffice, hcounts, hsuffice.hasSlots_iff.2 hcounts, by cbv, by cbv⟩

/-- The sum of two coefficients with one count. -/
def equalCounts : Graph :=
  .ofNodes [.coefficient ⟨0, some "f", []⟩, .coefficient ⟨0, some "g", []⟩, .sum 0 1]

/-- The second coefficient has no slot, and so the sum is not split with its own form data. -/
theorem not_hasSlots_equalCounts :
    2 ∈ equalCounts ∧ equalCounts.Reaches 2 1 ∧ equalCounts.node 1 = .coefficient ⟨0, some "g", []⟩ ∧
      (FormData.ofExpression equalCounts 2).coefficients.slot? ⟨0, some "g", []⟩ = none ∧
      split (.ofForm (.ofExpression equalCounts 2)) equalCounts 2 =
        .error (.error ⟨.unknownCoefficient "g" ["f"], [⟨4, 5⟩]⟩) := by
  have hmem : 2 ∈ equalCounts := by cbv
  have hreach : equalCounts.Reaches 2 1 :=
    (Graph.mem_postOrder hmem).1 (List.contains_iff_mem.1 (by cbv))
  exact ⟨hmem, hreach, by cbv, by cbv, by cbv⟩

end FormStaging
