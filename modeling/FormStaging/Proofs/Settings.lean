import FormStaging.Proofs.SlotTable
import FormStaging.Staging.Settings
import Mathlib.Data.List.Basic
import Mathlib.Data.Option.Basic

/-!
# Accepted settings

The settings are accepted if their declarations agree with each other and with the form data
(`Settings.Complete`), and only then (`Settings.check_eq_ok_iff`). Under accepted settings every slot of
the form data has a declaration, and all declared sets have the rank of the run.
-/

set_option autoImplicit false

namespace FormStaging

theorem exists_declaration {sets : List DependencySet} {slot : Nat} (h : slot < sets.length) :
    ∃ d ∈ sets, declaration sets slot = .ok d :=
  ⟨sets[slot], List.getElem_mem h, by rw [declaration, List.getElem?_eq_getElem h]⟩

namespace Settings

variable {settings : Settings} {slot : Nat}

/-- The declarations agree with each other and with the form data. -/
structure Complete (settings : Settings) : Prop where
  argument_rank : ∀ d ∈ settings.argumentDeps, d.rank = settings.argumentDeps.length
  coefficient_rank : ∀ d ∈ settings.coefficientDeps, d.rank = settings.argumentDeps.length
  argument_slot : ∀ entry ∈ settings.form.arguments.entries,
    entry.2 < settings.argumentDeps.length
  coefficient_slot : ∀ entry ∈ settings.form.coefficients.entries,
    entry.2 < settings.coefficientDeps.length

/-! ## The check -/

theorem declarationFault?_eq_none_iff {kind : SlotKind} {rank : Nat} {sets : List DependencySet} :
    declarationFault? kind rank sets = none ↔ ∀ d ∈ sets, d.rank = rank := by
  rw [declarationFault?, Option.map_eq_none_iff, List.find?_eq_none]
  constructor
  · intro h d hd
    obtain ⟨slot, hslot, rfl⟩ := List.getElem_of_mem hd
    have hmem : (sets[slot], slot) ∈ sets.zipIdx := by simp [List.mem_zipIdx_iff_getElem?, hslot]
    simpa using h _ hmem
  · intro h entry hentry
    simpa using h entry.1 (List.fst_mem_of_mem_zipIdx hentry)

/-- A table has no fault if all its slots are declared. -/
theorem slotFault?_eq_none_iff {κ : Type} [DecidableEq κ] {table : SlotTable κ} {kind : SlotKind}
    {name : κ → String} {declared : Nat} :
    slotFault? kind name table declared = none ↔ ∀ entry ∈ table.entries, entry.2 < declared := by
  rw [slotFault?, Option.map_eq_none_iff, SlotTable.firstFrom?, List.find?_eq_none]
  simp [SlotTable.bySlot, ascendingBy]

/-- Settings have a fault unless all four parts of the check are passed. -/
theorem fault?_eq_none_iff : settings.fault? = none ↔ settings.Complete := by
  simp only [fault?, Option.orElse_eq_none, declarationFault?_eq_none_iff, slotFault?_eq_none_iff]
  constructor
  · rintro ⟨hargument, hcoefficient, harguments, hcoefficients⟩
    exact ⟨hargument, hcoefficient, harguments, hcoefficients⟩
  · intro h
    exact ⟨h.argument_rank, h.coefficient_rank, h.argument_slot, h.coefficient_slot⟩

/-- The check accepts complete settings and no others. -/
theorem check_eq_ok_iff : settings.check = .ok () ↔ settings.Complete := by
  rw [check, ← fault?_eq_none_iff]
  cases settings.fault? <;> simp

/-! ## Declarations -/

/-- The slot of an argument is declared, with a set of the rank of the run. -/
theorem Complete.exists_argument (h : settings.Complete) {arg : Argument}
    (hslot : settings.form.arguments.slot? arg = some slot) :
    ∃ d, declaration settings.argumentDeps slot = .ok d ∧ d.rank = settings.rank := by
  obtain ⟨d, hd, hdeclared⟩ := exists_declaration (h.argument_slot _ (SlotTable.mem_of_slot? hslot))
  exact ⟨d, hdeclared, h.argument_rank d hd⟩

/-- The slot of a coefficient is declared, with a set of the rank of the run. -/
theorem Complete.exists_coefficient (h : settings.Complete) {coeff : Coefficient}
    (hslot : settings.form.coefficients.slot? coeff = some slot) :
    ∃ d, declaration settings.coefficientDeps slot = .ok d ∧ d.rank = settings.rank := by
  obtain ⟨d, hd, hdeclared⟩ :=
    exists_declaration (h.coefficient_slot _ (SlotTable.mem_of_slot? hslot))
  exact ⟨d, hdeclared, h.coefficient_rank d hd⟩

end Settings

end FormStaging
