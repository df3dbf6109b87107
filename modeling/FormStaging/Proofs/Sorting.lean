import FormStaging.Sorting
import Mathlib.Data.List.Nodup

/-!
# Ascending order

`ascendingBy` sorts a list by a key. Where no two entries have equal keys, the sorted list is strictly
ascending (`pairwise_lt_ascendingBy`), and so it does not depend on the order in which the entries were
given (`ascendingBy_eq_of_perm`).
-/

set_option autoImplicit false

namespace FormStaging

open Std

variable {α β : Type} [Ord β] {key : α → β} {l l' : List α}

theorem ascendingBy_perm (key : α → β) (l : List α) : (ascendingBy key l).Perm l :=
  List.mergeSort_perm l _

variable [TransOrd β]

/-- No entry has a smaller key than one before it. -/
theorem pairwise_le_ascendingBy (key : α → β) (l : List α) :
    (ascendingBy key l).Pairwise fun a b => (compare (key a) (key b)).isLE = true := by
  have htrans : ∀ a b c : α, (compare (key a) (key b)).isLE = true →
      (compare (key b) (key c)).isLE = true → (compare (key a) (key c)).isLE = true :=
    fun _ _ _ hab hbc => TransOrd.isLE_trans hab hbc
  have htotal : ∀ a b : α,
      ((compare (key a) (key b)).isLE || (compare (key b) (key a)).isLE) = true := by
    intro a b
    cases h : compare (key a) (key b) with
    | gt =>
      rw [OrientedCmp.lt_of_gt h]
      rfl
    | _ => rfl
  exact List.pairwise_mergeSort htrans htotal l

variable [LawfulEqOrd β]

/-- Entries with distinct keys are strictly ascending. -/
theorem pairwise_lt_ascendingBy (h : (l.map key).Nodup) :
    (ascendingBy key l).Pairwise fun a b => compare (key a) (key b) = .lt := by
  have hne : (ascendingBy key l).Pairwise fun a b => key a ≠ key b :=
    List.pairwise_map.1 (((ascendingBy_perm key l).map key).nodup_iff.2 h)
  refine (pairwise_le_ascendingBy key l).imp₂ (fun a b hle hne => ?_) hne
  cases hab : compare (key a) (key b) with
  | lt => rfl
  | eq => exact absurd (LawfulEqCmp.eq_of_compare hab) hne
  | gt =>
    rw [hab] at hle
    cases hle

/-- The order in which entries with distinct keys are given does not matter. -/
theorem ascendingBy_eq_of_perm (h : (l.map key).Nodup) (hperm : l.Perm l') :
    ascendingBy key l = ascendingBy key l' := by
  have h' : (l'.map key).Nodup := (hperm.map key).nodup_iff.1 h
  have hsorted : (ascendingBy key l).Perm (ascendingBy key l') :=
    (ascendingBy_perm key l).trans (hperm.trans (ascendingBy_perm key l').symm)
  refine hsorted.eq_of_pairwise (fun a b _ _ hab hba => ?_) (pairwise_lt_ascendingBy h)
    (pairwise_lt_ascendingBy h')
  exact absurd hba (OrientedCmp.not_lt_of_lt hab)

/-! ## The order of shapes and arguments -/

/-- Shapes are compared from the first axis on, and a shape comes before a longer one that begins
with it. -/
theorem compare_shape_eq_lt_iff {s t : List Nat} : compare s t = .lt ↔ s < t := by
  induction s generalizing t with
  | nil => cases t <;> simp [List.compare_nil_cons]
  | cons m s ih =>
    cases t with
    | nil => simp [List.compare_cons_nil]
    | cons n t =>
      rw [List.compare_cons_cons, Ordering.then_eq_lt, ih, Nat.compare_eq_lt, Nat.compare_eq_eq,
        List.cons_lt_cons_iff]

end FormStaging
