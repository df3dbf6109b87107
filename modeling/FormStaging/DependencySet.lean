import FormStaging.Misuse

/-!
# Dependency sets

A dependency set records which evaluation contexts an expression depends on: values known only at
run time, the spatial coordinates, and the basis function in each slot of the form. Sets of one
rank form a lattice under `DependencySet.union` and `DependencySet.intersection`; combining sets
of different ranks breaks a promise of the caller.
-/

set_option autoImplicit false

namespace FormStaging

/-- Which evaluation contexts an expression depends on. -/
structure DependencySet where
  /-- Depends on values known only at run time. -/
  runtime : Bool
  /-- Depends on the spatial coordinates. -/
  coordinates : Bool
  /-- One flag per basis-function slot. -/
  basis : List Bool
deriving DecidableEq, Hashable, Repr

namespace DependencySet

/-- The number of basis-function slots. -/
def rank (s : DependencySet) : Nat := s.basis.length

/-- The set of the given rank without any dependency. -/
def empty (rank : Nat) : DependencySet := ⟨false, false, List.replicate rank false⟩

/-- The set of the given rank with the flag of one slot, if there is such a slot, and no other. -/
def single (rank slot : Nat) : DependencySet :=
  ⟨false, false, (List.replicate rank false).set slot true⟩

/-- The set of the given rank that depends on the basis function in one slot and on nothing else. -/
def ofSlot (rank slot : Nat) : Except Misuse DependencySet :=
  if slot < rank then .ok (single rank slot) else .error (.slotOutOfRange slot rank)

/-- The set that depends on run-time values too. -/
def withRuntime (s : DependencySet) : DependencySet := { s with runtime := true }

/-- The set that depends on the spatial coordinates too. -/
def withCoordinates (s : DependencySet) : DependencySet := { s with coordinates := true }

/-- Whether the set depends on the basis function in `slot`. No set depends on a slot past its
rank. -/
def dependsOn (s : DependencySet) (slot : Nat) : Bool := s.basis.getD slot false

/-- Whether no flag is set: the expression is a compile-time constant. -/
def isEmpty (s : DependencySet) : Bool := !s.runtime && !s.coordinates && s.basis.all (!·)

/-- Combines two sets of one rank flag by flag. -/
def combine (operation : SetOperation) (f : Bool → Bool → Bool) (s t : DependencySet) :
    Except Misuse DependencySet :=
  if s.rank = t.rank then
    .ok ⟨f s.runtime t.runtime, f s.coordinates t.coordinates, List.zipWith f s.basis t.basis⟩
  else .error (.rankMismatch operation)

/-- The set that depends on everything either set depends on. -/
def union (s t : DependencySet) : Except Misuse DependencySet := combine .union (· || ·) s t

/-- The set that depends on everything both sets depend on. -/
def intersection (s t : DependencySet) : Except Misuse DependencySet :=
  combine .intersection (· && ·) s t

/-- Whether `s` has every dependency of `t`. A block of code for `s` can stand inside a block for
`t` exactly in this case. -/
def covers (s t : DependencySet) : Except Misuse Bool := (s.union t).map (· == s)

/-- The union of a set and a list of sets, taken from left to right. -/
def unionAll (s : DependencySet) (sets : List DependencySet) : Except Misuse DependencySet :=
  sets.foldlM union s

/-- The names of the set flags: `runtime`, then `x` for the coordinates, then the slots. -/
def flagNames (s : DependencySet) : List String :=
  (if s.runtime then ["runtime"] else []) ++
    ((if s.coordinates then ["x"] else []) ++
      ((List.range s.rank).filter s.dependsOn).map fun slot => "v_" ++ toString slot)

/-- The flags between braces, such as `{runtime, x, v_0}`. -/
def text (s : DependencySet) : String := "\x7b" ++ ", ".intercalate s.flagNames ++ "\x7d"

@[simp] theorem rank_empty (n : Nat) : (empty n).rank = n := by simp [empty, rank]

@[simp] theorem rank_single (n slot : Nat) : (single n slot).rank = n := by simp [single, rank]

@[simp] theorem rank_withRuntime (s : DependencySet) : s.withRuntime.rank = s.rank := rfl

@[simp] theorem rank_withCoordinates (s : DependencySet) : s.withCoordinates.rank = s.rank := rfl

/-- A combination of sets of one rank has that rank. -/
theorem rank_of_combine_eq_ok {operation : SetOperation} {f : Bool → Bool → Bool}
    {s t u : DependencySet} (h : combine operation f s t = .ok u) : u.rank = s.rank := by
  simp only [combine] at h
  split at h
  case isTrue hr =>
    cases h
    simp only [rank] at hr ⊢
    simp [hr]
  case isFalse => simp at h

end DependencySet

end FormStaging
