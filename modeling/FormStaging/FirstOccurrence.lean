import Std.Data.HashSet

/-!
# First occurrences

Several lists keep one element per key, the first that has it: the variables of an expression per
label, the coefficients of a form per count. `firstPer` walks the list once.
-/

set_option autoImplicit false

namespace FormStaging

variable {α κ : Type} [BEq κ] [Hashable κ]

/-- For each key its first element, in order. Elements without a key are left out. -/
def firstPer (key : α → Option κ) (l : List α) : List α :=
  go ∅ #[] l
where
  /-- Walks the rest of the list, knowing the keys met so far and the elements kept for them. -/
  go (met : Std.HashSet κ) (kept : Array α) : List α → List α
    | [] => kept.toList
    | a :: l =>
      match key a with
      | none => go met kept l
      | some k => if met.contains k then go met kept l else go (met.insert k) (kept.push a) l

end FormStaging
