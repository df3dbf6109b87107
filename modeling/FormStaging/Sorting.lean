/-!
# Stable sorting

Ascending order by a key. Entries with equal keys keep their order.
-/

set_option autoImplicit false

namespace FormStaging

variable {α β : Type} [Ord β]

/-- The list in ascending order of a key. -/
def ascendingBy (key : α → β) (l : List α) : List α :=
  l.mergeSort fun a b => (compare (key a) (key b)).isLE

/-- The positions of the entries of a list, in ascending order of the entries. -/
def sortedPositions (l : List β) : List Nat := (ascendingBy Prod.fst l.zipIdx).map Prod.snd

end FormStaging
