/-!
# Edit distance

`editDistance s t` is the least number of insertions, deletions and replacements of characters that
turn `s` into `t`. It is computed row by row: the row of a prefix of `s` holds its distances to all
prefixes of `t`, and the next row needs the last one only.
-/

set_option autoImplicit false

namespace FormStaging

/-- The distances after one more character `c` of the first text. `above` holds the last row from
this place on, `corner` the entry of the last row one place to the left, and `left` the entry of the
new row one place to the left. -/
def editDistanceRow (c : Char) : List Char → (above : List Nat) → (corner left : Nat) → List Nat
  | d :: rest, up :: above, corner, left =>
    let entry := if c = d then corner else min (min left up) corner + 1
    entry :: editDistanceRow c rest above up entry
  | _, _, _, _ => []

/-- The row of a prefix of the first text, after the characters that remain of it. The first entry
of a row, the distance to the empty text, is kept apart. -/
def editDistanceRows (t : List Char) : List Char → (first : Nat) → (row : List Nat) → Nat
  | [], first, row => row.getLastD first
  | c :: rest, first, row =>
    editDistanceRows t rest (first + 1) (editDistanceRow c t row first (first + 1))

/-- The number of single-character edits between two texts. -/
def editDistance (s t : String) : Nat :=
  editDistanceRows t.toList s.toList 0 ((List.range t.toList.length).map (· + 1))

end FormStaging
