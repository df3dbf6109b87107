/-!
# Tensor indices

An index is a summation or component label with a range. Expressions keep an ordered list of the
indices that are still free; this module holds the two rules by which such lists are combined.
`Index.uncontracted` keeps what occurs exactly once, so that a repeated index is summed over;
`Index.distinct` keeps every index at its first occurrence.
-/

set_option autoImplicit false

namespace FormStaging

/-- The lengths of the axes of a tensor; empty for a scalar. -/
abbrev Shape := List Nat

/-- An index that ranges over `0, …, dim - 1`. Two indices are the same only if they agree in both
fields, so one identifier used with two dimensions gives two indices. -/
structure Index where
  id : Nat
  dim : Nat
deriving DecidableEq, Hashable, Repr

namespace Index

/-- Indices are ordered by identifier, then by dimension. -/
instance : Ord Index where
  compare := compareLex (compareOn Index.id) (compareOn Index.dim)

/-- The written form shows the identifier only. -/
def text (i : Index) : String := "i_" ++ toString i.id

/-- The indices that occur exactly once, in order. The others are contracted. -/
def uncontracted (l : List Index) : List Index := l.filter fun i => l.count i == 1

/-- Every index once, at its first occurrence. -/
def distinct (l : List Index) : List Index := l.eraseDups

theorem mem_uncontracted {l : List Index} {i : Index} : i ∈ uncontracted l ↔ l.count i = 1 := by
  simp only [uncontracted, List.mem_filter, beq_iff_eq, and_iff_right_iff_imp]
  intro h
  exact List.count_pos_iff.1 (by omega)

end Index

/-- One entry of a multi-index: a fixed component such as the `0` in `A[0, i]`, or an index. -/
inductive IndexItem where
  | fixed (component : Nat)
  | free (index : Index)
deriving DecidableEq, Hashable, Repr

namespace IndexItem

/-- The index of a free entry. -/
def index? : IndexItem → Option Index
  | fixed _ => none
  | free i => some i

/-- The written form of one entry. -/
def text : IndexItem → String
  | fixed component => toString component
  | free i => i.text

/-- The indices among the entries, repeats included. -/
def indices (items : List IndexItem) : List Index := items.filterMap index?

/-- The entries separated by commas, without brackets. -/
def listText (items : List IndexItem) : String := ", ".intercalate (items.map text)

end IndexItem

end FormStaging
