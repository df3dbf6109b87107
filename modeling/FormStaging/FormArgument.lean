import FormStaging.Index

/-!
# Arguments and coefficients of a form

The two kinds of terminals that a form numbers with slots. An `Argument` stands for a basis
function (the test function has number `0`, the trial function number `1`). A `Coefficient` is a
function whose values are known only at run time. Both are ordered lexicographically by their
fields.
-/

set_option autoImplicit false

namespace FormStaging

/-- A basis function of a form. The shape is that of its values; empty for scalar elements. -/
structure Argument where
  number : Nat
  shape : Shape
deriving DecidableEq, Hashable, Repr

/-- A coefficient of a form, identified by its count. The name is for printing only, yet two
coefficients that differ in name are different. -/
structure Coefficient where
  count : Nat
  name : Option String
  shape : Shape
deriving DecidableEq, Hashable, Repr

namespace Argument

/-- Arguments are ordered by number, then by shape. -/
instance : Ord Argument where
  compare := compareLex (compareOn Argument.number) (compareOn Argument.shape)

/-- The written form shows the number only. -/
def text (a : Argument) : String := "v_" ++ toString a.number

end Argument

namespace Coefficient

/-- Coefficients are ordered by count, then by name (a missing name comes first), then by shape. -/
instance : Ord Coefficient where
  compare :=
    compareLex (compareOn Coefficient.count)
      (compareLex (compareOn Coefficient.name) (compareOn Coefficient.shape))

/-- The name of the coefficient, or one made from its count. -/
def text (c : Coefficient) : String := c.name.getD ("w_" ++ toString c.count)

end Coefficient

end FormStaging
