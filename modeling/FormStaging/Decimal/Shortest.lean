/-!
# The shortest decimal of a binary value

A binary floating value stands for an interval of reals: those that are rounded to it. The decimal
chosen for the value is one of the interval with the fewest digits, of these the nearest to the
value, and of two equally near ones the larger. The choice is made in exact natural arithmetic, by
trying ever finer decimal grids: on each grid only the two neighbours of the value can lie in the
interval if any point does.
-/

set_option autoImplicit false

namespace FormStaging

/-- The number `digits * 10 ^ exponent`. -/
structure Decimal where
  digits : Nat
  exponent : Int
deriving DecidableEq, Repr

namespace Decimal

/-- Compares a decimal with `numerator / 2 ^ halvings`, exactly. -/
def compareDyadic (d : Decimal) (numerator halvings : Nat) : Ordering :=
  compare (d.digits * Nat.pow 10 d.exponent.toNat * Nat.pow 2 halvings)
    (numerator * Nat.pow 10 (-d.exponent).toNat)

/-- The same number without trailing zero digits. -/
def trimZeros (d : Decimal) : Decimal :=
  if d.digits ≠ 0 ∧ d.digits % 10 = 0 then trimZeros ⟨d.digits / 10, d.exponent + 1⟩ else d
termination_by d.digits
decreasing_by
  rename_i h
  exact Nat.div_lt_self (Nat.pos_of_ne_zero h.1) (by decide)

end Decimal

/-- A positive binary value together with the ends of the interval of reals that are rounded to it.
The three numbers are numerators over `2 ^ halvings`. -/
structure RoundingInterval where
  low : Nat
  value : Nat
  high : Nat
  halvings : Nat
  /-- Whether the ends themselves are rounded to the value. -/
  closed : Bool
deriving DecidableEq, Repr

namespace RoundingInterval

/-- Whether the decimal is rounded to the value. -/
def contains (r : RoundingInterval) (d : Decimal) : Bool :=
  let fromBelow := d.compareDyadic r.low r.halvings
  let fromAbove := d.compareDyadic r.high r.halvings
  (fromBelow == .gt || (r.closed && fromBelow == .eq)) &&
    (fromAbove == .lt || (r.closed && fromAbove == .eq))

/-- The number of decimal digits of `n`; one for zero. -/
def digitCount (n : Nat) : Nat := (Nat.toDigits 10 n).length

/-- The exponent `e` with `10 ^ e ≤ value < 10 ^ (e + 1)`. -/
def leadingExponent (r : RoundingInterval) : Int :=
  let unit := Nat.pow 2 r.halvings
  if unit ≤ r.value then (digitCount (r.value / unit) : Int) - 1
  else -(digitCount ((unit - 1) / r.value) : Int)

/-- The largest multiple of `10 ^ exponent` that is at most the value, as a multiple. -/
def floorOn (r : RoundingInterval) (exponent : Int) : Nat :=
  r.value * Nat.pow 10 (-exponent).toNat / (Nat.pow 10 exponent.toNat * Nat.pow 2 r.halvings)

/-- The point of the grid of multiples of `10 ^ exponent` that stands for the value, if one lies in
the interval. Of two such points the nearer is taken, and the larger if they are equally near. -/
def gridPoint? (r : RoundingInterval) (exponent : Int) : Option Decimal :=
  let below : Decimal := ⟨r.floorOn exponent, exponent⟩
  let above : Decimal := ⟨r.floorOn exponent + 1, exponent⟩
  let middle : Decimal := ⟨2 * r.floorOn exponent + 1, exponent⟩
  if r.contains below then
    if r.contains above && middle.compareDyadic (2 * r.value) r.halvings != .gt then some above
    else some below
  else if r.contains above then some above
  else none

/-- The value itself, with all its digits. -/
def exact (r : RoundingInterval) : Decimal := ⟨r.value * Nat.pow 5 r.halvings, -(r.halvings : Int)⟩

/-- The shortest decimal that is rounded to the value. Seventeen digits suffice for every binary
value of 53 bits; the exact value stands behind the search, so that no guess is ever returned. -/
def shortest (r : RoundingInterval) : Decimal :=
  let tried := (List.range 17).findSome? fun n : Nat => r.gridPoint? (r.leadingExponent - n)
  (tried.getD r.exact).trimZeros

end RoundingInterval

end FormStaging
