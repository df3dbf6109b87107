import FormStaging.Decimal.Shortest

/-!
# Floating literals

A `Binary64` is a floating literal as its 64 bits. Literals are compared by their bits, so `0.0`
and `-0.0` are different. The written form is the shortest decimal that reads back, with a point
from `0.0001` up to below `10 ^ 16` and with an exponent outside. A literal is never a NaN; the
functions treat one as neither negative nor finite.
-/

set_option autoImplicit false

namespace FormStaging

namespace Decimal

/-- The exponents of the leading digit for which a decimal is written with a point only. -/
def positional (leading : Int) : Bool := decide (-4 ≤ leading) && decide (leading ≤ 15)

/-- A row of zeros. -/
def zeros (n : Nat) : String := String.ofList (List.replicate n '0')

/-- Digits with a point after the first `whole` of them; zeros fill the places without a digit. -/
def pointText (digits : List Char) (whole : Int) : String :=
  if whole ≤ 0 then "0." ++ zeros (-whole).toNat ++ String.ofList digits
  else if digits.length ≤ whole.toNat then
    String.ofList digits ++ zeros (whole.toNat - digits.length) ++ ".0"
  else String.ofList (digits.take whole.toNat) ++ "." ++ String.ofList (digits.drop whole.toNat)

/-- One digit before the point and an exponent; no point if there is one digit only. -/
def exponentText (digits : List Char) (leading : Int) : String :=
  String.ofList (digits.take 1) ++
    (if digits.length ≤ 1 then "" else "." ++ String.ofList (digits.drop 1)) ++
    "e" ++ toString leading

/-- The written form of a positive decimal. -/
def text (d : Decimal) : String :=
  let digits := Nat.toDigits 10 d.digits
  let leading := d.exponent + digits.length - 1
  if positional leading then pointText digits (leading + 1) else exponentText digits leading

end Decimal

/-- A floating literal. -/
structure Binary64 where
  bits : UInt64
deriving DecidableEq, Hashable, Repr

namespace Binary64

/-- The bits below the sign, as a number. They order the magnitudes. -/
def magnitude (x : Binary64) : Nat := x.bits.toNat % Nat.pow 2 63

/-- Whether the sign bit is set. -/
def signed (x : Binary64) : Bool := decide (Nat.pow 2 63 ≤ x.bits.toNat)

/-- The magnitude of an infinity; larger ones belong to NaNs. -/
def infinity : Nat := 0x7ff * Nat.pow 2 52

/-- Whether the value is less than zero. The negative zero is not. -/
def isNegative (x : Binary64) : Bool :=
  x.signed && decide (0 < x.magnitude) && decide (x.magnitude ≤ infinity)

/-- The interval of reals that are rounded to a finite positive magnitude. The significand is even
exactly if the ends belong to the interval, and the gap below a power of two is half as wide as the
gap above it. -/
def roundingInterval (magnitude : Nat) : RoundingInterval :=
  let exponent := magnitude / Nat.pow 2 52
  let fraction := magnitude % Nat.pow 2 52
  let significand := if exponent = 0 then fraction else Nat.pow 2 52 + fraction
  -- the value is `significand * 2 ^ scale / 2 ^ 1074`; quarters of its last place give the ends
  let scale := exponent - 1
  let narrow := fraction = 0 ∧ 1 < exponent
  { low := (if narrow then 4 * significand - 1 else 4 * significand - 2) * Nat.pow 2 scale
    value := 4 * significand * Nat.pow 2 scale
    high := (4 * significand + 2) * Nat.pow 2 scale
    halvings := 1076
    closed := significand % 2 == 0 }

/-- The written form of a magnitude. -/
def magnitudeText (magnitude : Nat) : String :=
  if magnitude = 0 then "0.0"
  else if magnitude < infinity then (roundingInterval magnitude).shortest.text
  else if magnitude = infinity then "inf"
  else "NaN"

/-- The written form of a literal: a minus sign if the sign bit is set, and the magnitude. -/
def text (x : Binary64) : String :=
  (if x.signed then "-" else "") ++ magnitudeText x.magnitude

end Binary64

end FormStaging
