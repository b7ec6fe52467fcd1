import BasicToC.Decimal.Shortest

/-!
# Numbers in writing

* `Layout`: where digits are set out in full, and how an exponent is written.
* `Binary64.text`: a binary64 number in its shortest form.
* `digitsValue`: the number that digits spell.
-/

set_option autoImplicit false

namespace BasicToC

/-- How a decimal is set out: digits in full when the power of ten of the first digit lies from
`fullFrom` up to but not including `fullBelow`, otherwise one digit, a point and an exponent of at
least `exponentDigits` digits with its sign. -/
structure Layout where
  fullFrom : Int
  fullBelow : Int
  exponentDigits : Nat
  deriving DecidableEq, Repr

/-- Numbers stand in full from a ten-thousandth up to sixteen digits before the point. -/
def Layout.standard : Layout := ⟨-4, 16, 2⟩

/-- The decimal digits of a number. -/
def decimalDigits (n : Nat) : List Char := Nat.toDigits 10 n

namespace Decimal

/-- A decimal set out in full; a whole number ends in a point and a zero. -/
def inFull (digits : List Char) (exponent : Int) : List Char :=
  if 0 ≤ exponent then digits ++ List.replicate exponent.toNat '0' ++ ['.', '0']
  else
    let places := (-exponent).toNat
    if places < digits.length then
      digits.take (digits.length - places) ++ '.' :: digits.drop (digits.length - places)
    else '0' :: '.' :: (List.replicate (places - digits.length) '0' ++ digits)

/-- A decimal with one digit before the point and the power of ten behind an `e`. -/
def withExponent (width : Nat) (digits : List Char) (power : Int) : List Char :=
  let size := decimalDigits power.natAbs
  let mantissa :=
    match digits with
    | first :: second :: more => first :: '.' :: second :: more
    | short => short
  mantissa ++ 'e' :: (if power < 0 then '-' else '+') ::
    (List.replicate (width - size.length) '0' ++ size)

/-- A decimal set out by a layout. -/
def chars (layout : Layout) (decimal : Decimal) : List Char :=
  let digits := decimalDigits decimal.digits
  let power : Int := decimal.exponent + digits.length - 1
  if layout.fullFrom ≤ power ∧ power < layout.fullBelow then inFull digits decimal.exponent
  else withExponent layout.exponentDigits digits power

end Decimal

namespace Binary64

/-- A binary64 number written with the fewest digits that read back as it. -/
def chars : Binary64 → List Char
  | .undefined => "nan".toList
  | .infinite negative => (if negative then "-inf" else "inf").toList
  | .finite negative significand exponent =>
    let size := if significand == 0 then "0.0".toList
      else (Decimal.shortest significand exponent).chars Layout.standard
    if negative then '-' :: size else size

/-- A binary64 number written with the fewest digits that read back as it. -/
def text (x : Binary64) : String := String.ofList x.chars

end Binary64

/-- The number spelt by decimal digits, most significant first. -/
def digitsValue (digits : List Char) : Nat :=
  digits.foldl (fun n c => n * 10 + (c.toNat - '0'.toNat)) 0

end BasicToC
