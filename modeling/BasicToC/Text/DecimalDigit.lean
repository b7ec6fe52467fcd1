/-!
# Decimal digits of all scripts

The decimal digits of version 14 of the Unicode character database (general category Nd) come in
runs of ten, from the zero of a script to its nine.

* `zeroDigits`: the zeros.
* `decimalDigit?`: the number that a digit of any script stands for.
* `decimalValue`: the number that digits spell.
-/

set_option autoImplicit false

namespace BasicToC.Text

/-- The code points of the zeros, in increasing order. -/
def zeroDigits : List Nat := [
  48, 1632, 1776, 1984, 2406, 2534, 2662, 2790, 2918, 3046, 3174, 3302, 3430, 3558, 3664, 3792,
  3872, 4160, 4240, 6112, 6160, 6470, 6608, 6784, 6800, 6992, 7088, 7232, 7248, 42528, 43216,
  43264, 43472, 43504, 43600, 44016, 65296, 66720, 68912, 69734, 69872, 69942, 70096, 70384,
  70736, 70864, 71248, 71360, 71472, 71904, 72016, 72784, 73040, 73120, 92768, 92864, 93008,
  120782, 120792, 120802, 120812, 120822, 123200, 123632, 125264, 130032]

/-- The number that a digit of any script stands for. -/
def decimalDigit? (c : Char) : Option Nat :=
  (zeroDigits.find? fun first => first ≤ c.toNat && c.toNat ≤ first + 9).map (c.toNat - ·)

/-- Whether a character is a decimal digit of some script. -/
def isDecimalDigit (c : Char) : Bool := (decimalDigit? c).isSome

/-- The number that digits spell, most significant first; any other character counts as a zero. -/
def decimalValue (digits : List Char) : Nat :=
  digits.foldl (fun n c => n * 10 + (decimalDigit? c).getD 0) 0

end BasicToC.Text
