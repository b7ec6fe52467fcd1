/-!
# Binary64 numbers

A binary64 number is kept exactly: a sign, a significand and a power of two. Nothing here goes
through machine arithmetic, so every value is an exact fraction.

* `Binary64`: the finite numbers, both infinities and the undefined number.
* `Binary64.nearest`: the number nearest to a fraction, an exact half going to the even neighbour.
* `Binary64.ofDecimal`: the number that a decimal literal stands for.
* `Binary64.compare?`: the order by value, for which both zeros are one.
-/

set_option autoImplicit false

namespace BasicToC

/-- A binary64 number. A finite one is `± significand · 2 ^ exponent`; `nearest` keeps the
significand below `2 ^ 53` and the exponent between `-1074` and `971`. -/
inductive Binary64 where
  | finite (negative : Bool) (significand : Nat) (exponent : Int)
  | infinite (negative : Bool)
  | undefined
  deriving DecidableEq, Repr

namespace Binary64

/-- The whole number nearest to `num / den`, an exact half going to the even one. -/
def roundQuotient (num den : Nat) : Nat :=
  let whole := num / den
  let twice := 2 * (num % den)
  if twice < den then whole
  else if den < twice then whole + 1
  else whole + whole % 2

/-- The fraction `num / den` divided by `2 ^ exponent`, as a numerator and a denominator. -/
def scaled (num den : Nat) (exponent : Int) : Nat × Nat :=
  if 0 ≤ exponent then (num, den * Nat.pow 2 exponent.toNat)
  else (num * Nat.pow 2 (-exponent).toNat, den)

/-- The power of two of the last significant bit of `num / den`, where `num` is not zero: the one
that leaves 53 bits before it, but never below the least one. -/
def lastBit (num den : Nat) : Int :=
  let estimate : Int := (Nat.log2 num : Int) - (Nat.log2 den : Int)
  let (n, d) := scaled num den estimate
  max (if d ≤ n then estimate - 52 else estimate - 53) (-1074)

/-- The binary64 number nearest to `num / den`, with the given sign. -/
def nearest (negative : Bool) (num den : Nat) : Binary64 :=
  if num == 0 then .finite negative 0 (-1074)
  else
    let exponent := lastBit num den
    let (n, d) := scaled num den exponent
    let significand := roundQuotient n d
    if significand == Nat.pow 2 53 then
      if 970 < exponent then .infinite negative
      else .finite negative (Nat.pow 2 52) (exponent + 1)
    else if 971 < exponent then .infinite negative
    else .finite negative significand exponent

/-- The binary64 number nearest to `digits · 10 ^ exponent`. -/
def ofDecimal (negative : Bool) (digits : Nat) (exponent : Int) : Binary64 :=
  if 0 ≤ exponent then nearest negative (digits * Nat.pow 10 exponent.toNat) 1
  else nearest negative digits (Nat.pow 10 (-exponent).toNat)

/-- A finite number as a fraction, numerator and denominator. -/
def fraction? : Binary64 → Option (Int × Nat)
  | .finite negative significand exponent =>
    let size : Int :=
      if 0 ≤ exponent then significand * Nat.pow 2 exponent.toNat else significand
    some (if negative then -size else size,
      if 0 ≤ exponent then 1 else Nat.pow 2 (-exponent).toNat)
  | _ => none

/-- The order of a number and a fraction by value; none when the number is undefined. -/
def compareFraction? (x : Binary64) (num : Int) (den : Nat) : Option Ordering :=
  match x, x.fraction? with
  | .undefined, _ => none
  | .infinite negative, _ => some (if negative then .lt else .gt)
  | _, some (n, d) => some (compare (n * den) (num * d))
  | _, none => none

/-- The order of two numbers by value; none when one of them is undefined. -/
def compare? (x y : Binary64) : Option Ordering :=
  match y, y.fraction? with
  | .undefined, _ => none
  | _, some (n, d) => x.compareFraction? n d
  | .infinite negative, _ =>
    match x with
    | .undefined => none
    | .infinite other => some (compare negative.toNat other.toNat)
    | .finite .. => some (if negative then .gt else .lt)
  | .finite .., none => none

end Binary64

end BasicToC
