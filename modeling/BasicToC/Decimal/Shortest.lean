import BasicToC.Decimal.Binary64

/-!
# Shortest decimals

Of all decimals that read back as a given binary64 number, the ones with the fewest digits are
found, and of those the nearest to the number.

* `Decimal`: a whole number of units of a power of ten.
* `Interval`: the numbers that round to a given binary64 number.
* `shortest`: the decimal that a positive number is written with.
-/

set_option autoImplicit false

namespace BasicToC

/-- The number `digits · 10 ^ exponent`. -/
structure Decimal where
  digits : Nat
  exponent : Int
  deriving DecidableEq, Repr

namespace Decimal

/-- The fractions `low / den` to `high / den` that round to `value / den`; the two ends count when
`closed` holds. -/
structure Interval where
  low : Nat
  value : Nat
  high : Nat
  den : Nat
  closed : Bool
  deriving DecidableEq, Repr

/-- The interval of `significand · 2 ^ exponent`. It reaches half way to each neighbour; the lower
neighbour of a power of two is only half as far away. An end rounds to the number when its
significand is even. -/
def Interval.around (significand : Nat) (exponent : Int) : Interval :=
  let below := if significand == Nat.pow 2 52 && -1074 < exponent then 1 else 2
  let closed := significand % 2 == 0
  let units := 4 * significand
  if 2 ≤ exponent then
    let scale := Nat.pow 2 (exponent - 2).toNat
    ⟨(units - below) * scale, units * scale, (units + 2) * scale, 1, closed⟩
  else ⟨units - below, units, units + 2, Nat.pow 2 (2 - exponent).toNat, closed⟩

/-- Whether `num / den` lies in the interval. -/
def Interval.contains (interval : Interval) (num den : Nat) : Bool :=
  let low := compare (interval.low * den) (num * interval.den)
  let high := compare (num * interval.den) (interval.high * den)
  (low == .lt || (low == .eq && interval.closed)) &&
    (high == .lt || (high == .eq && interval.closed))

/-- The least power of ten above `num / den`, counted up from `10 ^ (-found)` at first. -/
def powerAbove (num den : Nat) : (fuel : Nat) → (start : Int) → Int
  | 0, start => start
  | fuel + 1, start =>
    let reached :=
      if 0 ≤ start then num < den * Nat.pow 10 start.toNat
      else num * Nat.pow 10 (-start).toNat < den
    if reached then start else powerAbove num den fuel (start + 1)

/-- A rough power of ten that is not above `num / den`, from the lengths of the two in bits. -/
def roughPower (num den : Nat) : Int :=
  (((Nat.log2 num : Int) - (Nat.log2 den : Int) - 1) * 30103).fdiv 100000 - 1

/-- The point of the grid of multiples of `10 ^ exponent` that lies in the interval and nearest to
its value, of two equally near ones the even one. -/
def onGrid? (interval : Interval) (exponent : Int) : Option Decimal :=
  let up := if 0 ≤ exponent then 1 else Nat.pow 10 (-exponent).toNat
  let down := if 0 ≤ exponent then Nat.pow 10 exponent.toNat else 1
  let num := interval.value * up
  let den := interval.den * down
  let floor := num / den
  let inside (n : Nat) : Bool := interval.contains (n * down) up
  match inside floor, inside (floor + 1) with
  | true, true => some ⟨Binary64.roundQuotient num den, exponent⟩
  | true, false => some ⟨floor, exponent⟩
  | false, true => some ⟨floor + 1, exponent⟩
  | false, false => none

/-- The first hit on the grids of `count`, `count + 1`, … digits below the power `above`. -/
def firstHit (interval : Interval) (above : Int) : (fuel count : Nat) → Decimal
  | 0, _ => ⟨interval.value, 0⟩
  | fuel + 1, count =>
    match onGrid? interval (above - count) with
    | some decimal => decimal
    | none => firstHit interval above fuel (count + 1)

/-- A decimal without zeros at the end of its digits. -/
def stripped : (fuel : Nat) → Decimal → Decimal
  | 0, decimal => decimal
  | fuel + 1, decimal =>
    if decimal.digits % 10 == 0 then stripped fuel ⟨decimal.digits / 10, decimal.exponent + 1⟩
    else decimal

/-- The shortest decimal that reads back as the positive number `significand · 2 ^ exponent`.
Seventeen digits always suffice. -/
def shortest (significand : Nat) (exponent : Int) : Decimal :=
  let interval := Interval.around significand exponent
  let rough := roughPower interval.value interval.den
  let above := powerAbove interval.value interval.den 8 rough
  stripped 20 (firstHit interval above 17 1)

end Decimal

end BasicToC
