/-!
# Positions counted from either end

A position in a sequence of length `n` is an integer: a negative one counts back from the end.

* `fromStart`: a position as a distance from the start.
* `at?`: the element at a position, if there is one.
* `slice`: the elements between two positions, both cut back to the sequence.
* `upcoming?`: what is read by moving right from a position one step at a time.
* `find?`: the first place of an element at or after a position.
-/

set_option autoImplicit false

namespace BasicToC.Text

variable {α : Type}

/-- The distance from the start of a sequence of length `n` that the position `i` stands for. -/
def fromStart (n : Nat) (i : Int) : Int := if i < 0 then i + n else i

/-- The element at position `i`; none when the position lies outside the sequence. -/
def at? (items : List α) (i : Int) : Option α :=
  let k := fromStart items.length i
  if k < 0 then none else items[k.toNat]?

/-- The elements from position `start` up to position `stop`; a bound outside the sequence is moved
to its nearer end. -/
def slice (items : List α) (start stop : Int) : List α :=
  (items.take (fromStart items.length stop).toNat).drop (fromStart items.length start).toNat

/-- The elements met by moving right from position `i`. From a negative position the walk passes
the end once and goes on with the whole sequence; before the start of that there is nothing. -/
def upcoming? (items : List α) (i : Int) : Option (List α) :=
  if 0 ≤ i then some (items.drop i.toNat)
  else if 0 ≤ i + items.length then
    some (items.drop (i + items.length).toNat ++ items)
  else none

/-- The distance from the start of the first `x` at or after position `i`. -/
def find? [BEq α] (items : List α) (x : α) (i : Int) : Option Nat :=
  let start := (fromStart items.length i).toNat
  ((items.drop start).findIdx? (· == x)).map (· + start)

end BasicToC.Text
