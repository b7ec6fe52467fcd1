import BasicToC.Decimal.Notation
import BasicToC.Text.Quoted

/-!
# Values

What a token or a leaf of a tree carries, and what is set into a message.

* `Value`: nothing, a truth value, a whole number, a binary64 number or a text.
* `Value.shown`, `Value.record`: a value in running text and in a record of data.
* `Value.same`: equality by value, across the kinds of number.
* `sortedValues?`: values in increasing order, when they can be ordered.
-/

set_option autoImplicit false

namespace BasicToC

/-- What a token or a leaf of a tree carries. -/
inductive Value where
  | absent
  | flag (b : Bool)
  | whole (n : Int)
  | real (x : Binary64)
  | text (s : String)
  deriving DecidableEq, Repr

namespace Value

/-- A value as it stands in running text. -/
def shown : Value → String
  | .absent => "None"
  | .flag b => if b then "True" else "False"
  | .whole n => toString n
  | .real x => x.text
  | .text s => s

/-- A value as it stands in a record of data: a text is quoted. -/
def record : Value → String
  | .text s => Text.quoted s
  | v => v.shown

/-- A truth value counts as the number one or zero. -/
def counted : Value → Value
  | .flag b => .whole b.toInt
  | v => v

/-- The order of two numbers by value; none for values of which one is no number. -/
def compareNumbers? (v w : Value) : Option Ordering :=
  match v.counted, w.counted with
  | .whole a, .whole b => some (compare a b)
  | .whole a, .real y => (y.compareFraction? a 1).map Ordering.swap
  | .real x, .whole b => x.compareFraction? b 1
  | .real x, .real y => x.compare? y
  | _, _ => none

/-- Whether two values are equal: numbers by value, texts by their characters. -/
def same : Value → Value → Bool
  | .absent, .absent => true
  | .text s, .text t => s == t
  | v, w => v.compareNumbers? w == some .eq

/-- Whether a value stands before another or with it; none when the two cannot be ordered. -/
def notAfter? : Value → Value → Option Bool
  | .text s, .text t => some (decide (s ≤ t))
  | v, w => (v.compareNumbers? w).map (· != .gt)

/-- Whether a value is held in a list, by value. -/
def isIn (v : Value) (values : List Value) : Bool := values.any v.same

/-- A list of distinct values with one more put in. -/
def insertInto (v : Value) (values : List Value) : List Value :=
  if v.isIn values then values else values ++ [v]

/-- The distinct values of a list, in the order in which they first come. -/
def distinct (values : List Value) : List Value :=
  values.foldl (fun known v => v.insertInto known) []

end Value

/-- Values in increasing order; none when two of them cannot be ordered. -/
def sortedValues? (values : List Value) : Option (List Value) :=
  if values.all fun v => values.all fun w => v == w || (v.notAfter? w).isSome then
    some (values.mergeSort fun v w => (v.notAfter? w).getD true)
  else none

/-- A list of values in a record of data. -/
def recordList (items : List String) : String := "[" ++ String.intercalate ", " items ++ "]"

end BasicToC
