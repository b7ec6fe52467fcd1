/-!
# Columns

* `repeated`: one character over and over.
* `indentation`: the blanks in front of a line that is moved in.
-/

set_option autoImplicit false

namespace BasicToC.Text

/-- A text of `count` times the same character. -/
def repeated (c : Char) (count : Nat) : String := String.ofList (List.replicate count c)

/-- The blanks in front of a line that is moved in by some steps of four columns. -/
def indentation (steps : Int) : String := repeated ' ' (4 * steps.toNat)

end BasicToC.Text
