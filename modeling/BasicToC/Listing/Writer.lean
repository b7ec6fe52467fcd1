import BasicToC.Text.Columns
import BasicToC.Trace
import BasicToC.Tree.Record

/-!
# Writing C

A writer keeps the lines written so far, how far in it writes, and the variables that still wait
for their declaration. A variable is declared where its name is first written.

* `Writer`: what is kept.
* `Write`: a step of writing, which ends with a result or a fault.
* `line`, `header`, `name`: the steps that all others are made of.
-/

set_option autoImplicit false

namespace BasicToC

/-- The lines written so far, how far in the next one stands, and the variables that still wait for
their declaration. -/
structure Writer where
  tree : Tree
  declared : List Value
  pending : List Value := []
  headers : Array String := #[]
  code : Array String := #[]
  depth : Int := 0
  notes : List Event := []
  deriving DecidableEq, Repr

namespace Writer

/-- Why a tree cannot be written: a statement of no known sort; a body that is no chain; a node
without the field that is asked for; a node that is no operand; a name that is no text; a number of
too many digits; bodies that are nested too deep; names without a place that cannot be put in
order. -/
inductive Fault where
  | noStatement
  | notChain
  | noField
  | notOperand (tree : Tree)
  | notText
  | tooLong
  | tooDeep
  | unordered
  deriving DecidableEq, Repr

end Writer

/-- A step of writing. -/
abbrev Write := EStateM Writer.Fault Writer

namespace Write

/-- Writes a line of code. -/
def line (code : String) : Write Unit :=
  modify fun writer => { writer with code := writer.code.push (Text.indentation writer.depth ++ code) }

/-- Writes a line in front of the code. -/
def header (text : String) : Write Unit :=
  modify fun writer => { writer with headers := writer.headers.push text }

/-- Moves the lines that follow in or out. -/
def shift (steps : Int) : Write Unit :=
  modify fun writer => { writer with depth := writer.depth + steps }

/-- What is written for a name: with its declaration in front if it still waits for that. -/
def name (tree : Tree) : Write Tree := do
  match tree with
  | .leaf value =>
    let writer ← get
    if value.isIn writer.pending then
      set { writer with pending := writer.pending.filter fun other => !value.same other }
      pure (.leaf (.text ("float " ++ value.shown)))
    else pure tree
  | _ => pure tree

end Write

end BasicToC
