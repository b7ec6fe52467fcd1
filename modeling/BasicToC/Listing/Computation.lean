import BasicToC.Listing.Writer
import BasicToC.Token.Lexeme

/-!
# Writing what is computed

Operands and operators are written in the order of the program, with single blanks between them and
no brackets: both languages bind in the same way.

* `Tree.isLong`, `numeral`: numbers, which are written with so many digits at most.
* `operand`, `factor`, `term`, `expression`, `comparison`: the text for a tree of that level.
-/

set_option autoImplicit false

namespace BasicToC

/-- A whole number of more digits than numbers are read or written with. -/
def Tree.isLong : Tree → Bool
  | .leaf (.whole n) => Lexeme.maxDigits < (decimalDigits n.natAbs).length
  | _ => false

namespace Write

/-- What is written for a number, given its value and its text. -/
def numeral (value : Tree) (text : String) : Write Tree :=
  if value.isLong then throw .tooLong else pure (.leaf (.text text))

/-- What is written for a number or a variable. A bare value in its place is left as it is. -/
def operand : Tree → Write Tree
  | .integer value => numeral value value.shown
  | .float value => numeral value value.record
  | .variable named => name named
  | other => throw (.notOperand other)

/-- What is written for an operator or a sign. -/
def operatorText : Tree → Write (Option String)
  | .leaf .absent => pure none
  | .symbol kind => pure (some kind.spelling)
  | _ => throw .noField

/-- What is written for an operand with its sign. -/
def factor : Tree → Write String
  | .unary primary operator => do
    let sign ← operatorText operator
    match ← operand primary with
    | .leaf (.text text) => pure (sign.getD "" ++ text)
    | _ => throw .notText
  | _ => throw .noField

/-- The pieces of a term. -/
def termPieces : Tree → Write (List String)
  | .term first operator rest => do
    let text ← factor first
    match ← operatorText operator with
    | none => pure [text]
    | some sign => pure (text :: sign :: (← termPieces rest))
  | _ => throw .noField

/-- What is written for a term. -/
def term (tree : Tree) : Write String := do
  pure (String.intercalate " " (← termPieces tree))

/-- The pieces of an expression. -/
def expressionPieces : Tree → Write (List String)
  | .expression first operator rest => do
    let text ← term first
    match ← operatorText operator with
    | none => pure [text]
    | some sign => pure (text :: sign :: (← expressionPieces rest))
  | _ => throw .noField

/-- What is written for an expression. -/
def expression (tree : Tree) : Write String := do
  pure (String.intercalate " " (← expressionPieces tree))

/-- The pieces of a comparison. -/
def comparisonPieces : Tree → Write (List String)
  | .comparison first operator rest => do
    let text ← expression first
    match ← operatorText operator with
    | none => pure [text]
    | some sign => pure (text :: sign :: (← comparisonPieces rest))
  | _ => throw .noField

/-- What is written for a comparison. -/
def comparison (tree : Tree) : Write String := do
  pure (String.intercalate " " (← comparisonPieces tree))

end Write

end BasicToC
