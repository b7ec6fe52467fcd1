import BasicToC.Message.Basic
import BasicToC.Token.Basic

/-!
# Complaints

What can be wrong with a program, and how it is said.

* `Complaint`: the ways in which a program is refused.
* `Complaint.category`: the stage of reading that refuses it.
* `Complaint.message`: the message, with the offending text as its values.
* `Rejection`: a complaint and the stretch of a line it is about.
-/

set_option autoImplicit false

namespace BasicToC

/-- The stage of reading at which a fault shows. -/
inductive Category where
  | general
  | lexical
  | grammar
  | meaning
  deriving DecidableEq, Repr

/-- The words in front of the messages of a category. -/
def Category.title : Category → String
  | .general => "error"
  | .lexical => "lexical error"
  | .grammar => "syntax error"
  | .meaning => "semantic error"

/-- The ways in which a program is refused. -/
inductive Complaint where
  | unclosedText (text : String)
  | malformedNumber (lexeme : String)
  | realTooLarge (lexeme : String)
  | wholeTooLarge (lexeme : String)
  | unknownCharacter (character : String)
  | statementExpected (found : Token)
  | closerMissing (opener closer : Token.Kind)
  | identifierExpected (after : String) (found : Token)
  | newlineExpected (after : String) (found : Token)
  | tokenExpected (after : String) (kind : Token.Kind) (found : Token)
  | operandExpected (found : Token)
  | labelRepeated (name : Value)
  | labelUndeclared (name : Value)
  | variableUnassigned (name : Value)
  deriving DecidableEq, Repr

namespace Complaint

/-- The stage of reading that makes a complaint. -/
def category : Complaint → Category
  | .unclosedText _ | .malformedNumber _ | .realTooLarge _ | .wholeTooLarge _
  | .unknownCharacter _ => .lexical
  | .statementExpected _ | .closerMissing .. | .identifierExpected .. | .newlineExpected ..
  | .tokenExpected .. | .operandExpected _ => .grammar
  | .labelRepeated _ | .labelUndeclared _ | .variableUnassigned _ => .meaning

/-- What a complaint says. -/
def message : Complaint → Message
  | .unclosedText text => [.words "unterminated string literal ", .value text]
  | .malformedNumber lexeme => [.words "malformed numeric literal '", .value lexeme, .words "'"]
  | .realTooLarge lexeme =>
    [.words "float literal '", .value lexeme, .words "' is out of range"]
  | .wholeTooLarge lexeme =>
    [.words "integer literal '", .value lexeme, .words "' does not fit in 64 bits"]
  | .unknownCharacter character => [.words "unrecognized character ", .value character]
  | .statementExpected found => [.words "expected a statement, got ", .value found.shown]
  | .closerMissing opener closer =>
    [.value opener.spelling, .words " block is missing ", .value closer.spelling]
  | .identifierExpected after found =>
    [.value after, .words " should be followed by an identifier, got ", .value found.shown]
  | .newlineExpected after found =>
    [.words "expected newline after ", .value after, .words ", got ", .value found.shown]
  | .tokenExpected after kind found =>
    [.value after, .words " should be followed by ", .value kind.spelling, .words ", got ",
      .value found.shown]
  | .operandExpected found => [.words "expected a number or variable, got ", .value found.shown]
  | .labelRepeated name => [.words "label ", .value name.shown, .words " already exists"]
  | .labelUndeclared name => [.words "attempt to GOTO undeclared label ", .value name.shown]
  | .variableUnassigned name =>
    [.words "variable ", .value name.shown, .words " referenced before assignment"]

/-- Whether a complaint is about a name that its token does not carry; such a one cannot be put
into words. -/
def isNameless : Complaint → Bool
  | .labelRepeated name | .labelUndeclared name | .variableUnassigned name => name == .absent
  | _ => false

end Complaint

/-- A complaint and what it is about: a line, counted from one, and the stretch of that line from
column `start` up to column `stop`, counted from zero. -/
structure Rejection where
  complaint : Complaint
  line : Option Int
  start : Int
  stop : Int
  deriving DecidableEq, Repr

end BasicToC
