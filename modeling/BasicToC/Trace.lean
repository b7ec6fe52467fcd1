import BasicToC.Token.Basic

/-!
# Traces

What a run notes down as it goes.

* `Event`: the things that are noted.
* `Event.channel`, `Event.level`, `Event.note`: which part of the program notes it, how important it
  is, and in which words.
* `Event.line`: an event as a line of a log.
-/

set_option autoImplicit false

namespace BasicToC

/-- What is noted during a run. -/
inductive Event where
  | tokensRead (tokens : List Token)
  | statementAt (token : Token)
  | comparisonAt (token : Token)
  | operandAt (token : Token)
  | programRead (statements : Nat) (declared : List Value)
  | treeDrawn (outline : String)
  | neverDeclared (names : List Value)
  | fileWritten (path : String)
  deriving DecidableEq, Repr

namespace Event

/-- The part of the program that notes an event. -/
def channel : Event → String
  | .tokensRead _ => "basic_compiler.lang.lexical"
  | .statementAt _ | .comparisonAt _ | .operandAt _ | .programRead .. =>
    "basic_compiler.lang.parser"
  | .treeDrawn _ => "basic_compiler.compiler"
  | .neverDeclared _ => "basic_compiler.lang.emitter"
  | .fileWritten _ => "basic_compiler.lang.session"

/-- How important an event is. -/
def level : Event → String
  | .fileWritten _ => "INFO"
  | _ => "DEBUG"

/-- The words for an event. -/
def note : Event → String
  | .tokensRead tokens =>
    "scanned " ++ toString tokens.length ++ " tokens: " ++ recordList (tokens.map Token.record)
  | .statementAt token => "statement: current token " ++ token.record
  | .comparisonAt token => "comparison: current token " ++ token.record
  | .operandAt token => "primary: current token " ++ token.record
  | .programRead statements declared =>
    "parsed " ++ toString statements ++ " top-level statements, variables: " ++
      recordList (declared.map Value.record)
  | .treeDrawn outline => "grammar tree:\n" ++ outline
  | .neverDeclared names => "declared but never emitted: " ++ recordList (names.map Value.record)
  | .fileWritten path => "wrote " ++ path

/-- An event as a line of a log. -/
def line (event : Event) : String :=
  event.channel ++ " - " ++ event.level ++ " - " ++ event.note

end Event

end BasicToC
