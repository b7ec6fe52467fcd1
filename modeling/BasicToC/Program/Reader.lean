import BasicToC.Complaint
import BasicToC.Text.Slice
import BasicToC.Trace

/-!
# Reading from tokens

A reader moves through a list of tokens one at a time and keeps what a program has named so far. It
keeps its place and its names also when it fails.

* `Names`: the variables and labels declared so far, and the labels that are jumped to.
* `Reader`: the tokens, the place in them and the names.
* `Read`: a step of reading, which ends with a result or a fault.
* `peek`, `advance`, `skipLineEnds`, `expect`, `identifier`, `lineEnd`: the steps that all others are
  made of.
-/

set_option autoImplicit false

namespace BasicToC

/-- What a program has named so far. Each label that is jumped to stands with the first token that
names it, in the order of those. -/
structure Names where
  declared : List Value := []
  labels : List Value := []
  jumps : List (Value × Token) := []
  deriving DecidableEq, Repr

namespace Names

/-- A variable is declared. -/
def addVariable (names : Names) (name : Value) : Names :=
  { names with declared := name.insertInto names.declared }

/-- A label is declared. -/
def addLabel (names : Names) (name : Value) : Names :=
  { names with labels := name.insertInto names.labels }

/-- A label is jumped to; only the first jump to it is kept. -/
def addJump (names : Names) (name : Value) (token : Token) : Names :=
  if names.jumps.any fun jump => name.same jump.1 then names
  else { names with jumps := names.jumps ++ [(name, token)] }

/-- The first jump to a label that is nowhere declared. -/
def strayJump? (names : Names) : Option (Value × Token) :=
  names.jumps.find? fun jump => !jump.1.isIn names.labels

end Names

/-- The tokens of a program, the place in them, and the names. `ahead` holds the tokens from the
place on. The notes stand last one first. -/
structure Reader where
  tokens : List Token
  position : Int := 0
  ahead : List Token := tokens
  names : Names := {}
  notes : List Event := []
  deriving DecidableEq, Repr

namespace Reader

/-- The tokens of a program, closed by a mark for its end if there is none. -/
def closed (tokens : List Token) : List Token :=
  match tokens.getLast? with
  | some last => if last.kind == .eof then tokens else tokens ++ [{ kind := .eof }]
  | none => [{ kind := .eof }]

/-- A reader at the first token of a program. -/
def ofTokens (tokens : List Token) : Reader := { tokens := closed tokens }

/-- The same reader at another place, or among other tokens; a negative place counts from the
end. -/
def moveTo (reader : Reader) (tokens : List Token) (position : Int) : Reader :=
  { reader with
    tokens := tokens
    position := position
    ahead := (Text.upcoming? tokens position).getD [] }

/-- The same reader without the first `count` tokens ahead of it. -/
def skip (reader : Reader) (count : Nat) : Reader :=
  { reader with position := reader.position + count, ahead := reader.ahead.drop count }

/-- Why reading ends without a result: the program is refused; the tokens run out; a name without
a text would have to be complained of; blocks are nested too deep; the variables cannot be put in
order. -/
inductive Fault where
  | rejected (rejection : Rejection)
  | exhausted
  | nameless
  | tooDeep
  | unordered
  deriving DecidableEq, Repr

end Reader

/-- A step of reading. -/
abbrev Read := EStateM Reader.Fault Reader

namespace Read

/-- The stretch of a line that a token takes up; a token without a place is on no line. -/
def rejection (complaint : Complaint) (token : Token) : Rejection :=
  let start := max (token.column - 1) 0
  ⟨complaint, if token.line = 0 then none else some token.line, start,
    start + max (token.lexeme.length : Int) 1⟩

/-- Refuses the program because of a token. -/
def refuse {α : Type} (complaint : Complaint) (token : Token) : Read α :=
  if complaint.isNameless then throw .nameless
  else throw (.rejected (rejection complaint token))

/-- Notes an event. -/
def note (event : Event) : Read Unit :=
  modify fun reader => { reader with notes := event :: reader.notes }

/-- The token at the reader's place. -/
def peek : Read Token := do
  match (← get).ahead with
  | token :: _ => pure token
  | [] => throw .exhausted

/-- Takes the token at the reader's place; the mark for the end stays where it is. -/
def advance : Read Token := do
  let token ← peek
  if token.kind != .eof then modify (·.skip 1)
  pure token

/-- Passes over line ends. -/
def skipLineEnds : Read Unit := do
  modify fun reader => reader.skip (reader.ahead.takeWhile (·.kind == .newline)).length
  let _ ← peek

/-- Takes a token that has to be of a given kind. -/
def expect (kind : Token.Kind) (after : String) : Read Token := do
  let token ← advance
  if token.kind != kind then refuse (.tokenExpected after kind token) token
  pure token

/-- Takes a name. -/
def identifier (after : String) : Read Value := do
  let token ← advance
  if token.kind != .ident then refuse (.identifierExpected after token) token
  pure token.value

/-- Takes the line end behind a statement. -/
def lineEnd (after : String) : Read Unit := do
  let token ← advance
  if token.kind != .newline then refuse (.newlineExpected after token) token

end Read

end BasicToC
