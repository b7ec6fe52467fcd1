import BasicToC.Program.Computation

/-!
# Reading what is done

    program   ::= {statement}
    statement ::= PRINT (expression | string) line-end
                | IF comparison THEN line-end {statement} ENDIF line-end
                | WHILE comparison REPEAT line-end {statement} ENDWHILE line-end
                | LABEL name line-end
                | GOTO name line-end
                | LET name "=" expression line-end
                | INPUT name line-end

Blank lines may stand in front of a statement, of the end of a block and of the end of the program.

* `statement`: a statement, given how deep blocks may still be nested.
* `block`: the statements of a block and its end.
* `program`: a whole program, in which every label that is jumped to is declared.
-/

set_option autoImplicit false

namespace BasicToC.Read

/-- The most blocks that may stand in one another. -/
def maxNesting : Nat := 325

/-- The statements up to the end of a block, given how one is read. Every round takes a token, so
the tokens ahead at the start are enough to count the rounds by. -/
def blockRounds (statement : Read Statement) (opener closer : Token.Kind) :
    (rounds : List Token) → Read (List Statement)
  | [] => throw .exhausted
  | _ :: rounds => do
    skipLineEnds
    let token ← peek
    if token.kind == closer then
      let _ ← advance
      lineEnd closer.spelling
      pure []
    else if token.kind == .eof then refuse (.closerMissing opener closer) token
    else
      let first ← statement
      let rest ← blockRounds statement opener closer rounds
      pure (first :: rest)

/-- The statements of a block, its end and the line end behind that. -/
def blockOf (statement : Read Statement) (opener closer : Token.Kind) : Read (List Statement) := do
  blockRounds statement opener closer (← get).ahead

/-- What follows `PRINT`. -/
def printRest : Read Statement := do
  let token ← peek
  let statement ← if token.kind == .string then do
      let _ ← advance
      pure (Statement.printText token.value)
    else do
      pure (Statement.print (← expression))
  lineEnd "PRINT"
  pure statement

/-- What follows `IF`, given how the statements of its block are read. -/
def whenRest (statement : Read Statement) : Read Statement := do
  let condition ← comparison
  let _ ← expect .andThen "IF"
  lineEnd "THEN"
  pure (.when condition (← blockOf statement .when .endWhen))

/-- What follows `WHILE`, given how the statements of its block are read. -/
def loopRest (statement : Read Statement) : Read Statement := do
  let condition ← comparison
  let _ ← expect .again "WHILE"
  lineEnd "REPEAT"
  pure (.loop condition (← blockOf statement .loop .endLoop))

/-- What follows `LABEL`; no label is declared twice. -/
def labelRest : Read Statement := do
  let token ← peek
  let name ← identifier "LABEL"
  if name.isIn (← get).names.labels then refuse (.labelRepeated name) token
  modify fun reader => { reader with names := reader.names.addLabel name }
  lineEnd "LABEL"
  pure (.label name)

/-- What follows `GOTO`. Whether the label is declared is only known at the end of the program. -/
def gotoRest : Read Statement := do
  let token ← peek
  let name ← identifier "GOTO"
  modify fun reader => { reader with names := reader.names.addJump name token }
  lineEnd "GOTO"
  pure (.goto name)

/-- What follows `LET`. The variable is declared before its expression is read. -/
def assignRest : Read Statement := do
  let name ← identifier "LET"
  modify fun reader => { reader with names := reader.names.addVariable name }
  let _ ← expect .eq ("LET " ++ name.shown)
  let value ← expression
  lineEnd "LET"
  pure (.assign name value)

/-- What follows `INPUT`. -/
def inputRest : Read Statement := do
  let name ← identifier "INPUT"
  modify fun reader => { reader with names := reader.names.addVariable name }
  lineEnd "INPUT"
  pure (.input name)

/-- A statement in which at most `depth` blocks stand in one another. -/
def statement : (depth : Nat) → Read Statement
  | 0 => throw .tooDeep
  | depth + 1 => do
    skipLineEnds
    note (.statementAt (← peek))
    let token ← peek
    match token.kind with
    | .print => do let _ ← advance; printRest
    | .when => do let _ ← advance; whenRest (statement depth)
    | .loop => do let _ ← advance; loopRest (statement depth)
    | .label => do let _ ← advance; labelRest
    | .goto => do let _ ← advance; gotoRest
    | .assign => do let _ ← advance; assignRest
    | .input => do let _ ← advance; inputRest
    | _ => refuse (.statementExpected token) token

/-- The statements of a block, its end and the line end behind that. -/
def block (opener closer : Token.Kind) : Read (List Statement) :=
  blockOf (statement maxNesting) opener closer

/-- The statements up to the end of the program, counted like those of a block. -/
def statements : (rounds : List Token) → Read (List Statement)
  | [] => throw .exhausted
  | _ :: rounds => do
    skipLineEnds
    if (← peek).kind == .eof then pure []
    else
      let first ← statement maxNesting
      let rest ← statements rounds
      pure (first :: rest)

/-- Reads a whole program from its first token. -/
def program : Read Program := do
  modify fun reader => { reader.moveTo reader.tokens 0 with names := {} }
  let program ← statements (← get).ahead
  match (← get).names.strayJump? with
  | some (label, token) => refuse (.labelUndeclared label) token
  | none =>
    match sortedValues? (← get).names.declared with
    | none => throw .unordered
    | some declared =>
      note (.programRead program.length declared)
      pure program

end BasicToC.Read
