import BasicToC.Program.Basic
import BasicToC.Program.Reader

/-!
# Reading what is computed

    comparison ::= expression {relation expression}
    expression ::= term {("+" | "-") term}
    term       ::= factor {("*" | "/") factor}
    factor     ::= ["+" | "-"] operand
    operand    ::= integer | float | name

* `chain`: operands of one level as long as their operators follow.
* `operand`, `factor`, `term`, `expression`, `comparison`: the rules above.
-/

set_option autoImplicit false

namespace BasicToC.Read

/-- The further operands of a chain, each behind its operator. Every round takes a token, so the
tokens ahead at the start are enough to count the rounds by. -/
def links {Op α : Type} (operator? : Token.Kind → Option Op) (operand : Read α) :
    (rounds : List Token) → Read (List (Op × α))
  | [] => throw .exhausted
  | _ :: rounds => do
    match operator? (← peek).kind with
    | none => pure []
    | some operator =>
      let _ ← advance
      let right ← operand
      let rest ← links operator? operand rounds
      pure ((operator, right) :: rest)

/-- Operands of one level, as long as their operators follow. -/
def chain {Op α : Type} (operator? : Token.Kind → Option Op) (operand : Read α) :
    Read (Chain Op α) := do
  let first ← operand
  let rest ← links operator? operand (← get).ahead
  pure ⟨first, rest⟩

/-- A number, or a variable that has been declared. -/
def operand : Read Operand := do
  note (.operandAt (← peek))
  let token ← advance
  match token.kind with
  | .integer => pure (.integer token.value)
  | .float => pure (.float token.value)
  | .ident =>
    if token.value.isIn (← get).names.declared then pure (.variable token.value)
    else refuse (.variableUnassigned token.value) token
  | _ => refuse (.operandExpected token) token

/-- An operand with an optional sign. -/
def factor : Read Factor := do
  match Additive.ofKind? (← peek).kind with
  | some sign =>
    let _ ← advance
    pure ⟨some sign, ← operand⟩
  | none => pure ⟨none, ← operand⟩

/-- Factors that are multiplied and divided. -/
def term : Read Term := chain Multiplicative.ofKind? factor

/-- Terms that are added and subtracted. -/
def expression : Read Expression := chain Additive.ofKind? term

/-- Expressions that are compared. -/
def comparison : Read Comparison := do
  note (.comparisonAt (← peek))
  chain Relation.ofKind? expression

end BasicToC.Read
