import BasicToC.Tree.Basic

/-!
# Programs

The statements of the language, in the form in which a program is read.

* `Chain`: operands joined by operators of one level, in the order in which they are written.
* `Factor`, `Term`, `Expression`, `Comparison`: what is computed.
* `Statement`, `Program`: what is done.
* `Statement.tree`, `Program.tree`: the general form, in which chains nest to the right.
-/

set_option autoImplicit false

namespace BasicToC

/-- A first operand, and for each further one the operator in front of it. -/
structure Chain (Op α : Type) where
  first : α
  rest : List (Op × α)
  deriving DecidableEq, Repr

/-- The operators of a sum, which also serve as signs. -/
inductive Additive where
  | plus
  | minus
  deriving DecidableEq, Repr

/-- The operators of a product. -/
inductive Multiplicative where
  | times
  | over
  deriving DecidableEq, Repr

/-- The operators of a comparison. -/
inductive Relation where
  | eq | notEq | gt | gtEq | lt | ltEq
  deriving DecidableEq, Repr

/-- A number or a variable. -/
inductive Operand where
  | integer (value : Value)
  | float (value : Value)
  | variable (name : Value)
  deriving DecidableEq, Repr

/-- An operand with an optional sign. -/
structure Factor where
  sign : Option Additive
  operand : Operand
  deriving DecidableEq, Repr

/-- Factors that are multiplied and divided. -/
abbrev Term := Chain Multiplicative Factor

/-- Terms that are added and subtracted. -/
abbrev Expression := Chain Additive Term

/-- Expressions that are compared, or a single one. -/
abbrev Comparison := Chain Relation Expression

/-- A statement. Names and texts are what their tokens carry. -/
inductive Statement where
  | print (expression : Expression)
  | printText (text : Value)
  | assign (name : Value) (expression : Expression)
  | input (name : Value)
  | label (name : Value)
  | goto (name : Value)
  | when (comparison : Comparison) (body : List Statement)
  | loop (comparison : Comparison) (body : List Statement)
  deriving Repr

/-- A program is a list of statements. -/
abbrev Program := List Statement

/-! ## Operators as tokens -/

/-- The kind of token of an operator. -/
def Additive.kind : Additive → Token.Kind
  | .plus => .plus
  | .minus => .minus

/-- The kind of token of an operator. -/
def Multiplicative.kind : Multiplicative → Token.Kind
  | .times => .asterisk
  | .over => .slash

/-- The kind of token of an operator. -/
def Relation.kind : Relation → Token.Kind
  | .eq => .eqEq
  | .notEq => .notEq
  | .gt => .gt
  | .gtEq => .gtEq
  | .lt => .lt
  | .ltEq => .ltEq

/-- The operator of a sum that a kind of token stands for. -/
def Additive.ofKind? : Token.Kind → Option Additive
  | .plus => some .plus
  | .minus => some .minus
  | _ => none

/-- The operator of a product that a kind of token stands for. -/
def Multiplicative.ofKind? : Token.Kind → Option Multiplicative
  | .asterisk => some .times
  | .slash => some .over
  | _ => none

/-- The operator of a comparison that a kind of token stands for. -/
def Relation.ofKind? : Token.Kind → Option Relation
  | .eqEq => some .eq
  | .notEq => some .notEq
  | .gt => some .gt
  | .gtEq => some .gtEq
  | .lt => some .lt
  | .ltEq => some .ltEq
  | _ => none

/-! ## The general form -/

/-- The nodes of one level of a chain: `node` puts an operand in front of an operator and the rest,
both of which are nothing behind the last operand. -/
def nest (node : Tree → Tree → Tree → Tree) (first : Tree) : List (Token.Kind × Tree) → Tree
  | [] => node first .nothing .nothing
  | (kind, second) :: rest => node first (.symbol kind) (nest node second rest)

/-- A chain as nodes that nest to the right. -/
def Chain.tree {Op α : Type} (node : Tree → Tree → Tree → Tree) (kind : Op → Token.Kind)
    (tree : α → Tree) (chain : Chain Op α) : Tree :=
  nest node (tree chain.first) (chain.rest.map fun link => (kind link.1, tree link.2))

/-- An operand as a node. -/
def Operand.tree : Operand → Tree
  | .integer value => .integer (.leaf value)
  | .float value => .float (.leaf value)
  | .variable name => .variable (.leaf name)

/-- A factor as a node. -/
def Factor.tree (factor : Factor) : Tree :=
  .unary factor.operand.tree
    (match factor.sign with
    | some sign => .symbol sign.kind
    | none => .nothing)

/-- A term as nodes. -/
def Term.tree (term : Term) : Tree := Chain.tree .term Multiplicative.kind Factor.tree term

/-- An expression as nodes. -/
def Expression.tree (expression : Expression) : Tree :=
  Chain.tree .expression Additive.kind Term.tree expression

/-- A comparison as nodes. -/
def Comparison.tree (comparison : Comparison) : Tree :=
  Chain.tree .comparison Relation.kind Expression.tree comparison

mutual

/-- A statement as a node. -/
def Statement.tree : Statement → Tree
  | .print expression => .print (Expression.tree expression)
  | .printText text => .printText (.leaf text)
  | .assign name expression => .assign (.leaf name) (Expression.tree expression)
  | .input name => .input (.leaf name)
  | .label name => .label (.leaf name)
  | .goto name => .goto (.leaf name)
  | .when comparison body => .when (Comparison.tree comparison) (Program.tree body)
  | .loop comparison body => .loop (Comparison.tree comparison) (Program.tree body)

/-- A list of statements as a chain. -/
def Program.tree : List Statement → Tree
  | [] => .done
  | statement :: rest => .sequence statement.tree (Program.tree rest)

end

end BasicToC
