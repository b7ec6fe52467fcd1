import BasicToC.Token.Kind
import BasicToC.Value

/-!
# Trees

The general form of a program that is drawn, compared and written out. A tree need not be one that
a program has: any tree may stand in any field, and a field may hold a bare value or nothing.

* `Tree`: the nodes, with their fields in the order in which they are shown.
* `Tree.same`: equality of trees, in which numbers count by value.
* `Tree.elements`: the statements of a chain, each in front of the rest.
* `Tree.ofList`: the chain of a list of statements.
* `Tree.nested?`: operands and operators as nodes.
-/

set_option autoImplicit false

namespace BasicToC

/-- A node with its fields, or what stands in a field where there is no node: a bare value, nothing
(the absent value), or an operator. -/
inductive Tree where
  | leaf (value : Value)
  | symbol (kind : Token.Kind)
  | integer (value : Tree)
  | float (value : Tree)
  | variable (name : Tree)
  | unary (primary operator : Tree)
  | term (unary operator rest : Tree)
  | expression (term operator rest : Tree)
  | comparison (left operator right : Tree)
  | print (expression : Tree)
  | printText (text : Tree)
  | assign (name expression : Tree)
  | input (name : Tree)
  | label (name : Tree)
  | goto (name : Tree)
  | when (comparison body : Tree)
  | loop (comparison body : Tree)
  | done
  | sequence (first rest : Tree)
  deriving DecidableEq, Repr

namespace Tree

/-- A field that holds nothing. -/
abbrev nothing : Tree := .leaf .absent

/-- Whether a tree is a node and not what stands in a field instead of one. -/
def isNode : Tree → Bool
  | .leaf _ | .symbol _ => false
  | _ => true

/-- Whether two trees are equal: nodes of one sort with equal fields. -/
def same : Tree → Tree → Bool
  | .leaf v, .leaf w => v.same w
  | .symbol k, .symbol l => k == l
  | .integer v, .integer w => v.same w
  | .float v, .float w => v.same w
  | .variable n, .variable m => n.same m
  | .unary p o, .unary q r => p.same q && o.same r
  | .term u o r, .term v p s => u.same v && o.same p && r.same s
  | .expression t o r, .expression u p s => t.same u && o.same p && r.same s
  | .comparison l o r, .comparison m p s => l.same m && o.same p && r.same s
  | .print e, .print f => e.same f
  | .printText t, .printText u => t.same u
  | .assign n e, .assign m f => n.same m && e.same f
  | .input n, .input m => n.same m
  | .label n, .label m => n.same m
  | .goto n, .goto m => n.same m
  | .when c b, .when d a => c.same d && b.same a
  | .loop c b, .loop d a => c.same d && b.same a
  | .done, .done => true
  | .sequence f r, .sequence g s => f.same g && r.same s
  | _, _ => false

/-- The statements of a chain in order; whatever a chain ends in is left out. -/
def elements : Tree → List Tree
  | .sequence first rest => first :: rest.elements
  | _ => []

/-- What a chain ends in. -/
def tail : Tree → Tree
  | .sequence _ rest => rest.tail
  | end_ => end_

/-- A list of statements chained in front of a tree. -/
def chainOnto (last : Tree) (statements : List Tree) : Tree := statements.foldr .sequence last

/-- Operands with operators between them, nested to the right by `node`, which puts an operand in
front of an operator and the rest. Both lists are paired from their ends, and what is left over at
the front of one is left out. There is no chain without an operand. -/
def nested? (node : Tree → Tree → Tree → Tree) (operands : List Tree)
    (operators : List Token.Kind) : Option Tree :=
  match operands.reverse with
  | [] => none
  | last :: before =>
    some ((before.zip operators.reverse).foldl
      (fun rest pair => node pair.1 (.symbol pair.2) rest) (node last .nothing .nothing))

/-- The chain of a list of statements. -/
def ofList (statements : List Tree) : Tree := chainOnto .done statements

end Tree

end BasicToC
