import BasicToC.Listing.Writer

/-!
# Fields of statements

What is written for a statement is taken from its fields. A tree need not have the one that is asked
for.

* `nameOf`, `expressionOf`, `textOf`, `comparisonOf`, `bodyOf`: the fields of a tree.
* `itemsOf`: the statements of a chain.
-/

set_option autoImplicit false

namespace BasicToC.Write

/-- The name in a tree. -/
def nameOf : Tree → Write Tree
  | .variable n | .assign n _ | .input n | .label n | .goto n => pure n
  | _ => throw .noField

/-- The expression in a tree. -/
def expressionOf : Tree → Write Tree
  | .print e | .assign _ e => pure e
  | _ => throw .noField

/-- The text in a tree. -/
def textOf : Tree → Write Tree
  | .printText t => pure t
  | _ => throw .noField

/-- The comparison in a tree. -/
def comparisonOf : Tree → Write Tree
  | .when c _ | .loop c _ => pure c
  | _ => throw .noField

/-- The body in a tree. -/
def bodyOf : Tree → Write Tree
  | .when _ b | .loop _ b => pure b
  | _ => throw .noField

/-- The statements of a chain, up to whatever ends it. The letters of a bare text count as its
elements, and none of them is a statement. -/
def itemsOf : Tree → Write (List Tree)
  | .sequence first rest => pure (first :: rest.elements)
  | .done => pure []
  | .leaf (.text text) => if text == "" then pure [] else throw .noStatement
  | _ => throw .notChain

end BasicToC.Write
