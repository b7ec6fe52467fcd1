import BasicToC.Tree.Basic

/-!
# Trees as records

A tree in one line: each node is its name with all its fields in brackets.

* `Tree.record`: the record of a tree.
* `Tree.shown`: a tree as it stands in running text, where a bare text has no quotes.
-/

set_option autoImplicit false

namespace BasicToC.Tree

/-- A node of a given name with the records of its fields. -/
def entry (name : String) (fields : List (String × String)) : String :=
  name ++ "(" ++ String.intercalate ", " (fields.map fun field => field.1 ++ "=" ++ field.2) ++ ")"

/-- A tree in one line. -/
def record : Tree → String
  | .leaf v => v.record
  | .symbol k => "<TokenType." ++ k.name ++ ": " ++ Text.quoted k.spelling ++ ">"
  | .integer v => entry "Integer" [("value", v.record)]
  | .float v => entry "Float" [("value", v.record)]
  | .variable n => entry "Variable" [("name", n.record)]
  | .unary p o => entry "Unary" [("primary", p.record), ("operator", o.record)]
  | .term u o r => entry "Term" [("unary", u.record), ("operator", o.record), ("rest", r.record)]
  | .expression t o r =>
    entry "Expression" [("term", t.record), ("operator", o.record), ("rest", r.record)]
  | .comparison l o r =>
    entry "Comparison" [("left", l.record), ("operator", o.record), ("right", r.record)]
  | .print e => entry "Print" [("expression", e.record)]
  | .printText t => entry "PrintString" [("text", t.record)]
  | .assign n e => entry "Let" [("name", n.record), ("expression", e.record)]
  | .input n => entry "Input" [("name", n.record)]
  | .label n => entry "Label" [("name", n.record)]
  | .goto n => entry "Goto" [("name", n.record)]
  | .when c b => entry "If" [("comparison", c.record), ("body", b.record)]
  | .loop c b => entry "While" [("comparison", c.record), ("body", b.record)]
  | .done => entry "End" []
  | .sequence f r => entry "Sequence" [("first", f.record), ("rest", r.record)]

/-- A tree as it stands in running text. -/
def shown : Tree → String
  | .leaf value => value.shown
  | tree => tree.record

end BasicToC.Tree
