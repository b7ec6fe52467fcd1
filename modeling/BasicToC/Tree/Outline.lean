import BasicToC.Text.Columns
import BasicToC.Tree.Basic

/-!
# Outlines

A tree over several lines: a node with its bare fields in brackets, and below it, one step further
in, the nodes it holds. A chain of statements is one node that holds them all.

* `Sketch`, `Tree.sketch`: what an outline shows of a tree.
* `Sketch.draw`: a sketch set out in lines.
* `Tree.outline`: the outline of a tree at some indentation.
-/

set_option autoImplicit false

namespace BasicToC

/-- What an outline shows of a tree: a node's name, the words in its brackets and the nodes below
it. What is no node cannot be drawn. -/
inductive Sketch where
  | bare
  | node (name : String) (words : List String) (below : List Sketch)

namespace Sketch

/-- Why a sketch cannot be set out: it goes too deep, or something in it is no node. -/
inductive Fault where
  | tooDeep
  | notNode
  deriving DecidableEq, Repr

/-- The most levels of nodes that are set out. -/
def maxLevels : Nat := 490

/-- A sketch set out in lines, at most `room` levels deep. -/
def draw : (room : Nat) → (indents : Int) → Sketch → Except Fault String
  | _, _, .bare => .error .notNode
  | 0, _, .node .. => .error .tooDeep
  | room + 1, indents, .node name words below =>
    let header := Text.indentation indents ++ name ++ "(" ++ String.intercalate ", " words
    match below.mapM (draw room (indents + 1)) with
    | .error fault => .error fault
    | .ok [] => .ok (header ++ ")")
    | .ok outlines =>
      .ok (header ++ (if words.isEmpty then "nodes=[\n" else ", nodes=[\n") ++
        String.intercalate ",\n" outlines ++ "\n" ++ Text.indentation indents ++ "])")

/-- What a field adds to a node: words in its brackets, a node below it, or nothing. -/
inductive Part where
  | nothing
  | words (text : String)
  | below (sketch : Sketch)

/-- The words of a part. -/
def Part.words? : Part → Option String
  | .words text => some text
  | _ => none

/-- The node of a part. -/
def Part.below? : Part → Option Sketch
  | .below sketch => some sketch
  | _ => none

/-- A node made of its parts. -/
def ofParts (name : String) (parts : List Part) : Sketch :=
  .node name (parts.filterMap Part.words?) (parts.filterMap Part.below?)

end Sketch

namespace Tree

/-- What a field adds to its node, given the sketch of the tree in it. -/
def part (name : String) (field : Tree) (sketch : Sketch) : Sketch.Part :=
  match field with
  | .leaf .absent => .nothing
  | .leaf value => .words (name ++ "=" ++ value.record)
  | .symbol kind => .words (name ++ "='" ++ kind.spelling ++ "'")
  | _ => .below sketch

mutual

/-- What an outline shows of a tree. -/
def sketch : Tree → Sketch
  | .leaf _ => .bare
  | .symbol _ => .bare
  | .integer v => .ofParts "Integer" [part "value" v v.sketch]
  | .float v => .ofParts "Float" [part "value" v v.sketch]
  | .variable n => .ofParts "Variable" [part "name" n n.sketch]
  | .unary p o => .ofParts "Unary" [part "primary" p p.sketch, part "operator" o o.sketch]
  | .term u o r =>
    .ofParts "Term" [part "unary" u u.sketch, part "operator" o o.sketch, part "rest" r r.sketch]
  | .expression t o r =>
    .ofParts "Expression"
      [part "term" t t.sketch, part "operator" o o.sketch, part "rest" r r.sketch]
  | .comparison l o r =>
    .ofParts "Comparison"
      [part "left" l l.sketch, part "operator" o o.sketch, part "right" r r.sketch]
  | .print e => .ofParts "Print" [part "expression" e e.sketch]
  | .printText t => .ofParts "PrintString" [part "text" t t.sketch]
  | .assign n e => .ofParts "Let" [part "name" n n.sketch, part "expression" e e.sketch]
  | .input n => .ofParts "Input" [part "name" n n.sketch]
  | .label n => .ofParts "Label" [part "name" n n.sketch]
  | .goto n => .ofParts "Goto" [part "name" n n.sketch]
  | .when c b => .ofParts "If" [part "comparison" c c.sketch, part "body" b b.sketch]
  | .loop c b => .ofParts "While" [part "comparison" c c.sketch, part "body" b b.sketch]
  | .done => .node "End" [] []
  | .sequence f r => .node "Sequence" [] (f.sketch :: r.sketchChain)

/-- The sketches of the statements of a chain. -/
def sketchChain : Tree → List Sketch
  | .sequence f r => f.sketch :: r.sketchChain
  | _ => []

end

/-- The outline of a tree whose first line is indented by `indents` steps. -/
def outline (tree : Tree) (indents : Int) : Except Sketch.Fault String :=
  tree.sketch.draw Sketch.maxLevels indents

end Tree

end BasicToC
