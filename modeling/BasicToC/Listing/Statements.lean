import BasicToC.Listing.Computation
import BasicToC.Listing.Fields

/-!
# Writing what is done

Every statement becomes a line of C, or a block whose lines stand one step further in.

* `printLine`, `textLine`, `assignTo`, `reading`, `labelLine`, `gotoLine`, `block`: one statement
  from its fields.
* `asPrint` and its companions: a tree as a statement of some sort, whatever it is, as long as it has
  the fields that are asked for.
* `statement`, `statements`: a statement, and the statements of a chain, as deep as calls may go.
* `program`: a whole program.
-/

set_option autoImplicit false

namespace BasicToC.Write

/-- A number is printed with two decimal places. -/
def printLine (value : Tree) : Write Unit := do
  line ("printf(\"%.2f\\n\", (float)(" ++ (← expression value) ++ "));")

/-- A text is printed as it stands. -/
def textLine (text : Tree) : Write Unit :=
  line ("printf(\"%s\\n\", \"" ++ text.shown ++ "\");")

/-- A value is assigned to what has been written for a variable. -/
def assignTo (target value : Tree) : Write Unit := do
  line (target.shown ++ " = " ++ (← expression value) ++ ";")

/-- A number is read into a variable; on input that is no number the variable is set to zero and
the word passed over. -/
def reading (named : Tree) : Write Unit := do
  let target ← name named
  if !target.same named then line (target.shown ++ ";")
  line ("if(0 == scanf(\"%f\", &" ++ named.shown ++ ")) \x7b")
  shift 1
  line (named.shown ++ " = 0;")
  line "scanf(\"%*s\");"
  shift (-1)
  line "\x7d"

/-- A label is an empty statement with its name in front. -/
def labelLine (label : Tree) : Write Unit := line (label.shown ++ ":;")

/-- A jump to a label. -/
def gotoLine (label : Tree) : Write Unit := line ("goto " ++ label.shown ++ ";")

/-- A block behind a condition, given how its body is written. -/
def block (keyword : String) (condition : Tree) (body : Write Unit) : Write Unit := do
  line (keyword ++ "(" ++ (← comparison condition) ++ ")\x7b")
  shift 1
  body
  shift (-1)
  line "\x7d"

/-! ## Statements by their sort -/

/-- Writes a tree as a statement that prints a number. -/
def asPrint (tree : Tree) : Write Unit := do printLine (← expressionOf tree)

/-- Writes a tree as a statement that prints a text. -/
def asText (tree : Tree) : Write Unit := do textLine (← textOf tree)

/-- Writes a tree as an assignment. What is written for the variable comes first, as it stands in
front. -/
def asAssignment (tree : Tree) : Write Unit := do
  let target ← name (← nameOf tree)
  assignTo target (← expressionOf tree)

/-- Writes a tree as a statement that reads a number. -/
def asInput (tree : Tree) : Write Unit := do reading (← nameOf tree)

/-- Writes a tree as a label. -/
def asLabel (tree : Tree) : Write Unit := do labelLine (← nameOf tree)

/-- Writes a tree as a jump. -/
def asGoto (tree : Tree) : Write Unit := do gotoLine (← nameOf tree)

/-- Writes a tree as a block with some keyword, given how its body is written. -/
def asBlock (keyword : String) (body : Tree → Write Unit) (tree : Tree) : Write Unit := do
  let condition ← comparisonOf tree
  block keyword condition (do body (← bodyOf tree))

/-- Writes the statements of a chain one after another, given how one is written. -/
def each (statement : Tree → Write Unit) (chain : Tree) : Write Unit := do
  (← itemsOf chain).forM statement

/-- The most calls that may stand in one another. -/
def maxCalls : Nat := 975

/-- Writes one statement of a chain, with room for so many calls in one another. A body is three
calls further in than its block. A chain in the place of a statement is written there, one call
further in. -/
def statement (room : Nat) (tree : Tree) : Write Unit :=
  match tree with
  | .print _ => asPrint tree
  | .printText _ => asText tree
  | .assign _ _ => asAssignment tree
  | .input _ => asInput tree
  | .when _ _ =>
    match room with
    | room + 3 => asBlock "if" (each (statement room)) tree
    | _ => throw .tooDeep
  | .loop _ _ =>
    match room with
    | room + 3 => asBlock "while" (each (statement room)) tree
    | _ => throw .tooDeep
  | .label _ => asLabel tree
  | .goto _ => asGoto tree
  | .sequence _ _ =>
    match room with
    | room + 1 => each (statement room) tree
    | 0 => throw .tooDeep
  | _ => throw .noStatement

/-- Writes the statements of a chain. -/
def statements (chain : Tree) : Write Unit := each (statement maxCalls) chain

/-- The lines of a listing, each with a line end. -/
def listing (writer : Writer) : String :=
  String.intercalate "\n" (writer.headers ++ writer.code).toList ++ "\n"

/-- Writes the whole program of the writer's tree from its first line. -/
def program : Write String := do
  modify fun writer =>
    { writer with pending := writer.declared, headers := #[], code := #[], depth := 1 }
  header "#include <stdio.h>"
  header "int main(void)\x7b"
  statements (← get).tree
  line "return 0;"
  modify fun writer => { writer with depth := 0 }
  line "\x7d"
  let writer ← get
  if !writer.pending.isEmpty then
    match sortedValues? writer.pending with
    | none => throw .unordered
    | some names => set { writer with notes := .neverDeclared names :: writer.notes }
  pure (listing writer)

end BasicToC.Write
