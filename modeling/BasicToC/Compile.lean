import BasicToC.Listing.Statements
import BasicToC.Program.Statements
import BasicToC.Token.Scan
import BasicToC.Tree.Outline

/-!
# Compiling a text

A program is read into tokens, the tokens into statements, and the statements are written as C.

* `Compile.Fault`: why a text is not compiled.
* `readProgram`: the statements of a text and the names in it.
* `compile`: the C text of a program, and what was noted on the way.
-/

set_option autoImplicit false

namespace BasicToC

/-- Why a text is not compiled, by the stage at which that shows. -/
inductive Compile.Fault where
  | scanning (rejection : Rejection)
  | reading (fault : Reader.Fault)
  | drawing (fault : Sketch.Fault)
  | writing (fault : Writer.Fault)
  deriving DecidableEq, Repr

namespace Compile.Fault

/-- The refusal of the program, if that is why it is not compiled. -/
def rejection? : Compile.Fault → Option Rejection
  | .scanning rejection => some rejection
  | .reading (.rejected rejection) => some rejection
  | _ => none

end Compile.Fault

/-- Writes a tree in which some variables are declared. -/
def writeTree (tree : Tree) (declared : List Value) : Except Writer.Fault String × List Event :=
  match Write.program { tree := tree, declared := declared } with
  | .ok listing writer => (.ok listing, writer.notes.reverse)
  | .error fault writer => (.error fault, writer.notes.reverse)

/-- Draws the outline of a tree for the notes, if those are wanted. -/
def drawTree (wanted : Bool) (tree : Tree) : Except Sketch.Fault (List Event) :=
  if wanted then
    match tree.outline 0 with
    | .ok outline => .ok [.treeDrawn outline]
    | .error fault => .error fault
  else .ok []

/-- Compiles a program that has been read into tokens. -/
def compileTokens (noteTree : Bool) (tokens : List Token) :
    Except Compile.Fault String × List Event :=
  match Read.program (Reader.ofTokens tokens) with
  | .error fault reader => (.error (.reading fault), reader.notes.reverse)
  | .ok program reader =>
    let tree := Program.tree program
    match drawTree noteTree tree with
    | .error fault => (.error (.drawing fault), reader.notes.reverse)
    | .ok drawn =>
      let (listing, written) := writeTree tree reader.names.declared
      let notes := reader.notes.reverse ++ drawn ++ written
      match listing with
      | .ok listing => (.ok listing, notes)
      | .error fault => (.error (.writing fault), notes)

/-- The C text of a program, or why there is none, with what was noted on the way. The outline of
the program is only drawn when `noteTree` asks for it. -/
def compile (noteTree : Bool) (source : String) : Except Compile.Fault String × List Event :=
  match Token.scan source with
  | .error rejection => (.error (.scanning rejection), [])
  | .ok tokens =>
    let (listing, notes) := compileTokens noteTree tokens
    (listing, .tokensRead tokens :: notes)

end BasicToC
