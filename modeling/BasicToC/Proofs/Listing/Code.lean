import BasicToC.Listing.Statements
import BasicToC.Proofs.Names.Ledger

/-!
# The C of a program

The listing of a program as data: its statements, the words of what they compute, and at every name
whether it is written with its declaration in front.

* `Rendering`, `Word`, `Line`, `Code`: a name, a word, a simple statement, and statements one after
  another with the blocks among them.
* `Code.lines`, `Code.listing`: the text of all that.
* `Code.declare`: every name that waits for its declaration gets it where it first comes.
* `Tree.code`: the C of a tree, as yet without declarations.
-/

set_option autoImplicit false

namespace BasicToC

/-- A name where it is written, and whether its declaration stands in front of it. -/
structure Rendering where
  declares : Bool := false
  name : Value
  deriving DecidableEq, Repr

/-- A word of what is computed: a number or a name behind its sign, or an operator. -/
inductive Word where
  | number (sign digits : String)
  | name (sign : String) (rendering : Rendering)
  | operator (kind : Token.Kind)
  deriving DecidableEq, Repr

/-- A statement that is no block. -/
inductive Line where
  | print (value : List Word)
  | printText (text : String)
  | assign (target : Rendering) (value : List Word)
  | input (target : Rendering)
  | label (name : String)
  | goto (name : String)
  deriving DecidableEq, Repr

/-- Statements one after another. A block has a keyword, a condition and a body. -/
inductive Code where
  | done
  | simple (line : Line) (rest : Code)
  | block (keyword : String) (condition : List Word) (body rest : Code)
  deriving DecidableEq, Repr

/-! ## The text -/

/-- A name as it is written. -/
def Rendering.text (r : Rendering) : String :=
  if r.declares then "float " ++ r.name.shown else r.name.shown

/-- A word as it is written. -/
def Word.text : Word → String
  | .number sign digits => sign ++ digits
  | .name sign rendering => sign ++ rendering.text
  | .operator kind => kind.spelling

/-- Words as they are written, with single blanks between them. -/
def Word.joined (words : List Word) : String := String.intercalate " " (words.map Word.text)

/-- A line of the listing, moved in by some steps. -/
def indented (depth : Int) (text : String) : String := Text.indentation depth ++ text

/-- The lines of a simple statement. Reading a number takes four lines, and one more in front of
them if the name is declared there. -/
def Line.lines (depth : Int) : Line → List String
  | .print value =>
    [indented depth ("printf(\"%.2f\\n\", (float)(" ++ Word.joined value ++ "));")]
  | .printText text => [indented depth ("printf(\"%s\\n\", \"" ++ text ++ "\");")]
  | .assign target value => [indented depth (target.text ++ " = " ++ Word.joined value ++ ";")]
  | .input target =>
    (if target.declares then [indented depth (target.text ++ ";")] else []) ++
      [indented depth ("if(0 == scanf(\"%f\", &" ++ target.name.shown ++ ")) \x7b"),
        indented (depth + 1) (target.name.shown ++ " = 0;"),
        indented (depth + 1) "scanf(\"%*s\");",
        indented depth "\x7d"]
  | .label name => [indented depth (name ++ ":;")]
  | .goto name => [indented depth ("goto " ++ name ++ ";")]

/-- The lines of statements one after another; a body stands one step further in. -/
def Code.lines (depth : Int) : Code → List String
  | .done => []
  | .simple line rest => line.lines depth ++ rest.lines depth
  | .block keyword condition body rest =>
    indented depth (keyword ++ "(" ++ Word.joined condition ++ ")\x7b") ::
      body.lines (depth + 1) ++ indented depth "\x7d" :: rest.lines depth

/-- The whole listing of a program. -/
def Code.listing (code : Code) : String :=
  String.intercalate "\n" (["#include <stdio.h>", "int main(void)\x7b"] ++ code.lines 1 ++
    [indented 1 "return 0;", "\x7d"]) ++ "\n"

/-- Statements behind others. -/
def Code.append : Code → Code → Code
  | .done, more => more
  | .simple line rest, more => .simple line (rest.append more)
  | .block keyword condition body rest, more => .block keyword condition body (rest.append more)

theorem Code.lines_append (depth : Int) (code more : Code) :
    (code.append more).lines depth = code.lines depth ++ more.lines depth := by
  induction code generalizing depth with
  | done => rfl
  | simple line rest ih => simp [append, lines, ih]
  | block keyword condition body rest _ ih => simp [append, lines, ih]

/-! ## Declarations -/

/-- A name gets its declaration if it waits for it, and then waits no longer. -/
def Rendering.declare (pending : List Value) (r : Rendering) : Rendering × List Value :=
  if r.name.isIn pending then
    (⟨true, r.name⟩, pending.filter fun other => !r.name.same other)
  else (⟨false, r.name⟩, pending)

/-- The declarations among words, from left to right. -/
def Word.declare (pending : List Value) : List Word → List Word × List Value
  | [] => ([], pending)
  | .name sign r :: rest =>
    let target := r.declare pending
    let words := declare target.2 rest
    (.name sign target.1 :: words.1, words.2)
  | word :: rest =>
    let words := declare pending rest
    (word :: words.1, words.2)

/-- The declarations in a simple statement. The target of an assignment comes first. -/
def Line.declare (pending : List Value) : Line → Line × List Value
  | .print value =>
    let words := Word.declare pending value
    (.print words.1, words.2)
  | .assign target value =>
    let target := target.declare pending
    let words := Word.declare target.2 value
    (.assign target.1 words.1, words.2)
  | .input target =>
    let target := target.declare pending
    (.input target.1, target.2)
  | line => (line, pending)

/-- The declarations in statements one after another. A condition comes in front of its body. -/
def Code.declare (pending : List Value) : Code → Code × List Value
  | .done => (.done, pending)
  | .simple line rest =>
    let line := line.declare pending
    let rest := rest.declare line.2
    (.simple line.1 rest.1, rest.2)
  | .block keyword condition body rest =>
    let condition := Word.declare pending condition
    let body := body.declare condition.2
    let rest := rest.declare body.2
    (.block keyword condition.1 body.1 rest.1, rest.2)

theorem Rendering.declare_subset (pending : List Value) (r : Rendering) :
    (r.declare pending).2 ⊆ pending := by
  unfold declare
  split
  · exact fun _ hv => (List.mem_filter.1 hv).1
  · exact List.Subset.refl _

theorem Word.declare_subset (pending : List Value) (words : List Word) :
    (Word.declare pending words).2 ⊆ pending := by
  induction words generalizing pending with
  | nil => exact List.Subset.refl _
  | cons word words ih =>
    cases word with
    | name sign r => exact List.Subset.trans (ih _) (r.declare_subset pending)
    | number | operator => exact ih pending

theorem Line.declare_subset (pending : List Value) (line : Line) :
    (line.declare pending).2 ⊆ pending := by
  cases line with
  | print value => exact Word.declare_subset pending value
  | assign target value =>
    exact List.Subset.trans (Word.declare_subset _ value) (target.declare_subset pending)
  | input target => exact target.declare_subset pending
  | printText | label | goto => exact List.Subset.refl _

/-- Declaring only takes names away from those that wait. -/
theorem Code.declare_subset (pending : List Value) (code : Code) :
    (code.declare pending).2 ⊆ pending := by
  induction code generalizing pending with
  | done => exact List.Subset.refl _
  | simple line rest ih => exact List.Subset.trans (ih _) (line.declare_subset pending)
  | block keyword condition body rest ihb ihr =>
    exact List.Subset.trans (ihr _) (List.Subset.trans (ihb _) (Word.declare_subset pending condition))

theorem Word.declare_append (pending : List Value) (words more : List Word) :
    Word.declare pending (words ++ more) =
      ((Word.declare pending words).1 ++ (Word.declare (Word.declare pending words).2 more).1,
        (Word.declare (Word.declare pending words).2 more).2) := by
  induction words generalizing pending with
  | nil => rfl
  | cons word words ih => cases word <;> simp [declare, ih]

theorem Word.declare_ne_nil {pending : List Value} {words : List Word} (h : words ≠ []) :
    (Word.declare pending words).1 ≠ [] := by
  cases words with
  | nil => exact absurd rfl h
  | cons word words => cases word <;> simp [declare]

theorem Code.declare_append (pending : List Value) (code more : Code) :
    (code.append more).declare pending =
      ((code.declare pending).1.append (more.declare (code.declare pending).2).1,
        (more.declare (code.declare pending).2).2) := by
  induction code generalizing pending with
  | done => rfl
  | simple line rest ih => simp [append, declare, ih]
  | block keyword condition body rest _ ih => simp [append, declare, ih]

/-! ## The C of a tree -/

namespace Tree

/-- A sign or an operator as it is written; nothing in its place is written as nothing. -/
def sign : Tree → String
  | .symbol kind => kind.spelling
  | _ => ""

/-- The words of what is computed. -/
def words : Tree → List Word
  | .unary (.integer value) operator => [.number operator.sign value.shown]
  | .unary (.float value) operator => [.number operator.sign value.record]
  | .unary (.variable (.leaf name)) operator => [.name operator.sign ⟨false, name⟩]
  | .term first (.symbol kind) rest => first.words ++ .operator kind :: rest.words
  | .expression first (.symbol kind) rest => first.words ++ .operator kind :: rest.words
  | .comparison first (.symbol kind) rest => first.words ++ .operator kind :: rest.words
  | .term first _ _ | .expression first _ _ | .comparison first _ _ => first.words
  | _ => []

/-- The statements of a tree in C. A chain inside a chain is written in its place. -/
def code : Tree → Code
  | .print value => .simple (.print value.words) .done
  | .printText text => .simple (.printText text.shown) .done
  | .assign (.leaf name) value => .simple (.assign ⟨false, name⟩ value.words) .done
  | .input (.leaf name) => .simple (.input ⟨false, name⟩) .done
  | .label name => .simple (.label name.shown) .done
  | .goto name => .simple (.goto name.shown) .done
  | .when condition body => .block "if" condition.words body.code .done
  | .loop condition body => .block "while" condition.words body.code .done
  | .sequence first rest => first.code.append rest.code
  | _ => .done

end Tree

end BasicToC
