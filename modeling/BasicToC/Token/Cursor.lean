import BasicToC.Text.Slice
import BasicToC.Token.Scan

/-!
# Reading from any place

A cursor reads one token of a chosen sort from whatever place it is set to, also where no such
token starts. Negative offsets count from the end of the text.

* `Cursor`: a text and a place in it.
* `Cursor.Fault`: a complaint, or a look at a place before the text.
* `peek`, `string`, `number`, `word`, `operator`, `skipComment`, `scan`: what a cursor reads.
-/

set_option autoImplicit false

namespace BasicToC

/-- A text and a place in it. -/
structure Cursor where
  text : List Char
  place : Place := {}
  deriving DecidableEq, Repr

namespace Cursor

/-- Why a cursor reads nothing. -/
inductive Fault where
  | rejected (rejection : Rejection)
  | outside
  deriving DecidableEq, Repr

/-- What a cursor reads, and where it stands then. -/
abbrev Outcome (α : Type) := Except Fault α × Cursor

/-- A cursor a given distance further on. -/
def advance (cursor : Cursor) (count : Nat) : Cursor :=
  { cursor with place := cursor.place.right count }

/-- A cursor that refuses what it stands at. -/
def refuse {α : Type} (cursor : Cursor) (complaint : Complaint) (length : Int) : Outcome α :=
  (.error (.rejected (cursor.place.reject complaint length)), cursor)

/-- The characters between the cursor and a position. -/
def upTo (cursor : Cursor) (stop : Int) : List Char :=
  Text.slice cursor.text cursor.place.offset stop

/-- The character at a distance from the cursor; none past the end of the text. -/
def charAt (cursor : Cursor) (distance : Int) : Except Fault (Option Char) :=
  let i := cursor.place.offset + distance
  if cursor.text.length ≤ i then .ok none
  else
    match Text.at? cursor.text i with
    | some c => .ok (some c)
    | none => .error .outside

/-- Looks at the character at a distance. -/
def peek (cursor : Cursor) (distance : Int) : Outcome (Option Char) :=
  (cursor.charAt distance, cursor)

/-- Moves to the end of the line. -/
def skipComment (cursor : Cursor) : Outcome Unit :=
  let stop : Nat := (Text.find? cursor.text '\n' cursor.place.offset).getD cursor.text.length
  (.ok (), { cursor with place := { cursor.place with offset := stop } })

/-- Reads a text in quotes, taking the character at the cursor for the first quote. -/
def string (cursor : Cursor) : Outcome Token :=
  let behind := cursor.place.offset + 1
  let close? := Text.find? cursor.text '"' behind
  let newline? := Text.find? cursor.text '\n' behind
  let unclosed : Outcome Token :=
    let stop : Nat := newline?.getD cursor.text.length
    cursor.refuse (.unclosedText (String.ofList (cursor.upTo stop))) (stop - cursor.place.offset)
  match close?, newline? with
  | none, _ => unclosed
  | some close, some newline => if newline < close then unclosed else closed close
  | some close, none => closed close
where
  /-- The text in quotes that ends with the quote at `close`. -/
  closed (close : Nat) : Outcome Token :=
    let lexeme := cursor.upTo (close + 1)
    let inner := Text.slice lexeme 1 (-1)
    (.ok (cursor.place.token .string (.text (String.ofList inner)) lexeme),
      { cursor with place := { cursor.place with offset := close + 1 } })

/-- Reads a numeral, which may have no digit at all. -/
def number (cursor : Cursor) : Outcome Token :=
  match Text.upcoming? cursor.text cursor.place.offset with
  | none => (.error .outside, cursor)
  | some ahead =>
    let length := Lexeme.numeralLength false ahead
    let lexeme := cursor.upTo (cursor.place.offset + length)
    match Lexeme.numeral ((ahead.take length).contains '.') lexeme with
    | .error complaint => cursor.refuse complaint lexeme.length
    | .ok (kind, value) => (.ok (cursor.place.token kind value lexeme), cursor.advance lexeme.length)

/-- Reads a word, which may be empty. -/
def word (cursor : Cursor) : Outcome Token :=
  match Text.upcoming? cursor.text cursor.place.offset with
  | none => (.error .outside, cursor)
  | some ahead =>
    let lexeme := cursor.upTo (cursor.place.offset + Lexeme.wordLength ahead)
    let (kind, value) := Lexeme.wordKind lexeme
    (.ok (cursor.place.token kind value lexeme), cursor.advance lexeme.length)

/-- Reads an operator. -/
def operator (cursor : Cursor) : Outcome Token :=
  let ahead (count : Int) := cursor.upTo (cursor.place.offset + count)
  match Lexeme.pickOperator (ahead 2) (ahead 1) with
  | some (kind, spelling) =>
    (.ok (cursor.place.token kind .absent spelling), cursor.advance spelling.length)
  | none =>
    match cursor.charAt 0 with
    | .error fault => (.error fault, cursor)
    | .ok c? => cursor.refuse (.unknownCharacter (Lexeme.characterName c?)) 1

/-- What a cursor makes of the tokens read from its text: it stops where reading did. -/
def report (cursor : Cursor) (scan : Scan) : Outcome (List Token) :=
  let moved := { cursor with place := scan.stop }
  match scan.fault? with
  | some rejection => (.error (.rejected rejection), moved)
  | none => (.ok scan.tokens, moved)

/-- Reads the whole text from its start. -/
def scan (cursor : Cursor) : Outcome (List Token) := cursor.report (scanFrom {} cursor.text)

end Cursor

end BasicToC
