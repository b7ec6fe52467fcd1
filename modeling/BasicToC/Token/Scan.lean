import BasicToC.Token.Lexeme

/-!
# Reading tokens

A program is read from left to right; each step looks at the text that is left and takes a blank, a
comment or the longest token that starts there.

* `Place`: how far a text has been read.
* `Piece`, `piece`: what stands at the head of a text.
* `Scan`, `scanFrom`: the tokens of a text up to its end or its first fault.
* `Token.scan`: the tokens of a text, closed by one mark for its end.
-/

set_option autoImplicit false

namespace BasicToC

/-- How far a text has been read: the offset from its start, the number of the line and the offset
of the line's first character. -/
structure Place where
  offset : Int := 0
  line : Int := 1
  lineStart : Int := 0
  deriving DecidableEq, Repr

namespace Place

/-- The column of a place, counted from one. -/
def column (place : Place) : Int := place.offset - place.lineStart + 1

/-- The place some characters further on the same line. -/
def right (place : Place) (count : Nat) : Place := { place with offset := place.offset + count }

/-- The place behind a line feed. -/
def below (place : Place) : Place := ⟨place.offset + 1, place.line + 1, place.offset + 1⟩

/-- A token that starts at a place. -/
def token (place : Place) (kind : Token.Kind) (value : Value) (lexeme : List Char) : Token :=
  ⟨kind, value, place.line, place.column, String.ofList lexeme⟩

/-- A complaint about the `length` characters from a place on. -/
def reject (place : Place) (complaint : Complaint) (length : Int) : Rejection :=
  let start := place.offset - place.lineStart
  ⟨complaint, some place.line, start, start + length⟩

end Place

/-- What stands at the head of a text. Lengths leave the first character out. -/
inductive Piece where
  | lineEnd
  | gap (more : Nat)
  | token (kind : Token.Kind) (value : Value) (more : Nat)
  | fault (complaint : Complaint) (length : Nat)
  deriving DecidableEq, Repr

/-- A text in quotes, given what follows the first quote. It ends at the next quote, which has to
come before the line does. -/
def quotedPiece (rest : List Char) : Piece :=
  let inner := rest.takeWhile fun c => c != '"' && c != '\n'
  match rest.drop inner.length with
  | '"' :: _ => .token .string (.text (String.ofList inner)) (inner.length + 1)
  | _ => .fault (.unclosedText (String.ofList ('"' :: inner))) (inner.length + 1)

/-- What stands at the head of the text `c :: rest`. -/
def piece (c : Char) (rest : List Char) : Piece :=
  if c == '\n' then .lineEnd
  else if Lexeme.isBlank c then .gap 0
  else if c == '#' then .gap (rest.takeWhile (· != '\n')).length
  else if c == '"' then quotedPiece rest
  else if c.isDigit then
    let lexeme := (c :: rest).take (Lexeme.numeralLength false (c :: rest))
    match Lexeme.numeral (lexeme.contains '.') lexeme with
    | .ok (kind, value) => .token kind value (lexeme.length - 1)
    | .error complaint => .fault complaint lexeme.length
  else if c.isAlpha then
    let word := (c :: rest).take (Lexeme.wordLength (c :: rest))
    let (kind, value) := Lexeme.wordKind word
    .token kind value (word.length - 1)
  else
    match Lexeme.pickOperator (c :: rest.take 1) [c] with
    | some (kind, spelling) => .token kind .absent (spelling.length - 1)
    | none => .fault (.unknownCharacter (Lexeme.characterName (some c))) 1

/-- The tokens read from a text, where reading stopped, and the fault it stopped at, if any. -/
structure Scan where
  tokens : List Token
  stop : Place
  fault? : Option Rejection
  deriving DecidableEq, Repr

/-- The same reading with a token in front. -/
def Scan.cons (token : Token) (scan : Scan) : Scan := { scan with tokens := token :: scan.tokens }

/-- Reads the text that is left from a place on. -/
def scanFrom (place : Place) (text : List Char) : Scan :=
  match text with
  | [] => ⟨[place.token .eof .absent []], place, none⟩
  | c :: rest =>
    match piece c rest with
    | .lineEnd => (scanFrom place.below rest).cons (place.token .newline .absent [c])
    | .gap more => scanFrom (place.right (more + 1)) (rest.drop more)
    | .token kind value more =>
      (scanFrom (place.right (more + 1)) (rest.drop more)).cons
        (place.token kind value (c :: rest.take more))
    | .fault complaint length => ⟨[], place, some (place.reject complaint length)⟩
termination_by text.length
decreasing_by all_goals simp only [List.length_cons, List.length_drop]; omega

/-- Reads a whole text. -/
def scanText (text : String) : Scan := scanFrom {} text.toList

/-- The tokens of a text, the last of which marks its end; or the first fault. -/
def Token.scan (text : String) : Except Rejection (List Token) :=
  let scan := scanText text
  match scan.fault? with
  | some rejection => .error rejection
  | none => .ok scan.tokens

end BasicToC
