/-!
# Lines of text

* `splitAt`, `splitLines`: the pieces between marks; the lines of a text are one more than its line
  feeds.
* `trimReturns`: a line without the carriage returns at its end.
* `joinNewlines`: every way to end a line read as one line feed.
-/

set_option autoImplicit false

namespace BasicToC.Text

/-- The pieces of a text between the places where `mark` stands; there is always at least one. -/
def splitAt (mark : Char) : List Char → List (List Char)
  | [] => [[]]
  | c :: rest =>
    match splitAt mark rest with
    | [] => [[c]]
    | piece :: pieces => if c == mark then [] :: piece :: pieces else (c :: piece) :: pieces

/-- The lines of a text. -/
def splitLines (text : List Char) : List (List Char) := splitAt '\n' text

/-- A line without the carriage returns at its end. -/
def trimReturns (line : List Char) : List Char :=
  (line.reverse.dropWhile (· == '\r')).reverse

/-- The same text with every carriage return, and every carriage return followed by a line feed,
read as a line feed. -/
def joinNewlines : List Char → List Char
  | [] => []
  | '\r' :: '\n' :: rest => '\n' :: joinNewlines rest
  | c :: rest => (if c == '\r' then '\n' else c) :: joinNewlines rest

end BasicToC.Text
