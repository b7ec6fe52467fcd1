import BasicToC.Complaint

/-!
# Lexemes

What a stretch of text is, apart from where it stands.

* `isBlank`, `isWordChar`: the classes of characters.
* `wordLength`, `numeralLength`: how far a word or a numeral reaches.
* `wordKind`: keyword or name.
* `numeral`: the number that a numeral stands for, or why it stands for none.
* `pickOperator`: the longer of two candidates that is an operator.
-/

set_option autoImplicit false

namespace BasicToC.Lexeme

/-- The characters that separate tokens and stand for nothing. -/
def isBlank (c : Char) : Bool := c == ' ' || c == '\t' || c == '\r'

/-- The characters of a word after its first letter: letters and digits of ASCII and the
underscore. -/
def isWordChar (c : Char) : Bool := c.isAlpha || c.isDigit || c == '_'

/-- How many characters at the head of a text belong to a word. -/
def wordLength (text : List Char) : Nat := (text.takeWhile isWordChar).length

/-- How many characters at the head of a text belong to a numeral: digits and one point, which may
have been met already. -/
def numeralLength : (pointMet : Bool) → List Char → Nat
  | _, [] => 0
  | pointMet, c :: rest =>
    if c.isDigit then numeralLength pointMet rest + 1
    else if c == '.' && !pointMet then numeralLength true rest + 1
    else 0

/-- A word is a keyword when the whole of it is one, otherwise a name that it carries. -/
def wordKind (word : List Char) : Token.Kind × Value :=
  match Token.Kind.keyword? word with
  | some kind => (kind, .absent)
  | none => (.ident, .text (String.ofList word))

/-- The most digits that a whole number is read from. -/
def maxDigits : Nat := 4300

/-- The greatest whole number. -/
def maxWhole : Nat := Nat.pow 2 63 - 1

/-- The number that a numeral with a point stands for. -/
def realNumeral (lexeme : List Char) : Except Complaint (Token.Kind × Value) :=
  let whole := lexeme.takeWhile Char.isDigit
  let fraction := (lexeme.drop whole.length).drop 1
  if (whole ++ fraction).isEmpty || !(whole ++ fraction).all Char.isDigit then
    .error (.malformedNumber (String.ofList lexeme))
  else
    match Binary64.ofDecimal false (digitsValue (whole ++ fraction)) (-fraction.length) with
    | .finite negative significand exponent =>
      .ok (.float, .real (.finite negative significand exponent))
    | _ => .error (.realTooLarge (String.ofList lexeme))

/-- The number that a numeral without a point stands for. -/
def wholeNumeral (lexeme : List Char) : Except Complaint (Token.Kind × Value) :=
  if lexeme.isEmpty || !lexeme.all Char.isDigit || maxDigits < lexeme.length then
    .error (.malformedNumber (String.ofList lexeme))
  else if maxWhole < digitsValue lexeme then .error (.wholeTooLarge (String.ofList lexeme))
  else .ok (.integer, .whole (digitsValue lexeme))

/-- The number that a numeral stands for, or why it stands for none. -/
def numeral (hasPoint : Bool) (lexeme : List Char) : Except Complaint (Token.Kind × Value) :=
  if hasPoint then realNumeral lexeme else wholeNumeral lexeme

/-- The operator of two characters if there is one, otherwise the operator of one. -/
def pickOperator (two one : List Char) : Option (Token.Kind × List Char) :=
  match (if two.length == 2 then Token.Kind.operator? two else none) with
  | some kind => some (kind, two)
  | none =>
    if one.length == 1 then (Token.Kind.operator? one).map fun kind => (kind, one) else none

/-- How a character that starts no token is named; nothing is named at the end of the text. -/
def characterName : Option Char → String
  | some c => Text.quoted (String.singleton c)
  | none => Text.quoted ""

end BasicToC.Lexeme
