import BasicToC.Text.Printable

/-!
# Quoted text

A text is written between single quotes, or between double quotes when it holds a single quote and
no double one. The backslash, the quote in use and every character that is not printable are
written as escapes, so a quoted text stands on one line.

* `hexDigits`: a number in lower-case hexadecimal digits of a given count.
* `escaped`: one character as it stands inside quotes.
* `quoted`: a whole text with its quotes.
-/

set_option autoImplicit false

namespace BasicToC.Text

/-- The last `width` hexadecimal digits of `n`, most significant first. -/
def hexDigits : Nat → Nat → List Char
  | 0, _ => []
  | width + 1, n => hexDigits width (n / 16) ++ [Nat.digitChar (n % 16)]

/-- A character as it stands between two marks `mark`. -/
def escaped (mark c : Char) : List Char :=
  if c == mark || c == '\\' then ['\\', c]
  else if c == '\n' then ['\\', 'n']
  else if c == '\r' then ['\\', 'r']
  else if c == '\t' then ['\\', 't']
  else if isPrintable c then [c]
  else if c.toNat < 0x100 then '\\' :: 'x' :: hexDigits 2 c.toNat
  else if c.toNat < 0x10000 then '\\' :: 'u' :: hexDigits 4 c.toNat
  else '\\' :: 'U' :: hexDigits 8 c.toNat

/-- The mark a text is quoted with: the single quote, unless only the double one is free. -/
def quoteMark (text : List Char) : Char :=
  if text.contains '\'' && !text.contains '"' then '"' else '\''

/-- A text between its marks. -/
def quotedChars (text : List Char) : List Char :=
  quoteMark text :: (text.flatMap (escaped (quoteMark text)) ++ [quoteMark text])

/-- A text between its marks. -/
def quoted (text : String) : String := String.ofList (quotedChars text.toList)

end BasicToC.Text
