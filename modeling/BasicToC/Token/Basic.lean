import BasicToC.Token.Kind
import BasicToC.Value

/-!
# Tokens

* `Token`: a kind, what it carries, where it stands and how it was written.
* `Token.same`: equality of tokens, which leaves the place and the writing out.
* `Token.shown`, `Token.record`: a token in a message and in a record of data.
-/

set_option autoImplicit false

namespace BasicToC

/-- A word, number, text, operator or line end of a program. Lines and columns count from one; both
are zero for a token that was not read from a text. -/
structure Token where
  kind : Token.Kind
  value : Value := .absent
  line : Int := 0
  column : Int := 0
  lexeme : String := ""
  deriving DecidableEq, Repr

namespace Token

/-- Two tokens are the same when they are of one kind and carry the same value. -/
def same (a b : Token) : Bool := a.kind == b.kind && a.value.same b.value

/-- A token as a message names it: by its writing if that is known. -/
def shown (token : Token) : String :=
  match token.kind with
  | .eof | .newline => token.kind.spelling
  | _ =>
    if token.lexeme != "" then "'" ++ token.lexeme ++ "'"
    else if token.value == .absent then "'" ++ token.kind.spelling ++ "'"
    else "'" ++ token.value.shown ++ "'"

/-- A token in a record of data: its kind, and its value if it carries one. -/
def record (token : Token) : String :=
  if token.value == .absent then token.kind.name
  else token.kind.name ++ "(" ++ token.value.record ++ ")"

end Token

end BasicToC
