/-!
# Kinds of token

* `Token.Kind`: the kinds of token of the language.
* `Kind.name`, `Kind.spelling`: the name of a kind, and how it is written in a program or called.
* `Kind.keyword?`, `Kind.operator?`: the kind that a spelling stands for.
-/

set_option autoImplicit false

namespace BasicToC

/-- The kinds of token: marks of layout, names and literals, keywords, operators. -/
inductive Token.Kind where
  | eof | newline | ident | string | integer | float
  | print | label | goto | input | assign | when | andThen | endWhen | loop | again | endLoop
  | eq | plus | minus | asterisk | slash | eqEq | notEq | lt | ltEq | gt | gtEq
  deriving DecidableEq, Repr

namespace Token.Kind

/-- All kinds. -/
def all : List Token.Kind :=
  [.eof, .newline, .ident, .string, .integer, .float, .print, .label, .goto, .input, .assign, .when,
    .andThen, .endWhen, .loop, .again, .endLoop, .eq, .plus, .minus, .asterisk, .slash, .eqEq,
    .notEq, .lt, .ltEq, .gt, .gtEq]

/-- The name of a kind in records of tokens. -/
def name : Token.Kind → String
  | .eof => "EOF"
  | .newline => "NEWLINE"
  | .ident => "IDENT"
  | .string => "STRING"
  | .integer => "INTEGER"
  | .float => "FLOAT"
  | .print => "PRINT"
  | .label => "LABEL"
  | .goto => "GOTO"
  | .input => "INPUT"
  | .assign => "LET"
  | .when => "IF"
  | .andThen => "THEN"
  | .endWhen => "ENDIF"
  | .loop => "WHILE"
  | .again => "REPEAT"
  | .endLoop => "ENDWHILE"
  | .eq => "EQ"
  | .plus => "PLUS"
  | .minus => "MINUS"
  | .asterisk => "ASTERISK"
  | .slash => "SLASH"
  | .eqEq => "EQEQ"
  | .notEq => "NOTEQ"
  | .lt => "LT"
  | .ltEq => "LTEQ"
  | .gt => "GT"
  | .gtEq => "GTEQ"

/-- How a keyword or an operator is written, and how any other kind is called in messages. -/
def spelling : Token.Kind → String
  | .eof => "end of input"
  | .newline => "newline"
  | .ident => "identifier"
  | .string => "string"
  | .integer => "integer"
  | .float => "float"
  | .eq => "="
  | .plus => "+"
  | .minus => "-"
  | .asterisk => "*"
  | .slash => "/"
  | .eqEq => "=="
  | .notEq => "!="
  | .lt => "<"
  | .ltEq => "<="
  | .gt => ">"
  | .gtEq => ">="
  | keyword => keyword.name

/-- The keywords. -/
def keywords : List Token.Kind :=
  [.print, .label, .goto, .input, .assign, .when, .andThen, .endWhen, .loop, .again, .endLoop]

/-- The operators. -/
def operators : List Token.Kind :=
  [.eq, .plus, .minus, .asterisk, .slash, .eqEq, .notEq, .lt, .ltEq, .gt, .gtEq]

/-- The keyword written as `word`. -/
def keyword? (word : List Char) : Option Token.Kind :=
  keywords.find? fun kind => kind.spelling.toList == word

/-- The operator written as `spelling`. -/
def operator? (spelling : List Char) : Option Token.Kind :=
  operators.find? fun kind => kind.spelling.toList == spelling

end Token.Kind

end BasicToC
