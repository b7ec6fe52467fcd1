/-!
# Messages

A message is running text with values set into it. It is kept in pieces, so that the values can be
shown emphasised without a second text.

* `Piece`, `Message`: running text and the values set into it.
* `Message.render`: the text of a message, given how a value is emphasised.
* `Style`: whether a terminal's emphasis codes are written.
-/

set_option autoImplicit false

namespace BasicToC

/-- A stretch of running text, or a value set into it. -/
inductive Message.Piece where
  | words (text : String)
  | value (text : String)
  deriving DecidableEq, Repr

/-- A message, in reading order. -/
abbrev Message := List Message.Piece

namespace Message

/-- The text of a message in which each value is shown as `emphasise` of it. -/
def render (emphasise : String → String) : Message → String
  | [] => ""
  | .words text :: rest => text ++ render emphasise rest
  | .value text :: rest => emphasise text ++ render emphasise rest

/-- The text of a message without any emphasis. -/
def plain (message : Message) : String := message.render id

end Message

/-- How text is emphasised: not at all, or by the escape codes of a terminal. -/
inductive Style where
  | bare
  | terminal
  deriving DecidableEq, Repr

namespace Style

/-- Values in a message stand in bold. -/
def bold : Style → String → String
  | .bare, text => text
  | .terminal, text => "\x1b[1m" ++ text ++ "\x1b[0m"

/-- Marks of an error stand in bold red. -/
def alarm : Style → String → String
  | .bare, text => text
  | .terminal, text => "\x1b[1m\x1b[31m" ++ text ++ "\x1b[0m"

end Style

end BasicToC
