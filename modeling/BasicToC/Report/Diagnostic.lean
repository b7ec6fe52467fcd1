import BasicToC.Complaint
import BasicToC.Message.Template
import BasicToC.Text.Columns
import BasicToC.Text.Lines
import BasicToC.Text.Slice

/-!
# Diagnostics

What is shown of an error: a message, and the line it is about with a pointer under the fault.

* `Diagnostic`: a message with its place.
* `Diagnostic.ofTemplate`, `Diagnostic.ofRejection`: how diagnostics come about.
* `Diagnostic.locate`: the line that a diagnostic is about.
* `Diagnostic.pointer`: that line with a pointer under it.
-/

set_option autoImplicit false

namespace BasicToC

/-- A message about an error. It is about a stretch of a line, from column `start` up to column
`stop`, or to the end of the line when `stop` is `-1`; negative columns count from the end. The line
itself is the excerpt, once it is known. `pointed` asks for a pointer, `inner` marks an error of the
compiler itself. -/
structure Diagnostic where
  category : Category
  message : Message
  line : Option Int := none
  start : Int := 0
  stop : Int := -1
  excerpt : String := ""
  pointed : Bool := true
  inner : Bool := false
  deriving DecidableEq, Repr

namespace Diagnostic

/-- A diagnostic whose message is a template with values set into it. -/
def ofTemplate (category : Category) (template : String) (values : List String) :
    Except Template.Fault Diagnostic :=
  match Template.fill template values with
  | .ok message => .ok { category := category, message := message }
  | .error fault => .error fault

/-- The diagnostic of a refused program. -/
def ofRejection (rejection : Rejection) : Diagnostic where
  category := rejection.complaint.category
  message := rejection.complaint.message
  line := rejection.line
  start := rejection.start
  stop := rejection.stop

/-- The line of a number in a text, without the carriage returns at its end. -/
def lineOf? (source : String) (number : Int) : Option (List Char) :=
  if 0 < number then
    ((Text.splitLines source.toList)[(number - 1).toNat]?).map Text.trimReturns
  else none

/-- The same diagnostic with the line that it is about as its excerpt, and a stretch that does not
reach past the end of that line. -/
def locate (diagnostic : Diagnostic) (source : String) : Diagnostic :=
  match diagnostic.line.bind (lineOf? source) with
  | none => diagnostic
  | some line =>
    { diagnostic with
      excerpt := String.ofList line
      stop := if diagnostic.stop = -1 ∨ line.length < diagnostic.stop then line.length
        else diagnostic.stop }

/-- The excerpt, and below it a pointer from the first to the last character of the stretch. At
least one character is pointed at. -/
def pointer (style : Style) (diagnostic : Diagnostic) : String :=
  let line := diagnostic.excerpt.toList
  let start := diagnostic.start
  let stop := max diagnostic.stop (start + 1)
  let between (a b : Int) := String.ofList (Text.slice line a b)
  "  " ++ between 0 start ++ style.alarm (between start stop) ++ between stop line.length ++ "\n" ++
    "  " ++ Text.repeated ' ' start.toNat ++
    style.alarm ("^" ++ Text.repeated '~' (stop - start - 1).toNat)

end Diagnostic

end BasicToC
