import BasicToC.Build.Basic
import BasicToC.CommandLine.Request

/-!
# Carrying a command line out

* `Result`: what is printed, the files afterwards, and the code the program ends with.
* `execute`: a command line carried out on some files.
-/

set_option autoImplicit false

namespace BasicToC.CommandLine

/-- What is printed on both channels, the files afterwards, and the code that the program ends with;
none if it comes to its own end. -/
structure Result where
  exit : Option Int
  output : String
  errors : String
  files : Files
  deriving DecidableEq, Repr

/-- The notes of a run as lines. -/
def noteLines (notes : List Event) : String := String.join (notes.map fun event => event.line ++ "\n")

/-- The code that the program ends with when something leaves its guard. -/
def exitCode : Leaving → Option Int
  | .nothing => none
  | .exit (.whole code) => some code
  | _ => some 1

/-- Carries a command line out. -/
def execute (style : Style) (files : Files) (words : List String) : Result :=
  match interpret words with
  | .help => ⟨some 0, help, "", files⟩
  | .refused refusal => ⟨some 2, "", refusal.report, files⟩
  | .run request =>
    let reporter : Reporter := { fatal := true, style := style }
    let workshop := Build.start files reporter request.file request.output
    let (_, report, leaving, workshop) := Build.runGuarded request.debug workshop
    let notes := if request.debug then noteLines workshop.notes.reverse else ""
    ⟨exitCode leaving, "", notes ++ report, workshop.files⟩

end BasicToC.CommandLine
