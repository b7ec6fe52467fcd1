import BasicToC.Report.Diagnostic

/-!
# Reporting errors

A reporter knows which files are being worked on and which line of each is at fault. It guards a
piece of work: whatever goes wrong in that is reported, and most of it goes no further.

* `History`: the files in the order in which they were first registered.
* `Reporter.throw`: the report of one diagnostic.
* `Ending`: how a guarded piece of work ends.
* `Reporter.guard`: what is reported of it, and what leaves it.
-/

set_option autoImplicit false

namespace BasicToC

/-- A file, and the line of it that is at fault with its number, as far as they are known. -/
structure History.Entry where
  path : String
  line : Option String
  number : Option Int
  deriving DecidableEq, Repr

/-- The files in the order in which they were first registered. -/
abbrev History := List History.Entry

namespace History

/-- Registers a file or a line of it. What was registered for that file is replaced in its place. -/
def register (entry : History.Entry) : History → History
  | [] => [entry]
  | first :: rest => if first.path == entry.path then entry :: rest else first :: register entry rest

/-- The entries that name a line. -/
def lines (history : History) : List (String × String × Option Int) :=
  history.filterMap fun entry => entry.line.map fun line => (entry.path, line, entry.number)

/-- The lines at fault; more than one have a title. -/
def text (history : History) : String :=
  let shown := history.lines.map fun (path, line, number) =>
    "  File '" ++ path ++ "', line " ++ (match number with
      | some n => toString n
      | none => "None") ++ ":\n    " ++ line ++ "\n"
  (if 1 < shown.length then "Traceback:\n" else "") ++ String.join shown

end History

/-- Who reports errors: whether a report ends the program, how text is emphasised, and the files so
far. -/
structure Reporter where
  fatal : Bool := true
  style : Style := .bare
  history : History := []
  deriving DecidableEq, Repr

namespace Reporter

/-- A file is being worked on. -/
def registerFile (reporter : Reporter) (path : String) : Reporter :=
  { reporter with history := reporter.history.register ⟨path, none, none⟩ }

/-- A line of a file is at fault. -/
def registerLine (reporter : Reporter) (path : String) (line : Option String)
    (number : Option Int) : Reporter :=
  { reporter with history := reporter.history.register ⟨path, line, number⟩ }

/-- The report of a diagnostic: the lines at fault, the message, and the pointer if there is a line
to point at. -/
def report (reporter : Reporter) (diagnostic : Diagnostic) : String :=
  let style := reporter.style
  reporter.history.text ++ (if diagnostic.inner then style.alarm "[internal] " else "") ++
    style.alarm (diagnostic.category.title ++ ": ") ++ diagnostic.message.render style.bold ++ "\n" ++
    (if !diagnostic.inner && diagnostic.excerpt != "" && diagnostic.pointed then
      diagnostic.pointer style ++ "\n" else "")

/-- Reports a diagnostic. If that does not end the program, the files are forgotten. -/
def throw (reporter : Reporter) (diagnostic : Diagnostic) : String × Reporter :=
  (reporter.report diagnostic, if reporter.fatal then reporter else { reporter with history := [] })

end Reporter

/-- How a guarded piece of work ends. An unforeseen failure has a name and a text. -/
inductive Ending where
  | finished
  | exit (code : Value)
  | interrupted
  | tooDeep
  | diagnosed (diagnostic : Diagnostic)
  | unforeseen (name text : String)
  deriving DecidableEq, Repr

/-- What leaves a guarded piece of work: nothing, the end of the program, the failure that came in,
or a fault in putting the report into words. -/
inductive Leaving where
  | nothing
  | exit (code : Value)
  | unforeseen (name : String)
  | unspeakable (fault : Template.Fault)
  deriving DecidableEq, Repr

namespace Reporter

/-- Reports a diagnostic, which ends the program or lets `after` leave. -/
def conclude (reporter : Reporter) (diagnostic : Diagnostic) (after : Leaving) :
    String × Reporter × Leaving :=
  let (text, next) := reporter.throw diagnostic
  (text, next, if reporter.fatal then .exit (.whole 1) else after)

/-- Reports how a piece of work ended. The end of the program passes without a word; an unforeseen
failure passes after a report, whose template is the text of the failure. -/
def guard (reporter : Reporter) : Ending → String × Reporter × Leaving
  | .finished => ("", reporter, .nothing)
  | .exit code => ("", reporter, .exit code)
  | .interrupted =>
    reporter.conclude { category := .general, message := [.words "keyboard interrupt"] } .nothing
  | .tooDeep =>
    reporter.conclude
      { category := .general
        message := [.words
          "program is too deeply nested to compile, maximum recursion depth exceeded"] }
      .nothing
  | .diagnosed diagnostic => reporter.conclude diagnostic .nothing
  | .unforeseen name text =>
    match Diagnostic.ofTemplate .general ("unknown error: '" ++ name ++ ": " ++ text ++ "'") [] with
    | .error fault => ("", reporter, .unspeakable fault)
    | .ok diagnostic => reporter.conclude { diagnostic with inner := true } (.unforeseen name)

end Reporter

end BasicToC
