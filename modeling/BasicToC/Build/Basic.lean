import BasicToC.Compile
import BasicToC.Files.Store
import BasicToC.Files.Suffix
import BasicToC.Report.Reporter
import BasicToC.Text.Utf8

/-!
# Building one file

A program is read from one file, compiled, and written into another.

* `Job`: the two paths, and the texts as far as they are known.
* `Workshop`: the files, the reporter, the job at hand and the notes taken.
* `Build`: a step of the work, which ends with a result or a fault.
* `start`, `read`, `compile`, `write`, `run`: the steps.
-/

set_option autoImplicit false

namespace BasicToC

/-- The path of a program and of its listing, and the texts of both as far as they are known. -/
structure Job where
  path : String
  output : String
  source : Option String := none
  listing : Option String := none
  deriving DecidableEq, Repr

namespace Job

/-- A listing goes beside its program, under the same name with its own suffix. -/
def defaultOutput (path : String) : String :=
  String.ofList (Files.withoutSuffix path.toList) ++ ".c"

/-- The job for a path, with the path of the listing if one is given. -/
def forPath (path : String) (output? : Option String) : Job :=
  { path := path
    output := match output? with
      | some output => if output == "" then defaultOutput path else output
      | none => defaultOutput path }

end Job

/-- The files, the reporter, the job at hand and the notes taken, the last one first. -/
structure Workshop where
  files : Files := {}
  reporter : Reporter := {}
  job : Job
  notes : List Event := []
  deriving DecidableEq, Repr

namespace Build

/-- Why a step ends without a result: there is something to report; the program is nested too deep;
a path holds the character that ends paths; there is nothing to compile or to write yet; the
compiler fails in another way. -/
inductive Fault where
  | diagnosed (diagnostic : Diagnostic)
  | tooDeep
  | nulInPath
  | nothingRead
  | nothingCompiled
  | broken (fault : Compile.Fault)
  deriving DecidableEq, Repr

end Build

/-- A step of the work on a job. -/
abbrev Build := EStateM Build.Fault Workshop

namespace Build

/-- A workshop with a job, whose file is registered. -/
def start (files : Files) (reporter : Reporter) (path : String) (output? : Option String) :
    Workshop :=
  { files := files
    reporter := reporter.registerFile path
    job := Job.forPath path output? }

/-- A path that cannot be opened, in words. -/
def refusalText (refusal : Files.Refusal) (path : String) : String :=
  "[Errno " ++ toString refusal.code ++ "] " ++ refusal.text ++ ": " ++ Text.quoted path

/-- Bytes that are not UTF-8, in words. -/
def decodeText (fault : Text.Utf8.Fault) : String :=
  let place := if fault.count = 1 then
      "byte 0x" ++ String.ofList (Text.hexDigits 2 fault.byte) ++ " in position " ++
        toString fault.offset
    else
      "bytes in position " ++ toString fault.offset ++ "-" ++
        toString (fault.offset + fault.count - 1)
  "'utf-8' codec can't decode " ++ place ++ ": " ++ fault.reason.text

/-- Reports a file that cannot be used. -/
def unusable {α : Type} (path deed reason : String) : Build α :=
  throw (.diagnosed
    { category := .general
      message := [.words "'", .value path, .words ("' could not be " ++ deed ++ ": "),
        .value reason]
      pointed := false })

/-- Whether a path holds the character that ends paths. -/
def hasNul (path : String) : Bool := path.toList.contains '\x00'

/-- Reads the program. Line ends of every sort count as one. -/
def read : Build String := do
  let workshop ← get
  let path := workshop.job.path
  if hasNul path then throw .nulInPath
  match workshop.files.read path with
  | .error refusal => unusable path "opened" (refusalText refusal path)
  | .ok bytes =>
    match Text.Utf8.decode bytes with
    | .error fault => unusable path "opened" (decodeText fault)
    | .ok text =>
      let source := String.ofList (Text.joinNewlines text)
      set { workshop with job := { workshop.job with source := some source } }
      pure source

/-- What is done about a program that is refused: its line is registered. -/
def refuse {α : Type} (source : String) (rejection : Rejection) : Build α := do
  let diagnostic := (Diagnostic.ofRejection rejection).locate source
  let workshop ← get
  if diagnostic.excerpt != "" || diagnostic.line.isSome then
    set { workshop with
      reporter := workshop.reporter.registerLine workshop.job.path (some diagnostic.excerpt)
        diagnostic.line }
  throw (.diagnosed diagnostic)

/-- Compiles the program that has been read. -/
def compile (noteTree : Bool) : Build String := do
  match (← get).job.source with
  | none => throw .nothingRead
  | some source =>
    let (result, notes) := BasicToC.compile noteTree source
    modify fun workshop => { workshop with notes := notes.reverse ++ workshop.notes }
    match result with
    | .ok listing =>
      modify fun workshop => { workshop with job := { workshop.job with listing := some listing } }
      pure listing
    | .error fault =>
      match fault.rejection? with
      | some rejection => refuse source rejection
      | none =>
        match fault with
        | .reading .tooDeep | .drawing .tooDeep => throw .tooDeep
        | other => throw (.broken other)

/-- The bytes of a text. -/
def bytesOf (text : String) : List UInt8 := text.toUTF8.toList

/-- Writes the listing. The file is emptied before there is a look at what to write. -/
def write : Build Unit := do
  let workshop ← get
  let path := workshop.job.output
  if hasNul path then throw .nulInPath
  match workshop.files.write path [] with
  | .error refusal => unusable path "written" (refusalText refusal path)
  | .ok emptied =>
    match workshop.job.listing with
    | none =>
      set { workshop with files := emptied }
      throw .nothingCompiled
    | some listing =>
      match workshop.files.write path (bytesOf listing) with
      | .error refusal => unusable path "written" (refusalText refusal path)
      | .ok files =>
        set { workshop with files := files, notes := .fileWritten path :: workshop.notes }

/-- Reads, compiles and writes. -/
def run (noteTree : Bool) : Build String := do
  let _ ← read
  let listing ← compile noteTree
  write
  pure listing

/-- How a reporter sees a fault that comes out of its guarded work. -/
def Fault.ending : Build.Fault → Ending
  | .diagnosed diagnostic => .diagnosed diagnostic
  | .tooDeep => .tooDeep
  | .nulInPath => .unforeseen "ValueError" "embedded null byte"
  | .nothingRead => .unforeseen "TypeError" "nothing has been read"
  | .nothingCompiled => .unforeseen "TypeError" "nothing has been compiled"
  | .broken _ => .unforeseen "RuntimeError" "the program cannot be written"

/-- Runs a job under the guard of the reporter: the listing if all went well, what is reported, what
leaves the guard, and the workshop afterwards. -/
def runGuarded (noteTree : Bool) (workshop : Workshop) :
    Option String × String × Leaving × Workshop :=
  match run noteTree workshop with
  | .ok listing workshop => (some listing, "", .nothing, workshop)
  | .error fault workshop =>
    let (text, reporter, leaving) := workshop.reporter.guard fault.ending
    (none, text, leaving, { workshop with reporter := reporter })

end Build

end BasicToC
