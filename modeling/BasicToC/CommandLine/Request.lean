import BasicToC.CommandLine.Words

/-!
# What a command line asks for

    basicc [-h] [-o OUTPUT] [--debug] file

* `Request`: the file to compile, where to write, and whether to take notes.
* `Answer`: a request, a call for help, or a refusal.
* `interpret`: the answer to a command line.
* `usage`, `help`, `Refusal.text`: what is printed.
-/

set_option autoImplicit false

namespace BasicToC.CommandLine

/-- The file to compile, where to write the listing, and whether to show what is noted. -/
structure Request where
  file : String
  output : Option String
  debug : Bool
  deriving DecidableEq, Repr

/-- What becomes of a command line. -/
inductive Answer where
  | run (request : Request)
  | help
  | refused (refusal : Refusal)
  deriving DecidableEq, Repr

/-- What has been read of a command line: the file, the options, and the words for which there is
no use. -/
structure Reading where
  file : Option String := none
  output : Option String := none
  debug : Bool := false
  extras : List String := []
  deriving DecidableEq, Repr

namespace Reading

/-- An argument is the file, or else there is no use for it. -/
def argument (reading : Reading) (text : String) : Reading :=
  match reading.file with
  | none => { reading with file := some text }
  | some _ => { reading with extras := reading.extras ++ [text] }

/-- There is no use for a word. -/
def extra (reading : Reading) (text : String) : Reading :=
  { reading with extras := reading.extras ++ [text] }

end Reading

/-- The letters that follow a short option without an argument in its word, as further short options.
The help that the first one asks for comes once all of them are understood. `behind` are the words
after this one. -/
def cluster (behind : List Word) : (switch : Switch) → (letters : List Char) → Answer
  | switch, [] => .refused (.argumentIgnored switch "")
  | switch, letter :: rest =>
    match Switch.ofSpelling? (String.ofList ['-', letter]), rest, behind with
    | none, _, _ => .refused (.argumentIgnored switch (String.ofList (letter :: rest)))
    | some .output, [], .argument _ :: _ => .help
    | some .output, [], _ => .refused (.argumentExpected .output)
    | some .output, _ :: _, _ => .help
    | some _, [], _ => .help
    | some next, _ :: _, _ => cluster behind next rest

/-- The argument that is attached to an option; the barrier counts as none. -/
def attachedArgument (text : String) : Option String := if text == "--" then none else some text

/-- Reads words from left to right. -/
def interpretWords (reading : Reading) : List Word → Answer
  | [] => finish reading
  | .argument text :: rest =>
    match rest with
    | .barrier :: more =>
      if reading.file.isNone then
        finish { reading with file := some text, extras := reading.extras ++ plain more }
      else interpretWords (reading.extra text) rest
    | _ => interpretWords (reading.argument text) rest
  | .unknown text :: rest => interpretWords (reading.extra text) rest
  | .barrier :: rest =>
    match reading.file, plain rest with
    | none, first :: more =>
      finish { reading with file := some first, extras := reading.extras ++ more }
    | _, more => finish { reading with extras := reading.extras ++ "--" :: more }
  | .option switch _ none :: rest =>
    match switch with
    | .help => .help
    | .debug => interpretWords { reading with debug := true } rest
    | .output =>
      match rest with
      | .argument text :: more => interpretWords { reading with output := some text } more
      | _ => .refused (.argumentExpected .output)
  | .option switch short (some attached) :: rest =>
    match switch with
    | .output => interpretWords { reading with output := attachedArgument attached } rest
    | .help =>
      if short then cluster rest .help attached.toList
      else .refused (.argumentIgnored .help attached)
    | .debug => .refused (.argumentIgnored .debug attached)
where
  /-- The words behind `--`. -/
  plain (words : List Word) : List String :=
    words.filterMap fun | .argument text => some text | _ => none
  /-- The answer once all words are read. -/
  finish (reading : Reading) : Answer :=
    match reading.file with
    | none => .refused .fileMissing
    | some file =>
      if reading.extras.isEmpty then .run ⟨file, reading.output, reading.debug⟩
      else .refused (.unrecognized reading.extras)

/-- The answer to a command line. -/
def interpret (words : List String) : Answer :=
  match classify words with
  | .error refusal => .refused refusal
  | .ok words => interpretWords {} words

/-! ## What is printed -/

/-- The name of the program. -/
def programName : String := "basicc"

/-- How the program is called. -/
def usage : String := "usage: " ++ programName ++ " [-h] [-o OUTPUT] [--debug] file\n"

/-- The help of the program. -/
def help : String :=
  usage ++ "\nCompile a BASIC program into C.\n\npositional arguments:\n" ++
    "  file                  BASIC source file to compile\n\noptions:\n" ++
    "  -h, --help            show this help message and exit\n" ++
    "  -o OUTPUT, --output OUTPUT\n" ++
    "                        path of the generated C file (default: FILE with a .c\n" ++
    "                        suffix)\n" ++
    "  --debug               trace scanning, parsing and code generation\n"

/-- What is wrong with a command line. -/
def Refusal.text : Refusal → String
  | .ambiguous word spellings =>
    "ambiguous option: " ++ word ++ " could match " ++ String.intercalate ", " spellings
  | .argumentExpected switch => "argument " ++ switch.title ++ ": expected one argument"
  | .argumentIgnored switch text =>
    "argument " ++ switch.title ++ ": ignored explicit argument " ++ Text.quoted text
  | .fileMissing => "the following arguments are required: file"
  | .unrecognized words => "unrecognized arguments: " ++ String.intercalate " " words

/-- What is printed about a command line that is refused. -/
def Refusal.report (refusal : Refusal) : String :=
  usage ++ programName ++ ": error: " ++ refusal.text ++ "\n"

end BasicToC.CommandLine
