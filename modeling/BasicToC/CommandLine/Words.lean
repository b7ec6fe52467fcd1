import BasicToC.Text.DecimalDigit
import BasicToC.Text.Quoted

/-!
# Words of a command line

A word that starts with a dash may name an option, spelt out, cut short or with its argument
attached. Behind the word `--` every word is an argument.

* `Switch`: the options of the program, with the ways to write them.
* `Word`: what a word of the command line is.
* `classify`: the words of a command line.
-/

set_option autoImplicit false

namespace BasicToC.CommandLine

/-- The options of the program. -/
inductive Switch where
  | help
  | output
  | debug
  deriving DecidableEq, Repr

namespace Switch

/-- The ways to write an option. -/
def spellings : Switch → List String
  | .help => ["-h", "--help"]
  | .output => ["-o", "--output"]
  | .debug => ["--debug"]

/-- All ways to write options, with the options. -/
def table : List (String × Switch) :=
  [Switch.help, .output, .debug].flatMap fun switch =>
    switch.spellings.map fun spelling => (spelling, switch)

/-- The option that is written as `spelling`. -/
def ofSpelling? (spelling : String) : Option Switch :=
  (table.find? (·.1 == spelling)).map (·.2)

/-- An option as messages name it. -/
def title (switch : Switch) : String := String.intercalate "/" switch.spellings

end Switch

/-- What a word of a command line is. `short` tells an option that is written with one dash;
`attached` is the argument that stands in the same word, behind an equals sign or directly. -/
inductive Word where
  | argument (text : String)
  | option (switch : Switch) (short : Bool) (attached : Option String)
  | unknown (text : String)
  | barrier
  deriving DecidableEq, Repr

/-- Why a command line is refused. -/
inductive Refusal where
  | ambiguous (word : String) (spellings : List String)
  | argumentExpected (switch : Switch)
  | argumentIgnored (switch : Switch) (text : String)
  | fileMissing
  | unrecognized (words : List String)
  deriving DecidableEq, Repr

/-- A word at its first equals sign: what stands before it, and what stands behind it if there is
one. -/
def splitSign (word : String) : String × Option String :=
  let before := word.toList.takeWhile (· != '=')
  match word.toList.drop before.length with
  | [] => (word, none)
  | _ :: behind => (String.ofList before, some (String.ofList behind))

/-- Whether a text is a number: digits of any script, or a point with digits behind it. -/
def isNumber (text : List Char) : Bool :=
  let whole := text.takeWhile Text.isDecimalDigit
  match text.drop whole.length with
  | [] => !whole.isEmpty
  | '.' :: fraction => !fraction.isEmpty && fraction.all Text.isDecimalDigit
  | _ => false

/-- Whether a word is a number behind a minus sign, with or without a line feed at its end. -/
def isNegativeNumber (word : String) : Bool :=
  match word.toList with
  | '-' :: rest => isNumber (if rest.getLast? == some '\n' then rest.dropLast else rest)
  | _ => false

/-- The readings of a word with one dash: a short option with its argument attached. -/
def shortReadings (word : String) : List (String × Word) :=
  let head := String.ofList (word.toList.take 2)
  match Switch.ofSpelling? head with
  | some switch => [(head, .option switch true (some (String.ofList (word.toList.drop 2))))]
  | none => []

/-- The readings of a word with two dashes: the options whose spelling starts with it, up to an
equals sign. -/
def longReadings (word : String) : List (String × Word) :=
  let (stem, attached?) := splitSign word
  (Switch.table.filter fun entry => stem.toList.isPrefixOf entry.1.toList).map fun entry =>
    (entry.1, .option entry.2 false attached?)

/-- Whether a word starts with a dash. -/
def hasDash (word : String) : Bool := word.toList.head? == some '-'

/-- Whether a word starts with two dashes. -/
def hasTwoDashes (word : String) : Bool := ['-', '-'].isPrefixOf word.toList

/-- What a word is, when it stands in front of any `--`. -/
def classifyWord (word : String) : Except Refusal Word :=
  if !hasDash word || word == "-" then .ok (.argument word)
  else
    let short := !hasTwoDashes word
    match Switch.ofSpelling? word with
    | some switch => .ok (.option switch short none)
    | none =>
      let (stem, attached?) := splitSign word
      match attached?, Switch.ofSpelling? stem with
      | some text, some switch => .ok (.option switch short (some text))
      | _, _ =>
        match (if short then shortReadings word else longReadings word) with
        | [reading] => .ok reading.2
        | [] =>
          if isNegativeNumber word || word.toList.contains ' ' then .ok (.argument word)
          else .ok (.unknown word)
        | readings => .error (.ambiguous word (readings.map (·.1)))

/-- The words of a command line. -/
def classify : List String → Except Refusal (List Word)
  | [] => .ok []
  | word :: rest =>
    if word == "--" then .ok (.barrier :: rest.map .argument)
    else
      match classifyWord word with
      | .error refusal => .error refusal
      | .ok first =>
        match classify rest with
        | .error refusal => .error refusal
        | .ok words => .ok (first :: words)

end BasicToC.CommandLine
