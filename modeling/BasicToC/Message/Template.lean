import BasicToC.Message.Basic
import BasicToC.Text.DecimalDigit
import BasicToC.Text.Quoted

/-!
# Message templates

A template is a text with fields in braces. An empty field takes the next value, a number the value
of that place, counted from zero; one template uses one of the two ways only. A doubled brace
stands for the brace itself. Faults count in reading order.

* `Segment`: a template taken apart.
* `segments`: how a text is taken apart, up to its first stray brace.
* `fill`: the message of a template and a list of values.
-/

set_option autoImplicit false

namespace BasicToC.Template

/-- Why a template gives no message: a field asks for a value that is not there, by a number that is
too great, or by a name; a brace has no partner; fields in order and fields by number come
together. -/
inductive Fault where
  | missingValue (index : Nat)
  | numberTooGreat
  | namedField (name : String)
  | strayBrace
  | orderAfterNumber
  | numberAfterOrder
  deriving DecidableEq, Repr

/-- The words for a fault. -/
def Fault.text : Fault → String
  | .missingValue index =>
    "Replacement index " ++ toString index ++ " out of range for positional args tuple"
  | .numberTooGreat => "Too many decimal digits in format string"
  | .namedField name => Text.quoted name
  | .strayBrace => "Single '\x7d' encountered in format string"
  | .orderAfterNumber =>
    "cannot switch from manual field specification to automatic field numbering"
  | .numberAfterOrder =>
    "cannot switch from automatic field numbering to manual field specification"

/-- A character that stands for itself, a field with what is written in it, or a brace without its
partner. -/
inductive Segment where
  | char (c : Char)
  | field (content : List Char)
  | stray
  deriving DecidableEq, Repr

/-- A template taken apart, up to its first stray brace. The first argument is what has been read of
the field that is open, last character first. -/
def segments : Option (List Char) → List Char → List Segment
  | none, [] => []
  | none, '{' :: '{' :: rest => .char '{' :: segments none rest
  | none, '}' :: '}' :: rest => .char '}' :: segments none rest
  | none, c :: rest =>
    if c == '{' then segments (some []) rest
    else if c == '}' then [.stray]
    else .char c :: segments none rest
  | some _, [] => [.stray]
  | some content, c :: rest =>
    if c == '{' then [.stray]
    else if c == '}' then .field content.reverse :: segments none rest
    else segments (some (c :: content)) rest

/-- How the fields of a template choose their values, as far as it is known. -/
inductive Numbering where
  | undecided
  | inOrder (next : Nat)
  | byNumber
  deriving DecidableEq, Repr

/-- The greatest number that a field may hold. -/
def maxNumber : Nat := Nat.pow 2 63 - 1

/-- The number that is written in a field, in digits of any script. Digits that spell too great a
number are a fault also when something else follows them; otherwise that makes a name of the whole. -/
def number (content : List Char) : Except Fault Nat :=
  let digits := content.takeWhile Text.isDecimalDigit
  if maxNumber < Text.decimalValue digits then .error .numberTooGreat
  else if digits.length < content.length then .error (.namedField (String.ofList content))
  else .ok (Text.decimalValue digits)

/-- The place of the value that a field asks for, and the numbering from there on. -/
def place (numbering : Numbering) (content : List Char) : Except Fault (Nat × Numbering) :=
  match content, numbering with
  | [], .undecided => .ok (0, .inOrder 1)
  | [], .inOrder next => .ok (next, .inOrder (next + 1))
  | [], .byNumber => .error .orderAfterNumber
  | _ :: _, numbering =>
    match number content, numbering with
    | .error fault, _ => .error fault
    | .ok _, .inOrder _ => .error .numberAfterOrder
    | .ok n, _ => .ok (n, .byNumber)

/-- The message of a template taken apart. -/
def fillFrom (values : List String) : Numbering → List Segment → Except Fault Message
  | _, [] => .ok []
  | numbering, .char c :: rest =>
    match fillFrom values numbering rest with
    | .error fault => .error fault
    | .ok message => .ok (.words (String.singleton c) :: message)
  | _, .stray :: _ => .error .strayBrace
  | numbering, .field content :: rest =>
    match place numbering content with
    | .error fault => .error fault
    | .ok (index, numbering) =>
      match values[index]? with
      | none => .error (.missingValue index)
      | some value =>
        match fillFrom values numbering rest with
        | .error fault => .error fault
        | .ok message => .ok (.value value :: message)

/-- The message of a template with `values` set into its fields; values that no field asks for are
left out. -/
def fill (template : String) (values : List String) : Except Fault Message :=
  fillFrom values .undecided (segments none template.toList)

end BasicToC.Template
