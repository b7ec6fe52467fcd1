import BasicToC.Text.Lines

/-!
# Files

Files and directories below a root. A path leads to one of them, from the root when it starts with
a slash and otherwise from the directory at hand.

* `Files`: what there is.
* `Files.Refusal`: why a path cannot be opened.
* `Files.read`, `Files.write`: the content of a file, and the files with a new content of one.
-/

set_option autoImplicit false

namespace BasicToC

/-- Files with their bytes and directories, each under the names that lead to it from the root, and
the directory at hand. -/
structure Files where
  contents : List (List String × List UInt8) := []
  directories : List (List String) := []
  here : List String := []
  deriving DecidableEq, Repr

namespace Files

/-- Why a path cannot be opened. -/
inductive Refusal where
  | noEntry
  | notDirectory
  | isDirectory
  | nameTooLong
  deriving DecidableEq, Repr

/-- The number of a refusal. -/
def Refusal.code : Refusal → Nat
  | .noEntry => 2
  | .notDirectory => 20
  | .isDirectory => 21
  | .nameTooLong => 36

/-- The words for a refusal. -/
def Refusal.text : Refusal → String
  | .noEntry => "No such file or directory"
  | .notDirectory => "Not a directory"
  | .isDirectory => "Is a directory"
  | .nameTooLong => "File name too long"

/-- The content of a file, given the names that lead to it. -/
def content? (files : Files) (names : List String) : Option (List UInt8) :=
  (files.contents.find? (·.1 == names)).map (·.2)

/-- Whether some names lead to a directory. -/
def hasDirectory (files : Files) (names : List String) : Bool :=
  names.isEmpty || files.directories.contains names

/-- The names in a path, without the empty ones. -/
def namesOf (path : String) : List String :=
  ((Text.splitAt '/' path.toList).filter fun name => !name.isEmpty).map String.ofList

/-- Whether a path starts from the root. -/
def isAbsolute (path : String) : Bool := path.toList.head? == some '/'

/-- The most bytes of a name. -/
def maxName : Nat := 255

/-- The most bytes of a path. -/
def maxPath : Nat := 4095

/-- One step of a path: only a directory can be stepped through. -/
def step (files : Files) (names : List String) (name : String) : Except Refusal (List String) :=
  if files.hasDirectory names then
    if name == "." then .ok names
    else if name == ".." then .ok names.dropLast
    else if maxName < name.utf8ByteSize then .error .nameTooLong
    else .ok (names ++ [name])
  else if (files.content? names).isSome then .error .notDirectory
  else .error .noEntry

/-- The names that a path leads to. The last one need not be there. -/
def locate (files : Files) (path : String) : Except Refusal (List String) :=
  if path == "" then .error .noEntry
  else if maxPath < path.utf8ByteSize then .error .nameTooLong
  else (namesOf path).foldlM files.step (if isAbsolute path then [] else files.here)

/-- Whether a path asks for a directory by a slash at its end. -/
def asksDirectory (path : String) : Bool := path.toList.getLast? == some '/'

/-- The content of the file that a path leads to. -/
def read (files : Files) (path : String) : Except Refusal (List UInt8) :=
  match files.locate path with
  | .error refusal => .error refusal
  | .ok names =>
    if files.hasDirectory names then .error .isDirectory
    else
      match files.content? names with
      | none => .error .noEntry
      | some bytes => if asksDirectory path then .error .notDirectory else .ok bytes

/-- The files with a new content under some names, in the place of the old one. -/
def put (files : Files) (names : List String) (bytes : List UInt8) : Files :=
  { files with
    contents :=
      if (files.content? names).isSome then
        files.contents.map fun entry => if entry.1 == names then (names, bytes) else entry
      else files.contents ++ [(names, bytes)] }

/-- The files with a new content of the file that a path leads to, which is made if need be. -/
def write (files : Files) (path : String) (bytes : List UInt8) : Except Refusal Files :=
  match files.locate path with
  | .error refusal => .error refusal
  | .ok names =>
    if files.hasDirectory names || asksDirectory path then .error .isDirectory
    else .ok (files.put names bytes)

end Files

end BasicToC
