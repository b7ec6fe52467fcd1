/-!
# Suffixes of paths

The suffix of a path starts at the last point in its last name, unless only points stand before it
there.

* `withoutSuffix`: a path without its suffix.
-/

set_option autoImplicit false

namespace BasicToC.Files

/-- The characters behind the last `/` of a path. -/
def lastName (path : List Char) : List Char := (path.reverse.takeWhile (· != '/')).reverse

/-- The characters of a name before its last point, if it has one. -/
def beforePoint? (name : List Char) : Option (List Char) :=
  match name.reverse.dropWhile (· != '.') with
  | [] => none
  | _ :: before => some before.reverse

/-- A path without its suffix. -/
def withoutSuffix (path : List Char) : List Char :=
  match beforePoint? (lastName path) with
  | none => path
  | some stem =>
    if stem.any (· != '.') then path.take (path.length - (lastName path).length) ++ stem else path

end BasicToC.Files
