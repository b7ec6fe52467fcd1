import BasicToC.CommandLine.Execute

/-!
# The program

Looks up the files that a command line is about, carries it out on them, and brings what has changed
back.

* `survey`: the files and directories that some paths lead through.
* `main`: the program.
-/

set_option autoImplicit false

namespace BasicToC.CommandLine

/-- The paths that a command line is about. -/
def pathsOf (words : List String) : List String :=
  match interpret words with
  | .run request => [request.file, (Job.forPath request.file request.output).output]
  | _ => []

/-- An entry of the file system under the names that lead to it, added to what is known. -/
def look (files : Files) (names : List String) : IO Files := do
  let path := "/" ++ String.intercalate "/" names
  let entry := (← IO.currentDir) / path
  if ← entry.isDir then pure { files with directories := names :: files.directories }
  else if ← entry.pathExists then
    let bytes ← IO.FS.readBinFile entry
    pure (files.put names bytes.toList)
  else pure files

/-- The files and directories that some paths lead through. -/
def survey (paths : List String) : IO Files := do
  let here := Files.namesOf (← IO.currentDir).toString
  let mut files : Files := { here := here }
  for n in List.range here.length do
    files ← look files (here.take (n + 1))
  for path in paths do
    let mut names := if Files.isAbsolute path then [] else here
    for name in Files.namesOf path do
      if name == ".." then names := names.dropLast
      else if name != "." then
        names := names ++ [name]
        if !Build.hasNul path then files ← look files names
  pure files

/-- Writes the files that have changed. -/
def bringBack (before after : Files) : IO Unit := do
  for (names, bytes) in after.contents do
    if before.content? names != some bytes then
      IO.FS.writeBinFile ("/" ++ String.intercalate "/" names) (ByteArray.mk bytes.toArray)

end BasicToC.CommandLine

open BasicToC CommandLine in
/-- Compiles the file that the command line names. -/
def main (words : List String) : IO UInt32 := do
  let files ← survey (pathsOf words)
  let style : Style := if ← (← IO.getStderr).isTty then .terminal else .bare
  let result := execute style files words
  (← IO.getStdout).putStr result.output
  (← IO.getStderr).putStr result.errors
  bringBack files result.files
  pure (result.exit.getD 0).toNat.toUInt32
