import FlatMemory.CommandLine.Basic

/-! # The program

The command line on the files of the machine. -/

namespace FlatMemory

namespace CommandLine

/-- An error of the machine as a failure of file access.  The number may come with its sign
turned. -/
def fileErrorOf : IO.Error → FileError
  | .noFileOrDirectory _ _ _ => .notFound
  | .alreadyExists _ _ _ => .alreadyExists
  | .inappropriateType _ code details =>
    if code = 20 ∨ -code = 20 then .notDirectory
    else if code = 21 ∨ -code = 21 then .isDirectory
    else .other details
  | error => .other (toString error)

def attempted {α : Type} (action : IO α) : IO (Except FileError α) := do
  try return .ok (← action)
  catch error => return .error (fileErrorOf error)

def readText (path : String) : IO (Except FileError String) := do
  match ← attempted (IO.FS.readBinFile path) with
  | .error error => return .error error
  | .ok content =>
    match String.fromUTF8? content with
    | some text => return .ok text
    | none => return .error .notText

/-- Reading tells a directory from everything else. -/
def isDirectoryPath (path : String) : IO Bool := do
  match ← readText path with
  | .error .isDirectory => return true
  | _ => return false

def machineFiles : Files IO where
  read := readText
  isDirectory := isDirectoryPath
  createDirectory path := attempted (IO.FS.createDir path)
  write path text := attempted (IO.FS.writeFile path text)

end CommandLine

end FlatMemory

def main (arguments : List String) : IO UInt32 := do
  let outcome ← FlatMemory.CommandLine.run FlatMemory.CommandLine.machineFiles arguments
  IO.print outcome.stdout
  IO.eprint outcome.stderr
  return outcome.exit.toUInt32
