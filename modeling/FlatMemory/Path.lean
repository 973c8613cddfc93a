import FlatMemory.Text.Basic

/-! # Paths

A path is a text with `/` between its names.  Empty names and `.` count for nothing, except that a
path may begin with `.`.  Only the names at the end of a path are looked at; what stands before them
is kept as it is written. -/

namespace FlatMemory

namespace Path

/-- The parts of a text between slashes. -/
def split : Text → List Text
  | [] => [[]]
  | c :: cs =>
    if c = '/' then [] :: split cs
    else match split cs with
      | [] => [[c]]
      | first :: later => (c :: first) :: later

/-- A path in two: a leading slash, or a leading `.` as a name, and the names behind it. -/
def parse : Text → Text × List Text
  | '/' :: cs => (['/'], split cs)
  | ['.'] => (['.'], [[]])
  | '.' :: '/' :: cs => (['.'], split ('/' :: cs))
  | text => ([], split text)

def isSilent (name : Text) : Bool := name = [] || name = ['.']

/-- The names of a path from the last on, without the silent ones at the end. -/
def namesBackward (names : List Text) : List Text := names.reverse.dropWhile isSilent

/-- The last name of a path, unless it goes up. -/
def fileName? (path : Text) : Option Text :=
  match namesBackward (parse path).2 with
  | [] => none
  | last :: _ => if last = ['.', '.'] then none else some last

def parent? (path : Text) : Option Text :=
  let (head, names) := parse path
  match namesBackward names with
  | [] => if head = ['.'] then some [] else none
  | _ :: before => some (head ++ ['/'].intercalate (before.dropWhile isSilent).reverse)

def join (directory name : Text) : Text :=
  match directory.getLast? with
  | none => name
  | some '/' => directory ++ name
  | some _ => directory ++ '/' :: name

/-- Stem and extension of a name, at its last dot.  A name has no extension if nothing stands before
that dot. -/
def splitExtension? (name : Text) : Option (Text × Text) :=
  let extension := (name.reverse.takeWhile fun c => c ≠ '.').reverse
  match name.reverse.dropWhile fun c => c ≠ '.' with
  | '.' :: stem => if stem = [] then none else some (stem.reverse, extension)
  | _ => none

end Path

/-- What marks the extension of a source. -/
def sourceMarker : Text := "flat_".toList

/-- The name of the output of a source: its extension loses the marker. -/
def outputName? (source : Text) : Option Text := do
  let name ← Path.fileName? source
  let (stem, extension) ← Path.splitExtension? name
  if sourceMarker.isPrefixOf extension ∧ extension ≠ sourceMarker then
    some (stem ++ '.' :: extension.drop sourceMarker.length)
  else none

/-- Where the output of a source goes: into the given directory, or else next to the source. -/
def outputPath? (source : Text) (directory : Option Text) : Option Text := do
  let name ← outputName? source
  match directory with
  | some directory => return Path.join directory name
  | none => return Path.join (← Path.parent? source) name

end FlatMemory
