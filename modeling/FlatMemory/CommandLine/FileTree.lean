import FlatMemory.CommandLine.FileError
import FlatMemory.Path

/-! # File trees

Files and directories in memory, with the rules by which paths are looked up: every name before the
last has to be that of a directory, `.` stays and `..` goes up. -/

namespace FlatMemory

inductive Node where
  | directory
  | file (content : ByteArray)

instance : DecidableEq Node
  | .directory, .directory => isTrue rfl
  | .directory, .file _ => isFalse nofun
  | .file _, .directory => isFalse nofun
  | .file one, .file other =>
    @decidable_of_decidable_of_iff (one = other) _ (ByteArray.decEq one other)
      ⟨congrArg _, Node.file.inj⟩

/-- Names from the root. -/
abbrev Location := List String

structure FileTree where
  /-- Everything but the root. -/
  nodes : List (Location × Node)
  /-- Where relative paths start. -/
  workingDirectory : Location
  deriving DecidableEq

namespace FileTree

/-- A tree with an empty working directory. -/
def empty : FileTree := ⟨[(["work"], .directory)], ["work"]⟩

def node? (tree : FileTree) (location : Location) : Option Node :=
  if location = [] then some .directory
  else (tree.nodes.find? fun entry => entry.1 = location).map Prod.snd

def put (tree : FileTree) (location : Location) (node : Node) : FileTree :=
  { tree with
    nodes := tree.nodes.filter (fun entry => entry.1 ≠ location) ++ [(location, node)] }

structure Lookup where
  start : Location
  names : List String
  /-- A slash at the end asks for a directory. -/
  endsInSlash : Bool

def lookup (tree : FileTree) (path : String) : Lookup where
  start := if path.toList.head? = some '/' then [] else tree.workingDirectory
  names := ((Path.split path.toList).filter fun name => name ≠ []).map String.ofList
  endsInSlash := path.toList.getLast? = some '/'

def step (location : Location) (name : String) : Location :=
  if name = "." then location
  else if name = ".." then location.dropLast
  else location ++ [name]

def walk (tree : FileTree) (location : Location) : List String → Except FileError Location
  | [] => .ok location
  | name :: names =>
    match tree.node? (step location name) with
    | none => .error .notFound
    | some (.file _) => .error .notDirectory
    | some .directory => walk tree (step location name) names

def isDirectory (tree : FileTree) (path : String) : Bool :=
  let found := tree.lookup path
  path ≠ "" && (tree.walk found.start found.names).isOk

def read (tree : FileTree) (path : String) : Except FileError String :=
  let found := tree.lookup path
  match found.names.getLast? with
  | none => .error (if path = "" then .notFound else .isDirectory)
  | some name => do
    let location ← tree.walk found.start found.names.dropLast
    match tree.node? (step location name) with
    | none => .error .notFound
    | some .directory => .error .isDirectory
    | some (.file content) =>
      if found.endsInSlash then .error .notDirectory
      else match String.fromUTF8? content with
        | some text => .ok text
        | none => .error .notText

def createDirectory (tree : FileTree) (path : String) : Except FileError FileTree :=
  let found := tree.lookup path
  match found.names.getLast? with
  | none => .error (if path = "" then .notFound else .alreadyExists)
  | some name => do
    let location ← tree.walk found.start found.names.dropLast
    if name = "." ∨ name = ".." then .error .alreadyExists
    else match tree.node? (step location name) with
      | some _ => .error .alreadyExists
      | none => .ok (tree.put (step location name) .directory)

def write (tree : FileTree) (path : String) (text : String) : Except FileError FileTree :=
  let found := tree.lookup path
  match found.names.getLast? with
  | none => .error (if path = "" then .notFound else .isDirectory)
  | some name => do
    let location ← tree.walk found.start found.names.dropLast
    match tree.node? (step location name), found.endsInSlash with
    | some .directory, _ => .error .isDirectory
    | some (.file _), true => .error .notDirectory
    | none, true => .error .isDirectory
    | _, false => .ok (tree.put (step location name) (.file text.toUTF8))

/-- Put a file or directory into the working directory, with the directories above it. -/
def add (tree : FileTree) (path : String) (node : Node) : FileTree :=
  let location := tree.workingDirectory ++ (tree.lookup path).names
  let above := (List.range location.length).map fun count => location.take count
  let grown := above.foldl (fun tree location =>
    if (tree.node? location).isSome then tree else tree.put location .directory) tree
  grown.put location node

/-- Files of the working directory that are new or changed since an earlier tree, by their paths. -/
def changedSince (tree earlier : FileTree) : List (String × ByteArray) :=
  let changed := tree.nodes.filterMap fun (location, node) =>
    match node with
    | .directory => none
    | .file content =>
      if tree.workingDirectory.isPrefixOf location ∧ earlier.node? location ≠ some node then
        some ("/".intercalate (location.drop tree.workingDirectory.length), content)
      else none
  changed.mergeSort fun first second => !(second.1 < first.1)

end FileTree

end FlatMemory
