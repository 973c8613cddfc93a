import FlatMemory.Batch
import FlatMemory.CommandLine.FileError

/-! # The command line

    flatc [options] <file.flat_ext>...

Every source is read before any is compiled, and nothing is written unless all of them compile. -/

namespace FlatMemory

namespace CommandLine

def usage : String := "\n".intercalate [
  "Usage: flatc [options] <file.flat_ext>...",
  "",
  "Compiles each input to a file without the `flat_` marker in its extension",
  "(scene.flat_js -> scene.js).",
  "",
  "Options:",
  "  --out-dir=<dir>     Write outputs to <dir> instead of next to the inputs",
  "  --no-header         Do not prepend the `// Generated from` line",
  "  --deny-warnings     Treat macro warnings as errors",
  "  -v, --verbose       Log pipeline progress to stderr (RUST_LOG overrides)",
  "  -h, --help          Print this message",
  "  -V, --version       Print the version"]

inductive Command where
  | help
  | version
  | compile (options : Options) (files : List String)
  deriving DecidableEq, Repr

inductive ArgumentError where
  | missingDirectory
  | unknownOption (argument : String)
  | noFiles
  deriving DecidableEq, Repr

def ArgumentError.message : ArgumentError → String
  | missingDirectory => "`--out-dir` needs a directory"
  | unknownOption argument => "unknown option `" ++ argument ++ "`"
  | noFiles => "no input files"

def directoryOption : String := "--out-dir="

/-- Read arguments from the left.  Help and version are answered at once. -/
def parseArguments (options : Options) (files : List String) :
    List String → Except ArgumentError Command
  | [] => if files = [] then .error .noFiles else .ok (.compile options files)
  | argument :: arguments =>
    if directoryOption.toList.isPrefixOf argument.toList then
      let directory := String.ofList (argument.toList.drop directoryOption.toList.length)
      if directory = "" then .error .missingDirectory
      else parseArguments { options with outputDirectory := some directory } files arguments
    else if argument = "--no-header" then
      parseArguments { options with header := false } files arguments
    else if argument = "--deny-warnings" then
      parseArguments { options with denyWarnings := true } files arguments
    else if argument = "-v" ∨ argument = "--verbose" then
      parseArguments options files arguments
    else if argument = "-h" ∨ argument = "--help" then .ok .help
    else if argument = "-V" ∨ argument = "--version" then .ok .version
    else if argument.toList.head? = some '-' then .error (.unknownOption argument)
    else parseArguments options (files ++ [argument]) arguments

/-- What the program needs of the files around it. -/
structure Files (m : Type → Type) where
  read : String → m (Except FileError String)
  isDirectory : String → m Bool
  /-- The directory above has to be there, and the new one not. -/
  createDirectory : String → m (Except FileError Unit)
  write : String → String → m (Except FileError Unit)

structure Outcome where
  exit : Nat
  stdout : String
  stderr : String
  deriving DecidableEq, Repr

section

variable {m : Type → Type} [Monad m] (files : Files m)

def readSources : List String → m (Except CompileError (List Source))
  | [] => return .ok []
  | name :: names => do
    match ← files.read name with
    | .error error => return .error (.io name error.message)
    | .ok text =>
      match ← readSources names with
      | .error error => return .error error
      | .ok sources => return .ok (⟨name, text.toList⟩ :: sources)

def ensureDirectory (path : String) : m (Except FileError Unit) := do
  match ← files.createDirectory path with
  | .ok () => return .ok ()
  | .error error => if ← files.isDirectory path then return .ok () else return .error error

/-- Create a directory and those above it that are missing.  Every step up makes the path
shorter. -/
def createDirectoriesUpTo : Nat → String → m (Except FileError Unit)
  | 0, path => ensureDirectory files path
  | length + 1, path => do
    if path = "" then return .ok ()
    match ← ensureDirectory files path, Path.parent? path.toList with
    | .error .notFound, some parent =>
      match ← createDirectoriesUpTo length (String.ofList parent) with
      | .error error => return .error error
      | .ok () => ensureDirectory files path
    | result, _ => return result

def createDirectories (path : String) : m (Except FileError Unit) :=
  createDirectoriesUpTo files path.length path

def writeOutput (output : Output) : m (Except CompileError Unit) := do
  let directory := (Path.parent? output.path.toList).getD []
  let created ← if directory = [] then pure (.ok ())
    else createDirectories files (String.ofList directory)
  match created with
  | .error error => return .error (.io output.path error.message)
  | .ok () =>
    match ← files.write output.path (String.ofList output.text) with
    | .error error => return .error (.io output.path error.message)
    | .ok () => return .ok ()

def writeOutputs : List Output → m (Except CompileError Unit)
  | [] => return .ok ()
  | output :: outputs => do
    match ← writeOutput files output with
    | .error error => return .error error
    | .ok () => writeOutputs outputs

/-- Read and compile the named files.  Their names are checked before any is read. -/
def compileFiles (options : Options) (names : List String) :
    m (Except CompileError Compilation) := do
  match names.mapM fun name => outputPath name options.outputDirectory with
  | .error error => return .error error
  | .ok _ =>
    match ← readSources files names with
    | .error error => return .error error
    | .ok sources => return compile sources options

end

def failed (warnings : String) : CompileError → Outcome
  | .usage message => ⟨2, "", warnings ++ "error: " ++ (CompileError.usage message).render ++ "\n"⟩
  | .io path reason => ⟨1, "", warnings ++ "error: " ++ (CompileError.io path reason).render ++ "\n"⟩
  | error => ⟨1, "", warnings ++ error.render ++ "\n"⟩

def compileAndWrite {m : Type → Type} [Monad m] (files : Files m) (options : Options)
    (names : List String) : m Outcome := do
  match ← compileFiles files options names with
  | .error error => return failed "" error
  | .ok compilation =>
    let warnings := String.join (compilation.warnings.map fun warning => warning.render ++ "\n")
    match ← writeOutputs files compilation.outputs with
    | .error error => return failed warnings error
    | .ok () => return ⟨0, "", warnings⟩

def run {m : Type → Type} [Monad m] (files : Files m) (arguments : List String) : m Outcome :=
  match parseArguments Options.default [] arguments with
  | .error error => return ⟨2, "", "error: " ++ error.message ++ "\n\n" ++ usage ++ "\n"⟩
  | .ok .help => return ⟨0, usage ++ "\n", ""⟩
  | .ok .version => return ⟨0, "flatc " ++ FlatMemory.version ++ "\n", ""⟩
  | .ok (.compile options names) => compileAndWrite files options names

end CommandLine

end FlatMemory
