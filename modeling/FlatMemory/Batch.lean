import FlatMemory.Code.Accessor
import FlatMemory.Document.Reader
import FlatMemory.Path
import FlatMemory.Session.Analysis

/-! # Compiling a batch of sources

All sources share one session, so a type declared in one is known in every other.  The first failure
ends the batch. -/

namespace FlatMemory

def version : String := "0.3.0"

structure Source where
  name : String
  text : Text
  deriving DecidableEq, Repr

structure Options where
  /-- Put a line in front of every output that names its source. -/
  header : Bool
  /-- Where outputs go; else next to their sources. -/
  outputDirectory : Option String
  denyWarnings : Bool
  deriving DecidableEq, Repr

def Options.default : Options := ⟨true, none, false⟩

structure Output where
  source : String
  path : String
  text : Text
  deriving DecidableEq, Repr

structure Compilation where
  outputs : List Output
  warnings : List Diagnostic
  deriving DecidableEq, Repr

def headerLine (source : String) : String :=
  "// Generated from " ++ source ++ " by flatc " ++ version ++ ".\n"

def outputPath (source : String) (directory : Option String) : Except CompileError String :=
  match outputPath? source.toList (directory.map String.toList) with
  | some path => .ok (String.ofList path)
  | none => .error (.usage ("`" ++ source ++ "` does not end in `.flat_<ext>`"))

namespace Session

def registerAll (session : Session) (declarations : List Declaration) : Except Failure Session :=
  declarations.foldlM (fun session declaration => (session.register declaration).map Prod.snd)
    session

def ofDocuments (documents : List Document) : Except Failure Session := do
  let session ← empty.registerAll (documents.flatMap Document.declarations)
  match session.analyze with
  | (.ok (), analysed) => return analysed
  | (.error failure, _) => .error failure

end Session

/-- A warning that is denied, the first of so many. -/
def deny (first : Diagnostic) (count : Nat) : CompileError :=
  .program { first with
    severity := .error
    note := some (toString count ++ " warning(s) denied") }

def outputOf (options : Options) (document : Document) (path : String) (expanded : Text) :
    Output :=
  let header := if options.header then (headerLine document.file).toList else []
  ⟨document.file, path, header ++ expanded⟩

def compile (sources : List Source) (options : Options) : Except CompileError Compilation := do
  let paths ← sources.mapM fun source => outputPath source.name options.outputDirectory
  let documents ← sources.mapM fun source =>
    (Document.read source.name source.text).mapError Failure.toError
  let session ← (Session.ofDocuments documents).mapError Failure.toError
  let expansions := documents.map session.expandDocument
  let texts ← expansions.mapM fun expansion => expansion.result.mapError Failure.toError
  let warnings := (Queue.empty.pushAll (expansions.flatMap Warned.warnings)).entries
  let outputs := ((documents.zip paths).zip texts).map fun ((document, path), text) =>
    outputOf options document path text
  match options.denyWarnings, warnings with
  | true, first :: _ => .error (deny first warnings.length)
  | _, _ => return ⟨outputs, warnings⟩

end FlatMemory
