import FlatMemory.Code.LineMap
import FlatMemory.Text.Blank
import FlatMemory.Types.Declaration

/-! # Snippets of generated code

A snippet is generated for one definition, line by line.  Method bodies keep their source lines;
everything else is on the line of the definition. -/

namespace FlatMemory

structure Snippet where
  text : Text
  lines : LineMap
  home : Nat
  deriving DecidableEq, Repr

namespace Snippet

def ofLine (home : Nat) (line : String) : Snippet := ⟨line.toList, LineMap.fixed home, home⟩

def addLine (snippet : Snippet) (line : String) : Snippet :=
  { snippet with text := snippet.text ++ '\n' :: line.toList }

def addLines (snippet : Snippet) (lines : List String) : Snippet := lines.foldl addLine snippet

def parameterList (parameters : List String) : String := ", ".intercalate (selfName :: parameters)

/-- A body in braces.  Blank text at the end of a body of several lines is dropped. -/
def braced (body : Text) : Text :=
  if '\n' ∈ body then '{' :: (body.trimEnd ++ ['\n', '}'])
  else '{' :: (body ++ ['}'])

def addFunction (snippet : Snippet) (target : String) (method : Method) (body : Text) : Snippet :=
  let opened := (snippet.addLine
    (target ++ " = function (" ++ parameterList method.parameters ++ ") ")).text
  let closed := opened ++ braced body ++ [';']
  { snippet with
    text := closed
    lines := (snippet.lines.sourceFrom opened.byteLength method.line).fixedFrom
      closed.byteLength snippet.home }

end Snippet

end FlatMemory
