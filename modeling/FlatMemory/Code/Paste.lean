import FlatMemory.Code.Generate
import FlatMemory.Document.Basic

/-! # Pasted text

The residual text of a document with the generated code of each definition put in where the
definition stood. -/

namespace FlatMemory

structure Pasted where
  text : Text
  lines : LineMap
  deriving DecidableEq, Repr

namespace Pasted

def plain (text : Text) : Pasted := ⟨text, LineMap.plain⟩

def append (pasted : Pasted) (text : Text) : Pasted := { pasted with text := pasted.text ++ text }

/-- Put generated code at the end; copied text goes on after it on the given line. -/
def insert (pasted : Pasted) (snippet : Snippet) (line : Nat) : Pasted :=
  let text := pasted.text ++ snippet.text
  ⟨text, (pasted.lines.splice pasted.text.byteLength snippet.lines).sourceFrom text.byteLength line⟩

/-- Text so far, what is left of the residual text, and the offset where that begins. -/
structure Progress where
  pasted : Pasted
  rest : Text
  offset : Nat
  /-- Whether code has been inserted already. -/
  begun : Bool
  deriving DecidableEq, Repr

/-- Copy residual text up to a definition and insert its code.  Two definitions without text between
them are parted by a line break. -/
def insertDefinition (session : Session) (document : Document) (progress : Progress)
    (declaration : Declaration) : Except Failure Progress := do
  let type ← match session.lookup declaration.name with
    | some found => session.user found
    | none => .error (.bug (.unregistered declaration.name))
  let origin := declaration.origin
  let cut := if progress.offset ≤ origin then
      progress.rest.splitAtByte? (origin - progress.offset)
    else none
  match cut with
  | none => .error (.bug (.originOutside origin type.name))
  | some (before, after) =>
    let copied := progress.pasted.append before
    let parted := if progress.begun ∧ before = [] then copied.append ['\n'] else copied
    let snippet ← session.generate type
    return ⟨parted.insert snippet (document.residualLine origin), after, origin, true⟩

end Pasted

def Session.paste (session : Session) (document : Document) : Except Failure Pasted := do
  let start : Pasted := ⟨[], LineMap.plain.sourceFrom 0 (document.residualLine 0)⟩
  let progress ← document.declarations.foldlM (Pasted.insertDefinition session document)
    ⟨start, document.residual, 0, false⟩
  return progress.pasted.append progress.rest

end FlatMemory
