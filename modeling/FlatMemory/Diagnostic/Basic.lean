import FlatMemory.Diagnostic.Code

/-! # Diagnostics

A diagnostic is a message tied to a source file and line.  Warnings are collected in a queue that
keeps the first of those with the same file, line and message. -/

namespace FlatMemory

inductive Severity where
  | error
  | warning
  deriving DecidableEq, Repr

structure Diagnostic where
  code : Code
  severity : Severity
  message : String
  /-- The name the source was given; empty if unknown. -/
  file : String
  /-- Counted from one; zero if unknown. -/
  line : Nat
  note : Option String
  deriving DecidableEq, Repr

namespace Diagnostic

/-- The place in front of the message; a line is named only within a file. -/
def place (diagnostic : Diagnostic) : String :=
  if diagnostic.file = "" then ""
  else if diagnostic.line = 0 then diagnostic.file ++ ": "
  else diagnostic.file ++ ":" ++ toString diagnostic.line ++ ": "

/-- The line that is shown to the user.  Only warnings spell out severity and code. -/
def render (diagnostic : Diagnostic) : String :=
  let label := match diagnostic.severity with
    | .error => ""
    | .warning => "warning[" ++ diagnostic.code.text ++ "]: "
  let hint := match diagnostic.note with
    | none => ""
    | some note => " (" ++ note ++ ")"
  diagnostic.place ++ label ++ diagnostic.message ++ hint

/-- Two diagnostics that would repeat each other in a queue. -/
def repeats (earlier later : Diagnostic) : Bool :=
  earlier.file = later.file && earlier.line = later.line && earlier.message = later.message

end Diagnostic

structure Queue where
  entries : List Diagnostic
  deriving DecidableEq, Repr

namespace Queue

def empty : Queue := ⟨[]⟩

def isEmpty (queue : Queue) : Bool := queue.entries.isEmpty

def size (queue : Queue) : Nat := queue.entries.length

def holds (queue : Queue) (diagnostic : Diagnostic) : Bool :=
  queue.entries.any fun earlier => earlier.repeats diagnostic

def push (queue : Queue) (diagnostic : Diagnostic) : Queue :=
  if queue.holds diagnostic then queue else ⟨queue.entries ++ [diagnostic]⟩

def pushAll (queue : Queue) (diagnostics : List Diagnostic) : Queue := diagnostics.foldl push queue

end Queue

end FlatMemory
