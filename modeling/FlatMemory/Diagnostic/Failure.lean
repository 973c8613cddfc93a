import FlatMemory.Diagnostic.Basic
import FlatMemory.Diagnostic.Cause

/-! # Failures

A stage fails because of a fault in the program, which has a cause and a place, or because it was
handed something that an earlier stage should have ruled out.  A whole run can also fail over its
arguments or over a file. -/

namespace FlatMemory

/-- Broken promises between stages. -/
inductive Bug where
  | notUserType (id : Nat)
  | unresolvedField (field : String)
  | subclassNotClass
  | unregistered (type : String)
  | originOutside (origin : Nat) (type : String)
  | unbalancedBody
  | malformedAccess (operation : String) (arguments : Nat) (target : String)
  | extraArguments
  deriving DecidableEq, Repr

def Bug.message : Bug → String
  | notUserType id => "TypeId(" ++ toString id ++ ") is not a user type"
  | unresolvedField field => "field " ++ ticked field ++ " laid out before resolution"
  | subclassNotClass => "subclass is not a class"
  | unregistered type => ticked type ++ " was never registered"
  | originOutside origin type =>
    "origin " ++ toString origin ++ " of " ++ ticked type ++ " is outside the residual text"
  | unbalancedBody => "unbalanced method body after parsing"
  | malformedAccess operation arguments target =>
    ticked operation ++ " with " ++ toString arguments ++ " arguments emitted for " ++ target
  | extraArguments => "struct access with extra arguments"

inductive Failure where
  | fault (cause : Cause) (file : String) (line : Nat)
  | bug (broken : Bug)
  deriving DecidableEq, Repr

/-- A failure that ends a run. -/
inductive CompileError where
  | usage (message : String)
  | program (diagnostic : Diagnostic)
  | internal (message : String)
  | io (path reason : String)
  deriving DecidableEq, Repr

namespace CompileError

def render : CompileError → String
  | usage message => "usage: " ++ message
  | program diagnostic => diagnostic.render
  | internal message => "internal compiler error[E9001]: " ++ message
  | io path reason => path ++ ": " ++ reason

def code? : CompileError → Option Code
  | program diagnostic => some diagnostic.code
  | internal _ => some .internalError
  | usage _ | io _ _ => none

def diagnostic? : CompileError → Option Diagnostic
  | program diagnostic => some diagnostic
  | _ => none

end CompileError

/-- The error that a failing stage ends a run with. -/
def Failure.toError : Failure → CompileError
  | fault cause file line => .program ⟨cause.code, .error, cause.message, file, line, cause.note⟩
  | bug broken => .internal broken.message

end FlatMemory
