import FlatMemory.Text.Basic
import FlatMemory.Types.Primitive

/-! # Declarations

What a definition block says: a struct or a class with fields and methods, as written. -/

namespace FlatMemory

/-- The parameter every method takes first. -/
def selfName : String := "SELF"

structure Field where
  name : String
  typeName : String
  qualifier : Qualifier
  isArray : Bool
  line : Nat
  deriving DecidableEq, Repr

inductive MethodKind where
  | virtual
  | nonVirtual
  | get
  | set
  deriving DecidableEq, Repr

namespace MethodKind

/-- Methods that are called by their name.  Getters and setters of structs are not. -/
def isNamed : MethodKind → Bool
  | virtual | nonVirtual => true
  | get | set => false

end MethodKind

structure Method where
  kind : MethodKind
  /-- Empty for getters and setters. -/
  name : String
  /-- Without the leading `SELF`. -/
  parameters : List String
  body : Text
  line : Nat
  deriving DecidableEq, Repr

inductive Form where
  | structForm
  | classForm (base : Option String)
  deriving DecidableEq, Repr

structure Declaration where
  name : String
  file : String
  line : Nat
  form : Form
  fields : List Field
  methods : List Method
  /-- Byte offset in the document's residual text where the generated code goes. -/
  origin : Nat
  deriving DecidableEq, Repr

namespace Declaration

def isClass (declaration : Declaration) : Bool :=
  match declaration.form with
  | .structForm => false
  | .classForm _ => true

def baseName? (declaration : Declaration) : Option String :=
  match declaration.form with
  | .structForm => none
  | .classForm base => base

/-- Whether a field or a named method of this name is declared. -/
def hasMember (declaration : Declaration) (name : String) : Bool :=
  declaration.fields.any (fun field => field.name = name)
    || declaration.methods.any fun method => method.name ≠ "" && method.name = name

/-- Whether any method has this name, getters and setters included. -/
def hasMethod (declaration : Declaration) (name : String) : Bool :=
  declaration.methods.any fun method => method.name = name

def method? (declaration : Declaration) (name : String) : Option Method :=
  declaration.methods.find? fun method => method.name = name && method.kind.isNamed

def declaresVirtual (declaration : Declaration) (name : String) : Bool :=
  match declaration.method? name with
  | some method => method.kind = .virtual
  | none => false

def methodOfKind? (declaration : Declaration) (kind : MethodKind) : Option Method :=
  declaration.methods.find? fun method => method.kind = kind

end Declaration

end FlatMemory
