import FlatMemory.Diagnostic.Failure
import FlatMemory.Types.Declaration

/-! # Sessions

A session holds the user types of a program in registration order, each with what analysis has
found out about it so far.  Primitives need no registration. -/

namespace FlatMemory

/-- A type of a session: a primitive, or a user type by its place in registration order. -/
inductive TypeRef where
  | primitive (type : Primitive)
  | user (index : Nat)
  deriving DecidableEq, Repr

/-- The number of a type: primitives first, then user types. -/
def TypeRef.number : TypeRef → Nat
  | primitive type => type.number
  | user index => Primitive.all.length + index

/-- Field types and base class, once resolved. -/
structure Resolution where
  /-- One for each declared field. -/
  fieldTypes : List TypeRef
  base : Option Nat
  deriving DecidableEq, Repr

/-- An addressable place in a type. -/
structure Slot where
  /-- Field path; dotted for fields reached through embedded structs. -/
  path : String
  /-- Holds a primitive or a pointer.  The slot of an embedded struct as a whole does not. -/
  direct : Bool
  offset : Nat
  /-- Field type; the element type for arrays. -/
  type : TypeRef
  isArray : Bool
  deriving DecidableEq, Repr

/-- A slot of an embedded struct as a slot of the type around it. -/
def Slot.within (path : String) (offset : Nat) (slot : Slot) : Slot :=
  { slot with path := path ++ "." ++ slot.path, offset := offset + slot.offset }

structure Layout where
  size : Nat
  align : Nat
  /-- In the order of placement. -/
  slots : List Slot
  deriving DecidableEq, Repr

/-- State of a type in a search for cycles: on the current path, or done with. -/
inductive Mark where
  | unvisited
  | live
  | checked
  deriving DecidableEq, Repr

/-- The qualified name of a class and the number that tells its instances. -/
structure ClassTag where
  name : String
  id : Nat
  deriving DecidableEq, Repr

/-- The classes that use an implementation of a method. -/
structure DispatchCase where
  implementation : String
  ids : List Nat
  deriving DecidableEq, Repr

/-- How a class dispatches one virtual method. -/
structure Dispatcher where
  name : String
  parameters : List String
  /-- In the order in which the implementations are met. -/
  cases : List DispatchCase
  /-- Implementation for classes not listed; without one they are refused. -/
  fallback : Option String
  deriving DecidableEq, Repr

structure UserType where
  declaration : Declaration
  resolution : Option Resolution
  subclasses : List Nat
  mark : Mark
  layout : Option Layout
  tag : Option ClassTag
  dispatchers : List Dispatcher
  deriving DecidableEq, Repr

namespace UserType

def ofDeclaration (declaration : Declaration) : UserType where
  declaration := declaration
  resolution := none
  subclasses := []
  mark := .unvisited
  layout := none
  tag := none
  dispatchers := []

def name (type : UserType) : String := type.declaration.name

def isClass (type : UserType) : Bool := type.declaration.isClass

def base? (type : UserType) : Option Nat := type.resolution.bind Resolution.base

/-- The declared fields with their types, as far as they are resolved. -/
def typedFields (type : UserType) : List (Field × Option TypeRef) :=
  match type.resolution with
  | none => type.declaration.fields.map fun field => (field, none)
  | some resolution => type.declaration.fields.zip (resolution.fieldTypes.map some)

/-- Zero before layout. -/
def size (type : UserType) : Nat := (type.layout.map Layout.size).getD 0

/-- One before layout. -/
def align (type : UserType) : Nat := (type.layout.map Layout.align).getD 1

def slots (type : UserType) : List Slot := (type.layout.map Layout.slots).getD []

/-- The slot of a path.  Should several have it, the last one placed. -/
def slot? (type : UserType) (path : String) : Option Slot :=
  type.slots.reverse.find? fun slot => slot.path = path

def classId (type : UserType) : Nat := (type.tag.map ClassTag.id).getD 0

def fault (type : UserType) (line : Nat) (cause : TypeCause) : Failure :=
  .fault (.type cause) type.declaration.file line

end UserType

inductive TypeKind where
  | primitive
  | structType
  | classType
  deriving DecidableEq, Repr

def TypeKind.describe : TypeKind → String
  | primitive => "primitive"
  | structType => "struct"
  | classType => "class"

structure Session where
  types : List UserType
  deriving DecidableEq, Repr

namespace Session

def empty : Session := ⟨[]⟩

def lookup (session : Session) (name : String) : Option TypeRef :=
  match Primitive.ofName? name with
  | some type => some (.primitive type)
  | none => (session.types.findIdx? fun type => type.name = name).map .user

def notUserType {α : Type} (type : TypeRef) : Except Failure α :=
  .error (.bug (.notUserType type.number))

/-- The user type at a place; there is none past the last. -/
def userAt (session : Session) (index : Nat) : Except Failure UserType :=
  match session.types[index]? with
  | some type => .ok type
  | none => notUserType (.user index)

def user (session : Session) : TypeRef → Except Failure UserType
  | .primitive type => notUserType (.primitive type)
  | .user index => session.userAt index

/-- Names are global: a second type of a name is refused. -/
def register (session : Session) (declaration : Declaration) :
    Except Failure (TypeRef × Session) :=
  match session.lookup declaration.name with
  | none =>
    .ok (.user session.types.length, ⟨session.types ++ [UserType.ofDeclaration declaration]⟩)
  | some existing =>
    let first := (session.user existing).toOption.map fun type =>
      (⟨type.declaration.file, type.declaration.line⟩ : Place)
    .error (.fault (.type (.duplicateType declaration.name first)) declaration.file
      declaration.line)

def kindOf (session : Session) : TypeRef → TypeKind
  | .primitive _ => .primitive
  | .user index =>
    match session.types[index]? with
    | some type => if type.isClass then .classType else .structType
    | none => .structType

/-- The shared variant of a type: primitives only. -/
def qualified? (_session : Session) : TypeRef → Qualifier → Option TypeRef
  | .primitive type, qualifier => (type.qualified? qualifier).map .primitive
  | .user _, _ => none

def modifyAt (session : Session) (index : Nat) (change : UserType → UserType) : Session :=
  ⟨session.types.modify index change⟩

/-- A class and its ancestors, nearest first.  A chain without a cycle has no more classes than the
session has types. -/
def ancestryUpTo (session : Session) : Nat → Nat → List Nat
  | 0, _ => []
  | steps + 1, index =>
    index :: match (session.types[index]?).bind UserType.base? with
      | some base => ancestryUpTo session steps base
      | none => []

def ancestry (session : Session) (index : Nat) : List Nat :=
  session.ancestryUpTo session.types.length index

def typesAt (session : Session) (indices : List Nat) : List UserType :=
  indices.filterMap fun index => session.types[index]?

end Session

/-- Analysis works on a session.  What it has found out stays known when it fails. -/
abbrev Analysis := EStateM Failure Session

namespace Analysis

def ask {α : Type} (question : Session → Except Failure α) : Analysis α := do
  match question (← get) with
  | .ok answer => return answer
  | .error failure => throw failure

def userAt (index : Nat) : Analysis UserType := ask fun session => session.userAt index

def modifyAt (index : Nat) (change : UserType → UserType) : Analysis Unit :=
  modify fun session => session.modifyAt index change

/-- Do something with every user type, in registration order. -/
def forTypes (action : Nat → UserType → Analysis Unit) : Analysis Unit := do
  (List.range (← get).types.length).forM fun index => do action index (← userAt index)

end Analysis

end FlatMemory
