import FlatMemory.Access.Operation
import FlatMemory.Session.Layout

/-! # Targets of an access

A dotted path names the longest field path that a type has, followed by at most one operation.  What
it lands on decides which operations apply. -/

namespace FlatMemory

/-- The memory that an access reads or writes. -/
inductive Target where
  | primitive (type : Primitive)
  | pointer
  | structure (type : UserType)
  deriving DecidableEq, Repr

namespace Target

/-- Target of a value of a type, such as an array element. -/
def ofType (session : Session) : TypeRef → Target
  | .primitive type => primitive type
  | .user index =>
    match session.types[index]? with
    | some type => if type.isClass then pointer else .structure type
    | none => pointer

def ofSlot (session : Session) (slot : Slot) : Target :=
  if slot.isArray then pointer else ofType session slot.type

/-- Bytes of one element in an array. -/
def stride : Target → Nat
  | primitive type => type.size
  | pointer => Layout.pointerSize
  | .structure type => type.size

def align : Target → Nat
  | primitive type => type.align
  | pointer => Layout.pointerSize
  | .structure type => type.align

/-- Operations that apply to any memory. -/
def isBasic : Operation → Bool
  | .get | .set | .ref => true
  | _ => false

def isArithmetic : Operation → Bool
  | .add | .sub => true
  | _ => false

def isBitwise : Operation → Bool
  | .and | .or | .xor => true
  | _ => false

def supports (target : Target) (operation : Operation) : Bool :=
  match target with
  | primitive (.scalar type) =>
    isBasic operation || isArithmetic operation || (type.isInteger && isBitwise operation)
  | primitive (.simd _) => isBasic operation
  | primitive (.atomic _) =>
    isBasic operation || isArithmetic operation || isBitwise operation
      || operation = .compareExchange
  | primitive (.synchronic _) => true
  | pointer => isBasic operation
  | .structure _ => isBasic operation

def describe : Target → String
  | primitive (.atomic type) => "atomic `" ++ type.name ++ "`"
  | primitive (.synchronic type) => "synchronic `" ++ type.name ++ "`"
  | primitive type => "`" ++ type.name ++ "`"
  | pointer => "a reference"
  | .structure type => "struct `" ++ type.name ++ "`"

end Target

/-- What is touched, where and how. -/
structure Access where
  target : Target
  /-- Byte offset from the base address. -/
  offset : Nat
  operation : Operation
  /-- The operation was written out and not implied. -/
  explicit : Bool
  deriving DecidableEq, Repr

def dotted (segments : List String) : String := ".".intercalate segments

/-- The longest beginning of a path that names a slot, with its number of segments. -/
def UserType.longestField? (type : UserType) (segments : List String) : Option (Nat × Slot) :=
  (List.range segments.length).reverse.findSome? fun count =>
    (type.slot? (dotted (segments.take (count + 1)))).map fun slot => (count + 1, slot)

/-- Reading is implied by an empty path; a single name has to be an operation. -/
def trailingOperation? : List String → Option (Operation × Bool)
  | [] => some (.get, false)
  | [name] => (Operation.ofName? name).map fun operation => (operation, true)
  | _ => none

namespace Session

/-- A path in a user type: a field path with an optional operation or, for a struct, an operation
on the whole. -/
def resolveInType? (session : Session) (type : UserType) (segments : List String) :
    Option Access :=
  match type.longestField? segments with
  | some (count, slot) =>
    (trailingOperation? (segments.drop count)).map fun (operation, explicit) =>
      ⟨Target.ofSlot session slot, slot.offset, operation, explicit⟩
  | none =>
    if type.isClass then none
    else (trailingOperation? segments).map fun (operation, explicit) =>
      ⟨.structure type, 0, operation, explicit⟩

def resolveInElement? (session : Session) (element : Target) (segments : List String) :
    Option Access :=
  match element with
  | .structure type => session.resolveInType? type segments
  | _ => (trailingOperation? segments).map fun (operation, explicit) =>
    ⟨element, 0, operation, explicit⟩

end Session

end FlatMemory
