import FlatMemory.Access.Target
import FlatMemory.Text.Arguments
import FlatMemory.Text.Identifier

/-! # Memory operations in generated code

    scalar      _mem_float64[a >> 3]          (_mem_int32[a >> 2] += v)
    vector      SIMD.Float32x4.load(_mem_float32, a >> 2)
    atomic      Atomics.add(_mem_int32, a >> 2, v)
    synchronic  FlatJS.syncAdd(_mem_int32, a, v)
    struct      Vec3._get_impl(a)             Vec3._set_impl(a, v)

The synchronic helpers take the byte address of the whole cell and not an index in a view. -/

namespace FlatMemory

namespace Emit

def number (n : Nat) : Text := (toString n).toList

def isWrapped (expression : Text) : Bool :=
  match group? expression with
  | some cut => cut.rest.isEmpty
  | none => false

/-- Names, numbers and member chains. -/
def isSimple (expression : Text) : Bool :=
  !expression.isEmpty && expression.all fun c => isIdentPart c || c == '.'

/-- An expression as an operand: in parentheses unless it is simple or has them. -/
def operand (expression : Text) : Text :=
  let trimmed := expression.trim
  if isSimple trimmed || isWrapped trimmed then trimmed
  else ['('] ++ trimmed ++ [')']

def unwrapped (expression : Text) : Text :=
  match group? expression with
  | some cut => if cut.rest.isEmpty then cut.taken else expression
  | none => expression

def fieldAddress (base : Text) (offset : Nat) : Text :=
  if offset = 0 then operand base
  else "(".toList ++ operand base ++ " + ".toList ++ number offset ++ ")".toList

def elementAddress (base index : Text) (stride offset : Nat) : Text :=
  let shifted := if offset = 0 then [] else " + ".toList ++ number offset
  "(".toList ++ operand base ++ " + ".toList ++ number stride ++ " * ".toList ++ operand index
    ++ shifted ++ ")".toList

def viewIndex (type : Scalar) (address : Text) : Text :=
  if type.shift = 0 then address else address ++ " >> ".toList ++ number type.shift

/-- Arguments behind others: trimmed, each with a comma in front. -/
def furtherArguments (arguments : List Text) : Text :=
  let list := ", ".toList.intercalate (arguments.map Text.trim)
  if list.isEmpty then [] else ", ".toList ++ list

/-- A call whose first arguments are a view and a place in it. -/
def viewCall (callee : String) (type : Scalar) (place : Text) (arguments : List Text) : Text :=
  callee.toList ++ "(".toList ++ type.view.toList ++ ", ".toList ++ place
    ++ furtherArguments arguments ++ ")".toList

def scalar (type : Scalar) (address : Text) (operation : Operation) (arguments : List Text) :
    Text :=
  let element := type.view.toList ++ "[".toList ++ viewIndex type address ++ "]".toList
  match operation.assignment?, arguments with
  | some operator, [value] =>
    "(".toList ++ element ++ " ".toList ++ operator.toList ++ " ".toList ++ value.trim
      ++ ")".toList
  | _, _ => element

def simd (type : SimdType) (address : Text) (operation : Operation) (arguments : List Text) :
    Text :=
  let method := if operation = .get then "load" else "store"
  viewCall ("SIMD." ++ type.constructor ++ "." ++ method) type.lane (viewIndex type.lane address)
    arguments

def primitive (type : Primitive) (address : Text) (operation : Operation)
    (arguments : List Text) : Text :=
  match type with
  | .scalar type => scalar type address operation arguments
  | .simd type => simd type address operation arguments
  | .atomic type =>
    viewCall ("Atomics." ++ operation.runtimeName) (.int type) (viewIndex (.int type) address)
      arguments
  | .synchronic type =>
    viewCall ("FlatJS.sync" ++ operation.capitalName) (.int type) address arguments

def structCopy (type : UserType) (address : Text) : List Text → Except Failure Text
  | [] => .ok (type.name.toList ++ "._get_impl(".toList ++ unwrapped address ++ ")".toList)
  | [value] =>
    .ok (type.name.toList ++ "._set_impl(".toList ++ unwrapped address ++ ", ".toList ++ value.trim
      ++ ")".toList)
  | _ => .error (.bug .extraArguments)

/-- The expression that performs an operation at an address, given its further arguments. -/
def access (target : Target) (address : Text) (operation : Operation) (arguments : List Text) :
    Except Failure Text :=
  if arguments.length ≠ operation.operands ∨ target.supports operation = false then
    .error (.bug (.malformedAccess operation.name arguments.length target.describe))
  else if operation = .ref then .ok address
  else match target with
    | .primitive type => .ok (primitive type address operation arguments)
    | .pointer => .ok (scalar (.int .int32) address operation arguments)
    | .structure type => structCopy type address arguments

end Emit

end FlatMemory
