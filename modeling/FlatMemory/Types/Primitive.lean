/-! # Primitive types

Scalars are read and written through a typed view of memory.  Integers also come as atomic cells and
as synchronic cells, which carry a header of two words in front of the value. -/

namespace FlatMemory

inductive IntType where
  | int8
  | uint8
  | int16
  | uint16
  | int32
  | uint32
  deriving DecidableEq, Repr

inductive Scalar where
  | int (type : IntType)
  | float32
  | float64
  deriving DecidableEq, Repr

inductive SimdType where
  | int32x4
  | float32x4
  | float64x2
  deriving DecidableEq, Repr

inductive Primitive where
  | scalar (type : Scalar)
  | simd (type : SimdType)
  | atomic (type : IntType)
  | synchronic (type : IntType)
  deriving DecidableEq, Repr

/-- How a field may be shared between threads. -/
inductive Qualifier where
  | plain
  | atomic
  | synchronic
  deriving DecidableEq, Repr

namespace Qualifier

def keyword : Qualifier → String
  | plain => ""
  | atomic => "atomic"
  | synchronic => "synchronic"

def ofKeyword? (word : String) : Option Qualifier :=
  if word = "atomic" then some atomic
  else if word = "synchronic" then some synchronic
  else none

end Qualifier

namespace IntType

def all : List IntType := [int8, uint8, int16, uint16, int32, uint32]

def name : IntType → String
  | int8 => "int8"
  | uint8 => "uint8"
  | int16 => "int16"
  | uint16 => "uint16"
  | int32 => "int32"
  | uint32 => "uint32"

/-- Binary logarithm of the size in bytes. -/
def shift : IntType → Nat
  | int8 | uint8 => 0
  | int16 | uint16 => 1
  | int32 | uint32 => 2

end IntType

namespace Scalar

def name : Scalar → String
  | int type => type.name
  | float32 => "float32"
  | float64 => "float64"

/-- Binary logarithm of the size; a byte address shifted by it is the index in the view. -/
def shift : Scalar → Nat
  | int type => type.shift
  | float32 => 2
  | float64 => 3

def width (type : Scalar) : Nat := Nat.pow 2 type.shift

/-- Name of the view of memory that holds scalars of this type. -/
def view (type : Scalar) : String := "_mem_" ++ type.name

def isInteger : Scalar → Bool
  | int _ => true
  | _ => false

end Scalar

namespace SimdType

def name : SimdType → String
  | int32x4 => "int32x4"
  | float32x4 => "float32x4"
  | float64x2 => "float64x2"

def constructor : SimdType → String
  | int32x4 => "Int32x4"
  | float32x4 => "Float32x4"
  | float64x2 => "Float64x2"

/-- The scalar whose view holds the vector. -/
def lane : SimdType → Scalar
  | int32x4 => .int .int32
  | float32x4 => .float32
  | float64x2 => .float64

end SimdType

namespace Primitive

/-- Bytes in front of a synchronic value: a version word and a count of waiters. -/
def synchronicHeader : Nat := 8

/-- All primitives in the order of their numbers: scalars, vectors, then the shared integers. -/
def all : List Primitive :=
  IntType.all.map (fun type => scalar (.int type)) ++ [scalar .float32, scalar .float64]
    ++ [simd .int32x4, simd .float32x4, simd .float64x2]
    ++ IntType.all.flatMap fun type => [atomic type, synchronic type]

/-- The name in a program.  The names of shared integers hold a slash, so no program spells them. -/
def name : Primitive → String
  | scalar type => type.name
  | simd type => type.name
  | atomic type => "atomic/" ++ type.name
  | synchronic type => "synchronic/" ++ type.name

def ofName? (name : String) : Option Primitive := all.find? fun primitive => primitive.name = name

/-- The scalar whose view holds the value. -/
def store : Primitive → Scalar
  | scalar type => type
  | simd type => type.lane
  | atomic type => .int type
  | synchronic type => .int type

/-- Bytes of the value itself. -/
def payloadSize : Primitive → Nat
  | simd _ => 16
  | primitive => primitive.store.width

def size : Primitive → Nat
  | synchronic type => (Scalar.int type).width + synchronicHeader
  | primitive => primitive.payloadSize

def align : Primitive → Nat
  | simd _ => 16
  | synchronic type => max (Scalar.int type).width 4
  | primitive => primitive.store.width

/-- Integer scalars of any sharing; bitwise operations ask for one. -/
def isInteger : Primitive → Bool
  | simd _ => false
  | primitive => primitive.store.isInteger

/-- The variant of a primitive for a qualifier, where there is one. -/
def qualified? : Primitive → Qualifier → Option Primitive
  | primitive, .plain => some primitive
  | scalar (.int type), .atomic => some (atomic type)
  | scalar (.int type), .synchronic => some (synchronic type)
  | _, _ => none

def acceptsQualifier : Primitive → Bool
  | scalar (.int _) => true
  | _ => false

def number (primitive : Primitive) : Nat := all.idxOf primitive

end Primitive

end FlatMemory
