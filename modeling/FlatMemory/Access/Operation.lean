/-! # Operations

What can be done with a field, an array element or a struct value. -/

namespace FlatMemory

inductive Operation where
  | get
  | set
  | ref
  | add
  | sub
  | and
  | or
  | xor
  | compareExchange
  | loadWhenEqual
  | loadWhenNotEqual
  | expectUpdate
  | notify
  deriving DecidableEq, Repr

namespace Operation

def all : List Operation :=
  [get, set, ref, add, sub, and, or, xor, compareExchange, loadWhenEqual, loadWhenNotEqual,
   expectUpdate, notify]

def name : Operation → String
  | get => "get"
  | set => "set"
  | ref => "ref"
  | add => "add"
  | sub => "sub"
  | and => "and"
  | or => "or"
  | xor => "xor"
  | compareExchange => "compareExchange"
  | loadWhenEqual => "loadWhenEqual"
  | loadWhenNotEqual => "loadWhenNotEqual"
  | expectUpdate => "expectUpdate"
  | notify => "notify"

def ofName? (name : String) : Option Operation := all.find? fun operation => operation.name = name

/-- Number of arguments besides the address. -/
def operands : Operation → Nat
  | get | ref | notify => 0
  | set | add | sub | and | or | xor | loadWhenEqual | loadWhenNotEqual => 1
  | compareExchange | expectUpdate => 2

/-- Number of arguments, the address included. -/
def arity (operation : Operation) : Nat := operation.operands + 1

/-- The assignment operator that stands for an operation. -/
def assignment? : Operation → Option String
  | set => some "="
  | add => some "+="
  | sub => some "-="
  | and => some "&="
  | or => some "|="
  | xor => some "^="
  | _ => none

/-- The operation that an assignment operator stands for. -/
def ofAssignment? (operator : String) : Option Operation :=
  all.find? fun operation => operation.assignment? = some operator

/-- Name in the runtime, where reading and writing are loads and stores. -/
def runtimeName : Operation → String
  | get => "load"
  | set => "store"
  | operation => operation.name

def capitalName : Operation → String
  | get => "Load"
  | set => "Store"
  | ref => "Ref"
  | add => "Add"
  | sub => "Sub"
  | and => "And"
  | or => "Or"
  | xor => "Xor"
  | compareExchange => "CompareExchange"
  | loadWhenEqual => "LoadWhenEqual"
  | loadWhenNotEqual => "LoadWhenNotEqual"
  | expectUpdate => "ExpectUpdate"
  | notify => "Notify"

end Operation

end FlatMemory
