import FlatMemory.Code.SelfReference
import FlatMemory.Code.Snippet
import FlatMemory.Session.Dispatch

/-! # Code of a type

Generated code still uses accessors such as `Vec3.x(SELF)`; they are replaced by memory operations
later. -/

namespace FlatMemory

namespace Generate

def metadata (type : UserType) : List String :=
  [type.name ++ ".NAME = \"" ++ type.name ++ "\";",
   type.name ++ ".SIZE = " ++ toString type.size ++ ";",
   type.name ++ ".ALIGN = " ++ toString type.align ++ ";"]

/-- The getter of a struct that declares none reads every field. -/
def defaultGetter (type : UserType) : List String :=
  [type.name ++ "._get_impl = function (SELF) \x7b",
   "  var v = new " ++ type.name ++ "();"]
    ++ type.declaration.fields.map (fun field =>
      "  v." ++ field.name ++ " = " ++ type.name ++ "." ++ field.name ++ "(SELF);")
    ++ ["  return v;", "\x7d;"]

/-- The setter of a struct that declares none writes every field. -/
def defaultSetter (type : UserType) : List String :=
  [type.name ++ "._set_impl = function (SELF, v) \x7b"]
    ++ type.declaration.fields.map (fun field =>
      "  " ++ type.name ++ "." ++ field.name ++ ".set(SELF, v." ++ field.name ++ ");")
    ++ ["\x7d;"]

def structAccessor (session : Session) (type : UserType) (kind : MethodKind) (target : String)
    (default : List String) (snippet : Snippet) : Except Failure Snippet :=
  match type.declaration.methodOfKind? kind with
  | some method => (session.expandBody type method).map (snippet.addFunction target method)
  | none => .ok (snippet.addLines default)

def structCode (session : Session) (type : UserType) : Except Failure Snippet := do
  let start := (Snippet.ofLine type.declaration.line
    ("function " ++ type.name ++ "() \x7b\x7d")).addLines (metadata type)
  let withGetter ← structAccessor session type .get (type.name ++ "._get_impl")
    (defaultGetter type) start
  structAccessor session type .set (type.name ++ "._set_impl") (defaultSetter type) withGetter

/-- How a class is set up, up to its methods. -/
def classHead (type : UserType) (base : Option String) : List String :=
  let name := type.name
  let id := toString type.classId
  let inherits := match base with
    | none => []
    | some base =>
      [name ++ ".prototype = Object.create(" ++ base ++ ".prototype);",
       name ++ ".prototype.constructor = " ++ name ++ ";"]
  inherits
    ++ ["Object.defineProperty(" ++ name ++
          ".prototype, \"pointer\", \x7b get: function () \x7b return this._pointer; \x7d \x7d);"]
    ++ metadata type
    ++ [name ++ ".CLSID = " ++ id ++ ";",
        "Object.defineProperty(" ++ name ++ ", \"BASE\", \x7b get: function () \x7b return "
          ++ base.getD "null" ++ "; \x7d \x7d);",
        name ++ ".initInstance = function (SELF) \x7b _mem_int32[SELF >> 2] = " ++ id
          ++ "; return SELF; \x7d;",
        "FlatJS._idToType[" ++ id ++ "] = " ++ name ++ ";"]

def functionName (type : UserType) (method : Method) : String :=
  if method.kind = .virtual then implementationName type.name method.name
  else type.name ++ "." ++ method.name

def addMethod (session : Session) (type : UserType) (snippet : Snippet) (method : Method) :
    Except Failure Snippet :=
  (session.expandBody type method).map (snippet.addFunction (functionName type method) method)

/-- A switch on the tag of an instance that selects the implementation. -/
def dispatcher (type : String) (entry : Dispatcher) : List String :=
  let parameters := Snippet.parameterList entry.parameters
  [type ++ "." ++ entry.name ++ " = function (" ++ parameters ++ ") \x7b",
   "  switch (_mem_int32[SELF >> 2]) \x7b"]
    ++ entry.cases.flatMap (fun dispatchCase =>
      dispatchCase.ids.map (fun id => "    case " ++ toString id ++ ":")
        ++ ["      return " ++ dispatchCase.implementation ++ "(" ++ parameters ++ ");"])
    ++ ["    default:",
        match entry.fallback with
        | some implementation => "      return " ++ implementation ++ "(" ++ parameters ++ ");"
        | none => "      throw FlatJS._badType(SELF);",
        "  \x7d",
        "\x7d;"]

def classCode (session : Session) (type : UserType) : Except Failure Snippet := do
  let base ← match type.base? with
    | none => pure none
    | some index => (session.userAt index).map fun base => some base.name
  let start := (Snippet.ofLine type.declaration.line
    ("function " ++ type.name ++ "(p) \x7b this._pointer = (p|0); \x7d")).addLines
      (classHead type base)
  let withMethods ← type.declaration.methods.foldlM (addMethod session type) start
  return withMethods.addLines (type.dispatchers.flatMap (dispatcher type.name))

end Generate

def Session.generate (session : Session) (type : UserType) : Except Failure Snippet :=
  if type.isClass then Generate.classCode session type else Generate.structCode session type

end FlatMemory
