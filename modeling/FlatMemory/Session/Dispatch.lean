import FlatMemory.Session.Basic

/-! # Dispatch tables

For each virtual method visible in a class, every class of the subtree below it is sent to its
implementation: the nearest class at or above it, but not above the root of the subtree, that
declares the method.  A method that the root only inherits also gets a fallback, the implementation
its base would use. -/

namespace FlatMemory

def implementationName (type method : String) : String := type ++ "." ++ method ++ "_impl"

namespace Session

/-- A class and all below it, each before its subclasses. -/
def subtreeUpTo (session : Session) : Nat → Nat → List Nat
  | 0, _ => []
  | depth + 1, index =>
    index :: (((session.types[index]?).map UserType.subclasses).getD []).flatMap
      (subtreeUpTo session depth)

def subtree (session : Session) (index : Nat) : List Nat :=
  session.subtreeUpTo session.types.length index

/-- The nearest class at or above a class, and below `stop`, that declares a virtual method. -/
def implementor? (session : Session) (start : Nat) (name : String) (stop : Option Nat) :
    Option UserType :=
  let within := (session.ancestry start).takeWhile fun index => some index ≠ stop
  (session.typesAt within).find? fun type => type.declaration.declaresVirtual name

/-- Keep the first of the methods with one name. -/
def firstOfEachName (methods : List Method) : List Method :=
  methods.foldl (fun kept method =>
    if kept.any fun earlier => earlier.name = method.name then kept else kept ++ [method]) []

/-- The virtual methods visible in a class, its own first. -/
def visibleVirtuals (session : Session) (index : Nat) : List Method :=
  firstOfEachName ((session.typesAt (session.ancestry index)).flatMap fun type =>
    type.declaration.methods.filter fun method => method.kind = .virtual)

def addCase (cases : List DispatchCase) (implementation : String) (id : Nat) :
    List DispatchCase :=
  match cases with
  | [] => [⟨implementation, [id]⟩]
  | first :: later =>
    if first.implementation = implementation then { first with ids := first.ids ++ [id] } :: later
    else first :: addCase later implementation id

/-- The cases for the classes of a subtree, given the base of its root. -/
def dispatchCases (session : Session) (subtree : List Nat) (name : String) (base : Option Nat) :
    List DispatchCase :=
  subtree.foldl (fun cases index =>
    match session.implementor? index name base, session.types[index]? with
    | some implementor, some type =>
      addCase cases (implementationName implementor.name name) type.classId
    | _, _ => cases) []

def fallback (session : Session) (type : UserType) (name : String) : Option String :=
  match type.base? with
  | none => none
  | some base =>
    if type.declaration.declaresVirtual name then none
    else (session.implementor? base name none).map fun implementor =>
      implementationName implementor.name name

def dispatchers (session : Session) (index : Nat) (type : UserType) : List Dispatcher :=
  (session.visibleVirtuals index).map fun method =>
    ⟨method.name, method.parameters,
      session.dispatchCases (session.subtree index) method.name type.base?,
      session.fallback type method.name⟩

/-- What stands below a class is a class. -/
def checkSubtree (session : Session) (index : Nat) : Except Failure Unit :=
  (session.subtree index).forM fun sub => do
    let type ← session.userAt sub
    if type.isClass then .ok () else .error (.bug .subclassNotClass)

/-- A plain method may not reuse the name of an inherited virtual one. -/
def checkShadowing (session : Session) (type : UserType) : Except Failure Unit :=
  match type.base? with
  | none => .ok ()
  | some base =>
    type.declaration.methods.forM fun method =>
      if method.kind = .nonVirtual then
        match session.implementor? base method.name none with
        | some ancestor =>
          .error (type.fault method.line (.shadowedVirtual method.name ancestor.name))
        | none => .ok ()
      else .ok ()

end Session

namespace Analysis

def buildDispatchers : Analysis Unit :=
  forTypes fun index type => do
    if !type.isClass then return
    ask fun session => session.checkShadowing type
    ask fun session => session.checkSubtree index
    let dispatchers := (← get).dispatchers index type
    modifyAt index fun type => { type with dispatchers := dispatchers }

end Analysis

end FlatMemory
