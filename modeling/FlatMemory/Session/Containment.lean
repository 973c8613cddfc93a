import FlatMemory.Session.Basic

/-! # Refusing cycles

No struct may contain itself by value and no class may inherit from itself.  Both searches mark the
types on the current path as live and finished types as checked.  Array fields are pointers and
contain nothing.  A search that fails leaves its marks behind. -/

namespace FlatMemory

namespace Session

/-- The structs that a type holds by value, in field order. -/
def embedded (session : Session) (type : UserType) : List Nat :=
  type.typedFields.filterMap fun (field, fieldType) =>
    match fieldType with
    | some (.user index) =>
      if field.isArray = false ∧ session.kindOf (.user index) = .structType then some index else none
    | _ => none

/-- The names along a path from the type it comes back to. -/
def cycleNames (session : Session) (path : List Nat) (back : Nat) : List String :=
  let cycle := if back ∈ path then path.dropWhile fun index => index ≠ back else path
  (session.typesAt (cycle ++ [back])).map UserType.name

end Session

namespace Analysis

def setMark (index : Nat) (mark : Mark) : Analysis Unit :=
  modifyAt index fun type => { type with mark := mark }

def clearMarks : Analysis Unit :=
  modify fun session => ⟨session.types.map fun type => { type with mark := .unvisited }⟩

/-- Visit a struct and all it contains.  `path` leads from the start of the search to it.  The depth
of a search is bounded by the number of types, since a live type ends it. -/
def visitStruct : Nat → List Nat → Nat → Analysis Unit
  | 0, _, _ => return
  | depth + 1, path, index => do
    let type ← userAt index
    match type.mark with
    | .checked => return
    | .live =>
      let cycle := (← get).cycleNames path index
      throw (type.fault type.declaration.line (.recursiveStruct cycle))
    | .unvisited =>
      let embedded := (← get).embedded type
      setMark index .live
      embedded.forM (visitStruct depth (path ++ [index]))
      setMark index .checked

/-- Walk up from a class and return the classes met before a checked one or the root. -/
def visitBases : Nat → List Nat → Nat → Analysis (List Nat)
  | 0, path, _ => return path
  | depth + 1, path, index => do
    let type ← userAt index
    match type.mark with
    | .checked => return path
    | .live =>
      let cycle := (← get).cycleNames path index
      throw (type.fault type.declaration.line (.inheritanceCycle cycle))
    | .unvisited =>
      setMark index .live
      match type.base? with
      | none => return path ++ [index]
      | some base => visitBases depth (path ++ [index]) base

/-- More steps than a search can make. -/
def searchDepth : Analysis Nat := return (← get).types.length + 1

def checkStructs : Analysis Unit :=
  forTypes fun index type => do
    if type.isClass then return
    visitStruct (← searchDepth) [] index

def checkBases : Analysis Unit :=
  forTypes fun index type => do
    if !type.isClass then return
    let chain ← visitBases (← searchDepth) [] index
    chain.forM fun visited => setMark visited .checked

def checkCycles : Analysis Unit := do
  checkStructs
  clearMarks
  checkBases
  clearMarks

end Analysis

end FlatMemory
