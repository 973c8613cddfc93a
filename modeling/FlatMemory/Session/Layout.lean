import FlatMemory.Session.Basic

/-! # Memory layout

Fields are placed in declaration order, each at the next multiple of its alignment.  Arrays and
class references take one pointer slot.  An embedded struct gets a slot for the whole and a copy of
each of its slots under its own name.  Instances of a class start with a tag; a derived class goes
on where its base ends.  The size of a struct is rounded up, so that arrays of it stay aligned. -/

namespace FlatMemory

/-- Round up to a multiple of an alignment, a power of two. -/
def alignTo (value align : Nat) : Nat := (value + align - 1) / align * align

namespace Layout

def pointerSize : Nat := 4

/-- Bytes of the tag at the start of an instance of a class. -/
def tagSize : Nat := 4

def ofStruct : Layout := ⟨0, 1, []⟩

def ofClass : Layout := ⟨tagSize, pointerSize, []⟩

/-- Where a field of this alignment goes next. -/
def nextOffset (layout : Layout) (align : Nat) : Nat := alignTo layout.size align

/-- Take room for a field and record slots at its offset. -/
def place (layout : Layout) (size align : Nat) (slots : Nat → List Slot) : Layout :=
  let offset := layout.nextOffset align
  ⟨offset + size, max layout.align align, layout.slots ++ slots offset⟩

def placePointer (layout : Layout) (path : String) (type : TypeRef) (isArray : Bool) : Layout :=
  layout.place pointerSize pointerSize fun offset => [⟨path, true, offset, type, isArray⟩]

def placePrimitive (layout : Layout) (path : String) (type : Primitive) : Layout :=
  layout.place type.size type.align fun offset => [⟨path, true, offset, .primitive type, false⟩]

def placeStruct (layout : Layout) (path : String) (index : Nat) (inner : Layout) : Layout :=
  layout.place inner.size inner.align fun offset =>
    ⟨path, false, offset, .user index, false⟩ :: inner.slots.map (Slot.within path offset)

def rounded (layout : Layout) : Layout := { layout with size := layout.nextOffset layout.align }

def hasPath (layout : Layout) (path : String) : Bool :=
  layout.slots.any fun slot => slot.path = path

end Layout

namespace Session

/-- The nearest of some classes that has a method of a name. -/
def methodOwner? (session : Session) (classes : List Nat) (name : String) : Option UserType :=
  (session.typesAt classes).find? fun type => type.declaration.hasMethod name

/-- Refuse a field whose name is taken above it. -/
def checkField (session : Session) (type : UserType) (layout : Layout) (field : Field) :
    Except Failure Unit :=
  if layout.hasPath field.name then
    .error (type.fault field.line (.fieldRedeclared field.name))
  else match session.methodOwner? ((type.base?.map session.ancestry).getD []) field.name with
    | some owner => .error (type.fault field.line (.fieldHidesMethod field.name owner.name))
    | none => .ok ()

/-- Refuse a method whose name is that of a slot. -/
def checkMethods (type : UserType) (layout : Layout) : Except Failure Unit :=
  match type.declaration.methods.find? fun method => layout.hasPath method.name with
  | some method => .error (type.fault method.line (.methodRedeclaresField method.name))
  | none => .ok ()

end Session

namespace Analysis

/-- Place one field.  `layoutInner` lays out an embedded struct. -/
def placeField (layoutInner : Nat → Analysis Layout) (type : UserType) (layout : Layout)
    (typed : Field × Option TypeRef) : Analysis Layout := do
  let (field, fieldType) := typed
  match fieldType with
  | none => throw (.bug (.unresolvedField field.name))
  | some fieldType =>
    ask fun session => session.checkField type layout field
    if field.isArray then return layout.placePointer field.name fieldType true
    match fieldType with
    | .primitive primitive => return layout.placePrimitive field.name primitive
    | .user index =>
      match (← get).kindOf fieldType with
      | .classType => return layout.placePointer field.name fieldType false
      | _ => return layout.placeStruct field.name index (← layoutInner index)

/-- Lay out a type, its base and embedded structs first.  A type that is laid out stays as it is.
Without cycles no nesting is deeper than the number of types. -/
def layoutType : Nat → Nat → Analysis Layout
  | 0, _ => return Layout.ofStruct
  | depth + 1, index => do
    let type ← userAt index
    match type.layout with
    | some layout => return layout
    | none =>
      let start ← match type.base? with
        | some base => layoutType depth base
        | none => pure (if type.isClass then Layout.ofClass else Layout.ofStruct)
      let filled ← type.typedFields.foldlM (placeField (layoutType depth) type) start
      ask fun _ => Session.checkMethods type filled
      let final := if type.isClass then filled else filled.rounded
      modifyAt index fun type => { type with layout := some final }
      return final

def layoutTypes : Analysis Unit :=
  forTypes fun index _ => do
    let _ ← layoutType (← get).types.length index

end Analysis

end FlatMemory
