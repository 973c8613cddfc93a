import FlatMemory.Session.Basic

/-! # Resolving names

Every field type and every base class is looked up by name.  A type is resolved as a whole or not
at all. -/

namespace FlatMemory

namespace Session

def resolveField (session : Session) (type : UserType) (field : Field) : Except Failure TypeRef :=
  match session.lookup field.typeName with
  | none => .error (type.fault field.line (.unknownFieldType field.typeName field.name))
  | some found =>
    if field.qualifier = .plain then .ok found
    else match session.qualified? found field.qualifier with
      | some variant => .ok variant
      | none =>
        .error (type.fault field.line
          (.unsupportedQualifier field.typeName field.name field.qualifier.keyword))

def resolveBase (session : Session) (type : UserType) (baseName : String) : Except Failure Nat :=
  let failed := fun cause => .error (type.fault type.declaration.line cause)
  match session.lookup baseName with
  | none => failed (.unknownBase baseName type.name)
  | some found =>
    match found, session.kindOf found with
    | .user index, .classType => .ok index
    | _, kind => failed (.baseNotClass baseName type.name kind.describe)

def resolution (session : Session) (type : UserType) : Except Failure Resolution := do
  let fieldTypes ← type.declaration.fields.mapM (session.resolveField type)
  match type.declaration.baseName? with
  | none => return ⟨fieldTypes, none⟩
  | some baseName => return ⟨fieldTypes, some (← session.resolveBase type baseName)⟩

end Session

namespace Analysis

def resolveType (index : Nat) (type : UserType) : Analysis Unit := do
  let resolution ← ask fun session => session.resolution type
  modifyAt index fun type => { type with resolution := some resolution }
  match resolution.base with
  | none => return
  | some base =>
    modifyAt base fun type => { type with subclasses := type.subclasses ++ [index] }

def resolveTypes : Analysis Unit := forTypes resolveType

end Analysis

end FlatMemory
