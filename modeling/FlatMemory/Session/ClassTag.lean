import FlatMemory.Session.Basic

/-! # Class tags

The qualified name of a class is its ancestry joined by `>`, root first.  The id of a class is a
rolling hash of 28 bits of that name.  Two classes with one id are an error. -/

namespace FlatMemory

namespace ClassTag

/-- Six-bit code of a character of a qualified name. -/
def charCode? (c : Char) : Option Nat :=
  if c.isUpper then some (c.toNat - 'A'.toNat)
  else if c.isLower then some (c.toNat - 'a'.toNat + 26)
  else if c.isDigit then some (c.toNat - '0'.toNat + 52)
  else if c = '_' then some 62
  else if c = '>' then some 63
  else none

/-- Turn 28 bits left by three. -/
def rotate (state : Nat) : Nat := (state &&& 0x1FFFFFF) <<< 3 ||| state >>> 25

def hashFrom (state : Nat) : Text → Option Nat
  | [] => some state
  | c :: cs => do hashFrom (rotate state ^^^ (← charCode? c)) cs

/-- The hash starts from the length of the name, which has to fit into a word of 32 bits.  Other
characters than ASCII letters, digits, `_` and `>` have no code. -/
def hash? (name : String) : Option Nat :=
  let length := Text.byteLength name.toList
  if length < UInt32.size then hashFrom (length &&& 0xFFFFFFF) name.toList else none

end ClassTag

namespace Session

def qualifiedName (session : Session) (index : Nat) : String :=
  ">".intercalate ((session.typesAt (session.ancestry index)).map UserType.name).reverse

def ownerOf? (session : Session) (id : Nat) : Option Nat :=
  session.types.findIdx? fun type => type.tag.any fun tag => tag.id = id

/-- The tag of a class, unless another class has claimed its id. -/
def tagFor (session : Session) (index : Nat) (type : UserType) : Except Failure ClassTag :=
  let failed := fun cause => .error (type.fault type.declaration.line cause)
  let name := session.qualifiedName index
  match ClassTag.hash? name with
  | none => failed (.unhashableName name)
  | some id =>
    match session.ownerOf? id with
    | none => .ok ⟨name, id⟩
    | some owner =>
      if owner = index then .ok ⟨name, id⟩
      else do
        let other := (← session.userAt owner).declaration
        failed (.duplicateClassId id type.name other.name ⟨other.file, other.line⟩)

end Session

namespace Analysis

def assignTags : Analysis Unit :=
  forTypes fun index type => do
    if !type.isClass then return
    let tag ← ask fun session => session.tagFor index type
    modifyAt index fun type => { type with tag := some tag }

end Analysis

end FlatMemory
