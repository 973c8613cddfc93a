import FlatMemory.Diagnostic.Code
import FlatMemory.Token.Basic

/-! # Causes of failure

What can be wrong with a program, stage by stage, as data.  The code and the wording of each cause
are given here and nowhere else. -/

namespace FlatMemory

def ticked (word : String) : String := "`" ++ word ++ "`"

inductive FieldFlaw where
  | colon
  | typeName
  | suffixName
  | suffix (word : String)
  | semicolon (found : Token)
  deriving DecidableEq, Repr

def FieldFlaw.message : FieldFlaw → String
  | colon => "expected `:`"
  | typeName => "expected a type name"
  | suffixName => "expected a name after `.`"
  | suffix word => "unexpected type suffix " ++ ticked ("." ++ word)
  | semicolon found => "expected `;`, found " ++ found.describe

inductive SignatureFlaw where
  | selfFirst
  | parameter (found : Token)
  | unexpected (found : Token)
  deriving DecidableEq, Repr

def SignatureFlaw.message : SignatureFlaw → String
  | selfFirst => "first parameter must be `SELF`"
  | parameter found => "bad parameter " ++ found.describe
  | unexpected found => "unexpected " ++ found.describe

/-- What is wrong with a definition block.  `type` is the name of the type being defined. -/
inductive DefinitionCause where
  | keyword (found : Token)
  | structExtends (type : String)
  | endOfInput (type : String)
  | unexpected (type : String) (found : Token)
  | missingEnd (type : String) (found : Token)
  | expected (what : String) (found : Token)
  | expectedName (what : String) (found : Token)
  | field (name : String) (flaw : FieldFlaw)
  | missingMarkWord (type : String)
  | unknownMarkWord (word type : String)
  | virtualInStruct (type : String)
  | methodInStruct (type : String)
  | accessorInClass (word type : String)
  | duplicateAccessor (word type : String)
  | accessorParameters (word parameters : String)
  | signature (method : String) (flaw : SignatureFlaw)
  | endInParameters (method : String)
  | endInBody (method : String)
  | unbalancedBody (method : String) (found : Token)
  | duplicateMember (member type : String)
  deriving DecidableEq, Repr

namespace DefinitionCause

def code : DefinitionCause → Code
  | keyword _ => .missingKeyword
  | structExtends _ | unexpected _ _ | missingEnd _ _ | expectedName _ _ | missingMarkWord _
  | unknownMarkWord _ _ => .unexpectedToken
  | expected _ found => if found.kind = .eof then .endOfInput else .unexpectedToken
  | endOfInput _ | endInParameters _ | endInBody _ => .endOfInput
  | field _ _ => .malformedField
  | virtualInStruct _ => .virtualInStruct
  | methodInStruct _ => .methodInStruct
  | accessorInClass _ _ => .accessorInClass
  | duplicateAccessor _ _ => .duplicateAccessor
  | accessorParameters _ _ | signature _ _ => .malformedSignature
  | unbalancedBody _ _ => .unbalancedBody
  | duplicateMember _ _ => .duplicateMember

def message : DefinitionCause → String
  | keyword found => "expected `struct` or `class` after `@flatjs`, found " ++ found.describe
  | structExtends type => "struct " ++ ticked type ++ " cannot extend another type"
  | endOfInput type => "end of input inside definition of " ++ ticked type
  | unexpected type found => "unexpected " ++ found.describe ++ " in definition of " ++ ticked type
  | missingEnd type found =>
    "expected `@end` after definition of " ++ ticked type ++ ", found " ++ found.describe
  | expected what found => "expected " ++ what ++ ", found " ++ found.describe
  | expectedName what found => "expected " ++ what ++ ", found " ++ found.describe
  | field name flaw => "malformed declaration of field " ++ ticked name ++ ": " ++ flaw.message
  | missingMarkWord type => "expected an annotation after `@` in definition of " ++ ticked type
  | unknownMarkWord word type =>
    "unknown annotation " ++ ticked ("@" ++ word) ++ " in definition of " ++ ticked type
  | virtualInStruct type => "virtual method in struct " ++ ticked type
  | methodInStruct type => "struct " ++ ticked type ++ " may only declare `@get` and `@set` methods"
  | accessorInClass word type =>
    ticked ("@" ++ word) ++ " in class " ++ ticked type ++ "; only structs have getters and setters"
  | duplicateAccessor word type =>
    "duplicate " ++ ticked ("@" ++ word) ++ " in struct " ++ ticked type
  | accessorParameters word parameters =>
    ticked ("@" ++ word) ++ " must be declared as " ++ ticked ("@" ++ word ++ parameters)
  | signature method flaw => "malformed signature of " ++ ticked method ++ ": " ++ flaw.message
  | endInParameters method => "end of input in parameter list of " ++ ticked method
  | endInBody method => "end of input inside body of " ++ ticked method
  | unbalancedBody method found =>
    "unbalanced " ++ found.describe ++ " in body of " ++ ticked method
  | duplicateMember member type =>
    "duplicate member " ++ ticked member ++ " in " ++ ticked type

end DefinitionCause

/-- A place in a source, for messages that name a second one. -/
structure Place where
  file : String
  line : Nat
  deriving DecidableEq, Repr

def Place.render (place : Place) : String := place.file ++ ":" ++ toString place.line

inductive TypeCause where
  | duplicateType (name : String) (first : Option Place)
  | unknownFieldType (type field : String)
  | unsupportedQualifier (type field qualifier : String)
  | unknownBase (base type : String)
  | baseNotClass (base type kind : String)
  /-- Each type of the cycle contains the next; the last is the first. -/
  | recursiveStruct (cycle : List String)
  /-- Each class of the cycle extends the next; the last is the first. -/
  | inheritanceCycle (cycle : List String)
  | duplicateClassId (id : Nat) (type other : String) (place : Place)
  | unhashableName (name : String)
  | fieldRedeclared (field : String)
  | fieldHidesMethod (field owner : String)
  | methodRedeclaresField (method : String)
  | shadowedVirtual (method ancestor : String)
  deriving DecidableEq, Repr

namespace TypeCause

def code : TypeCause → Code
  | duplicateType _ _ => .duplicateType
  | unknownFieldType _ _ => .unknownFieldType
  | unsupportedQualifier _ _ _ => .unsupportedQualifier
  | unknownBase _ _ => .unknownBase
  | baseNotClass _ _ _ => .baseNotClass
  | recursiveStruct _ => .recursiveStruct
  | inheritanceCycle _ => .inheritanceCycle
  | duplicateClassId _ _ _ _ => .duplicateClassId
  | unhashableName _ => .unhashableName
  | fieldRedeclared _ | fieldHidesMethod _ _ | methodRedeclaresField _ => .fieldConflict
  | shadowedVirtual _ _ => .shadowedVirtual

def message : TypeCause → String
  | duplicateType name _ => "duplicate definition of type " ++ ticked name
  | unknownFieldType type field => "unknown type " ++ ticked type ++ " for field " ++ ticked field
  | unsupportedQualifier type field qualifier =>
    "type " ++ ticked type ++ " of field " ++ ticked field ++ " does not support the "
      ++ ticked ("." ++ qualifier) ++ " qualifier; only integer primitives do"
  | unknownBase base type => "unknown base class " ++ ticked base ++ " for class " ++ ticked type
  | baseNotClass base type kind =>
    "base " ++ ticked base ++ " of class " ++ ticked type ++ " is a " ++ kind ++ ", not a class"
  | recursiveStruct cycle => "recursive type definition: " ++ " contains ".intercalate cycle
  | inheritanceCycle cycle => "inheritance cycle: " ++ " extends ".intercalate cycle
  | duplicateClassId id type other place =>
    "duplicate class id " ++ toString id ++ ": " ++ ticked type ++ " collides with "
      ++ ticked other ++ " (" ++ place.render ++ ")"
  | unhashableName name => "class name " ++ ticked name ++ " cannot be hashed to a class id"
  | fieldRedeclared field => "field " ++ ticked field ++ " redeclares an inherited field"
  | fieldHidesMethod field owner =>
    "field " ++ ticked field ++ " hides the inherited method " ++ ticked (owner ++ "." ++ field)
  | methodRedeclaresField method => "method " ++ ticked method ++ " redeclares an inherited field"
  | shadowedVirtual method ancestor =>
    "method " ++ ticked method ++ " overrides virtual " ++ ticked (ancestor ++ "." ++ method)
      ++ " and must be declared `@virtual`"

def note : TypeCause → Option String
  | duplicateType _ (some first) => some ("first defined at " ++ first.render)
  | duplicateClassId _ _ _ _ => some "rename one of the classes"
  | unhashableName _ => some "class names may only use ASCII letters, digits and `_`"
  | _ => none

end TypeCause

/-- What is wrong with a reference to `SELF` in a method body.  `written` is the reference as it
stands there. -/
inductive ReferenceCause where
  | unknownMember (written type : String)
  | notAnOperation (rest path : String)
  | methodNotCalled (written : String)
  | inapplicable (operation written target : String)
  | missingValue (written operator : String)
  | operationNotCalled (written : String)
  | argumentCount (written : String) (expected found : Nat)
  | assignedOperation (written : String)
  | unsupportedAssignment (operator written : String)
  deriving DecidableEq, Repr

namespace ReferenceCause

def code : ReferenceCause → Code
  | unknownMember _ _ | notAnOperation _ _ | methodNotCalled _ => .unknownMember
  | inapplicable _ _ _ => .inapplicableOperation
  | missingValue _ _ | operationNotCalled _ | argumentCount _ _ _ => .operationArguments
  | assignedOperation _ | unsupportedAssignment _ _ => .unsupportedAssignment

def message : ReferenceCause → String
  | unknownMember written type => "unknown member " ++ ticked written ++ " of " ++ ticked type
  | notAnOperation rest path => ticked rest ++ " is not an operation on " ++ ticked path
  | methodNotCalled written => "method " ++ ticked written ++ " must be called"
  | inapplicable operation written target =>
    "operation " ++ ticked operation ++ " in " ++ ticked written ++ " does not apply to " ++ target
  | missingValue written operator => "missing value after " ++ ticked (written ++ " " ++ operator)
  | operationNotCalled written => "operation " ++ ticked written ++ " must be called"
  | argumentCount written expected found =>
    ticked written ++ " takes " ++ toString expected ++ " argument(s), found " ++ toString found
  | assignedOperation written => "cannot assign to the operation " ++ ticked written
  | unsupportedAssignment operator written =>
    "unsupported assignment " ++ ticked operator ++ " to " ++ ticked written

end ReferenceCause

inductive AllocationCause where
  | missingName
  | unknownType (type : String)
  | primitive (type : String)
  | missingLength (type : String)
  | lengthCount (type : String) (found : Nat)
  | qualifiedArray (type qualifier : String)
  | malformed (type path : String)
  deriving DecidableEq, Repr

namespace AllocationCause

def code : AllocationCause → Code
  | unknownType _ => .unknownAllocation
  | missingLength _ | lengthCount _ _ => .allocationArguments
  | qualifiedArray _ _ => .qualifiedAllocation
  | missingName | primitive _ | malformed _ _ => .malformedAllocation

def message : AllocationCause → String
  | missingName => "`@new` must be followed by a type name"
  | unknownType type => "`@new` of unknown type " ++ ticked type
  | primitive type =>
    ticked ("@new " ++ type) ++ " allocates a primitive; use " ++ ticked (type ++ ".Array")
  | missingLength type => ticked ("@new " ++ type ++ ".Array") ++ " needs one length argument"
  | lengthCount type found =>
    ticked ("@new " ++ type ++ ".Array") ++ " takes one argument, found " ++ toString found
  | qualifiedArray type qualifier =>
    ticked ("@new " ++ type ++ "." ++ qualifier ++ ".Array") ++ " is not supported"
  | malformed type path => "malformed " ++ ticked ("@new " ++ type ++ "." ++ path)

end AllocationCause

/-- Why an accessor was left as it stands.  `written` is its dotted name. -/
inductive AccessorWarning where
  | argumentCount (written : String) (expected found : Nat)
  | notQualifiable (written type qualifier : String)
  | notArrayAccess (written : String)
  | inapplicable (operation written target : String)
  | unterminated (written : String)
  deriving DecidableEq, Repr

namespace AccessorWarning

def code : AccessorWarning → Code
  | argumentCount _ _ _ => .accessorArguments
  | notQualifiable _ _ _ | notArrayAccess _ | inapplicable _ _ _ => .inapplicableAccessor
  | unterminated _ => .unterminatedAccessor

def message : AccessorWarning → String
  | argumentCount written expected found =>
    ticked written ++ " takes " ++ toString expected ++ " argument(s), found " ++ toString found
  | notQualifiable written type qualifier =>
    ticked written ++ ": " ++ ticked type ++ " cannot be " ++ qualifier
  | notArrayAccess written => ticked written ++ " is not a valid array access"
  | inapplicable operation written target =>
    "operation " ++ ticked operation ++ " in " ++ ticked written ++ " does not apply to " ++ target
  | unterminated written => "unterminated argument list for " ++ ticked written

end AccessorWarning

/-- Everything that can be wrong with a program. -/
inductive Cause where
  | lexical (kind : LexErrorKind)
  | definition (cause : DefinitionCause)
  | type (cause : TypeCause)
  | reference (cause : ReferenceCause)
  | allocation (cause : AllocationCause)
  deriving DecidableEq, Repr

namespace Cause

def code : Cause → Code
  | lexical .unterminatedString => .unterminatedString
  | lexical .newlineInString => .newlineInString
  | lexical .unterminatedTemplate => .unterminatedTemplate
  | lexical .unterminatedComment => .unterminatedComment
  | definition cause => cause.code
  | type cause => cause.code
  | reference cause => cause.code
  | allocation cause => cause.code

def message : Cause → String
  | lexical kind => kind.message
  | definition cause => cause.message
  | type cause => cause.message
  | reference cause => cause.message
  | allocation cause => cause.message

def note : Cause → Option String
  | type cause => cause.note
  | _ => none

end Cause

end FlatMemory
