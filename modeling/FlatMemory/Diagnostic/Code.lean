/-! # Diagnostic codes

Every diagnostic has a code.  Its first digit tells the stage that reports it. -/

namespace FlatMemory

inductive Stage where
  | lexer
  | definitions
  | types
  | expansion
  | warning
  | internal
  deriving DecidableEq, Repr

inductive Code where
  | unterminatedString
  | newlineInString
  | unterminatedTemplate
  | unterminatedComment
  | missingKeyword
  | virtualInStruct
  | accessorInClass
  | methodInStruct
  | malformedField
  | endOfInput
  | unbalancedBody
  | duplicateAccessor
  | malformedSignature
  | duplicateMember
  | unexpectedToken
  | duplicateType
  | unknownFieldType
  | unknownBase
  | baseNotClass
  | unsupportedQualifier
  | recursiveStruct
  | inheritanceCycle
  | duplicateClassId
  | unhashableName
  | fieldConflict
  | shadowedVirtual
  | unknownMember
  | inapplicableOperation
  | operationArguments
  | unsupportedAssignment
  | unknownAllocation
  | allocationArguments
  | qualifiedAllocation
  | malformedAllocation
  | accessorArguments
  | inapplicableAccessor
  | unterminatedAccessor
  | internalError
  deriving DecidableEq, Repr

namespace Code

def text : Code → String
  | unterminatedString => "E0001"
  | newlineInString => "E0002"
  | unterminatedTemplate => "E0003"
  | unterminatedComment => "E0004"
  | missingKeyword => "E1001"
  | virtualInStruct => "E1002"
  | accessorInClass => "E1003"
  | methodInStruct => "E1004"
  | malformedField => "E1005"
  | endOfInput => "E1006"
  | unbalancedBody => "E1007"
  | duplicateAccessor => "E1008"
  | malformedSignature => "E1009"
  | duplicateMember => "E1010"
  | unexpectedToken => "E1011"
  | duplicateType => "E2001"
  | unknownFieldType => "E2002"
  | unknownBase => "E2003"
  | baseNotClass => "E2004"
  | unsupportedQualifier => "E2005"
  | recursiveStruct => "E2006"
  | inheritanceCycle => "E2007"
  | duplicateClassId => "E2008"
  | unhashableName => "E2009"
  | fieldConflict => "E2010"
  | shadowedVirtual => "E2011"
  | unknownMember => "E3001"
  | inapplicableOperation => "E3002"
  | operationArguments => "E3003"
  | unsupportedAssignment => "E3004"
  | unknownAllocation => "E3005"
  | allocationArguments => "E3006"
  | qualifiedAllocation => "E3007"
  | malformedAllocation => "E3008"
  | accessorArguments => "W3001"
  | inapplicableAccessor => "W3002"
  | unterminatedAccessor => "W3003"
  | internalError => "E9001"

def all : List Code :=
  [unterminatedString, newlineInString, unterminatedTemplate, unterminatedComment,
   missingKeyword, virtualInStruct, accessorInClass, methodInStruct, malformedField, endOfInput,
   unbalancedBody, duplicateAccessor, malformedSignature, duplicateMember, unexpectedToken,
   duplicateType, unknownFieldType, unknownBase, baseNotClass, unsupportedQualifier,
   recursiveStruct, inheritanceCycle, duplicateClassId, unhashableName, fieldConflict,
   shadowedVirtual, unknownMember, inapplicableOperation, operationArguments,
   unsupportedAssignment, unknownAllocation, allocationArguments, qualifiedAllocation,
   malformedAllocation, accessorArguments, inapplicableAccessor, unterminatedAccessor,
   internalError]

def ofText? (text : String) : Option Code := all.find? fun code => code.text = text

def stage : Code → Stage
  | unterminatedString | newlineInString | unterminatedTemplate | unterminatedComment => .lexer
  | missingKeyword | virtualInStruct | accessorInClass | methodInStruct | malformedField
  | endOfInput | unbalancedBody | duplicateAccessor | malformedSignature | duplicateMember
  | unexpectedToken => .definitions
  | duplicateType | unknownFieldType | unknownBase | baseNotClass | unsupportedQualifier
  | recursiveStruct | inheritanceCycle | duplicateClassId | unhashableName | fieldConflict
  | shadowedVirtual => .types
  | unknownMember | inapplicableOperation | operationArguments | unsupportedAssignment
  | unknownAllocation | allocationArguments | qualifiedAllocation | malformedAllocation =>
    .expansion
  | accessorArguments | inapplicableAccessor | unterminatedAccessor => .warning
  | internalError => .internal

end Code

end FlatMemory
