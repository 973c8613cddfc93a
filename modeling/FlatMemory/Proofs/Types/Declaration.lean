import FlatMemory.Proofs.Token.Stream
import FlatMemory.Types.Declaration
import Mathlib.Data.List.Nodup

/-! # Well-formed declarations

What a declaration that was read from a source satisfies: its names are identifiers and belong to
one member each, only classes have named methods, and every body is a run of whole tokens whose
brackets close and which a brace ends. -/

namespace FlatMemory

open List

variable {name : String}

def IsIdentifier (name : String) : Prop :=
  ∃ c cs, name.toList = c :: cs ∧ isIdentStart c = true ∧ ∀ d ∈ cs, isIdentPart d = true

theorem IsIdentifier.parts (identifier : IsIdentifier name) :
    ∀ c ∈ name.toList, isIdentPart c = true := by
  obtain ⟨first, later, chars, start, parts⟩ := identifier
  intro c member
  rw [chars] at member
  rcases mem_cons.1 member with rfl | member
  · exact isIdentPart_of_isIdentStart start
  · exact parts c member

theorem IsIdentifier.ne_empty (identifier : IsIdentifier name) : name ≠ "" := by
  obtain ⟨c, cs, chars, _⟩ := identifier
  rintro rfl
  cases chars

/-- The brackets of a token sequence close those that are open, given innermost first, and all
that it opens itself. -/
def Balanced : List TokenKind → List Token → Prop
  | nesting, [] => nesting = []
  | nesting, token :: tokens =>
    if token.kind.isOpen then Balanced (token.kind :: nesting) tokens
    else if token.kind.isClose then
      match nesting with
      | [] => False
      | opener :: outer => opener.closer? = some token.kind ∧ Balanced outer tokens
    else Balanced nesting tokens

section Balanced

variable {token : Token} {tokens : List Token} {nesting : List TokenKind}

theorem balanced_open (opens : token.kind.isOpen = true) :
    Balanced nesting (token :: tokens) ↔ Balanced (token.kind :: nesting) tokens := by
  cases nesting <;> simp [Balanced, opens]

theorem balanced_close {opener : TokenKind} (notOpen : token.kind.isOpen ≠ true)
    (closes : token.kind.isClose = true) :
    Balanced (opener :: nesting) (token :: tokens) ↔
      opener.closer? = some token.kind ∧ Balanced nesting tokens := by
  simp [Balanced, notOpen, closes]

theorem not_balanced_close (notOpen : token.kind.isOpen ≠ true)
    (closes : token.kind.isClose = true) : ¬ Balanced [] (token :: tokens) := by
  simp [Balanced, notOpen, closes]

theorem balanced_plain (notOpen : token.kind.isOpen ≠ true)
    (notClose : token.kind.isClose ≠ true) :
    Balanced nesting (token :: tokens) ↔ Balanced nesting tokens := by
  cases nesting <;> simp [Balanced, notOpen, notClose]

theorem Balanced.tail (balanced : Balanced nesting (token :: tokens)) :
    ∃ outer, Balanced outer tokens := by
  by_cases opens : token.kind.isOpen = true
  · exact ⟨_, (balanced_open opens).1 balanced⟩
  by_cases closes : token.kind.isClose = true
  · cases nesting with
    | nil => exact absurd balanced (not_balanced_close opens closes)
    | cons opener outer => exact ⟨outer, ((balanced_close opens closes).1 balanced).2⟩
  · exact ⟨nesting, (balanced_plain opens closes).1 balanced⟩

end Balanced

structure IsBody (line : Nat) (text : Text) (tokens : List Token) : Prop where
  lexed : tokenizeFrom line text = .ok tokens
  balanced : Balanced [] tokens
  braced : ∃ lexer after more, Reads lexer tokens after ∧ after.rest = '}' :: more

structure Method.Captured (method : Method) : Prop where
  body : ∃ tokens, IsBody method.line method.body tokens
  parameters : ∀ parameter ∈ method.parameters, IsIdentifier parameter

namespace Declaration

def memberNames (declaration : Declaration) : List String :=
  declaration.fields.map Field.name ++
    (declaration.methods.filter fun method => method.kind.isNamed).map Method.name

structure WellFormed (declaration : Declaration) : Prop where
  named : IsIdentifier declaration.name
  distinct : declaration.memberNames.Nodup
  identifiers : ∀ name ∈ declaration.memberNames, IsIdentifier name
  kinds : ∀ method ∈ declaration.methods, method.kind.isNamed = declaration.isClass
  captured : ∀ method ∈ declaration.methods, method.Captured
  /-- A struct has one getter and one setter at most. -/
  single : ∀ method ∈ declaration.methods, method.kind.isNamed = false →
    declaration.methodOfKind? method.kind = some method

def DeclaresVirtual (declaration : Declaration) (name : String) : Prop :=
  ∃ method ∈ declaration.methods, method.kind = .virtual ∧ method.name = name

namespace WellFormed

variable {declaration : Declaration} {method : Method}

theorem method?_eq (wellFormed : WellFormed declaration) (member : method ∈ declaration.methods)
    (named : method.kind.isNamed = true) : declaration.method? method.name = some method := by
  have names := (nodup_append.1 wellFormed.distinct).2.1
  cases found : declaration.method? method.name with
  | none =>
    have absent := find?_eq_none.1 found method member
    simp [named] at absent
  | some first =>
    have isFirst := find?_some found
    have present := mem_of_find?_eq_some found
    simp only [Bool.and_eq_true, decide_eq_true_eq] at isFirst
    have same : first = method := by
      refine inj_on_of_nodup_map names ?_ ?_ isFirst.1
      · exact mem_filter.2 ⟨present, isFirst.2⟩
      · exact mem_filter.2 ⟨member, named⟩
    rw [same]

theorem declaresVirtual_iff (wellFormed : WellFormed declaration) (name : String) :
    declaration.declaresVirtual name = true ↔ declaration.DeclaresVirtual name := by
  unfold declaresVirtual DeclaresVirtual
  constructor
  · intro declares
    split at declares
    · next method found =>
      have named := find?_some found
      simp only [Bool.and_eq_true, decide_eq_true_eq] at named declares
      exact ⟨method, mem_of_find?_eq_some found, declares, named.1⟩
    · cases declares
  · rintro ⟨method, member, isVirtual, rfl⟩
    rw [wellFormed.method?_eq member (by rw [isVirtual]; rfl)]
    simpa using isVirtual

end WellFormed

end Declaration

end FlatMemory
