import FlatMemory.Proofs.Text.Arguments

/-! # What a scan meets

A scan from the start of a text takes a literal or comment at once and any other character by
itself. -/

namespace FlatMemory

open List Text Literal

variable {front rest : Text}

inductive Part where
  | literal (text : Text)
  | code (c : Char)
  deriving DecidableEq, Repr

namespace Part

def literal? : Part → Option Text
  | literal text => some text
  | code _ => none

def code? : Part → Option Char
  | literal _ => none
  | code c => some c

def isBlank : Part → Bool
  | literal _ => false
  | code c => FlatMemory.isBlank c

def isLineComment : Part → Bool
  | literal ('/' :: '/' :: _) => true
  | _ => false

end Part

namespace Text

variable {text cs : Text} {cut : Cut} {c : Char}

/-- Literals, comments and single characters, in order. -/
def parts (text : Text) : List Part :=
  match found : Literal.first? text with
  | some cut =>
    have := rest_length_lt found
    .literal cut.taken :: parts cut.rest
  | none =>
    match text with
    | [] => []
    | c :: cs => .code c :: parts cs
termination_by text.length

def literals (text : Text) : List Text := text.parts.filterMap Part.literal?

/-- The characters outside literals and comments. -/
def code (text : Text) : Text := text.parts.filterMap Part.code?

/-- Whether the last thing of a text that is not blank is a line comment. -/
def endsInLineComment (text : Text) : Bool :=
  (text.parts.filter fun part => !part.isBlank).getLast?.any Part.isLineComment

@[simp] theorem parts_nil : parts [] = [] := by
  rw [parts]
  rfl

theorem parts_literal (found : Literal.first? text = some cut) :
    text.parts = .literal cut.taken :: parts cut.rest := by
  rw [parts]
  split
  · next other literal =>
    rw [found] at literal
    cases literal
    rfl
  · next none => rw [found] at none; cases none

theorem parts_cons (plain : Literal.first? (c :: cs) = none) :
    parts (c :: cs) = .code c :: parts cs := by
  rw [parts]
  split
  · next cut literal => rw [plain] at literal; cases literal
  · rfl

@[simp] theorem literals_nil : literals [] = [] := by simp [literals]

theorem literals_literal (found : Literal.first? text = some cut) :
    text.literals = cut.taken :: literals cut.rest := by
  rw [literals, parts_literal found]
  rfl

theorem literals_cons (plain : Literal.first? (c :: cs) = none) :
    literals (c :: cs) = literals cs := by
  rw [literals, parts_cons plain]
  rfl

end Text

theorem Literal.first?_front {c : Char} (plain : first? (c :: (front ++ rest)) = none) :
    first? (c :: front) = none := by
  rw [first?_eq_none_iff] at plain ⊢
  refine ⟨plain.1, plain.2.1, plain.2.2.1, fun slash => ?_⟩
  cases front with
  | nil => exact harmless_nil
  | cons d ds => exact plain.2.2.2 slash

theorem Text.parts_of_blank {text : Text} (blank : text.isBlank = true) :
    text.parts = text.map Part.code := by
  induction text with
  | nil => simp
  | cons c cs ih =>
    rw [isBlank_iff] at blank
    have plain := (Walk.isPlain_of_isBlank (blank c mem_cons_self)).1
    rw [parts_cons (first?_of_isPlain plain cs), map_cons,
      ih (isBlank_iff.2 fun d member => blank d (mem_cons_of_mem _ member))]

end FlatMemory
