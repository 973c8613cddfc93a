import FlatMemory.Text.Blank
import FlatMemory.Text.Literal

/-! # Argument lists in plain text

A parenthesised group ends at the bracket that closes it; brackets nest by kind, and those inside
literals and comments do not count.  The text of a group is split into arguments at its top-level
commas. -/

namespace FlatMemory

def isOpenBracket (c : Char) : Bool := c == '(' || c == '[' || c == '{'

def isCloseBracket (c : Char) : Bool := c == ')' || c == ']' || c == '}'

def closingBracket? : Char → Option Char
  | '(' => some ')'
  | '[' => some ']'
  | '{' => some '}'
  | _ => none

/-- Follow a text up to the bracket that closes the outermost of the open ones, given innermost
first.  That bracket is not kept.  There is no cut if the text ends first or brackets do not
match. -/
def closeGroup (nesting : List Char) (text : Text) : Option Cut :=
  match literal : Literal.first? text with
  | some cut =>
    have := Literal.rest_length_lt literal
    (closeGroup nesting cut.rest).map (Cut.after cut.taken)
  | none =>
    match text with
    | [] => none
    | c :: cs =>
      if isOpenBracket c then (closeGroup (c :: nesting) cs).map (Cut.after [c])
      else if isCloseBracket c then
        match nesting with
        | [] => none
        | opener :: outer =>
          if closingBracket? opener ≠ some c then none
          else if outer.isEmpty then some ⟨[], cs⟩
          else (closeGroup outer cs).map (Cut.after [c])
      else (closeGroup nesting cs).map (Cut.after [c])
termination_by text.length

/-- The inside of the parentheses that a text starts with, and what follows them. -/
def group? : Text → Option Cut
  | '(' :: cs => closeGroup ['('] cs
  | _ => none

def joinFirst (front : Text) : List Text → List Text
  | [] => [front]
  | piece :: pieces => (front ++ piece) :: pieces

/-- Split a text at the commas outside brackets and literals. -/
def commaPieces (depth : Nat) (text : Text) : List Text :=
  match literal : Literal.first? text with
  | some cut =>
    have := Literal.rest_length_lt literal
    joinFirst cut.taken (commaPieces depth cut.rest)
  | none =>
    match text with
    | [] => [[]]
    | c :: cs =>
      if isOpenBracket c then joinFirst [c] (commaPieces (depth + 1) cs)
      else if isCloseBracket c then joinFirst [c] (commaPieces (depth - 1) cs)
      else if c = ',' ∧ depth = 0 then [] :: commaPieces 0 cs
      else joinFirst [c] (commaPieces depth cs)
termination_by text.length

/-- One argument and its byte offset in the argument list. -/
structure Argument where
  text : Text
  offset : Nat
  deriving DecidableEq, Repr

/-- Pieces that a comma separates, each with its offset. -/
def withOffsets (offset : Nat) : List Text → List Argument
  | [] => []
  | piece :: pieces => ⟨piece, offset⟩ :: withOffsets (offset + piece.byteLength + 1) pieces

/-- The arguments in the inside of a group.  Blank text has none. -/
def splitArguments (inner : Text) : List Argument :=
  if inner.isBlank then [] else withOffsets 0 (commaPieces 0 inner)

variable {text : Text} {cut : Cut} {argument : Argument}

theorem closeGroup_length_lt {nesting : List Char} (closed : closeGroup nesting text = some cut) :
    cut.taken.length + cut.rest.length < text.length := by
  fun_induction closeGroup nesting text generalizing cut with
  | case1 nesting text found literal shorter ih =>
    obtain ⟨inner, closedInner, rfl⟩ := Option.map_eq_some_iff.1 closed
    have whole := (Literal.whole_first? literal).1
    have := ih closedInner
    have := congrArg List.length whole
    simp only [Cut.whole, List.length_append] at this
    simp only [Cut.after, List.length_append]
    omega
  | case2 => simp at closed
  | case3 nesting c cs _ _ ih =>
    obtain ⟨inner, closedInner, rfl⟩ := Option.map_eq_some_iff.1 closed
    have := ih closedInner
    simp only [Cut.after, List.cons_append, List.nil_append, List.length_cons]
    omega
  | case4 => simp at closed
  | case5 => simp at closed
  | case6 =>
    simp only [Option.some.injEq] at closed
    subst closed
    simp
  | case7 c cs _ _ _ opener outer _ _ ih =>
    obtain ⟨inner, closedInner, rfl⟩ := Option.map_eq_some_iff.1 closed
    have := ih closedInner
    simp only [Cut.after, List.cons_append, List.nil_append, List.length_cons]
    omega
  | case8 nesting c cs _ _ _ ih =>
    obtain ⟨inner, closedInner, rfl⟩ := Option.map_eq_some_iff.1 closed
    have := ih closedInner
    simp only [Cut.after, List.cons_append, List.nil_append, List.length_cons]
    omega

theorem group?_length_lt (grouped : group? text = some cut) :
    cut.taken.length + cut.rest.length + 1 < text.length := by
  unfold group? at grouped
  split at grouped
  · have := closeGroup_length_lt grouped
    simp only [List.length_cons]
    omega
  · simp at grouped

theorem length_le_of_mem_joinFirst {front : Text} {pieces : List Text} {bound : Nat}
    (short : ∀ piece ∈ pieces, piece.length ≤ bound) :
    ∀ piece ∈ joinFirst front pieces, piece.length ≤ front.length + bound := by
  intro piece member
  cases pieces with
  | nil => simp_all [joinFirst]
  | cons first later =>
    simp only [joinFirst, List.mem_cons] at member
    rcases member with rfl | member
    · simpa using short first (by simp)
    · exact Nat.le_add_left_of_le (short piece (by simp [member]))

theorem length_le_of_mem_commaPieces {depth : Nat} :
    ∀ piece ∈ commaPieces depth text, piece.length ≤ text.length := by
  fun_induction commaPieces depth text with
  | case1 depth text found literal shorter ih =>
    intro piece member
    have bound := length_le_of_mem_joinFirst ih piece member
    have := congrArg List.length (Literal.whole_first? literal).1
    simp only [Cut.whole, List.length_append] at this
    omega
  | case2 => simp
  | case3 depth c cs _ _ ih =>
    intro piece member
    have bound := length_le_of_mem_joinFirst ih piece member
    simp only [List.length_cons, List.length_nil] at bound ⊢
    omega
  | case4 depth c cs _ _ _ ih =>
    intro piece member
    have bound := length_le_of_mem_joinFirst ih piece member
    simp only [List.length_cons, List.length_nil] at bound ⊢
    omega
  | case5 depth c cs _ _ _ _ ih =>
    intro piece member
    simp only [List.mem_cons] at member
    rcases member with rfl | member
    · simp
    · exact Nat.le_succ_of_le (ih piece member)
  | case6 depth c cs _ _ _ _ ih =>
    intro piece member
    have bound := length_le_of_mem_joinFirst ih piece member
    simp only [List.length_cons, List.length_nil] at bound ⊢
    omega

theorem mem_of_mem_withOffsets :
    ∀ {pieces : List Text} {offset : Nat}, argument ∈ withOffsets offset pieces →
      argument.text ∈ pieces
  | [], _, member => by simp [withOffsets] at member
  | piece :: pieces, offset, member => by
    simp only [withOffsets, List.mem_cons] at member
    rcases member with rfl | member
    · simp
    · exact List.mem_cons_of_mem _ (mem_of_mem_withOffsets member)

theorem length_le_of_mem_splitArguments {inner : Text} (member : argument ∈ splitArguments inner) :
    argument.text.length ≤ inner.length := by
  unfold splitArguments at member
  split at member
  · simp at member
  · exact length_le_of_mem_commaPieces _ (mem_of_mem_withOffsets member)

end FlatMemory
