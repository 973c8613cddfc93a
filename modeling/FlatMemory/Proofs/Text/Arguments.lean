import FlatMemory.Proofs.Text.Walk

/-! # Groups and arguments

How the scan for the end of a group and the one for the commas between its arguments go on, from one
literal or character to the next. -/

namespace FlatMemory

open List Literal

variable {opened outer : List Char} {c : Char} {text cs : Text} {cut : Cut} {pieces : List Text}

def shut (c : Char) : List Char → Option (List Char)
  | [] => none
  | opener :: outer => if closingBracket? opener = some c then some outer else none

/-- The brackets open behind some marks, given those open before them, innermost first. -/
def nest : List Char → Text → Option (List Char)
  | nesting, [] => some nesting
  | nesting, c :: cs =>
    if isOpenBracket c then nest (c :: nesting) cs
    else if isCloseBracket c then (shut c nesting).bind fun outer => nest outer cs
    else nest nesting cs

theorem exists_of_shut (closes : shut c opened = some outer) :
    ∃ opener, opened = opener :: outer ∧ closingBracket? opener = some c := by
  cases opened with
  | nil => cases closes
  | cons opener opened =>
    rw [shut] at closes
    split at closes
    · next fits =>
      cases closes
      exact ⟨opener, rfl, fits⟩
    · cases closes

/-! ### Closing a group -/

theorem closeGroup_literal (found : Literal.first? text = some cut) (nesting : List Char) :
    closeGroup nesting text = (closeGroup nesting cut.rest).map (Cut.after cut.taken) := by
  rw [closeGroup]
  split
  · next other literal =>
    rw [found] at literal
    cases literal
    rfl
  · next none => rw [found] at none; cases none

theorem closeGroup_cons (plain : Literal.first? (c :: cs) = none) (nesting : List Char) :
    closeGroup nesting (c :: cs) =
      if isOpenBracket c then (closeGroup (c :: nesting) cs).map (Cut.after [c])
      else if isCloseBracket c then
        match nesting with
        | [] => none
        | opener :: outer =>
          if closingBracket? opener ≠ some c then none
          else if outer.isEmpty then some ⟨[], cs⟩
          else (closeGroup outer cs).map (Cut.after [c])
      else (closeGroup nesting cs).map (Cut.after [c]) := by
  rw [closeGroup]
  split
  · next cut literal => rw [plain] at literal; cases literal
  · rfl

theorem Literal.first?_comment {comment : Text} (inLine : '\n' ∉ comment) (rest : Text) :
    first? ('/' :: '/' :: (comment ++ '\n' :: rest)) =
      some ⟨'/' :: '/' :: comment, '\n' :: rest⟩ := by
  have all : ∀ c ∈ comment, decide (c ≠ '\n') = true := by
    intro c member
    simpa using fun same : c = '\n' => inLine (same ▸ member)
  rw [first?, lineComment, Cut.span, takeWhile_append_of_pos all,
    dropWhile_append_of_pos all, takeWhile_cons_of_neg (by simp),
    dropWhile_cons_of_neg (by simp)]
  simp [Cut.after]

/-! ### Parting arguments -/

theorem joinFirst_joinFirst (first second : Text) (pieces : List Text) :
    joinFirst first (joinFirst second pieces) = joinFirst (first ++ second) pieces := by
  cases pieces with
  | nil => rfl
  | cons piece pieces => simp [joinFirst]

theorem joinFirst_nil (some : pieces ≠ []) : joinFirst [] pieces = pieces := by
  cases pieces with
  | nil => exact absurd rfl some
  | cons piece pieces => rfl

theorem commaPieces_literal (found : Literal.first? text = some cut) (depth : Nat) :
    commaPieces depth text = joinFirst cut.taken (commaPieces depth cut.rest) := by
  rw [commaPieces]
  split
  · next other literal =>
    rw [found] at literal
    cases literal
    rfl
  · next none => rw [found] at none; cases none

theorem commaPieces_cons (plain : Literal.first? (c :: cs) = none) (depth : Nat) :
    commaPieces depth (c :: cs) =
      if isOpenBracket c then joinFirst [c] (commaPieces (depth + 1) cs)
      else if isCloseBracket c then joinFirst [c] (commaPieces (depth - 1) cs)
      else if c = ',' ∧ depth = 0 then [] :: commaPieces 0 cs
      else joinFirst [c] (commaPieces depth cs) := by
  rw [commaPieces]
  split
  · next cut literal => rw [plain] at literal; cases literal
  · rfl

theorem joinFirst_ne_nil (front : Text) (pieces : List Text) : joinFirst front pieces ≠ [] := by
  cases pieces <;> simp [joinFirst]

theorem commaPieces_ne_nil (depth : Nat) (text : Text) : commaPieces depth text ≠ [] := by
  fun_cases commaPieces depth text
  all_goals first
    | exact joinFirst_ne_nil _ _
    | simp

theorem texts_withOffsets (offset : Nat) (pieces : List Text) :
    (withOffsets offset pieces).map Argument.text = pieces := by
  induction pieces generalizing offset with
  | nil => rfl
  | cons piece pieces ih => rw [withOffsets, map_cons, ih]

@[simp] theorem length_withOffsets (offset : Nat) (pieces : List Text) :
    (withOffsets offset pieces).length = pieces.length := by
  rw [← length_map Argument.text, texts_withOffsets]

theorem commaPieces_nil (depth : Nat) : commaPieces depth [] = [[]] := by
  rw [commaPieces]
  rfl

theorem intercalate_joinFirst (front : Text) (pieces : List Text) :
    [','].intercalate (joinFirst front pieces) = front ++ [','].intercalate pieces := by
  rcases pieces with _ | ⟨piece, _ | ⟨second, pieces⟩⟩ <;> simp [joinFirst, List.intercalate]

theorem intercalate_commaPieces (depth : Nat) (text : Text) :
    [','].intercalate (commaPieces depth text) = text := by
  fun_induction commaPieces depth text with
  | case1 depth text cut literal _ ih =>
    rw [intercalate_joinFirst, ih]
    exact (whole_first? literal).1
  | case2 => rfl
  | case3 _ _ _ _ _ ih => rw [intercalate_joinFirst, ih]; rfl
  | case4 _ _ _ _ _ _ ih => rw [intercalate_joinFirst, ih]; rfl
  | case5 depth c cs _ _ _ comma ih =>
    obtain ⟨second, others, pieces⟩ := exists_cons_of_ne_nil (commaPieces_ne_nil 0 cs)
    rw [pieces] at ih ⊢
    rw [comma.1]
    simpa [List.intercalate] using ih
  | case6 _ _ _ _ _ _ _ ih => rw [intercalate_joinFirst, ih]; rfl

theorem slice_of_withOffsets {argument : Argument} {offset : Nat}
    (member : argument ∈ withOffsets offset pieces) : ∃ early late : Text,
      [','].intercalate pieces = early ++ (argument.text ++ late) ∧
        offset + early.byteLength = argument.offset := by
  induction pieces generalizing offset with
  | nil => cases member
  | cons piece pieces ih =>
    rcases mem_cons.1 member with rfl | member
    · refine ⟨[], ([','].intercalate (piece :: pieces)).drop piece.length, ?_, rfl⟩
      cases pieces <;> simp [List.intercalate]
    · obtain ⟨early, late, spelled, same⟩ := ih member
      refine ⟨piece ++ ',' :: early, late, ?_, ?_⟩
      · cases pieces with
        | nil => cases member
        | cons second pieces =>
          rw [List.intercalate, intersperse_cons_cons, flatten_cons, flatten_cons]
          rw [List.intercalate] at spelled
          rw [spelled]
          simp
      · rw [Text.byteLength_append, ← same]
        simp only [Text.byteLength, show (',').utf8Size = 1 from rfl]
        omega

end FlatMemory
