import FlatMemory.Proofs.Text.Tally

/-! # Scans past counted parts

A scan for the end of a group, or for the commas between its arguments, goes past the parts of a text
as a count of them does.  `Meets front back` says that a scan through `front` comes by the start of
`back`. -/

namespace FlatMemory

open List Text Literal

namespace Text

variable {text front back rest : Text} {part : Part} {early parts : List Part}

theorem parts_injective {one other : Text} (same : one.parts = other.parts) : one = other := by
  rw [← spelled_parts one, same, spelled_parts]

/-- The first part of a text, with what is scanned behind it. -/
theorem cases_of_parts (same : text.parts = part :: parts) :
    ∃ rest : Text, parts = rest.parts ∧
      ((∃ literal, part = .literal literal ∧ Literal.first? text = some ⟨literal, rest⟩) ∨
        ∃ c, part = .code c ∧ text = c :: rest ∧ Literal.first? (c :: rest) = none) := by
  cases found : Literal.first? text with
  | some cut =>
    rw [parts_literal found] at same
    obtain ⟨rfl, rfl⟩ := List.cons.inj same
    exact ⟨cut.rest, rfl, .inl ⟨cut.taken, rfl, rfl⟩⟩
  | none =>
    cases text with
    | nil => simp at same
    | cons c cs =>
      rw [parts_cons found] at same
      obtain ⟨rfl, rfl⟩ := List.cons.inj same
      exact ⟨cs, rfl, .inr ⟨c, rfl, rfl, found⟩⟩

theorem parts_plain (plain : ∀ c ∈ text, isPlain c = true) (rest : Text) :
    Text.parts (text ++ rest) = text.map .code ++ rest.parts := by
  induction text with
  | nil => rfl
  | cons c cs ih =>
    obtain ⟨here, later⟩ := forall_mem_cons.1 plain
    rw [cons_append, parts_cons (first?_of_isPlain here _), ih later]
    rfl

theorem spelled_early (same : Text.parts (front ++ back) = early ++ back.parts) :
    early.flatMap Part.text = front := by
  have spelled := spelled_parts (front ++ back)
  rw [same, flatMap_append, spelled_parts] at spelled
  exact append_cancel_right spelled

def Meets (front back : Text) : Prop := ∃ early, Text.parts (front ++ back) = early ++ back.parts

namespace Meets

theorem nil (back : Text) : Meets [] back := ⟨[], rfl⟩

theorem of_plain (plain : ∀ c ∈ text, isPlain c = true) (rest : Text) : Meets text rest :=
  ⟨_, parts_plain plain rest⟩

theorem of_sealed (closed : Sealed text) (rest : Text) : Meets text rest :=
  ⟨[.literal text], parts_literal (closed.first rest)⟩

theorem of_parts {text : Text} (same : text.parts = early ++ rest.parts) :
    text = early.flatMap Part.text ++ rest ∧ Meets (early.flatMap Part.text) rest := by
  have spelled : text = early.flatMap Part.text ++ rest := by
    rw [← spelled_parts text, same, flatMap_append, spelled_parts]
  exact ⟨spelled, early, by rw [← spelled, same]⟩

theorem append (first : Meets front (back ++ rest)) (second : Meets back rest) :
    Meets (front ++ back) rest := by
  obtain ⟨early, same⟩ := first
  obtain ⟨later, behind⟩ := second
  exact ⟨early ++ later, by rw [append_assoc, same, behind, append_assoc]⟩

/-- A scan that comes by two places comes by the second one from the first. -/
theorem behind (first : Text.parts (front ++ (back ++ rest)) = early ++ Text.parts (back ++ rest))
    (whole : Meets (front ++ back) rest) : Meets back rest := by
  obtain ⟨all, same⟩ := whole
  rw [append_assoc, first] at same
  rcases append_eq_append_iff.1 same with ⟨middle, _, later⟩ | ⟨middle, _, later⟩
  · exact ⟨middle, later⟩
  · have lengths := congrArg length (of_parts later).1
    simp only [length_append] at lengths
    obtain rfl : back = [] := length_eq_zero_iff.1 (by omega)
    exact .nil rest

/-- A scan that comes by a character comes by it whatever follows, unless it is a line feed, which can
end a literal. -/
theorem parts_change {c : Char} {cs : Text} (notFeed : c ≠ '\n')
    (same : Text.parts (front ++ c :: cs) = early ++ Text.parts (c :: cs)) (ds : Text) :
    Text.parts (front ++ c :: ds) = early ++ Text.parts (c :: ds) := by
  induction early generalizing front with
  | nil =>
    have lengths := congrArg length (parts_injective same)
    simp only [length_append] at lengths
    rw [length_eq_zero_iff.1 (show front.length = 0 by omega)]
    rfl
  | cons part early ih =>
    obtain ⟨rest, later, first⟩ := cases_of_parts same
    obtain ⟨spelled, _⟩ := of_parts later.symm
    have goesOn := @ih (early.flatMap Part.text) (by rw [← spelled]; exact later.symm)
    rcases first with ⟨literal, rfl, found⟩ | ⟨d, rfl, whole, plain⟩
    · have taken := (whole_first? found).1
      rw [Cut.whole, spelled, ← append_assoc] at taken
      obtain rfl := append_cancel_right taken
      rw [append_assoc, spelled] at found
      have again := @first?_change (early.flatMap Part.text ++ c :: ds) _ _ found fun halts => ?_
      · rw [append_assoc, parts_literal again, goesOn]
        rfl
      · cases between : early.flatMap Part.text with
        | nil =>
          rw [between] at halts
          exact absurd halts.feed.1 notFeed
        | cons e es =>
          rw [between] at halts
          obtain ⟨rfl, _⟩ := halts.feed
          exact .inr ⟨rfl, rfl⟩
    · rw [spelled, ← cons_append] at whole
      obtain rfl := append_cancel_right whole
      rw [spelled] at plain
      rw [cons_append, parts_cons, goesOn]
      · rfl
      · rw [first?_eq_none_iff] at plain ⊢
        refine ⟨plain.1, plain.2.1, plain.2.2.1, fun slash => ?_⟩
        have ahead := plain.2.2.2 slash
        cases between : early.flatMap Part.text with
        | nil =>
          rw [between] at ahead
          exact ahead
        | cons e es =>
          rw [between] at ahead
          exact ahead

theorem trimStart (meets : Meets front back) : Meets front.trimStart back := by
  have whole := takeWhile_append_dropWhile (p := FlatMemory.isBlank) (l := front)
  rw [← whole] at meets
  exact .behind (parts_plain (fun c member =>
    (Walk.isPlain_of_isBlank (mem_takeWhile_imp member)).1) _) meets

end Meets

end Text

namespace Tally

variable {tally next : Tally} {text rest : Text} {part : Part} {parts : List Part} {cut : Cut}

theorem early_le_pass (passed : tally.pass part = some next) : tally.early ≤ next.early := by
  unfold pass at passed
  split at passed
  · cases passed
    exact Nat.le_refl _
  · split_ifs at passed
    · cases passed
      exact Nat.le_refl _
    · obtain ⟨outer, _, rfl⟩ := Option.map_eq_some_iff.1 passed
      exact Nat.le_refl _
    · cases passed
      exact Nat.le_succ _
    · cases passed
      exact Nat.le_refl _

theorem early_le_passAll (passed : tally.passAll parts = some next) : tally.early ≤ next.early := by
  induction parts generalizing tally with
  | nil =>
    cases passed
    exact Nat.le_refl _
  | cons part parts ih =>
    obtain ⟨middle, here, later⟩ := Option.bind_eq_some_iff.1 passed
    exact (early_le_pass here).trans (ih later)

/-- A scan for the end of a group, or for commas outside brackets, goes past a part as a count does. -/
theorem scan_pass (same : text.parts = part :: rest.parts) (passed : tally.pass part = some next) :
    closeGroup (tally.nesting ++ ['(']) text =
        (closeGroup (next.nesting ++ ['(']) rest).map (Cut.after part.text) ∧
      commaPieces tally.nesting.length text =
        if next.early = tally.early then joinFirst part.text (commaPieces next.nesting.length rest)
        else [] :: commaPieces next.nesting.length rest := by
  obtain ⟨more, later, parted⟩ := Text.cases_of_parts same
  obtain rfl := Text.parts_injective later
  rcases parted with ⟨literal, rfl, found⟩ | ⟨c, rfl, rfl, found⟩
  · cases passed
    exact ⟨closeGroup_literal found _, (commaPieces_literal found _).trans (if_pos rfl).symm⟩
  rw [closeGroup_cons found, commaPieces_cons found]
  rw [pass] at passed
  split_ifs at passed with opens closes comma
  · cases passed
    rw [if_pos opens, if_pos opens]
    exact ⟨rfl, (if_pos rfl).symm⟩
  · obtain ⟨outer, shuts, rfl⟩ := Option.map_eq_some_iff.1 passed
    obtain ⟨opener, isNesting, fits⟩ := exists_of_shut shuts
    rw [if_neg opens, if_pos closes, if_neg opens, if_pos closes, isNesting, cons_append]
    dsimp only
    rw [if_neg (by simp [fits]), if_neg (by simp)]
    exact ⟨rfl, (if_pos rfl).symm⟩
  · cases passed
    rw [if_neg opens, if_neg closes, if_neg opens, if_neg closes, comma.2, if_pos ⟨comma.1, rfl⟩]
    exact ⟨rfl, (if_neg (Nat.succ_ne_self _)).symm⟩
  · cases passed
    rw [if_neg opens, if_neg closes, if_neg opens, if_neg closes, if_neg (by simpa using comma)]
    exact ⟨rfl, (if_pos rfl).symm⟩

theorem scan_passAll (same : text.parts = parts ++ rest.parts) (passed : tally.passAll parts = some next) :
    closeGroup (tally.nesting ++ ['(']) text =
        (closeGroup (next.nesting ++ ['(']) rest).map (Cut.after (parts.flatMap Part.text)) ∧
      (next.early = tally.early → commaPieces tally.nesting.length text =
        joinFirst (parts.flatMap Part.text) (commaPieces next.nesting.length rest)) := by
  induction parts generalizing text tally with
  | nil =>
    cases passed
    obtain rfl := Text.parts_injective same
    refine ⟨?_, fun _ => (joinFirst_nil (commaPieces_ne_nil _ _)).symm⟩
    cases closeGroup (next.nesting ++ ['(']) text <;> rfl
  | cons part parts ih =>
    obtain ⟨middle, here, later⟩ := Option.bind_eq_some_iff.1 passed
    obtain ⟨more, isMore, _⟩ := Text.cases_of_parts same
    obtain ⟨closes, splits⟩ := scan_pass (same.trans (congrArg _ isMore)) here
    obtain ⟨closesLater, splitsLater⟩ := ih isMore.symm later
    rw [flatMap_cons]
    constructor
    · rw [closes, closesLater, Option.map_map]
      congr 1
      funext cut
      simp [Cut.after]
    · intro unsplit
      have first := early_le_pass here
      have second := early_le_passAll later
      rw [splits, if_pos (by omega), splitsLater (by omega), joinFirst_joinFirst]

/-- A part that does not pass closes the group, if it closes at all. -/
theorem closeGroup_of_stuck (same : text.parts = part :: rest.parts) (stuck : tally.pass part = none)
    (closed : closeGroup (tally.nesting ++ ['(']) text = some cut) : cut.rest = rest := by
  obtain ⟨more, later, parted⟩ := Text.cases_of_parts same
  obtain rfl := Text.parts_injective later
  rcases parted with ⟨literal, rfl, _⟩ | ⟨c, rfl, rfl, found⟩
  · cases stuck
  rw [pass] at stuck
  split_ifs at stuck with opens closes
  rw [closeGroup_cons found, if_neg opens, if_pos closes] at closed
  cases nested : tally.nesting with
  | nil =>
    rw [nested, nil_append] at closed
    dsimp only at closed
    split at closed
    · cases closed
    · cases closed
      rfl
  | cons opener outer =>
    rw [nested, shut, Option.map_eq_none_iff] at stuck
    rw [nested, cons_append] at closed
    dsimp only at closed
    split at closed
    · cases closed
    · next fits =>
      rw [if_pos (not_not.1 fits)] at stuck
      cases stuck

/-- Where a group closes, seen from a place that the scan comes by: behind it, or on the way. -/
theorem closeGroup_cases (same : text.parts = parts ++ rest.parts)
    (closed : closeGroup (tally.nesting ++ ['(']) text = some cut) :
    (∃ next inner, tally.passAll parts = some next ∧
      closeGroup (next.nesting ++ ['(']) rest = some ⟨inner, cut.rest⟩ ∧
      cut.taken = parts.flatMap Part.text ++ inner) ∨
    ∃ later, cut.rest = later ++ rest ∧ Text.Meets later rest := by
  induction parts generalizing text tally cut with
  | nil =>
    obtain rfl := Text.parts_injective same
    exact .inl ⟨tally, cut.taken, rfl, closed, rfl⟩
  | cons part parts ih =>
    obtain ⟨more, isMore, _⟩ := Text.cases_of_parts same
    have here := same.trans (congrArg (part :: ·) isMore)
    cases passed : tally.pass part with
    | none =>
      obtain rfl := closeGroup_of_stuck here passed closed
      obtain ⟨spelled, meets⟩ := Text.Meets.of_parts isMore.symm
      exact .inr ⟨_, spelled, meets⟩
    | some middle =>
      rw [(scan_pass here passed).1] at closed
      obtain ⟨behind, found, rfl⟩ := Option.map_eq_some_iff.1 closed
      rcases ih isMore.symm found with ⟨next, inner, goesOn, closes, taken⟩ | onTheWay
      · refine .inl ⟨next, inner, ?_, closes, ?_⟩
        · rw [passAll, passed]
          exact goesOn
        · rw [Cut.after, taken, flatMap_cons, append_assoc]
      · exact .inr onTheWay

/-- How the pieces of a text up to a place and those behind it fit together: pieces that end in front
of the place, and the start of the piece that goes on there. -/
theorem commaPieces_passAll (same : text.parts = parts ++ rest.parts)
    (passed : tally.passAll parts = some next) :
    ∃ (early : List Text) (last : Text), commaPieces tally.nesting.length text =
        early ++ joinFirst last (commaPieces next.nesting.length rest) ∧
      parts.flatMap Part.text = early.flatMap (fun piece => piece ++ [',']) ++ last ∧
      Text.Meets last rest := by
  induction parts generalizing text tally with
  | nil =>
    cases passed
    obtain rfl := Text.parts_injective same
    exact ⟨[], [], (joinFirst_nil (commaPieces_ne_nil _ _)).symm, rfl, .nil text⟩
  | cons part parts ih =>
    obtain ⟨middle, here, later⟩ := Option.bind_eq_some_iff.1 passed
    obtain ⟨more, isMore, _⟩ := Text.cases_of_parts same
    have first := same.trans (congrArg (part :: ·) isMore)
    obtain ⟨early, last, pieces, parted, meets⟩ := ih isMore.symm later
    have splits := (scan_pass first here).2
    rw [pieces] at splits
    rw [flatMap_cons, parted]
    split at splits
    · cases early with
      | nil =>
        refine ⟨[], part.text ++ last, ?_, by simp, ?_⟩
        · rw [splits, nil_append, joinFirst_joinFirst, nil_append]
        · have whole := (Text.Meets.of_parts same).2
          rwa [flatMap_cons, parted] at whole
      | cons piece early =>
        exact ⟨(part.text ++ piece) :: early, last, by rw [splits]; rfl, by simp, meets⟩
    · next comma =>
      have isComma : part.text = [','] := by
        cases part with
        | literal text =>
          cases here
          exact absurd rfl comma
        | code c =>
          rw [pass] at here
          split_ifs at here with _ _ top
          · cases here
            exact absurd rfl comma
          · obtain ⟨_, _, rfl⟩ := Option.map_eq_some_iff.1 here
            exact absurd rfl comma
          · rw [Part.text, top.1]
          · cases here
            exact absurd rfl comma
      exact ⟨[] :: early, last, splits, by simp [isComma], meets⟩

end Tally

section

variable {inner rest : Text} {early : List Part} {next : Tally}
  (same : Text.parts (inner ++ ')' :: rest) = early ++ Text.parts (')' :: rest))
  (passed : Tally.start.passAll early = some next) (top : next.nesting = [])

include same passed top

/-- Text whose brackets close is the inside of a group. -/
theorem group?_of_passAll : group? ('(' :: (inner ++ ')' :: rest)) = some ⟨inner, rest⟩ := by
  have closes := (Tally.scan_passAll same passed).1
  rw [top, Text.spelled_early same, nil_append, closeGroup_cons (first?_of_isPlain (by decide) _),
    if_neg (by decide), if_pos (by decide)] at closes
  rw [group?]
  exact closes.trans (by simp [closingBracket?, Cut.after])

theorem length_commaPieces : (commaPieces 0 inner).length = next.early + 1 := by
  have grouped := group?_of_passAll same passed top
  obtain ⟨first, others, group⟩ := @groupParts_of_closeGroup [] (inner ++ ')' :: rest) ⟨inner, rest⟩ grouped
  have counts := group.counts
  rw [same, Tally.close_append passed, Text.parts_cons (first?_of_isPlain (by decide) _), Tally.close,
    if_pos ⟨top, rfl⟩] at counts
  exact (congrArg Prod.fst (Option.some.inj counts)).symm

end

end FlatMemory
