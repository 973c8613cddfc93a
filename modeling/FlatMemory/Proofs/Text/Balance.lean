import FlatMemory.Proofs.Text.Passage

/-! # Paired text

Text is balanced if its brackets match by kind, those in literals and comments apart.  A group is
the shortest balanced text between parentheses, and its commas outside of inner brackets part it
into arguments that are balanced too. -/

namespace FlatMemory

open List

variable {parts more : List Part} {commas : Bool} {text : Text} {cut : Cut}

/-- Parts whose brackets match by kind.  Outside of all brackets there may be commas or not. -/
inductive Paired : Bool → List Part → Prop
  | nil {commas : Bool} : Paired commas []
  | literal {commas : Bool} {text : Text} {parts : List Part} (later : Paired commas parts) :
    Paired commas (.literal text :: parts)
  | code {commas : Bool} {c : Char} {parts : List Part} (notOpen : isOpenBracket c = false)
    (notClose : isCloseBracket c = false) (allowed : c = ',' → commas = true)
    (later : Paired commas parts) : Paired commas (.code c :: parts)
  | group {commas : Bool} {opener closer : Char} {inner parts : List Part}
    (closes : closingBracket? opener = some closer) (inside : Paired true inner)
    (later : Paired commas parts) :
    Paired commas (.code opener :: (inner ++ .code closer :: parts))

namespace Paired

theorem append (first : Paired commas parts) (second : Paired commas more) :
    Paired commas (parts ++ more) := by
  induction first with
  | nil => exact second
  | literal _ ih => exact .literal (ih second)
  | code notOpen notClose allowed _ ih => exact .code notOpen notClose allowed (ih second)
  | group closes inside _ _ ih =>
    rw [cons_append, append_assoc, cons_append]
    exact .group closes inside (ih second)

theorem loose (balanced : Paired commas parts) : Paired true parts := by
  induction balanced with
  | nil => exact .nil
  | literal _ ih => exact .literal ih
  | code notOpen notClose _ _ ih => exact .code notOpen notClose (fun _ => rfl) ih
  | group closes inside _ _ ih => exact .group closes inside ih

theorem flatMap {pieces : List Text} (balanced : ∀ piece ∈ pieces, Paired false piece.parts) :
    Paired true (pieces.flatMap fun piece => .code ',' :: piece.parts) := by
  induction pieces with
  | nil => exact .nil
  | cons piece pieces ih =>
    obtain ⟨first, others⟩ := forall_mem_cons.1 balanced
    exact .code rfl rfl (fun _ => rfl) (first.loose.append (ih others))

theorem passAll (balanced : Paired commas parts) (tally : Tally) :
    ∃ next, tally.passAll parts = some next ∧ next.nesting = tally.nesting := by
  induction balanced generalizing tally with
  | nil => exact ⟨tally, rfl, rfl⟩
  | literal _ ih => exact ih _
  | @code _ c _ notOpen notClose _ _ ih =>
    rw [Tally.passAll, Tally.pass, if_neg (by simp [notOpen]), if_neg (by simp [notClose])]
    split
    · next top =>
      obtain ⟨next, passed, same⟩ := ih ⟨[], tally.counts.1, tally.counts.2, false⟩
      exact ⟨next, passed, same.trans top.2.symm⟩
    · exact ih _
  | @group _ opener closer inner parts closes _ _ inside ih =>
    have opens : isOpenBracket opener = true := by
      unfold closingBracket? at closes
      split at closes <;> first | rfl | cases closes
    obtain ⟨notOpen, shuts⟩ := Inside.closes_of_closingBracket closes
    obtain ⟨middle, passed, nested⟩ := inside (tally.move (opener :: tally.nesting) true)
    rw [Tally.passAll, Tally.pass, if_pos opens, Option.bind_some, Tally.passAll_append, passed,
      Option.bind_some, Tally.passAll, Tally.pass, if_neg (by simp [notOpen]), if_pos shuts, nested,
      Tally.nesting_move, shut, if_pos closes]
    exact ih _

/-- Behind balanced parts a parenthesis closes what is around them. -/
theorem not_closed (balanced : Paired commas parts) (more : List Part) :
    ¬ Paired true (parts ++ .code ')' :: more) := by
  intro goesOn
  obtain ⟨inner, passed, top⟩ := balanced.passAll .start
  obtain ⟨_, through, _⟩ := goesOn.passAll .start
  rw [Tally.passAll_append, passed, Option.bind_some, Tally.passAll, Tally.pass, top] at through
  cases through

/-- Only one parenthesis closes what another has opened. -/
theorem unique {others behind rest : List Part} (first : Paired true parts)
    (second : Paired true others)
    (same : parts ++ .code ')' :: rest = others ++ .code ')' :: behind) : parts = others := by
  rcases append_eq_append_iff.1 same with ⟨middle, whole, ends⟩ | ⟨middle, whole, ends⟩
  · cases middle with
    | nil => rw [whole, append_nil]
    | cons part middle =>
      obtain ⟨rfl, _⟩ := List.cons.inj ends
      exact absurd (whole ▸ second) (first.not_closed middle)
  · cases middle with
    | nil => rw [whole, append_nil]
    | cons part middle =>
      obtain ⟨rfl, _⟩ := List.cons.inj ends
      exact absurd (whole ▸ first) (second.not_closed middle)

end Paired

inductive Unfolds : List Char → List Part → Prop
  | done {parts : List Part} (balanced : Paired false parts) : Unfolds [] parts
  | shut {opener closer : Char} {outer : List Char} {inner parts : List Part}
    (closes : closingBracket? opener = some closer) (inside : Paired true inner)
    (later : Unfolds outer parts) : Unfolds (opener :: outer) (inner ++ .code closer :: parts)

namespace Unfolds

variable {opened : List Char} {front : List Part}

theorem append (later : Unfolds opened parts) (first : Paired (!opened.isEmpty) front) :
    Unfolds opened (front ++ parts) := by
  cases later with
  | done balanced => exact .done (first.append balanced)
  | shut closes inside later =>
    rw [← append_assoc]
    exact .shut closes (first.append inside) later

theorem cons {part : Part} (later : Unfolds opened parts)
    (first : Paired (!opened.isEmpty) [part]) : Unfolds opened (part :: parts) :=
  later.append first

theorem opens {opener : Char} (later : Unfolds (opener :: opened) parts) :
    Unfolds opened (.code opener :: parts) := by
  cases later with
  | @shut _ closer _ inner parts closes inside later =>
    have whole := later.append (.group closes inside .nil)
    simpa using whole

end Unfolds

/-- What passes without parting an argument closes the brackets that it leaves closed. -/
theorem unfolds_of_passAll {tally next : Tally} (passed : tally.passAll parts = some next)
    (closed : next.nesting = []) (whole : next.early = tally.early) :
    Unfolds tally.nesting parts := by
  induction parts generalizing tally with
  | nil =>
    cases passed
    rw [closed]
    exact .done .nil
  | cons part parts ih =>
    obtain ⟨middle, first, passed⟩ := Option.bind_eq_some_iff.1 passed
    have least := Tally.early_le_passAll passed
    cases part with
    | literal text =>
      cases first
      exact (ih passed whole).cons (.literal .nil)
    | code c =>
      rw [Tally.pass] at first
      split at first
      · cases first
        exact (ih passed whole).opens
      next notOpen =>
      split at first
      · obtain ⟨outer, shuts, rfl⟩ := Option.map_eq_some_iff.1 first
        obtain ⟨opener, nested, closes⟩ := exists_of_shut shuts
        rw [nested]
        exact .shut closes .nil (ih passed whole)
      next notClose =>
      split at first
      · cases first
        simp [Tally.counts] at least
        omega
      · next inPiece =>
        cases first
        rw [Tally.move] at passed
        refine (ih passed whole).cons (.code (by simpa using notOpen) (by simpa using notClose) ?_ .nil)
        rintro rfl
        simpa using inPiece

theorem Flush.balanced (flush : Flush parts) : Paired false parts := by
  have unfolds := unfolds_of_passAll (flush .start) rfl rfl
  cases unfolds with
  | done balanced => exact balanced

/-- A closed pair of parentheses is balanced inside, and it ends at the only place where what stands
between is balanced.  The arguments joined by commas are its inside; each stands there at its
offset, is balanced and has no comma outside of its own brackets. -/
theorem arguments_part_group (grouped : group? text = some cut) :
    text = '(' :: (cut.taken ++ ')' :: cut.rest) ∧
    text.parts = .code '(' :: (cut.taken.parts ++ .code ')' :: cut.rest.parts) ∧
    Paired true cut.taken.parts ∧
    (∀ inner behind, text.parts = .code '(' :: (inner ++ .code ')' :: behind) →
      Paired true inner → inner = cut.taken.parts) ∧
    (cut.taken.isBlank = false →
      [','].intercalate ((splitArguments cut.taken).map Argument.text) = cut.taken ∧
      ∀ argument ∈ splitArguments cut.taken,
        cut.taken.slice? argument.offset (argument.offset + argument.text.byteLength) =
          some argument.text ∧
        Paired false argument.text.parts) := by
  unfold group? at grouped
  split at grouped
  swap
  · cases grouped
  next behind =>
  obtain ⟨first, others, group⟩ := @groupParts_of_closeGroup [] behind cut grouped
  have whole := @closeGroup_paren [] behind cut grouped
  have pieces : commaPieces 0 cut.taken = first :: others := group.pieces
  have single : ∀ piece ∈ first :: others, Paired false piece.parts :=
    fun piece member => (group.flush piece member).balanced
  have inside : Paired true cut.taken.parts := by
    rw [group.inside]
    exact (single first mem_cons_self).loose.append
      (.flatMap fun piece member => single piece (mem_cons_of_mem _ member))
  have parts : Text.parts ('(' :: behind) =
      .code '(' :: (cut.taken.parts ++ .code ')' :: cut.rest.parts) := by
    rw [Text.parts_cons (Literal.first?_of_isPlain (by decide) _), group.parts, group.inside,
      append_assoc]
  refine ⟨by rw [whole], parts, inside, ?_, ?_⟩
  · intro inner after split balanced
    rw [parts] at split
    exact (inside.unique balanced (List.cons.inj split).2).symm
  · intro solid
    rw [splitArguments, if_neg (by simp [solid])]
    refine ⟨by rw [texts_withOffsets, intercalate_commaPieces], fun argument member => ⟨?_, ?_⟩⟩
    · obtain ⟨early, late, spelled, offset⟩ := slice_of_withOffsets member
      rw [intercalate_commaPieces] at spelled
      rw [← offset, Nat.zero_add, ← Text.byteLength_append, spelled]
      exact Text.slice?_between early argument.text late
    · have listed := mem_of_mem_withOffsets member
      rw [pieces] at listed
      exact single _ listed

theorem arguments_part_group_sample :
    group? "(a[i, 1], 'x),(', f([2])); g(".toList =
      some ⟨"a[i, 1], 'x),(', f([2])".toList, "; g(".toList⟩ ∧
    [','].intercalate ["a[i, 1]".toList, " 'x),('".toList, " f([2])".toList] =
      "a[i, 1], 'x),(', f([2])".toList ∧
    Paired false (Text.parts " 'x),('".toList) := by
  have grouped : group? "(a[i, 1], 'x),(', f([2])); g(".toList =
      some ⟨"a[i, 1], 'x),(', f([2])".toList, "; g(".toList⟩ := by
    decide +kernel
  have arguments : splitArguments "a[i, 1], 'x),(', f([2])".toList =
      [⟨"a[i, 1]".toList, 0⟩, ⟨" 'x),('".toList, 8⟩, ⟨" f([2])".toList, 16⟩] := by
    decide +kernel
  have parted := (arguments_part_group grouped).2.2.2.2 (by decide)
  rw [arguments] at parted
  exact ⟨grouped, parted.1, (parted.2 ⟨" 'x),('".toList, 8⟩ (by simp)).2⟩

end FlatMemory
