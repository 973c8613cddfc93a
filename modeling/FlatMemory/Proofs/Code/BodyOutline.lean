import FlatMemory.Proofs.Code.ReferenceTokens

/-! # Outlines of expanded bodies

What is written for the tokens of a body has an outline with the literals of the tokens.  Where no
assigned value ends in a line comment, brackets and commas are those of the tokens too: else the
bracket that is written behind the value gets lost in the comment.

The scanners of plain text get through an outline as the lexer does, if no string in it goes on behind a
CRLF pair. -/

namespace FlatMemory

open List Text Lexeme Token

namespace SelfReference

variable {tokens : List Token} {afterDot : Bool}

/-! ### References -/

def openParen : Token := ⟨.lParen, ['('], 0⟩

def closeParen : Token := ⟨.rParen, [')'], 0⟩

def separator : Token := ⟨.comma, [','], 0⟩

namespace Reference

variable {reference : Reference} {text rest : Text} {marks : List Token} {ending : Ending}

theorem outline_self : Outline rest selfName.toList [] .other :=
  .of_inert (all_eq_true.1 (show selfName.toList.all isInert = true by decide))

theorem outline_separator : Outline rest ", ".toList [separator] .other :=
  .landmark (sealed_punctuation rfl (by decide))
    (.of_inert (all_eq_true.1 (show [' '].all isInert = true by decide)))

theorem outline_closing : Outline rest [')'] [closeParen] .other :=
  .landmark (sealed_punctuation rfl (by decide)) .done

theorem Named.inert (named : reference.Named) : ∀ c ∈ reference.name, isInert c = true := by
  intro c member
  rcases named.name.2 c member with part | rfl
  · exact inert_isIdentPart part
  · decide

theorem Named.outline_opening (named : reference.Named) :
    Outline rest (reference.name ++ ['(']) [openParen] .other :=
  (Outline.of_inert named.inert).append (.landmark (sealed_punctuation rfl (by decide)) .done)

theorem outline_given (inner : Outline [] text marks ending)
    (settled : reference.assigns = true → ending ≠ .comment) :
    Outline [] (reference.given text) marks ending := by
  unfold given
  split
  · next assigns => exact inner.trimStart.trimEnd (settled assigns) harmless_nil
  · exact inner.trimStart

theorem outline_arguments (inner : Outline [] (reference.given text) marks ending) :
    ∃ commas last, (∀ comma ∈ commas, comma.kind = .comma) ∧ ∀ rest,
      Outline (')' :: rest) (reference.arguments text) (commas ++ marks) last := by
  unfold arguments
  split
  · next blank =>
    rw [inner.marks_of_blank blank, append_nil]
    exact ⟨[], .other, by simp, fun _ => outline_self⟩
  · exact ⟨[separator], _, by simp [separator], fun _ =>
      outline_self.append (outline_separator.append (inner.change ⟨by simp, by simp⟩))⟩

/-- The call has an outline whatever follows it. -/
theorem Named.outline_written (named : reference.Named)
    (inner : Outline [] (reference.given text) marks ending) :
    ∃ commas, (∀ comma ∈ commas, comma.kind = .comma) ∧ ∀ rest,
      Outline rest (reference.written text) (openParen :: (commas ++ (marks ++ [closeParen]))) .other := by
  obtain ⟨commas, last, isComma, outline⟩ := reference.outline_arguments inner
  refine ⟨commas, isComma, fun rest => ?_⟩
  have written := named.outline_opening.append ((outline rest).append outline_closing)
  simpa [Reference.written] using written

/-- A reference has an outline whatever follows it, and so has the blank text behind an assignment.
Behind a value that ends in a line comment the closing bracket is lost. -/
theorem Named.outline (named : reference.Named) (inner : Outline [] text marks ending)
    (solid : reference.assigns = true → text.isBlank = false) :
    ∃ more, (∀ rest, Outline rest (reference.written text ++ reference.trailing text) more
        (if reference.assigns then ending else .other)) ∧
      if reference.assigns = true ∧ ending = .comment then
        Token.literals more = Token.literals marks ∧ Token.surplus more = Token.surplus marks + 1
      else ∃ commas, (∀ comma ∈ commas, comma.kind = .comma) ∧
        more = openParen :: (commas ++ (marks ++ [closeParen])) := by
  by_cases swallowed : reference.assigns = true ∧ ending = .comment
  · obtain ⟨assigns, rfl⟩ := swallowed
    have trimmed : (Text.trimStart text).trimEnd.isBlank = false := by
      rw [Text.isBlank_trimEnd, Text.isBlank_trimStart, solid assigns]
    obtain ⟨changed, lost, literals, surplus⟩ := inner.trimStart.swallow
    rw [Text.trailingBlank_trimStart (solid assigns)] at lost
    refine ⟨openParen :: separator :: changed, fun rest => ?_, ?_⟩
    · have outline := named.outline_opening.append
        (outline_self.append (outline_separator.append (lost rest)))
      simpa [Reference.written, arguments, given, trailing, assigns, trimmed, Text.trim] using outline
    · rw [if_pos ⟨assigns, rfl⟩, show openParen :: separator :: changed =
        [openParen, separator] ++ changed from rfl, literals_append, surplus_append, literals, surplus]
      exact ⟨rfl, Int.add_comm _ _⟩
  · have settled : reference.assigns = true → ending ≠ .comment := fun assigns same =>
      swallowed ⟨assigns, same⟩
    obtain ⟨commas, isComma, outline⟩ := named.outline_written (outline_given inner settled)
    refine ⟨_, fun rest => ?_, by rw [if_neg swallowed]; exact ⟨commas, isComma, rfl⟩⟩
    have behind : Outline rest (reference.trailing text) [] .blank := by
      refine .of_blank ?_
      unfold trailing
      split
      · exact Text.isBlank_trailingBlank text
      · rfl
    have other : (if reference.assigns then ending else .other) = Ending.other := by
      split
      · next assigns =>
        cases ending with
        | blank => exact absurd (inner.ending_eq_blank_iff.1 rfl) (by simp [solid assigns])
        | comment => exact absurd rfl (settled assigns)
        | other => rfl
      · rfl
    rw [other]
    simpa using (outline _).append behind

end Reference

/-! ### The tokens that a reference uses up -/

section

variable {session : Session} {type : UserType} {path : List String} {after rest : List Token}
  {reference : Reference} {token : Token} {inner text : Text} {marks : List Token}
  {nesting : List TokenKind}

theorem literals_of_not_other (none : ∀ token ∈ tokens, token.kind ≠ .other) :
    Token.literals tokens = [] := by
  rw [Token.literals, filter_eq_nil_iff.2, map_nil]
  intro token member
  simp [Token.isLiteral, none token member]

theorem comments_of_not_comment (none : ∀ token ∈ tokens, token.kind ≠ .comment) :
    Token.comments tokens = [] := by
  rw [Token.comments, filter_eq_nil_iff.2, map_nil]
  intro token member
  simp [none token member]

theorem Uses.literals (uses : Uses session type path after reference rest) :
    Token.literals after = Token.literals reference.inner ++ Token.literals rest := by
  obtain ⟨dropped, closing, rfl, none, _⟩ := uses.parts
  rw [forall_mem_append] at none
  simp [literals_of_not_other none.1, literals_of_not_other none.2]

theorem Uses.comments (uses : Uses session type path after reference rest) :
    (Token.comments reference.inner ++ Token.comments rest).Sublist (Token.comments after) := by
  obtain ⟨dropped, closing, rfl, _⟩ := uses.parts
  simp only [comments_append]
  exact ((List.Sublist.refl _).append (sublist_append_right _ _)).trans
    (sublist_append_right _ _)

section

variable (found : path? afterDot token tokens = some (path, after))

include found

theorem path?_literals :
    Token.literals (token :: tokens) = Token.literals after ∧
      Token.comments (token :: tokens) = Token.comments after := by
  obtain ⟨names, whole, isName⟩ := path?_parts found
  have kinds : ∀ name ∈ names, name.kind ≠ .other ∧ name.kind ≠ .comment := by
    intro name member
    rcases isName name member with kind | kind <;> simp [kind]
  rw [whole, literals_append, comments_append,
    literals_of_not_other fun name member => (kinds name member).1,
    comments_of_not_comment fun name member => (kinds name member).2]
  exact ⟨rfl, rfl⟩

/-! ### Tidiness of the parts -/

omit found in
theorem tidy_token (plain : path? afterDot token tokens = none) :
    Tidy session type afterDot (token :: tokens) ↔
      Tidy session type (if token.kind.isTrivia then afterDot else decide (token.kind = .dot))
        tokens := by
  constructor
  · intro tidy front reference inner back refers
    exact tidy _ _ _ _ (.behindToken plain refers)
  · intro tidy front reference inner back refers
    cases refers with
    | behindToken _ later => exact tidy _ _ _ _ later
    | here found => exact absurd (plain.symm.trans found) (by simp)
    | behind found => exact absurd (plain.symm.trans found) (by simp)
    | inside found => exact absurd (plain.symm.trans found) (by simp)

theorem tidy_reference (uses : Uses session type path after reference rest)
    (within : Writes session type false reference.inner inner)
    (assigned : reference.assigns = true → inner.isBlank = false)
    (later : Writes session type false rest text) :
    Tidy session type afterDot (token :: tokens) ↔
      reference.Settled ∧ Tidy session type false reference.inner ∧
        Tidy session type false rest := by
  constructor
  · intro tidy
    exact ⟨tidy _ _ _ _ (.here found uses within assigned later),
      fun _ _ _ _ refers => tidy _ _ _ _ (.inside found uses refers later),
      fun _ _ _ _ refers => tidy _ _ _ _ (.behind found uses within assigned refers)⟩
  · rintro ⟨settled, inside, behind⟩ front other passed back refers
    cases refers with
    | here found' uses' =>
      cases found.symm.trans found'
      obtain ⟨rfl, _⟩ := uses.unique uses'
      exact settled
    | behindToken plain => exact absurd (plain.symm.trans found) (by simp)
    | behind found' uses' _ _ refers =>
      cases found.symm.trans found'
      obtain ⟨_, rfl⟩ := uses.unique uses'
      exact behind _ _ _ _ refers
    | inside found' uses' refers _ =>
      cases found.symm.trans found'
      obtain ⟨rfl, _⟩ := uses.unique uses'
      exact inside _ _ _ _ refers

end

/-! ### Bodies -/

def Mirrors (tokens marks : List Token) : Prop :=
  ∀ nesting, Balanced nesting tokens → Balanced nesting marks ∧
    topLevelCommas nesting.length marks = topLevelCommas nesting.length tokens

theorem mirrors_token (later : Mirrors tokens marks) :
    Mirrors (token :: tokens) (Token.landmarks [token] ++ marks) := by
  intro nesting balanced
  refine ⟨balanced_mark.2 (balanced.cons fun nesting balanced => (later nesting balanced).1), ?_⟩
  have alone : topLevelCommas nesting.length (Token.landmarks [token] ++ marks) =
      topLevelCommas nesting.length (token :: marks) := by
    by_cases mark : token.isLandmark = true
    · rw [landmarks_of_isLandmark mark, singleton_append, topLevelCommas, topLevelCommas]
      rfl
    · simp only [Token.isLandmark, Bool.or_eq_true, not_or, decide_eq_true_eq] at mark
      rw [landmarks_of_not (by simp [Token.isLandmark, mark]), nil_append, topLevelCommas,
        if_neg mark.1.1.2, if_neg mark.1.2, if_neg fun comma => mark.2 comma.1]
  rw [alone, topLevelCommas, topLevelCommas]
  by_cases opens : token.kind.isOpen = true
  · rw [if_pos opens, if_pos opens]
    exact (later _ ((balanced_open opens).1 balanced)).2
  by_cases closes : token.kind.isClose = true
  · cases nesting with
    | nil => exact absurd balanced (not_balanced_close opens closes)
    | cons opener outer =>
      rw [if_neg opens, if_pos closes, if_neg opens, if_pos closes]
      exact (later outer ((balanced_close opens closes).1 balanced).2).2
  have same := (later nesting ((balanced_plain opens closes).1 balanced)).2
  rw [if_neg opens, if_neg closes, if_neg opens, if_neg closes, same]
  by_cases top : nesting.length = 0
  · rw [top] at same
    rw [same]
  · rw [if_neg fun comma => top comma.2, if_neg fun comma => top comma.2]

theorem mirrors_reference {innerMarks commas : List Token}
    (found : path? afterDot token tokens = some (path, after))
    (uses : Uses session type path after reference rest) (inside : Mirrors reference.inner innerMarks)
    (isComma : ∀ comma ∈ commas, comma.kind = .comma) (behind : Mirrors rest marks) :
    Mirrors (token :: tokens) (openParen :: (commas ++ (innerMarks ++ closeParen :: marks))) := by
  intro nesting balanced
  obtain ⟨through, skips⟩ := path?_balanced found nesting
  obtain ⟨within, left, sameCommas⟩ := uses.balanced (through.1 balanced)
  obtain ⟨closed, _⟩ := inside [] within
  obtain ⟨closedLater, counted⟩ := behind nesting left
  have plain : ∀ comma ∈ commas, comma.kind.isOpen ≠ true ∧ comma.kind.isClose ≠ true := by
    intro comma member
    rw [isComma comma member]
    decide
  have closedCommas : Balanced [] (commas ++ innerMarks) := (balanced_skip plain).2 closed
  have closing : Balanced (openParen.kind :: nesting) (closeParen :: marks) :=
    (balanced_close (by decide) rfl).2 ⟨rfl, closedLater⟩
  rw [← append_assoc]
  refine ⟨(balanced_open rfl).2 (closedCommas.append closing), ?_⟩
  have commas := @topLevelCommas_append (closeParen :: marks) _ _ closedCommas nesting.length
  rw [length_nil, Nat.zero_add] at commas
  rw [topLevelCommas, if_pos (show openParen.kind.isOpen = true from rfl), commas,
    topLevelCommas_close rfl, counted, skips, sameCommas]

/-- What the landmarks of the text for some tokens are.  Every bracket that gets lost leaves an
opening one behind. -/
structure Sketches (session : Session) (type : UserType) (afterDot : Bool) (tokens marks : List Token) :
    Prop where
  literals : Token.literals marks = Token.literals tokens
  comments : Tidy session type afterDot tokens →
    (Token.comments marks).Sublist (Token.comments tokens)
  closed : Tidy session type afterDot tokens → Mirrors tokens marks
  lost : ∀ nesting, Balanced nesting tokens → ∃ lost : Nat,
    Token.surplus marks = lost - nesting.length ∧ (lost = 0 → Tidy session type afterDot tokens)

theorem sketches_nil (afterDot : Bool) : Sketches session type afterDot [] [] where
  literals := rfl
  comments := fun _ => .refl _
  closed := fun _ _ balanced => ⟨balanced, rfl⟩
  lost := by
    rintro nesting rfl
    refine ⟨0, rfl, ?_⟩
    rintro _ front reference inner back ⟨⟩

theorem sketches_token (plain : path? afterDot token tokens = none)
    (later : Sketches session type
      (if token.kind.isTrivia then afterDot else decide (token.kind = .dot)) tokens marks) :
    Sketches session type afterDot (token :: tokens) (Token.landmarks [token] ++ marks) where
  literals := by
    rw [Token.literals_append, Token.literals_landmarks, later.literals, ← Token.literals_cons]
  comments := by
    intro tidy
    rw [Token.comments_append, Token.comments_landmarks, Token.comments_cons token tokens]
    exact (later.comments ((tidy_token plain).1 tidy)).append_left _
  closed := fun tidy => mirrors_token (later.closed ((tidy_token plain).1 tidy))
  lost := by
    intro nesting balanced
    obtain ⟨outer, behind⟩ := balanced.tail
    obtain ⟨lost, surplus, tidy⟩ := later.lost outer behind
    refine ⟨lost, ?_, fun none => (tidy_token plain).2 (tidy none)⟩
    have whole := balanced.surplus
    rw [Token.surplus_cons, behind.surplus] at whole
    rw [Token.surplus_append, Token.surplus_landmarks, surplus]
    omega

theorem literals_passed {innerMarks more : List Token}
    (passed : if reference.assigns = true ∧ Token.endingOf reference.inner = .comment then
        Token.literals more = Token.literals innerMarks ∧
          Token.surplus more = Token.surplus innerMarks + 1
      else ∃ commas, (∀ comma ∈ commas, comma.kind = .comma) ∧
        more = openParen :: (commas ++ (innerMarks ++ [closeParen]))) :
    Token.literals more = Token.literals innerMarks := by
  split at passed
  · exact passed.1
  · obtain ⟨commas, isComma, rfl⟩ := passed
    have none : Token.literals commas = [] :=
      literals_of_not_other fun comma member => by simp [isComma comma member]
    rw [Token.literals_cons, Token.literals_append, Token.literals_append, none]
    exact append_nil _

theorem sketches_reference {innerMarks more : List Token}
    (found : path? afterDot token tokens = some (path, after))
    (uses : Uses session type path after reference rest)
    (within : Writes session type false reference.inner inner)
    (assigned : reference.assigns = true → inner.isBlank = false)
    (later : Writes session type false rest text)
    (inside : Sketches session type false reference.inner innerMarks)
    (behind : Sketches session type false rest marks)
    (passed : if reference.assigns = true ∧ Token.endingOf reference.inner = .comment then
        Token.literals more = Token.literals innerMarks ∧
          Token.surplus more = Token.surplus innerMarks + 1
      else ∃ commas, (∀ comma ∈ commas, comma.kind = .comma) ∧
        more = openParen :: (commas ++ (innerMarks ++ [closeParen]))) :
    Sketches session type afterDot (token :: tokens) (more ++ marks) := by
  obtain ⟨sameLiterals, sameComments⟩ := path?_literals found
  have tidy := tidy_reference found uses within assigned later
  have settled : Tidy session type afterDot (token :: tokens) →
      ∃ commas, (∀ comma ∈ commas, comma.kind = .comma) ∧
        more = openParen :: (commas ++ (innerMarks ++ [closeParen])) := by
    intro isTidy
    rwa [if_neg fun swallowed => (tidy.1 isTidy).1 swallowed.1 swallowed.2] at passed
  refine ⟨?_, ?_, ?_, ?_⟩
  · rw [sameLiterals, uses.literals, Token.literals_append, behind.literals, literals_passed passed,
      inside.literals]
  · intro isTidy
    obtain ⟨_, insideTidy, behindTidy⟩ := tidy.1 isTidy
    obtain ⟨commas, isComma, rfl⟩ := settled isTidy
    have none : Token.comments commas = [] :=
      comments_of_not_comment fun comma member => by simp [isComma comma member]
    rw [sameComments, Token.comments_append, Token.comments_cons, Token.comments_append,
      Token.comments_append, none]
    refine List.Sublist.trans ?_ uses.comments
    refine List.Sublist.append ?_ (behind.comments behindTidy)
    exact (append_nil _).symm ▸ inside.comments insideTidy
  · intro isTidy
    obtain ⟨_, insideTidy, behindTidy⟩ := tidy.1 isTidy
    obtain ⟨commas, isComma, rfl⟩ := settled isTidy
    have mirrors := mirrors_reference found uses (inside.closed insideTidy) isComma
      (behind.closed behindTidy)
    simpa using mirrors
  · intro nesting balanced
    obtain ⟨within, left, _⟩ := uses.balanced ((path?_balanced found nesting).1.1 balanced)
    obtain ⟨inner, innerSurplus, innerTidy⟩ := inside.lost [] within
    obtain ⟨lost, surplus, restTidy⟩ := behind.lost nesting left
    rw [Token.surplus_append, surplus]
    split at passed
    · refine ⟨inner + lost + 1, ?_, fun none => absurd none (by omega)⟩
      rw [passed.2, innerSurplus]
      simp only [length_nil]
      omega
    · next kept =>
      obtain ⟨commas, isComma, rfl⟩ := passed
      have none : Token.surplus commas = 0 := by
        have plain : ∀ comma ∈ commas, comma.kind.isOpen = false ∧ comma.kind.isClose = false :=
          fun comma member => by rw [isComma comma member]; decide
        rw [Token.surplus, countP_eq_zero.2 fun comma member => by simp [plain comma member],
          countP_eq_zero.2 fun comma member => by simp [plain comma member]]
        rfl
      refine ⟨inner + lost, ?_, fun none => tidy.2 ⟨?_, innerTidy (by omega), restTidy (by omega)⟩⟩
      · rw [Token.surplus_cons, Token.surplus_append, Token.surplus_append, none, innerSurplus,
          show Token.surplus [openParen] = 1 from rfl, show Token.surplus [closeParen] = -1 from rfl]
        simp only [length_nil]
        omega
      · exact fun assigns comment => kept ⟨assigns, comment⟩

end

section

variable {session : Session} {type : UserType} (readable : session.Readable)
  (member : type ∈ session.types) {text after : Text}

include readable member

theorem Writes.outline (writes : Writes session type afterDot tokens text)
    (run : Token.Run after tokens) :
    ∃ marks, Outline [] text marks (Token.endingOf tokens) ∧
      Sketches session type afterDot tokens marks := by
  induction writes generalizing after with
  | nil afterDot => exact ⟨[], .done, sketches_nil afterDot⟩
  | @token afterDot token tokens text plain later ih =>
    have behind := run.suffix singleton_append.symm
    have taken := run.strung [] token tokens rfl
    obtain ⟨marks, outline, sketches⟩ := ih behind
    refine ⟨_, taken.outline (behind.ne_nil _) outline ?_ ?_, sketches_token plain sketches⟩
    · intro slash
      rw [append_nil]
      exact later.harmless readable member behind.proper (taken.harmless slash)
    · intro body feed inLine here
      exact later.keeps_feed readable member behind.proper run.ended inLine here
  | @reference afterDot token tokens behind rest path reference inner text found uses within assigned
      later ihWithin ihLater =>
    have runBehind := path?_run found run
    obtain ⟨⟨context, runInner⟩, runRest⟩ := uses.run runBehind
    obtain ⟨innerMarks, innerOutline, inside⟩ := ihWithin runInner
    obtain ⟨marks, outline, sketches⟩ := ihLater runRest
    have named := uses.named readable member
      (path?_identifiers found (forall_mem_cons.1 run.proper).2)
    have solid : reference.assigns = true → Token.endingOf reference.inner ≠ .blank := by
      intro assigns blank
      have notBlank := assigned assigns
      rw [innerOutline.ending_eq_blank_iff.1 blank] at notBlank
      cases notBlank
    obtain ⟨more, passing, passed⟩ := named.outline innerOutline assigned
    refine ⟨more ++ marks, ?_,
      sketches_reference found uses within assigned later inside sketches passed⟩
    rw [path?_ending found run.proper, uses.ending runBehind.proper solid, ← append_assoc]
    exact (passing _).append outline

end

end SelfReference

/-! ### Scanning along an outline -/

def bracketOf : TokenKind → Char
  | .lParen => '('
  | .lBracket => '['
  | _ => '{'

/-- Parts that count like the landmarks: brackets that the landmarks close are closed, and commas outside
brackets part arguments. -/
def Counts (marks : List Token) (parts : List Part) : Prop :=
  ∀ nesting (tally : Tally), Balanced nesting marks → tally.nesting = nesting.map bracketOf →
    ∃ next, tally.passAll parts = some next ∧ next.nesting = [] ∧
      next.early = tally.early + SelfReference.topLevelCommas nesting.length marks

namespace Counts

variable {mark : Token} {marks : List Token} {parts : List Part} {c : Char}

theorem nil : Counts [] [] := by
  rintro nesting tally rfl top
  exact ⟨tally, rfl, top, rfl⟩

theorem flush {part : Part} (flush : Flush [part]) (later : Counts marks parts) :
    Counts marks (part :: parts) := by
  intro nesting tally balanced isNesting
  obtain ⟨next, passed, closed, early⟩ := later nesting (tally.move tally.nesting _) balanced isNesting
  refine ⟨next, ?_, closed, early⟩
  rw [← singleton_append, Tally.passAll_append, flush tally]
  exact passed

theorem literal (kind : mark.kind = .other ∨ mark.kind = .comment) (text : Text)
    (later : Counts marks parts) : Counts (mark :: marks) (.literal text :: parts) := by
  have plain : (mark.kind.isOpen ≠ true ∧ mark.kind.isClose ≠ true) ∧ mark.kind ≠ .comma := by
    rcases kind with kind | kind <;> rw [kind] <;> decide
  intro nesting tally balanced isNesting
  have passes := @flush marks parts (.literal text) (fun _ => rfl) later nesting tally
    ((balanced_plain plain.1.1 plain.1.2).1 balanced) isNesting
  rwa [SelfReference.topLevelCommas, if_neg plain.1.1, if_neg plain.1.2,
    if_neg fun comma => plain.2 comma.1]

theorem punctuation (found : punctuation? c = some mark.kind) (later : Counts marks parts) :
    Counts (mark :: marks) (.code c :: parts) := by
  intro nesting tally balanced isNesting
  rw [SelfReference.topLevelCommas, Tally.passAll, Tally.pass]
  by_cases opens : mark.kind.isOpen = true
  · obtain ⟨rfl, isOpen⟩ : c = bracketOf mark.kind ∧ isOpenBracket c = true := by
      generalize mark.kind = kind at found opens
      unfold punctuation? at found
      split at found <;> cases found <;> first | (cases opens; done) | exact ⟨rfl, rfl⟩
    rw [if_pos isOpen, if_pos opens]
    exact later (mark.kind :: nesting) _ ((balanced_open opens).1 balanced)
      (by rw [Tally.nesting_move, isNesting]; rfl)
  by_cases closes : mark.kind.isClose = true
  · cases nesting with
    | nil => exact absurd balanced (not_balanced_close opens closes)
    | cons opener outer =>
      obtain ⟨fits, balanced⟩ := (balanced_close opens closes).1 balanced
      have shuts : closingBracket? (bracketOf opener) = some c ∧ ¬ isOpenBracket c = true ∧
          isCloseBracket c = true := by
        generalize mark.kind = kind at found closes fits
        unfold punctuation? at found
        split at found <;> cases found <;> first
          | (cases closes; done)
          | (refine ⟨?_, by decide, by decide⟩
             cases opener <;> first | (cases fits; done) | rfl)
      rw [if_neg shuts.2.1, if_pos shuts.2.2, if_neg opens, if_pos closes, isNesting, map_cons, shut,
        if_pos shuts.1]
      exact later outer (tally.move (outer.map bracketOf) true) balanced rfl
  have notBracket : ¬ isOpenBracket c = true ∧ ¬ isCloseBracket c = true ∧
      (c = ',' ↔ mark.kind = .comma) := by
    generalize mark.kind = kind at found opens closes
    unfold punctuation? at found
    split at found <;> cases found <;> first
      | exact absurd rfl opens
      | exact absurd rfl closes
      | decide
  have later := fun tally => later nesting tally ((balanced_plain opens closes).1 balanced)
  rw [if_neg notBracket.1, if_neg notBracket.2.1, if_neg opens, if_neg closes]
  have top : tally.nesting = [] ↔ nesting.length = 0 := by
    rw [isNesting, map_eq_nil_iff, length_eq_zero_iff]
  by_cases comma : c = ',' ∧ tally.nesting = []
  · rw [if_pos comma, if_pos ⟨notBracket.2.2.1 comma.1, top.1 comma.2⟩]
    obtain ⟨next, passed, closed, early⟩ := later ⟨[], tally.counts.1, tally.counts.2, false⟩
      (comma.2.symm.trans isNesting)
    refine ⟨next, passed, closed, early.trans ?_⟩
    rw [top.1 comma.2]
    change tally.early + 1 + _ = _
    omega
  · rw [if_neg comma, if_neg fun both => comma ⟨notBracket.2.2.2 both.1, top.2 both.2⟩]
    exact later (tally.move tally.nesting _) isNesting

end Counts

/-- A scanner gets through an outline, and counts its landmarks. -/
theorem Outline.scan {rest front : Text} {marks : List Token} {ending : Ending}
    (outline : Outline rest front marks ending)
    (unbroken : ∀ mark ∈ marks, mark.isLiteral = true → ¬ mark.Continues) :
    ∃ early, Text.parts (front ++ rest) = early ++ rest.parts ∧ Counts marks early := by
  induction outline with
  | done => exact ⟨[], rfl, .nil⟩
  | @landmark front mark marks _ closed _ ih =>
    obtain ⟨here, later⟩ := forall_mem_cons.1 unbroken
    obtain ⟨early, same, counts⟩ := ih later
    rcases closed.scan here with ⟨kind, whole⟩ | ⟨c, text, found⟩
    · refine ⟨.literal mark.text :: early, ?_, counts.literal kind _⟩
      rw [append_assoc, parts_literal (whole.first _), same]
      rfl
    · refine ⟨.code c :: early, ?_, counts.punctuation found⟩
      rw [text, append_assoc, singleton_append,
        parts_cons (Literal.first?_of_isPlain (plain_punctuation found).1 _), same]
      rfl
  | @comment body feed front marks _ inLine _ ih =>
    obtain ⟨early, same, counts⟩ := ih (forall_mem_cons.1 unbroken).2
    obtain ⟨taken, scanned⟩ := inLine.parts (front ++ rest)
    refine ⟨.literal taken :: .code '\n' :: early, ?_,
      (counts.flush (@flush_unmarked ['\n'] (by simp; decide))).literal (.inr rfl) _⟩
    simpa [same] using scanned
  | @char c front marks _ inert _ ih =>
    obtain ⟨early, same, counts⟩ := ih unbroken
    have unmarked : isMark c = false := by
      rcases inert with inert | ⟨rfl, _⟩
      · exact (isInert_iff.1 inert).2
      · decide
    have plain : Literal.first? (c :: (front ++ rest)) = none := by
      rcases inert with inert | ⟨rfl, safe⟩
      · exact Literal.first?_of_isPlain (isInert_iff.1 inert).1 _
      · exact Literal.first?_eq_none_iff.2 ⟨by decide, by decide, by decide, fun _ => safe⟩
    refine ⟨.code c :: early, ?_, counts.flush (@flush_unmarked [c] (by simpa using unmarked))⟩
    rw [cons_append, parts_cons plain, same]
    rfl

theorem Token.unbroken_of_literals {tokens marks : List Token}
    (same : Token.literals marks = Token.literals tokens)
    (unbroken : ∀ token ∈ tokens, token.isLiteral = true → ¬ token.Continues) :
    ∀ mark ∈ marks, mark.isLiteral = true → ¬ mark.Continues := by
  intro mark member isLiteral continues
  have listed : mark.text ∈ Token.literals tokens := by
    rw [← same]
    exact mem_map_of_mem (mem_filter.2 ⟨member, isLiteral⟩)
  obtain ⟨token, isToken, text⟩ := mem_map.1 listed
  refine unbroken token (mem_filter.1 isToken).1 (mem_filter.1 isToken).2 ?_
  rw [Continues, isString, text]
  exact continues

/-- A scanner comes by a reference in the text of a body. -/
theorem SelfReference.Refers.meets {session : Session} {type : UserType} (readable : session.Readable)
    (member : type ∈ session.types) {afterDot : Bool} {tokens : List Token} {reference : Reference}
    {after front inner back : Text}
    (refers : Refers session type afterDot tokens front reference inner back)
    (run : Token.Run after tokens) (unbroken : ∀ token ∈ tokens, ¬ token.Continues) (rest : Text) :
    Meets front (reference.written inner ++ rest) := by
  induction refers generalizing after with
  | here => exact .nil _
  | @behindToken afterDot token tokens front inner back reference plain later ih =>
    have behind := run.suffix singleton_append.symm
    have taken := run.strung [] token tokens rfl
    obtain ⟨here, unbroken⟩ := forall_mem_cons.1 unbroken
    obtain ⟨named, writes⟩ := later.writes readable member behind.proper
    obtain ⟨c, cs, written, start⟩ := named.written inner
    refine taken.meets (behind.ne_nil _) here (ih behind unbroken) ?_ ?_
    · intro slash
      have safe := writes.harmless readable member behind.proper (taken.harmless slash)
      rw [written] at safe ⊢
      cases front with
      | nil => exact safe
      | cons d ds => exact safe
    · intro body feed inLine here
      have kept := writes.keeps_feed readable member behind.proper run.ended inLine here
      rw [written] at kept
      refine inLine.feed_front ?_ ?_ kept
      · rintro rfl
        cases start
      · rintro rfl
        cases start
  | behind found uses within assigned later ih =>
    obtain ⟨⟨context, runInner⟩, runRest⟩ := uses.run (path?_run found run)
    obtain ⟨innerMarks, outline, sketches⟩ := within.outline readable member runInner
    have named := uses.named readable member
      (path?_identifiers found (forall_mem_cons.1 run.proper).2)
    obtain ⟨more, passing, passed⟩ := named.outline outline assigned
    have same := (literals_passed passed).trans sketches.literals
    have passes : ∀ rest, Meets _ rest := fun rest => by
      obtain ⟨early, parts, _⟩ := (passing rest).scan (unbroken_of_literals same fun other isOther _ =>
        unbroken other (path?_subset found (uses.subset.1 isOther)))
      exact ⟨early, parts⟩
    rw [← append_assoc]
    exact (passes _).append (ih runRest fun other isOther =>
      unbroken other (path?_subset found (uses.subset.2 isOther)))
  | @inside afterDot token tokens behind rest' path outer reference front inner back text found uses
      within later ih =>
    obtain ⟨context, runInner⟩ := (uses.run (path?_run found run)).1
    have named := uses.named readable member
      (path?_identifiers found (forall_mem_cons.1 run.proper).2)
    have inside := ih runInner fun other isOther =>
      unbroken other (path?_subset found (uses.subset.1 isOther))
    have opening : ∀ c ∈ outer.name ++ '(' :: (selfName.toList ++ ", ".toList), isPlain c = true := by
      rw [forall_mem_append]
      exact ⟨plain_of_inert named.inert, all_eq_true.1 (by decide)⟩
    have opened := Meets.append (.of_plain opening _) inside.trimStart
    simpa using opened

end FlatMemory
