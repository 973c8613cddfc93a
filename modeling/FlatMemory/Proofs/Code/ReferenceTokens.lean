import FlatMemory.Proofs.Code.Reference
import FlatMemory.Proofs.Document.Capture
import FlatMemory.Proofs.Token.Outline

/-! # The tokens of a reference

A reference uses up some of the tokens of a body.  Those inside it are a run of tokens of their own,
which closes its brackets, and what is left closes the others.  What is written for the tokens of a
body starts as they do, up to the first reference. -/

namespace FlatMemory

open List Text Lexeme Token

def Ended (after : Text) : Prop := ∃ stop more, after = stop :: more ∧ stop ∈ stops

namespace Token

variable {token : Token}

def endingOf : List Token → Ending
  | [] => .blank
  | token :: tokens => token.ending.followedBy (endingOf tokens)

theorem endingOf_append (first second : List Token) :
    endingOf (first ++ second) = (endingOf first).followedBy (endingOf second) := by
  induction first with
  | nil => exact (Ending.blank_followedBy _).symm
  | cons token first ih =>
    rw [cons_append, endingOf, endingOf, ih, Ending.followedBy_assoc]

theorem Proper.spelled (proper : token.Proper) (kind : token.kind ≠ .lineReset) :
    Lexeme.Spelled token.kind token.text := by
  rcases proper with ⟨reset, _⟩ | spelled
  · exact absurd reset kind
  · exact spelled

theorem solid_ending {first : Char} {later : Text} (spelled : token.text = first :: later)
    (solid : isBlank first = false) (noComment : token.kind ≠ .comment) :
    token.ending = .other := by
  have notBlank : Text.isBlank (first :: later) = false := by simp [Text.isBlank, solid]
  rw [ending, isLineComment, spelled, Ending.ofText, notBlank]
  simp [noComment]

end Token

structure Token.Run (after : Text) (tokens : List Token) : Prop where
  proper : ∀ token ∈ tokens, token.Proper
  strung : Strung after tokens
  ended : Ended after

theorem Token.Run.suffix {after : Text} {tokens front back : List Token} (run : Run after tokens)
    (whole : tokens = front ++ back) : Run after back := by
  refine ⟨fun token member => run.proper token ?_, run.strung.suffix whole, run.ended⟩
  rw [whole]
  exact mem_append_right _ member

theorem Token.Run.ne_nil {after : Text} {tokens : List Token} (run : Run after tokens)
    (front : Text) : front ++ after ≠ [] := by
  obtain ⟨stop, more, rfl, _⟩ := run.ended
  simp

namespace SelfReference

variable {tokens : List Token} {nesting : List TokenKind} {afterDot : Bool}

/-! ### Names -/

structure Reference.Named (reference : Reference) : Prop where
  owner : IsIdentifier reference.owner
  segments : ∀ segment ∈ reference.segments, IsIdentifier segment

theorem operation_identifier (operation : Operation) : IsIdentifier operation.name := by
  cases operation <;> exact ⟨_, _, rfl, by decide, all_eq_true.1 (by decide)⟩

namespace Reference

variable {reference : Reference}

section

variable (named : reference.Named)

include named

theorem Named.name :
    (∃ c cs, reference.name = c :: cs ∧ isIdentStart c = true) ∧
      ∀ c ∈ reference.name, isIdentPart c = true ∨ c = '.' := by
  constructor
  · obtain ⟨c, cs, chars, start, _⟩ := named.owner
    exact ⟨c, _, by rw [Reference.name, chars]; rfl, start⟩
  · intro c member
    rcases mem_append.1 member with member | member
    · exact .inl (named.owner.parts c member)
    · obtain ⟨segment, isSegment, member⟩ := mem_flatMap.1 member
      rcases mem_cons.1 member with rfl | member
      · exact .inr rfl
      · exact .inl ((named.segments segment isSegment).parts c member)

theorem Named.written (text : Text) :
    ∃ c cs, reference.written text = c :: (cs ++ [')']) ∧ isIdentStart c = true := by
  obtain ⟨⟨c, cs, chars, start⟩, _⟩ := named.name
  exact ⟨c, cs ++ '(' :: reference.arguments text, by rw [Reference.written, chars]; simp, start⟩

end

end Reference

/-! ### The tokens of a reference -/

theorem self_text {token : Token} (isSelf : token.isIdent selfName = true) :
    token.text = ['S', 'E', 'L', 'F'] := by
  simp only [Token.isIdent, Bool.and_eq_true, decide_eq_true_eq] at isSelf
  have chars : (String.ofList token.text).toList = selfName.toList :=
    congrArg String.toList isSelf.2
  rw [String.toList_ofList] at chars
  rw [chars]
  decide

theorem ended_of_stop {stop : Token} (proper : stop.Proper) (ends : endsValue stop.kind = true)
    (more : Text) : Ended (stop.text ++ more) := by
  cases kind : stop.kind
  all_goals first
    | (rw [kind] at ends; cases ends; done)
    | (have spelled := proper.spelled (by simp [kind])
       rw [kind] at spelled
       rw [show stop.text = _ from spelled]
       exact ⟨_, more, rfl, by decide⟩)

section

variable {session : Session} {type : UserType} {path : List String} {after rest : List Token}
  {reference : Reference} {token : Token} {tail : Text} {passed : List Token}
  {opened : List TokenKind} {kind : TokenKind}

theorem Uses.named (readable : session.Readable) (member : type ∈ session.types)
    (uses : Uses session type path after reference rest)
    (identifiers : ∀ segment ∈ path, IsIdentifier segment) : reference.Named := by
  have isNamed := (readable type member).named
  cases uses with
  | load => exact ⟨isNamed, identifiers⟩
  | store =>
    refine ⟨isNamed, ?_⟩
    intro segment isSegment
    rcases mem_append.1 isSegment with isSegment | last
    · exact identifiers segment isSegment
    · rw [mem_singleton.1 last]
      exact operation_identifier _
  | call => exact ⟨isNamed, identifiers⟩
  | method known _ =>
    rcases known with rfl | known
    · exact ⟨isNamed, identifiers⟩
    · exact ⟨(readable _ known).named, identifiers⟩

/-- Behind the path of a reference stand its inner tokens.  What is dropped around them is no
literal, and they end in front of a stop. -/
theorem Uses.parts (uses : Uses session type path after reference rest) :
    ∃ dropped closing, after = dropped ++ (reference.inner ++ (closing ++ rest)) ∧
      (∀ token ∈ dropped ++ closing, token.kind ≠ .other) ∧
      (reference.inner ≠ [] → ∀ stop later, closing ++ rest = stop :: later →
        endsValue stop.kind = true) := by
  have trivial : ∀ {skipped : List Token}, (∀ token ∈ skipped, token.kind.isTrivia = true) →
      ∀ token ∈ skipped, token.kind ≠ .other := by
    intro skipped trivia token member other
    have := trivia token member
    rw [other] at this
    cases this
  have grouped : ∀ {arguments}, Grouped after arguments rest →
      ∃ dropped closing, after = dropped ++ (arguments ++ (closing ++ rest)) ∧
        (∀ token ∈ dropped ++ closing, token.kind ≠ .other) ∧
        (arguments ≠ [] → ∀ stop later, closing ++ rest = stop :: later →
          endsValue stop.kind = true) := by
    intro arguments group
    obtain ⟨skipped, opening, closing, rfl, trivia, opens, closes, _⟩ := group
    refine ⟨skipped ++ [opening], [closing], by simp, ?_, ?_⟩
    · simp only [forall_mem_append, forall_mem_singleton]
      refine ⟨⟨trivial trivia, by simp [opens]⟩, ?_⟩
      intro other
      rw [other] at closes
      cases closes
    · rintro _ stop later same
      rw [← (List.cons.inj same).1]
      simp [endsValue, closes]
  cases uses with
  | load => exact ⟨[], [], rfl, by simp, fun some => absurd rfl some⟩
  | @store _ _ skipped value _ operator _ _ parts trivia isAssign _ _ split =>
    refine ⟨skipped ++ [operator], [], by rw [parts]; simp, ?_, ?_⟩
    · simp only [forall_mem_append, forall_mem_singleton]
      exact ⟨⟨trivial trivia, by simp [isAssign]⟩, by simp⟩
    · intro _ stop later same
      rw [nil_append] at same
      exact (splitValue_append 0 (value ++ rest)).2 stop later (by rw [split]; exact same)
  | call _ _ group => exact grouped group
  | method _ group => exact grouped group

theorem Uses.subset (uses : Uses session type path after reference rest) :
    reference.inner ⊆ after ∧ rest ⊆ after := by
  obtain ⟨dropped, closing, rfl, _⟩ := uses.parts
  exact ⟨fun _ member => by simp [member], fun _ member => by simp [member]⟩

theorem Uses.run (uses : Uses session type path after reference rest)
    (isRun : Token.Run tail after) :
    (∃ context, Token.Run context reference.inner) ∧ Token.Run tail rest := by
  obtain ⟨dropped, closing, whole, _, stops⟩ := uses.parts
  refine ⟨?_, isRun.suffix (show after = (dropped ++ (reference.inner ++ closing)) ++ rest by
    rw [whole]; simp)⟩
  have proper : ∀ other ∈ reference.inner, other.Proper := fun other member =>
    isRun.proper other (uses.subset.1 member)
  by_cases none : reference.inner = []
  · refine ⟨tail, proper, ?_, isRun.ended⟩
    rintro front token back same
    rw [none] at same
    simp at same
  · refine ⟨_, proper, isRun.strung.part whole, ?_⟩
    cases behind : closing ++ rest with
    | nil => exact isRun.ended
    | cons stop later =>
      rw [flatMap_cons, append_assoc]
      refine ended_of_stop (isRun.proper stop ?_) (stops none stop later behind) _
      rw [whole, behind]
      simp

section

variable (found : path? afterDot token tokens = some (path, after))

include found

theorem path?_parts :
    ∃ names, token :: tokens = names ++ after ∧
      ∀ name ∈ names, name.kind = .dot ∨ name.kind = .ident := by
  obtain ⟨isSelf, _, names, rfl, isName, _⟩ := path?_split found
  simp only [Token.isIdent, Bool.and_eq_true, decide_eq_true_eq] at isSelf
  exact ⟨token :: names, rfl, forall_mem_cons.2 ⟨.inr isSelf.1, isName⟩⟩

theorem path?_identifiers (proper : ∀ other ∈ tokens, other.Proper) :
    ∀ segment ∈ path, IsIdentifier segment := by
  obtain ⟨_, _, names, rfl, _, spelled⟩ := path?_split found
  intro segment isSegment
  obtain ⟨name, isName, kind, rfl⟩ := spelled segment isSegment
  exact (proper name (mem_append_left _ isName)).identifier kind

theorem path?_subset : after ⊆ token :: tokens := by
  obtain ⟨names, whole, _⟩ := path?_parts found
  rw [whole]
  exact subset_append_right _ _

theorem path?_run (isRun : Token.Run tail (token :: tokens)) : Token.Run tail after := by
  obtain ⟨names, whole, _⟩ := path?_parts found
  exact isRun.suffix whole

end

theorem assign_solid {operator : Token} (proper : operator.Proper)
    (isAssign : operator.kind = .assign) : operator.ending = .other := by
  have spelled := proper.spelled (by simp [isAssign])
  rw [isAssign] at spelled
  have solid := all_eq_true.1 (show (Operator.assignments.all fun word =>
    word.toList.head?.any fun c => !isBlank c) = true by decide) _ spelled
  rw [String.toList_ofList] at solid
  cases text : operator.text with
  | nil => simp [text] at solid
  | cons first later =>
    rw [text] at solid
    exact solid_ending text (by simpa using solid) (by simp [isAssign])

theorem bracket_solid (proper : token.Proper)
    (bracket : (token.kind.isOpen || token.kind.isClose) = true) : token.ending = .other := by
  cases kind : token.kind
  all_goals first
    | (rw [kind] at bracket; cases bracket; done)
    | (have spelled := proper.spelled (by simp [kind])
       rw [kind] at spelled
       exact solid_ending (show token.text = _ from spelled) (by decide) (by simp [kind]))

theorem name_solid {name : Token} (proper : name.Proper)
    (kind : name.kind = .dot ∨ name.kind = .ident) :
    name.ending = .other := by
  rcases kind with kind | kind
  · have spelled := proper.spelled (by simp [kind])
    rw [kind] at spelled
    exact solid_ending (show name.text = _ from spelled) (by decide) (by simp [kind])
  · have spelled := proper.spelled (by simp [kind])
    rw [kind] at spelled
    obtain ⟨c, cs, text, start, _⟩ := spelled
    exact solid_ending text
      (not_isBlank_of_isIdentPart (isIdentPart_of_isIdentStart start)) (by simp [kind])

theorem endingOf_solid {last : Token} (solid : last.ending = .other) (front tokens : List Token) :
    Token.endingOf (front ++ last :: tokens) =
      Ending.other.followedBy (Token.endingOf tokens) := by
  rw [endingOf_append, Token.endingOf, solid]
  cases Token.endingOf tokens <;> rfl

theorem path?_ending (found : path? afterDot token tokens = some (path, after))
    (proper : ∀ other ∈ token :: tokens, other.Proper) :
    Token.endingOf (token :: tokens) = Ending.other.followedBy (Token.endingOf after) := by
  obtain ⟨isSelf, _, names, rfl, isName, _⟩ := path?_split found
  have first : token.ending = .other := by
    simp only [Token.isIdent, Bool.and_eq_true, decide_eq_true_eq] at isSelf
    exact name_solid (proper token mem_cons_self) (.inr isSelf.1)
  cases names using List.reverseRecOn with
  | nil => rw [nil_append, Token.endingOf, first]
  | append_singleton front last =>
    have solid := name_solid (proper last (by simp)) (isName last (by simp))
    have parts := endingOf_solid solid (token :: front) after
    simpa using parts

/-- What a run of tokens ends in, seen from behind its first reference. -/
theorem Uses.ending (uses : Uses session type path after reference rest)
    (proper : ∀ other ∈ after, other.Proper)
    (solid : reference.assigns = true → Token.endingOf reference.inner ≠ .blank) :
    Ending.other.followedBy (Token.endingOf after) =
      (if reference.assigns then Token.endingOf reference.inner else .other).followedBy
        (Token.endingOf rest) := by
  have grouped : ∀ {arguments}, Grouped after arguments rest →
      Ending.other.followedBy (Token.endingOf after) =
        Ending.other.followedBy (Token.endingOf rest) := by
    intro arguments group
    obtain ⟨skipped, opening, closing, rfl, _, _, closes, _⟩ := group
    have last := bracket_solid (proper closing (by simp)) (by simp [closes])
    have parts := endingOf_solid last (skipped ++ opening :: arguments) rest
    rw [append_assoc, cons_append] at parts
    rw [parts, ← Ending.followedBy_assoc]
    rfl
  cases uses with
  | load => rfl
  | @store _ _ skipped value _ operator _ _ parts _ isAssign _ _ _ =>
    rw [parts] at proper ⊢
    rw [endingOf_solid (assign_solid (proper operator (by simp)) isAssign), endingOf_append]
    have some := solid rfl
    dsimp only at some ⊢
    rw [if_pos rfl, ← Ending.followedBy_assoc, ← Ending.followedBy_assoc]
    congr 1
    cases last : Token.endingOf value with
    | blank => exact absurd last some
    | comment => rfl
    | other => rfl
  | call _ _ group => exact grouped group
  | method _ group => exact grouped group

def Reference.Settled (reference : Reference) : Prop :=
  reference.assigns = true → Token.endingOf reference.inner ≠ .comment

/-- No assigned value among the tokens, however deep inside, ends in a line comment. -/
def Tidy (session : Session) (type : UserType) (afterDot : Bool) (tokens : List Token) : Prop :=
  ∀ front reference inner back,
    Refers session type afterDot tokens front reference inner back → reference.Settled

/-! ### Brackets and commas of a reference -/

theorem balanced_skip
    (plain : ∀ token ∈ passed, token.kind.isOpen ≠ true ∧ token.kind.isClose ≠ true) :
    Balanced nesting (passed ++ tokens) ↔ Balanced nesting tokens := by
  induction passed with
  | nil => rfl
  | cons token passed ih =>
    obtain ⟨notOpen, notClose⟩ := plain token mem_cons_self
    rw [cons_append, balanced_plain notOpen notClose]
    exact ih fun other isOther => plain other (mem_cons_of_mem _ isOther)

theorem topLevelCommas_skip
    (plain : ∀ token ∈ passed, (token.kind.isOpen ≠ true ∧ token.kind.isClose ≠ true) ∧
      token.kind ≠ .comma)
    (depth : Nat) : topLevelCommas depth (passed ++ tokens) = topLevelCommas depth tokens := by
  induction passed with
  | nil => rfl
  | cons token passed ih =>
    obtain ⟨⟨notOpen, notClose⟩, notComma⟩ := plain token mem_cons_self
    rw [cons_append, topLevelCommas, if_neg notOpen, if_neg notClose,
      if_neg fun comma => notComma comma.1]
    exact ih fun other isOther => plain other (mem_cons_of_mem _ isOther)

theorem splitValue_commas (balanced : Balanced opened (splitValue opened.length tokens).1)
    (depth : Nat) :
    topLevelCommas (opened.length + depth) tokens =
      topLevelCommas depth (splitValue opened.length tokens).2 := by
  induction tokens generalizing opened with
  | nil => rfl
  | cons token tokens ih =>
    unfold splitValue at balanced ⊢
    dsimp only at balanced ⊢
    rw [topLevelCommas]
    by_cases opens : token.kind.isOpen = true
    · rw [if_pos opens] at balanced ⊢
      rw [if_pos opens]
      have deeper : Balanced (token.kind :: opened)
          (splitValue (token.kind :: opened).length tokens).1 := (balanced_open opens).1 balanced
      have goesOn := ih deeper
      rw [length_cons, Nat.add_right_comm] at goesOn
      exact goesOn
    by_cases closes : token.kind.isClose = true
    · rw [if_neg opens, if_pos closes] at balanced ⊢
      rw [if_neg opens, if_pos closes]
      cases opened with
      | nil => rw [length_nil, Nat.zero_add, topLevelCommas, if_neg opens, if_pos closes]
      | cons opener outer =>
        have goesOn := ih ((balanced_close opens closes).1 balanced).2
        rw [length_cons, Nat.add_right_comm, Nat.add_sub_cancel]
        exact goesOn
    · rw [if_neg opens, if_neg closes] at balanced ⊢
      rw [if_neg opens, if_neg closes]
      by_cases stops : (token.kind = .semicolon ∨ token.kind = .comma) ∧ opened.length = 0
      · rw [if_pos stops, stops.2, Nat.zero_add]
        conv_rhs => rw [topLevelCommas, if_neg opens, if_neg closes]
      · rw [if_neg stops] at balanced ⊢
        have goesOn := ih ((balanced_plain opens closes).1 balanced)
        rw [if_neg fun comma => stops ⟨.inr comma.1, by omega⟩]
        exact goesOn

theorem topLevelCommas_append (balanced : Balanced opened passed) (depth : Nat) :
    topLevelCommas (opened.length + depth + 1) (passed ++ tokens) = topLevelCommas (depth + 1) tokens := by
  induction passed generalizing opened with
  | nil =>
    rw [show opened = [] from balanced, length_nil, Nat.zero_add]
    rfl
  | cons token passed ih =>
    rw [cons_append, topLevelCommas]
    by_cases opens : token.kind.isOpen = true
    · have goesOn := ih ((balanced_open opens).1 balanced)
      rw [length_cons, Nat.add_right_comm opened.length 1 depth] at goesOn
      rw [if_pos opens, goesOn]
    by_cases closes : token.kind.isClose = true
    · cases opened with
      | nil => exact absurd balanced (not_balanced_close opens closes)
      | cons opener outer =>
        have goesOn := ih ((balanced_close opens closes).1 balanced).2
        rw [if_neg opens, if_pos closes, length_cons, Nat.add_right_comm outer.length 1 depth,
          Nat.add_sub_cancel, goesOn]
    · rw [if_neg opens, if_neg closes, if_neg (by omega), ih ((balanced_plain opens closes).1 balanced)]

theorem topLevelCommas_close (closes : token.kind.isClose = true) (depth : Nat) :
    topLevelCommas (depth + 1) (token :: tokens) = topLevelCommas depth tokens := by
  have notOpen : ¬ token.kind.isOpen = true := by
    cases kind : token.kind <;> first | (rw [kind] at closes; cases closes; done) | decide
  rw [topLevelCommas, if_neg notOpen, if_pos closes, Nat.add_sub_cancel]

theorem trivia_plain (trivia : kind.isTrivia = true) :
    (kind.isOpen ≠ true ∧ kind.isClose ≠ true) ∧ kind ≠ .comma := by
  cases kind <;> first | (cases trivia; done) | decide

theorem name_plain (isName : kind = .dot ∨ kind = .ident) :
    (kind.isOpen ≠ true ∧ kind.isClose ≠ true) ∧ kind ≠ .comma := by
  rcases isName with rfl | rfl <;> decide

/-- The inner tokens of a reference close their brackets, and what is left closes the others, with
the commas outside brackets that there were. -/
theorem Uses.balanced (uses : Uses session type path after reference rest)
    (closed : Balanced nesting after) :
    Balanced [] reference.inner ∧ Balanced nesting rest ∧
      ∀ depth, topLevelCommas depth after = topLevelCommas depth rest := by
  have grouped : ∀ {arguments}, Grouped after arguments rest →
      Balanced [] arguments ∧ Balanced nesting rest ∧
        ∀ depth, topLevelCommas depth after = topLevelCommas depth rest := by
    intro arguments group
    obtain ⟨skipped, opening, closing, rfl, trivia, opens, closes, split⟩ := group
    have isOpen : opening.kind.isOpen = true := by rw [opens]; rfl
    have skips := fun token isSkipped => trivia_plain (trivia token isSkipped)
    rw [balanced_skip fun token isSkipped => (skips token isSkipped).1, balanced_open isOpen] at closed
    obtain ⟨inner, later, found, balanced, behind⟩ :=
      splitGroup_balanced (show Balanced ([] ++ opening.kind :: nesting) _ from closed)
    rw [show splitGroup 0 _ = _ from found] at split
    cases split
    refine ⟨balanced, behind, fun depth => ?_⟩
    have commas := @topLevelCommas_append (closing :: rest) _ _ balanced depth
    rw [length_nil, Nat.zero_add] at commas
    rw [topLevelCommas_skip skips, topLevelCommas, if_pos isOpen, commas, topLevelCommas_close closes]
  cases uses with
  | load => exact ⟨rfl, closed, fun _ => rfl⟩
  | @store _ _ skipped value _ operator _ _ parts trivia isAssign _ _ split =>
    have skips : ∀ token ∈ skipped ++ [operator], (token.kind.isOpen ≠ true ∧
        token.kind.isClose ≠ true) ∧ token.kind ≠ .comma := by
      intro token isSkipped
      rcases mem_append.1 isSkipped with isSkipped | last
      · exact trivia_plain (trivia token isSkipped)
      · rw [mem_singleton.1 last, isAssign]
        decide
    rw [show skipped ++ operator :: (value ++ rest) = (skipped ++ [operator]) ++ (value ++ rest) by
      simp] at parts
    rw [parts, balanced_skip fun token isSkipped => (skips token isSkipped).1] at closed
    obtain ⟨balanced, behind⟩ := splitValue_balanced (show Balanced ([] ++ nesting) _ from closed)
    rw [length_nil, split] at balanced behind
    refine ⟨balanced, behind, fun depth => ?_⟩
    have inside : Balanced [] (splitValue ([] : List TokenKind).length (value ++ rest)).1 := by
      rw [length_nil, split]
      exact balanced
    have commas := splitValue_commas inside depth
    rw [length_nil, Nat.zero_add, split] at commas
    rw [parts, topLevelCommas_skip skips]
    exact commas
  | call _ _ group => exact grouped group
  | method _ group => exact grouped group

theorem path?_balanced (found : path? afterDot token tokens = some (path, after))
    (nesting : List TokenKind) :
    (Balanced nesting (token :: tokens) ↔ Balanced nesting after) ∧
      ∀ depth, topLevelCommas depth (token :: tokens) = topLevelCommas depth after := by
  obtain ⟨isSelf, _, names, rfl, isName, _⟩ := path?_split found
  simp only [Token.isIdent, Bool.and_eq_true, decide_eq_true_eq] at isSelf
  have plain : ∀ other ∈ token :: names, (other.kind.isOpen ≠ true ∧ other.kind.isClose ≠ true) ∧
      other.kind ≠ .comma := by
    intro other isOther
    rcases mem_cons.1 isOther with rfl | isOther
    · exact name_plain (.inr isSelf.1)
    · exact name_plain (isName other isOther)
  exact ⟨balanced_skip fun other isOther => (plain other isOther).1, topLevelCommas_skip plain⟩

end

section

variable {session : Session} {type : UserType} (readable : session.Readable)
  (member : type ∈ session.types) {text front inner back : Text} {reference : Reference}
variable {after : Text}

include readable member

theorem Writes.starts {afterDot : Bool} {tokens : List Token} {text : Text}
    (writes : Writes session type afterDot tokens text) (proper : ∀ token ∈ tokens, token.Proper) :
    ∃ front, (tokens.flatMap Token.text = front ∧ text = front) ∨
      ∃ more c cs, tokens.flatMap Token.text = front ++ 'S' :: more ∧ text = front ++ c :: cs ∧
        isIdentStart c = true := by
  cases writes with
  | nil => exact ⟨[], .inl ⟨rfl, rfl⟩⟩
  | @token _ token tokens text _ later =>
    obtain ⟨front, ⟨same, rfl⟩ | ⟨more, c, cs, same, rfl, start⟩⟩ :=
      later.starts fun other isOther => proper other (mem_cons_of_mem _ isOther)
    · exact ⟨token.text ++ text, .inl ⟨by rw [flatMap_cons, same], rfl⟩⟩
    · exact ⟨token.text ++ front, .inr ⟨more, c, cs, by rw [flatMap_cons, same]; simp, by simp,
        start⟩⟩
  | @reference _ token tokens _ _ _ reference inner text found uses _ _ _ =>
    have spelled := self_text (path?_split found).1
    have named := uses.named readable member (path?_identifiers found fun other isOther =>
      proper other (mem_cons_of_mem _ isOther))
    obtain ⟨c, cs, written, start⟩ := named.written inner
    refine ⟨[], .inr ⟨'E' :: 'L' :: 'F' :: tokens.flatMap Token.text, c,
      cs ++ [')'] ++ (reference.trailing inner ++ text), ?_, ?_, start⟩⟩
    · rw [flatMap_cons, spelled]
      rfl
    · rw [written]
      rfl

section

variable (writes : Writes session type afterDot tokens text)

include writes

theorem Writes.harmless (proper : ∀ token ∈ tokens, token.Proper)
    (safe : Harmless (tokens.flatMap Token.text ++ after)) : Harmless text := by
  obtain ⟨front, ⟨same, rfl⟩ | ⟨more, c, cs, same, rfl, start⟩⟩ :=
    writes.starts readable member proper
  · rw [same] at safe
    cases text with
    | nil => exact ⟨by simp, by simp⟩
    | cons d ds => exact safe
  · rw [same] at safe
    cases front with
    | nil =>
      constructor
      · rintro ⟨⟩
        cases start
      · rintro ⟨⟩
        cases start
    | cons d ds => exact safe

theorem Writes.keeps_feed {body feed : Text} (proper : ∀ token ∈ tokens, token.Proper)
    (ended : Ended after) (inLine : Commented body feed)
    (here : feed <+: tokens.flatMap Token.text ++ after) : feed <+: text := by
  obtain ⟨stop, tail, rfl, isStop⟩ := ended
  have inTokens := inLine.feed_front (stop_ne isStop (by simp))
    (stop_ne isStop (by simp)) here
  obtain ⟨front, ⟨same, rfl⟩ | ⟨more, c, cs, same, rfl, start⟩⟩ :=
    writes.starts readable member proper
  · rwa [same] at inTokens
  · rw [same] at inTokens
    exact (inLine.feed_front (by decide) (by decide) inTokens).trans (prefix_append _ _)

end

structure Occurs (session : Session) (type : UserType) (reference : Reference) (inner : Text) :
    Prop where
  uses : ∃ path after rest, path ≠ [] ∧ Uses session type path after reference rest
  named : reference.Named
  writes : Writes session type false reference.inner inner
  assigned : reference.assigns = true → inner.isBlank = false
  run : ∃ context, Token.Run context reference.inner
  balanced : Balanced [] reference.inner

theorem Refers.occurs (refers : Refers session type afterDot tokens front reference inner back)
    (run : Token.Run after tokens) (balanced : Balanced nesting tokens) :
    Occurs session type reference inner ∧ reference.inner ⊆ tokens := by
  induction refers generalizing after nesting with
  | @here afterDot token tokens behind rest path reference inner text found uses within assigned _ =>
    have balancedBehind := (path?_balanced found nesting).1.1 balanced
    refine ⟨⟨⟨path, behind, rest, (path?_split found).2.1, uses⟩, ?_, within, assigned,
      (uses.run (path?_run found run)).1, (uses.balanced balancedBehind).1⟩,
      Subset.trans uses.subset.1 (path?_subset found)⟩
    exact uses.named readable member (path?_identifiers found (forall_mem_cons.1 run.proper).2)
  | behindToken plain later ih =>
    obtain ⟨outer, behind⟩ := balanced.tail
    obtain ⟨occurs, sub⟩ := ih (run.suffix singleton_append.symm) behind
    exact ⟨occurs, Subset.trans sub (subset_cons_self _ _)⟩
  | behind found uses within assigned later ih =>
    have balancedBehind := (path?_balanced found nesting).1.1 balanced
    obtain ⟨occurs, sub⟩ := ih (uses.run (path?_run found run)).2 (uses.balanced balancedBehind).2.1
    exact ⟨occurs, Subset.trans (Subset.trans sub uses.subset.2) (path?_subset found)⟩
  | inside found uses within later ih =>
    have balancedBehind := (path?_balanced found nesting).1.1 balanced
    obtain ⟨context, inside⟩ := (uses.run (path?_run found run)).1
    obtain ⟨occurs, sub⟩ := ih inside (uses.balanced balancedBehind).1
    exact ⟨occurs, Subset.trans (Subset.trans sub uses.subset.1) (path?_subset found)⟩

omit readable member in
theorem written_inside {outer : Reference} (named : reference.Named) (front inner back : Text) :
    outer.written (front ++ (reference.written inner ++ back)) ++
        outer.trailing (front ++ (reference.written inner ++ back)) =
      (outer.name ++ '(' :: (selfName.toList ++ (", ".toList ++ front.trimStart))) ++
        (reference.written inner ++ ((if outer.assigns then back.trimEnd else back) ++
          ')' :: (if outer.assigns then back.trailingBlank else []))) := by
  obtain ⟨c, cs, written, start⟩ := named.written inner
  have first : isBlank c = false :=
    not_isBlank_of_isIdentPart (isIdentPart_of_isIdentStart start)
  have trimmed : Text.trimStart (front ++ (reference.written inner ++ back)) =
      front.trimStart ++ (reference.written inner ++ back) := by
    rw [written, cons_append, trimStart_append_cons first]
  have solid : Text.isBlank (front ++ (reference.written inner ++ back)) = false := by
    rw [written]
    simp [Text.isBlank, first]
  have tail : ∀ start : Text,
      Text.trimEnd (start ++ (reference.written inner ++ back)) =
        start ++ (reference.written inner ++ back.trimEnd) ∧
      Text.trailingBlank (start ++ (reference.written inner ++ back)) = back.trailingBlank := by
    intro start
    have last : Text.trimEnd ((start ++ c :: cs) ++ ')' :: back) =
          (start ++ c :: cs) ++ ')' :: back.trimEnd ∧
        Text.trailingBlank ((start ++ c :: cs) ++ ')' :: back) = back.trailingBlank :=
      trimEnd_append_cons (by decide)
    rw [written]
    simpa using last
  generalize reference.written inner = between at trimmed solid tail ⊢
  cases assigns : outer.assigns with
  | false =>
    have given : outer.given (front ++ (between ++ back)) =
        front.trimStart ++ (between ++ back) := by
      rw [Reference.given, assigns]
      exact trimmed
    have notBlank : Text.isBlank (front.trimStart ++ (between ++ back)) = false := by
      rw [← trimmed, isBlank_trimStart, solid]
    rw [Reference.written, Reference.arguments, given, if_neg (by simp [notBlank]),
      Reference.trailing, assigns]
    simp
  | true =>
    have given : outer.given (front ++ (between ++ back)) =
        front.trimStart ++ (between ++ back.trimEnd) := by
      rw [Reference.given, assigns, if_pos rfl, Text.trim, trimmed, (tail _).1]
    have notBlank : Text.isBlank (front.trimStart ++ (between ++ back.trimEnd)) = false := by
      rw [← (tail _).1, isBlank_trimEnd, ← trimmed, isBlank_trimStart, solid]
    rw [Reference.written, Reference.arguments, given, if_neg (by simp [notBlank]),
      Reference.trailing, assigns, if_pos rfl, (tail _).2]
    simp

theorem Refers.writes (refers : Refers session type afterDot tokens front reference inner back)
    (proper : ∀ token ∈ tokens, token.Proper) :
    reference.Named ∧
      Writes session type afterDot tokens (front ++ (reference.written inner ++ back)) := by
  induction refers with
  | here found uses within assigned later =>
    have behind := (forall_mem_cons.1 proper).2
    exact ⟨uses.named readable member (path?_identifiers found behind),
      .reference found uses within assigned later⟩
  | behindToken plain later ih =>
    obtain ⟨named, writes⟩ := ih (forall_mem_cons.1 proper).2
    rw [append_assoc]
    exact ⟨named, .token plain writes⟩
  | behind found uses within assigned later ih =>
    obtain ⟨named, writes⟩ := ih fun other isOther =>
      proper other (path?_subset found (uses.subset.2 isOther))
    rw [append_assoc, append_assoc]
    exact ⟨named, .reference found uses within assigned writes⟩
  | @inside afterDot token tokens behind rest path outer reference front inner back text found uses
      within later ih =>
    obtain ⟨named, writes⟩ := ih fun other isOther =>
      proper other (path?_subset found (uses.subset.1 isOther))
    have whole := Writes.reference found uses writes ?_ later
    · rw [← append_assoc, written_inside named] at whole
      exact ⟨named, by simpa using whole⟩
    · intro _
      obtain ⟨c, cs, written, start⟩ := named.written inner
      rw [written]
      simp [Text.isBlank, not_isBlank_of_isIdentPart (isIdentPart_of_isIdentStart start)]

end

end SelfReference

end FlatMemory
