import FlatMemory.Proofs.Result
import FlatMemory.Token.Stream
import Mathlib.Data.List.TakeWhile

/-! # Token streams as a relation

`Reads lexer tokens after`: asked again and again, the lexer answers with these tokens and is then
in the state `after`.  A text is cut into tokens exactly if such a reading gets to its end. -/

namespace FlatMemory

open List

namespace Lexeme

variable {c : Char} {cs : Text} {lexeme : Lexeme}

def Spelled : TokenKind → Text → Prop
  | .ident, text =>
    ∃ c cs, text = c :: cs ∧ isIdentStart c = true ∧ ∀ d ∈ cs, isIdentPart d = true
  | .dot, text => text = ['.']
  | .ellipsis, text => text = ['.', '.', '.']
  | .assign, text => String.ofList text ∈ Operator.assignments
  | .lParen, text => text = ['(']
  | .rParen, text => text = [')']
  | .lBracket, text => text = ['[']
  | .rBracket, text => text = [']']
  | .lBrace, text => text = ['{']
  | .rBrace, text => text = ['}']
  | .comma, text => text = [',']
  | .semicolon, text => text = [';']
  | .colon, text => text = [':']
  | .defnStart, text => ∃ name, text = '@' :: name
  | .lineReset, _ => False
  | .eof, _ => False
  | _, _ => True

theorem spelled_punctuation {kind : TokenKind} (found : punctuation? c = some kind) :
    Spelled kind [c] := by
  unfold punctuation? at found
  split at found
  all_goals cases found
  all_goals rfl

theorem spelled_operator (c : Char) (cs : Text) :
    Spelled (operator c cs).kind (operator c cs).text := by
  unfold operator
  split
  · trivial
  · next n _ =>
    dsimp only
    unfold Operator.kind
    have back : ∀ word : String, String.ofList (c :: cs.take n) = word →
        c :: cs.take n = word.toList := by
      intro word same
      rw [← same, String.toList_ofList]
    split
    · next same => exact back "." same
    split
    · next same => exact back "..." same
    split
    · next member => exact member
    · trivial

theorem spelled_first (cut : first c cs = .ok lexeme) : Spelled lexeme.kind lexeme.text := by
  unfold first at cut
  split at cut
  · cases cut
    trivial
  split at cut
  · cases cut
    unfold carriageReturn
    split <;> trivial
  split at cut
  · cases cut
    trivial
  split at cut
  · next start =>
    cases cut
    exact ⟨c, _, rfl, start, fun d member => mem_takeWhile_imp member⟩
  split at cut
  · cases cut
    trivial
  split at cut
  · obtain ⟨_, _, rfl⟩ := exists_of_map_eq_ok cut
    trivial
  split at cut
  · obtain ⟨_, _, rfl⟩ := exists_of_map_eq_ok cut
    trivial
  split at cut
  · unfold slash at cut
    split at cut
    · cases cut
      trivial
    · obtain ⟨_, _, rfl⟩ := exists_of_map_eq_ok cut
      trivial
    · cases cut
      exact spelled_operator '/' cs
  split at cut
  · cases cut
    unfold marker
    dsimp only
    split
    · exact ⟨_, rfl⟩
    split
    · trivial
    · trivial
  split at cut
  · next found =>
    cases cut
    exact spelled_punctuation found
  · cases cut
    exact spelled_operator c cs

theorem kind_first (cut : first c cs = .ok lexeme) :
    lexeme.kind ≠ .lineReset ∧ lexeme.kind ≠ .eof := by
  have spelled := spelled_first cut
  constructor
  · intro kind
    rwa [kind] at spelled
  · intro kind
    rwa [kind] at spelled

end Lexeme

def Token.Proper (token : Token) : Prop :=
  token.kind = .lineReset ∧ token.text = [] ∨ Lexeme.Spelled token.kind token.text

namespace Lexer

variable {after : Lexer} {lexer : Lexer} {token : Token}

def AtEnd (lexer : Lexer) : Prop := lexer.rest = [] ∧ lexer.resetDue = false

/-- What a lexer can do: give a marker that is due, stay at the end, or cut a token off. -/
theorem next_cases (step : lexer.next = (.ok token, after)) :
    (lexer.resetDue = true ∧ token = ⟨.lineReset, [], lexer.line⟩ ∧
      after = { lexer with resetDue := false }) ∨
    (lexer.AtEnd ∧ token = ⟨.eof, [], lexer.line⟩ ∧ after = lexer) ∨
    ∃ c cs lexeme, lexer.resetDue = false ∧ lexer.rest = c :: cs ∧
      Lexeme.first c cs = .ok lexeme ∧ token = ⟨lexeme.kind, lexeme.text, lexer.line⟩ ∧
      after = ⟨lexeme.rest, lexer.line + Text.lineBreaks lexeme.text,
        lexeme.kind ≠ .linebreak ∧ 0 < Text.lineBreaks lexeme.text⟩ := by
  unfold next at step
  by_cases due : lexer.resetDue = true
  · rw [if_pos due] at step
    obtain ⟨same, rfl⟩ := Prod.mk.inj step
    exact .inl ⟨due, (Except.ok.inj same).symm, rfl⟩
  · rw [if_neg due] at step
    have notDue : lexer.resetDue = false := by simpa using due
    right
    split at step
    · next atEnd =>
      obtain ⟨same, rfl⟩ := Prod.mk.inj step
      exact .inl ⟨⟨atEnd, notDue⟩, (Except.ok.inj same).symm, rfl⟩
    · next c cs text =>
      split at step
      · simp at step
      · next lexeme cut =>
        obtain ⟨same, rfl⟩ := Prod.mk.inj step
        exact .inr ⟨c, cs, lexeme, notDue, text, cut, (Except.ok.inj same).symm, rfl⟩

theorem next_of_atEnd (atEnd : lexer.AtEnd) : lexer.next = (.ok ⟨.eof, [], lexer.line⟩, lexer) := by
  obtain ⟨rest, due⟩ := atEnd
  simp [next, rest, due]

section

variable (step : lexer.next = (.ok token, after))

include step

theorem proper_of_next (more : token.kind ≠ .eof) : token.Proper := by
  rcases next_cases step with ⟨_, rfl, _⟩ | ⟨_, rfl, _⟩ | ⟨c, cs, lexeme, _, _, cut, rfl, _⟩
  · exact .inl ⟨rfl, rfl⟩
  · exact absurd rfl more
  · exact .inr (Lexeme.spelled_first cut)

theorem text_of_next : lexer.rest = token.text ++ after.rest := by
  rcases next_cases step with ⟨_, rfl, rfl⟩ | ⟨_, rfl, rfl⟩ | ⟨c, cs, lexeme, _, text, cut, rfl, rfl⟩
  · rfl
  · rfl
  · have advances := Lexeme.advances_first c cs
    rw [cut] at advances
    rw [text]
    exact advances.1.symm

theorem line_of_next :
    token.line = lexer.line ∧ after.line = lexer.line + token.text.lineBreaks := by
  rcases next_cases step with
    ⟨_, rfl, rfl⟩ | ⟨_, rfl, rfl⟩ | ⟨c, cs, lexeme, _, _, _, rfl, rfl⟩
  · exact ⟨rfl, rfl⟩
  · exact ⟨rfl, rfl⟩
  · exact ⟨rfl, rfl⟩

theorem eof_iff : token.kind = .eof ↔ lexer.AtEnd := by
  rcases next_cases step with ⟨due, rfl, _⟩ | ⟨atEnd, rfl, _⟩ | ⟨c, cs, lexeme, _, text, cut, rfl, _⟩
  · simp [AtEnd, due]
  · simp [atEnd]
  · constructor
    · intro eof
      exact absurd eof (Lexeme.kind_first cut).2
    · intro atEnd
      rw [atEnd.1] at text
      cases text

end

end Lexer

inductive Reads : Lexer → List Token → Lexer → Prop
  | done (lexer : Lexer) : Reads lexer [] lexer
  | token {lexer middle after : Lexer} {token : Token} {tokens : List Token}
    (next : lexer.next = (.ok token, middle)) (more : token.kind ≠ .eof)
    (later : Reads middle tokens after) : Reads lexer (token :: tokens) after

namespace Reads

variable {lexer middle after : Lexer} {tokens later : List Token}

theorem split {first second : List Token} (reads : Reads lexer (first ++ second) after) :
    ∃ middle, Reads lexer first middle ∧ Reads middle second after := by
  induction first generalizing lexer with
  | nil => exact ⟨lexer, .done lexer, reads⟩
  | cons token first ih =>
    cases reads with
    | token next more goesOn =>
      obtain ⟨middle, before, behind⟩ := ih goesOn
      exact ⟨middle, .token next more before, behind⟩

theorem text (reads : Reads lexer tokens after) :
    lexer.rest = tokens.flatMap Token.text ++ after.rest := by
  induction reads with
  | done lexer => rfl
  | token next _ _ ih =>
    rw [Lexer.text_of_next next, ih, flatMap_cons, append_assoc]

theorem line (reads : Reads lexer tokens after) :
    after.line = lexer.line + Text.lineBreaks (tokens.flatMap Token.text) := by
  induction reads with
  | done lexer => rfl
  | @token lexer middle after token tokens next more _ ih =>
    rw [ih, (Lexer.line_of_next next).2, flatMap_cons, Text.lineBreaks_append, Nat.add_assoc]

theorem token_line {token : Token} (reads : Reads lexer (tokens ++ token :: later) after) :
    token.line = lexer.line + Text.lineBreaks (tokens.flatMap Token.text) := by
  obtain ⟨middle, before, behind⟩ := reads.split
  rw [← before.line]
  cases behind with
  | token next _ _ => exact (Lexer.line_of_next next).1

theorem proper (reads : Reads lexer tokens after) : ∀ token ∈ tokens, token.Proper := by
  induction reads with
  | done lexer => simp
  | token next more _ ih =>
    intro token member
    rcases mem_cons.1 member with rfl | member
    · exact Lexer.proper_of_next next more
    · exact ih token member

end Reads

/-- The answers are all tokens exactly if the lexer reads these tokens up to the end. -/
theorem Lexer.answers_eq_ok_iff (lexer : Lexer) :
    ∀ tokens, lexer.answers.1.mapM id = .ok tokens ↔
      ∃ after, Reads lexer tokens after ∧ after.AtEnd := by
  fun_induction Lexer.answers lexer with
  | case1 lexer token after step eof =>
    intro tokens
    have atEnd := (Lexer.eof_iff step).1 eof
    constructor
    · intro none
      cases none
      exact ⟨lexer, .done lexer, atEnd⟩
    · rintro ⟨final, reads, _⟩
      cases reads with
      | done => rfl
      | token next more _ =>
        rw [step] at next
        cases next
        exact absurd eof more
  | case2 lexer token after step more shorter later final found ih =>
    intro tokens
    rw [found] at ih
    have answers : ((.ok token :: later : List (Except LexError Token)).mapM id = .ok tokens) ↔
        ∃ rest, later.mapM id = .ok rest ∧ tokens = token :: rest := by
      rw [mapM_cons]
      cases result : later.mapM id with
      | error error => simp [bind, Except.bind]
      | ok rest => simp [bind, Except.bind, pure, Except.pure, eq_comm]
    rw [answers]
    constructor
    · rintro ⟨rest, rested, rfl⟩
      obtain ⟨last, reads, atEnd⟩ := (ih rest).1 rested
      exact ⟨last, .token step more reads, atEnd⟩
    · rintro ⟨last, reads, atEnd⟩
      cases reads with
      | done =>
        exact absurd ((Lexer.eof_iff step).2 atEnd) more
      | @token _ middle _ other rest next _ goesOn =>
        rw [step] at next
        cases next
        exact ⟨rest, (ih rest).2 ⟨last, goesOn, atEnd⟩, rfl⟩
  | case3 lexer error after step shorter later final found ih =>
    intro tokens
    constructor
    · intro answers
      rw [mapM_cons] at answers
      cases answers
    · rintro ⟨last, reads, atEnd⟩
      cases reads with
      | done =>
        rw [Lexer.next_of_atEnd atEnd] at step
        cases step
      | token next _ _ =>
        rw [step] at next
        cases next

theorem tokenizeFrom_eq_ok_iff (line : Nat) (text : Text) (tokens : List Token) :
    tokenizeFrom line text = .ok tokens ↔
      ∃ after, Reads (Lexer.ofText text line) tokens after ∧ after.AtEnd :=
  Lexer.answers_eq_ok_iff (Lexer.ofText text line) tokens

theorem text_of_tokenizeFrom {line : Nat} {text : Text} {tokens : List Token}
    (lexed : tokenizeFrom line text = .ok tokens) : text = tokens.flatMap Token.text := by
  obtain ⟨after, reads, atEnd, _⟩ := (tokenizeFrom_eq_ok_iff line text tokens).1 lexed
  have whole := reads.text
  rwa [atEnd, append_nil] at whole

end FlatMemory
