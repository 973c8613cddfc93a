import FlatMemory.Document.Reader
import FlatMemory.Proofs.Token.Boundary
import FlatMemory.Proofs.Types.Declaration

/-! # Tokens of a source

At any point of a definition the tokens ahead are a stretch of the token stream of the source, and
the text of a body between its braces, lexed on its own, gives back the tokens it was captured
from. -/

namespace FlatMemory

open List

variable {tokens : List Token} {declaration : Declaration} {endLine : Nat} {token : Token}

def Streamed (tokens : List Token) : Prop := ∃ lexer after, Reads lexer tokens after

theorem Streamed.append {front rest : List Token} (streamed : Streamed (front ++ rest)) :
    Streamed front ∧ Streamed rest := by
  obtain ⟨lexer, after, reads⟩ := streamed
  obtain ⟨middle, ahead, behind⟩ := reads.split
  exact ⟨⟨lexer, middle, ahead⟩, middle, after, behind⟩

theorem Streamed.proper (streamed : Streamed tokens) (member : token ∈ tokens) : token.Proper := by
  obtain ⟨lexer, after, reads⟩ := streamed
  exact reads.proper token member

theorem Token.Proper.identifier (proper : token.Proper) (ident : token.kind = .ident) :
    IsIdentifier token.word := by
  rcases proper with ⟨reset, _⟩ | spelled
  · rw [ident] at reset
    cases reset
  · rw [ident] at spelled
    obtain ⟨c, cs, text, start, parts⟩ := spelled
    exact ⟨c, cs, by rw [Token.word, String.toList_ofList, text], start, parts⟩

namespace Block

variable {rest : List Token} {found : Declaration} {kind : MethodKind}
  {what name method type : String} {inner : List Token} {line : Nat} {isClass : Bool}

theorem annotation?_split (read : annotation? tokens = some (token, rest)) :
    tokens = token :: rest ∧ token.kind = .ident := by
  cases tokens with
  | nil => cases read
  | cons first later =>
    simp only [annotation?] at read
    split at read
    · next ident =>
      cases read
      exact ⟨rfl, ident⟩
    · cases read

/-! ### Bodies -/

/-- A body ends at its closing brace, and its brackets close. -/
theorem bodyTokens_spec {openingLine : Nat} {nesting : List TokenKind}
    (read : bodyTokens method openingLine nesting tokens = .ok (inner, rest)) :
    Balanced nesting inner ∧ ∃ close, close.kind = .rBrace ∧ tokens = inner ++ close :: rest := by
  induction tokens generalizing nesting inner with
  | nil => cases read
  | cons token tokens ih =>
    have step : ∀ {nesting inner},
        (bodyTokens method openingLine nesting tokens).map
          (fun found => (token :: found.1, found.2)) = .ok (inner, rest) →
        ∃ later, inner = token :: later ∧ Balanced nesting later ∧
          ∃ close, close.kind = .rBrace ∧ token :: tokens = inner ++ close :: rest := by
      intro nesting inner mapped
      obtain ⟨⟨later, _⟩, result, same⟩ := exists_of_map_eq_ok mapped
      cases same
      obtain ⟨balanced, close, kind, whole⟩ := ih result
      exact ⟨later, rfl, balanced, close, kind, by rw [whole]; rfl⟩
    unfold bodyTokens at read
    dsimp only at read
    split at read
    · next opens =>
      obtain ⟨later, rfl, balanced, split⟩ := step read
      exact ⟨(balanced_open opens).2 balanced, split⟩
    split at read
    · next notOpen closes =>
      split at read
      · split at read
        · next brace =>
          cases read
          exact ⟨rfl, token, brace, rfl⟩
        · cases read
      · next opener outer =>
        split at read
        · next matches' =>
          obtain ⟨later, rfl, balanced, split⟩ := step read
          exact ⟨(balanced_close notOpen closes).2 ⟨matches', balanced⟩, split⟩
        · cases read
    · next notOpen notClose =>
      obtain ⟨later, rfl, balanced, split⟩ := step read
      exact ⟨(balanced_plain notOpen notClose).2 balanced, split⟩

/-- What stands between braces in a stream can be cut into the same tokens on its own. -/
theorem isBody_between {opening close : Token}
    (streamed : Streamed (opening :: (inner ++ close :: rest))) (isOpening : opening.kind = .lBrace)
    (isClose : close.kind = .rBrace) (balanced : Balanced [] inner) :
    IsBody opening.line (inner.flatMap Token.text) inner := by
  have braces : close.text = ['}'] := by
    rcases streamed.proper (by simp : close ∈ _) with ⟨reset, _⟩ | spelled
    · rw [isClose] at reset
      cases reset
    · rwa [isClose] at spelled
  obtain ⟨lexer, final, reads⟩ := streamed
  cases reads with
  | @token _ middle _ _ _ next _ behind =>
    -- An opening brace stays on its line, so the lexer behind it is that of a text of its own.
    rcases Lexer.next_cases next with ⟨_, rfl, _⟩ | ⟨_, rfl, _⟩ |
      ⟨c, cs, lexeme, _, _, cut, rfl, rfl⟩
    · cases isOpening
    · cases isOpening
    · have spelled := Lexeme.spelled_first cut
      rw [show lexeme.kind = .lBrace from isOpening] at spelled
      have breaks : Text.lineBreaks lexeme.text = 0 := by
        rw [show lexeme.text = ['{'] from spelled]
        rfl
      rw [breaks, Nat.add_zero] at behind
      have captured := tokenizeFrom_between (by decide) braces (by simp) behind
      refine ⟨captured, balanced, ?_⟩
      obtain ⟨middle, front, back⟩ := behind.split
      refine ⟨_, middle, rest.flatMap Token.text ++ final.rest, front, ?_⟩
      rw [back.text, flatMap_cons, braces]
      simp

/-! ### Declarations -/

theorem checkUnique_ok (unique : checkUnique declaration name line = .ok ()) :
    declaration.hasMember name = false := by
  unfold checkUnique at unique
  split at unique
  · cases unique
  · next free => simpa using free

end Block

/-! ### Documents -/

namespace Piece

variable {pieces : List Piece}

theorem mem_declarations :
    ∀ offset, declaration ∈ declarations offset pieces →
      ∃ original origin, block original ∈ pieces ∧
        declaration = { original with origin := origin } := by
  induction pieces with
  | nil => intro offset member; cases member
  | cons piece pieces ih =>
    intro offset member
    cases piece with
    | copied token =>
      obtain ⟨original, origin, found, same⟩ := ih _ member
      exact ⟨original, origin, mem_cons_of_mem _ found, same⟩
    | block first =>
      rcases mem_cons.1 member with same | member
      · exact ⟨first, offset, mem_cons_self, same⟩
      · obtain ⟨original, origin, found, same⟩ := ih _ member
        exact ⟨original, origin, mem_cons_of_mem _ found, same⟩

end Piece

def Declaration.Parsed (declaration : Declaration) : Prop :=
  ∃ file source document, Document.read file source = .ok document ∧
    declaration ∈ document.declarations

/-- A document that was read: its tokens and the pieces they were split into. -/
theorem Document.read_ok {file : String} {source : Text} {document : Document}
    (read : Document.read file source = .ok document) :
    ∃ tokens pieces, tokenize source = .ok tokens ∧
      Piece.ofTokens file (Document.endLine tokens) tokens = .ok pieces ∧
      document = ofPieces file pieces := by
  unfold Document.read at read
  split at read
  · cases read
  · next tokens lexed =>
    split at read
    · cases read
    · next found split =>
      cases read
      obtain ⟨pieces, isSplit, same⟩ := exists_of_map_eq_ok split
      exact ⟨tokens, pieces, lexed, isSplit, same.symm⟩

end FlatMemory
