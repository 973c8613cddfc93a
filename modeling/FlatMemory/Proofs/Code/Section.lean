import FlatMemory.Proofs.Code.Paste

/-! # Sources cut at their blocks

A source that can be read is a sequence of sections: tokens outside definitions, and blocks, each
from its marker through the word of its end mark.  Residual text, declarations and pasted text are
all read off the sections. -/

namespace FlatMemory

open List

variable {pieces : List Piece} {file : String} {session : Session}

inductive Section where
  | outside (token : Token)
  /-- A block with its tokens and what it declares. -/
  | block (tokens : List Token) (declaration : Declaration)
  deriving DecidableEq, Repr

namespace Section

def text : Section → Text
  | outside token => token.text
  | block tokens _ => tokens.flatMap Token.text

def residual : Section → Text
  | outside token => token.text
  | block _ _ => []

def declaration? : Section → Option Declaration
  | outside _ => none
  | block _ declaration => some declaration

end Section

def Session.codeOf (session : Session) (declaration : Declaration) : Option Text :=
  match session.types.find? fun type => type.declaration = declaration with
  | some type => (session.generate type).toOption.map Snippet.text
  | none => none

/-- The text of sections with generated code in place of the blocks.  `adjacent` says that a block
has just ended; code that follows right behind is parted from it by a line break. -/
def Section.pasted (session : Session) : Bool → List Section → Option Text
  | _, [] => some []
  | adjacent, outside token :: sections => do
    let later ← pasted session (adjacent && token.text.isEmpty) sections
    return token.text ++ later
  | adjacent, block _ declaration :: sections => do
    let code ← session.codeOf declaration
    let later ← pasted session true sections
    return (if adjacent then ['\n'] else []) ++ (code ++ later)

/-- The sections of a token stream, where `before` is the residual text so far. -/
inductive Sectioned (file : String) (endLine : Nat) : Text → List Token → List Section → Prop
  | done (before : Text) : Sectioned file endLine before [] []
  | outside {before : Text} {token : Token} {tokens : List Token} {sections : List Section}
    (notMarker : token.kind ≠ .defnStart)
    (later : Sectioned file endLine (before ++ token.text) tokens sections) :
    Sectioned file endLine before (token :: tokens) (.outside token :: sections)
  | block {before : Text} {marker mark word : Token} {inner rest : List Token}
    {declaration : Declaration} {sections : List Section} (isMarker : marker.kind = .defnStart)
    (isMark : Block.isAt mark = true) (isWord : word.kind = .ident) (isEnd : word.word = "end")
    (read : Block.definition file endLine marker.line (inner ++ mark :: word :: rest) =
      .ok (declaration, rest))
    (later : Sectioned file endLine before rest sections) :
    Sectioned file endLine before (marker :: (inner ++ mark :: word :: rest))
      (.block (marker :: (inner ++ [mark, word]))
        { declaration with origin := before.byteLength } :: sections)

namespace Sectioned

variable {endLine : Nat} {before : Text} {tokens : List Token} {sections : List Section}

theorem text (sectioned : Sectioned file endLine before tokens sections) :
    tokens.flatMap Token.text = sections.flatMap Section.text := by
  induction sectioned with
  | done => rfl
  | outside _ _ ih =>
    rw [flatMap_cons, flatMap_cons, ih]
    rfl
  | block _ _ _ _ _ _ ih =>
    rw [flatMap_cons, flatMap_cons, ← ih]
    simp [Section.text]

end Sectioned

namespace Block

variable {endLine : Nat} {tokens rest : List Token}

theorem definition_split {line : Nat} {found : Declaration} (streamed : Streamed tokens)
    (read : definition file endLine line tokens = .ok (found, rest)) :
    ∃ inner mark word, tokens = inner ++ mark :: word :: rest ∧ isAt mark = true ∧
      word.kind = .ident ∧ word.word = "end" := by
  obtain ⟨block, rfl, isBlock⟩ :=
    Grammar.block_of_definition (Grammar.worded_of_streamed streamed) read
  cases isBlock with
  | @mk _ _ _ header opening listed closing ending _ _ _ _ isEnding _ _ =>
    obtain ⟨mark, word, front, isMark, isEnd, ⟨trivia, rfl, _⟩, rfl⟩ := isEnding
    exact ⟨header ++ (opening ++ (listed ++ (closing ++ trivia))), mark, word, by simp, isMark,
      Token.isIdent_iff.1 isEnd⟩

end Block

inductive Piece.From : Piece → Section → Prop
  | copied (token : Token) : From (.copied token) (.outside token)
  | block (tokens : List Token) (declaration : Declaration) (origin : Nat) :
    From (.block declaration) (.block tokens { declaration with origin := origin })

/-- What is split into pieces has sections, and the declarations have the residual bytes before
their blocks for origins. -/
theorem Piece.sections_of_ofTokens {endLine : Nat} {tokens : List Token}
    (streamed : Streamed tokens) (read : ofTokens file endLine tokens = .ok pieces)
    (before : Text) :
    ∃ sections, Sectioned file endLine before tokens sections ∧
      List.Forall₂ From pieces sections ∧
      declarations before.byteLength pieces = sections.filterMap Section.declaration? := by
  fun_induction ofTokens file endLine tokens generalizing pieces before with
  | case1 =>
    cases read
    exact ⟨[], .done before, .nil, rfl⟩
  | case2 => cases read
  | case3 marker tokens isMarker found rest readBlock shorter ih =>
    obtain ⟨later, laterRead, rfl⟩ := exists_of_map_eq_ok read
    have ahead := (@Streamed.append [marker] tokens streamed).2
    obtain ⟨inner, mark, word, rfl, isMark, isWord, isEnd⟩ := Block.definition_split ahead readBlock
    have behind := (@Streamed.append [mark, word] rest ahead.append.2).2
    obtain ⟨sections, sectioned, matched, declared⟩ := ih behind laterRead before
    refine ⟨_, .block isMarker isMark isWord isEnd readBlock sectioned,
      .cons (.block _ found _) matched, ?_⟩
    rw [declarations, declared]
    rfl
  | case4 token tokens notMarker ih =>
    obtain ⟨later, laterRead, rfl⟩ := exists_of_map_eq_ok read
    have ahead := (@Streamed.append [token] tokens streamed).2
    obtain ⟨sections, sectioned, matched, declared⟩ := ih ahead laterRead (before ++ token.text)
    refine ⟨_, .outside notMarker sectioned, .cons (.copied token) matched, ?_⟩
    rw [declarations, ← Text.byteLength_append, declared]
    rfl

variable {sections : List Section}

theorem Piece.residual_of_from (matched : List.Forall₂ From pieces sections) :
    pieces.flatMap Piece.text = sections.flatMap Section.residual := by
  induction matched with
  | nil => rfl
  | cons head _ ih =>
    rw [flatMap_cons, flatMap_cons, ih]
    cases head with
    | copied token => rfl
    | block tokens declaration origin => rfl

section

variable {declarations : List Declaration} (loaded : Loaded declarations session)

include loaded

theorem Loaded.codeOf_eq {declaration : Declaration} {index : Nat} {type : UserType}
    {snippet : Snippet} (declared : declaration ∈ declarations)
    (found : session.types[index]? = some type) (named : type.name = declaration.name)
    (code : session.generate type = .ok snippet) :
    session.codeOf declaration = some snippet.text := by
  obtain ⟨other, same, foundOther, isDeclared⟩ := loaded.exists_type declared
  obtain ⟨answer, isAnswer⟩ : ∃ answer,
      session.types.find? (fun type => type.declaration = declaration) = some answer := by
    rw [← Option.isSome_iff_exists, find?_isSome]
    exact ⟨same, mem_of_getElem? foundOther, by simpa using isDeclared⟩
  obtain ⟨place, isThere⟩ := mem_iff_getElem?.1 (mem_of_find?_eq_some isAnswer)
  have answers : answer.declaration = declaration := by simpa using find?_some isAnswer
  obtain rfl : answer = type :=
    loaded.unique isThere found (by rw [named, UserType.name, answers])
  rw [Session.codeOf, isAnswer]
  dsimp only
  rw [code]
  rfl

/-- Woven pieces are pasted sections. -/
theorem Woven.pasted {adjacent : Bool} {text : Text} (woven : Woven session adjacent pieces text)
    (matched : List.Forall₂ Piece.From pieces sections)
    (included : ∀ declaration ∈ sections.filterMap Section.declaration?, declaration ∈ declarations)
    : Section.pasted session adjacent sections = some text := by
  induction woven generalizing sections with
  | done =>
    cases matched
    rfl
  | copied later ih =>
    cases matched with
    | cons head matched =>
      cases head with
      | copied token =>
        rw [Section.pasted, ih matched included]
        rfl
  | @block _ declaration _ _ _ _ _ found named code later ih =>
    cases matched with
    | cons head matched =>
      cases head with
      | block tokens _ origin =>
        have here := loaded.codeOf_eq
          (included { declaration with origin := origin } mem_cons_self) found named code
        rw [Section.pasted, here, ih matched fun other member =>
          included other (mem_cons_of_mem _ member)]
        rfl

omit loaded in
/-- What is read from a source are its sections. -/
theorem Document.sections_of_read {source : Text} {document : Document}
    (read : Document.read file source = .ok document) :
    ∃ tokens pieces sections, tokenize source = .ok tokens ∧ document = .ofPieces file pieces ∧
      Sectioned file (Document.endLine tokens) [] tokens sections ∧
      List.Forall₂ Piece.From pieces sections ∧
      document.declarations = sections.filterMap Section.declaration? := by
  obtain ⟨tokens, pieces, lexed, split, rfl⟩ := Document.read_ok read
  obtain ⟨after, reads, _⟩ := (tokenizeFrom_eq_ok_iff 1 source tokens).1 lexed
  obtain ⟨sections, sectioned, matched, declared⟩ :=
    Piece.sections_of_ofTokens ⟨_, after, reads⟩ split []
  exact ⟨tokens, pieces, sections, lexed, rfl, sectioned, matched, declared⟩

theorem Loaded.pasted_sections (matched : List.Forall₂ Piece.From pieces sections)
    (declared : Piece.declarations 0 pieces = sections.filterMap Section.declaration?)
    (included : ∀ declaration ∈ Piece.declarations 0 pieces, declaration ∈ declarations)
    {pasted : Pasted} (pasting : session.paste (.ofPieces file pieces) = .ok pasted) :
    Section.pasted session false sections = some pasted.text := by
  rcases loaded.paste_cases file included with
    ⟨result, isResult, woven⟩ | ⟨failure, _, _, failed, _⟩
  · rw [pasting] at isResult
    cases isResult
    rw [declared] at included
    exact woven.pasted loaded matched included
  · rw [pasting] at failed
    cases failed

end

/-- A document whose declarations are registered and analysed is pasted as its source with each block
replaced by the code of its declaration, and its residual text is the source without the blocks. -/
theorem paste_keeps_source {declarations : List Declaration} {session : Session}
    (loaded : Loaded declarations session) {file : String} {source : Text} {document : Document}
    {pasted : Pasted} (read : Document.read file source = .ok document)
    (included : ∀ declaration ∈ document.declarations, declaration ∈ declarations)
    (pasting : session.paste document = .ok pasted) :
    ∃ tokens sections, tokenize source = .ok tokens ∧
      Sectioned file (Document.endLine tokens) [] tokens sections ∧
      source = sections.flatMap Section.text ∧
      document.residual = sections.flatMap Section.residual ∧
      document.declarations = sections.filterMap Section.declaration? ∧
      Section.pasted session false sections = some pasted.text := by
  obtain ⟨tokens, pieces, sections, lexed, rfl, sectioned, matched, declared⟩ :=
    Document.sections_of_read read
  exact ⟨tokens, sections, lexed, sectioned, by rw [text_of_tokenizeFrom lexed, sectioned.text],
    Piece.residual_of_from matched, declared,
    loaded.pasted_sections matched declared included pasting⟩

/-- Two blocks side by side, one at a distance, and text of several bytes and lines around them. -/
def sampleBlocks : Text := "\u00e9;`a\r\nb`@flatjs struct A\x7bx:int8;\x7d@end@flatjs struct B\x7ba:A;
@get(SELF)\x7breturn SELF.a.x;\x7d\x7d@end/*\n*/\n@flatjs class C\x7b\x7d\n@end//\u00e9".toList

theorem paste_keeps_source_sample : ∃ document declarations session pasted tokens sections,
    Document.read "sample" sampleBlocks = .ok document ∧ Loaded declarations session ∧
    (∀ declaration ∈ document.declarations, declaration ∈ declarations) ∧
    session.paste document = .ok pasted ∧
    document.declarations.map Declaration.origin = [9, 9, 15] ∧
    tokenize sampleBlocks = .ok tokens ∧
    Sectioned "sample" (Document.endLine tokens) [] tokens sections ∧
    sampleBlocks = sections.flatMap Section.text ∧
    document.residual = sections.flatMap Section.residual ∧
    document.declarations = sections.filterMap Section.declaration? ∧
    Section.pasted session false sections = some pasted.text := by
  have accepted : (do
      let document ← Document.read "sample" sampleBlocks
      let session ← Session.ofDocuments [document]
      let _ ← session.paste document
      return document.declarations.map Declaration.origin) = Except.ok [9, 9, 15] := by
    decide +kernel
  obtain ⟨document, read, accepted⟩ := exists_of_bind_eq_ok accepted
  obtain ⟨session, analysed, accepted⟩ := exists_of_bind_eq_ok accepted
  obtain ⟨pasted, pasting, origins⟩ := exists_of_bind_eq_ok accepted
  have loaded := (Accepts.ofDocument read analysed).loaded
  obtain ⟨tokens, sections, kept⟩ := paste_keeps_source loaded read (fun _ member => member) pasting
  exact ⟨document, _, session, pasted, tokens, sections, read, loaded, fun _ member => member, pasting,
    Except.ok.inj origins, kept⟩

end FlatMemory
