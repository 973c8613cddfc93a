import FlatMemory.Proofs.Text.Scan
import FlatMemory.Proofs.Token.Shape

/-! # Scanning a text that can be lexed

At every token of a text the scanner of plain text takes what the lexer takes: a comment, a string
or a template literal as a whole, anything else character by character.  The one exception is a
string with an escaped CRLF pair, which the scanner leaves at the line feed. -/

namespace FlatMemory

open List Literal Token

variable {lexer after : Lexer}

namespace Token

variable {token : Token} {later : Text}

def isOpaque (token : Token) : Bool :=
  token.kind = .comment || token.isString || token.text.head? = some '\x60'

/-- What a scan takes of an opaque token in front of a text.  The carriage return of a CRLF pair is
taken with the line comment in front of it. -/
def opaqueCut (token : Token) (later : Text) : Cut :=
  match later with
  | '\r' :: '\n' :: more =>
    if token.isLineComment then ⟨token.text ++ ['\r'], '\n' :: more⟩ else ⟨token.text, later⟩
  | _ => ⟨token.text, later⟩

structure Scanned (token : Token) (later : Text) : Prop where
  code : token.isOpaque = false → ∀ c more, c :: more <:+ token.text →
    Literal.first? (c :: (more ++ later)) = none
  whole : token.isOpaque = true → ¬ token.Continues →
    Literal.first? (token.text ++ later) = some (token.opaqueCut later)
  short : token.Continues → ∃ start more, token.text = start ++ brokenLine ++ more ∧
    Literal.first? (token.text ++ later) = some ⟨start ++ ['\\', '\r'], '\n' :: (more ++ later)⟩

theorem opaqueCut_of_not_line (notLine : token.isLineComment = false) (later : Text) :
    token.opaqueCut later = ⟨token.text, later⟩ := by
  unfold opaqueCut
  split
  · rw [if_neg (by simp [notLine])]
  · rfl

theorem opaqueCut_cases (token : Token) (later : Text) :
    token.opaqueCut later = ⟨token.text, later⟩ ∨
      ∃ more, later = '\r' :: more ∧ token.opaqueCut later = ⟨token.text ++ ['\r'], more⟩ := by
  unfold opaqueCut
  split
  · split
    · exact .inr ⟨_, rfl, rfl⟩
    · exact .inl rfl
  · exact .inl rfl

theorem Continues.isOpaque (continues : token.Continues) : token.isOpaque = true := by
  simp [Token.isOpaque, continues.1]

theorem scanned_plain (code : token.isOpaque = false)
    (opens : ∀ c more, c :: more <:+ token.text → Literal.first? (c :: (more ++ later)) = none) :
    token.Scanned later where
  code := fun _ => opens
  whole := fun isOpaque => by rw [code] at isOpaque; cases isOpaque
  short := fun continues => by rw [continues.isOpaque] at code; cases code

theorem scanned_sealed (isOpaque : token.isOpaque = true)
    (closed : ¬ token.Continues → Literal.Sealed token.text) (notLine : token.isLineComment = false)
    (short : token.Continues → ∃ start more, token.text = start ++ brokenLine ++ more ∧
      Literal.first? (token.text ++ later) =
        some ⟨start ++ ['\\', '\r'], '\n' :: (more ++ later)⟩) :
    token.Scanned later where
  code := fun code => by rw [isOpaque] at code; cases code
  whole := fun _ unbroken => by
    rw [opaqueCut_of_not_line notLine]
    exact (closed unbroken).first later
  short := short

end Token

namespace Lexeme

variable {quote : Char} {text : Text} {kind : TokenKind}

theorem Quoted.unbroken (isQuote : quote = '"' ∨ quote = '\x27') (closed : Quoted quote text) :
    text.head? ≠ some '\n' ∧ text.head? ≠ some '\r' := by
  cases closed with
  | close => rcases isQuote with rfl | rfl <;> decide
  | pair => exact ⟨by simp, by simp⟩
  | escape => exact ⟨by simp, by simp⟩
  | plain _ _ notBreak => simpa [not_or] using notBreak

/-- The scanner leaves a string at the first line feed that a backslash and a carriage return stand
before. -/
theorem Quoted.short (isQuote : quote = '"' ∨ quote = '\x27') (closed : Quoted quote text)
    (broken : brokenLine <:+: text) (rest : Text) :
    ∃ start more, text = start ++ brokenLine ++ more ∧
      Literal.quoted quote (text ++ rest) = ⟨start ++ ['\\', '\r'], '\n' :: (more ++ rest)⟩ := by
  have notFeed : '\n' ≠ quote := by rcases isQuote with rfl | rfl <;> decide
  induction closed with
  | close =>
    obtain ⟨start, more, same⟩ := broken
    have lengths := congrArg List.length same
    simp only [brokenLine, length_append, length_cons, length_nil] at lengths
    omega
  | @pair more =>
    refine ⟨[], more, rfl, ?_⟩
    simp only [cons_append, Literal.quoted]
    rw [quoted_cons (by decide), if_neg notFeed, if_pos rfl]
    rfl
  | @escape c more _ later ih =>
    obtain ⟨noFeed, noReturn⟩ := later.unbroken isQuote
    have inside : brokenLine <:+: more := by
      rcases infix_cons_iff.1 broken with ⟨more, same⟩ | later
      · simp only [brokenLine, cons_append, nil_append, List.cons.injEq] at same
        rw [← same.2.2] at noFeed
        simp at noFeed
      rcases infix_cons_iff.1 later with ⟨more, same⟩ | inside
      · simp only [brokenLine, cons_append, nil_append, List.cons.injEq] at same
        rw [← same.2] at noReturn
        simp at noReturn
      · exact inside
    obtain ⟨start, more, rfl, left⟩ := ih inside
    refine ⟨'\\' :: c :: start, more, rfl, ?_⟩
    simp only [cons_append, Literal.quoted]
    rw [left]
    rfl
  | @plain c more notEscape notQuote notBreak _ ih =>
    have inside : brokenLine <:+: more := by
      rcases infix_cons_iff.1 broken with ⟨more, same⟩ | inside
      · exact absurd (List.cons.inj same).1.symm notEscape
      · exact inside
    obtain ⟨start, more, rfl, left⟩ := ih inside
    refine ⟨c :: start, more, rfl, ?_⟩
    rw [cons_append, quoted_cons notEscape, if_neg notQuote,
      if_neg fun feed => notBreak (.inl feed), left]
    rfl

theorem isOpaque_inert (line : Nat) (chars : ∀ d ∈ text, isPlain d = true)
    (noComment : kind ≠ .comment) : Token.isOpaque ⟨kind, text, line⟩ = false := by
  have differs : ∀ d, isPlain d = false → text.head? ≠ some d := by
    intro d special head
    rw [chars d (mem_of_head? head)] at special
    cases special
  simp [Token.isOpaque, Token.isString, noComment, differs '"' (by decide),
    differs '\x27' (by decide), differs '\x60' (by decide)]

theorem scanned_inert (line : Nat) (later : Text) (chars : ∀ d ∈ text, isPlain d = true)
    (noComment : kind ≠ .comment) : Token.Scanned ⟨kind, text, line⟩ later := by
  refine scanned_plain (isOpaque_inert line chars noComment) ?_
  intro c more isRest
  exact first?_of_isPlain (chars c (isRest.mem mem_cons_self)) _

theorem scanned_lineComment (ds : Text) (line : Nat) :
    Token.Scanned ⟨.comment, '/' :: '/' :: (lineComment ds).taken, line⟩ (lineComment ds).rest := by
  obtain ⟨inLine, ends⟩ := lineComment_spec ds
  generalize (lineComment ds).taken = body at inLine ⊢
  generalize (lineComment ds).rest = later at ends ⊢
  refine ⟨fun code => by simp [Token.isOpaque] at code, fun _ _ => ?_, fun continues => ?_⟩
  · rcases ends with rfl | ⟨_, more, rfl, _, rfl | ⟨rfl, _⟩⟩
    · have all : ∀ c ∈ body, decide (c ≠ '\n') = true := by
        intro c member
        simpa using fun same : c = '\n' => inLine (same ▸ member)
      rw [append_nil, Literal.first?, Literal.lineComment, Cut.span,
        takeWhile_eq_self_iff.2 all, dropWhile_eq_nil_iff.2 all]
      rfl
    · have still : '\n' ∉ body ++ ['\r'] := by simpa using inLine
      simpa [Token.opaqueCut, Token.isLineComment] using first?_comment still more
    · simpa [Token.opaqueCut] using first?_comment inLine more
  · have isString := continues.1
    simp [Token.isString] at isString

/-- The first token of a text is scanned as the lexer cuts it, or short of a line feed. -/
theorem scanned_first {c : Char} {cs : Text} {lexeme : Lexeme} (cut : first c cs = .ok lexeme)
    (line : Nat) : Token.Scanned ⟨lexeme.kind, lexeme.text, line⟩ lexeme.rest := by
  cases shape_first cut with
  | inert chars _ noComment =>
    exact scanned_inert line _ (fun d member => (Bool.and_eq_true _ _ ▸ chars d member).1) noComment
  | @punctuation kind found same =>
    subst same
    have plain := plain_punctuation found
    exact scanned_inert line cs (by simpa using plain.1) plain.2
  | @quoted inner isQuote found same =>
    subst same
    have isString : Token.isString ⟨.other, c :: inner.taken, line⟩ = true :=
      isString_quoted isQuote _ _ _
    refine scanned_sealed (by simp [Token.isOpaque, ofCut, Cut.after, isString])
      (fun unbroken => sealed_quoted isQuote found fun broken =>
        unbroken ⟨isString, broken.trans (suffix_cons _ _).isInfix⟩)
      (by simp [Token.isLineComment, ofCut]) ?_
    rintro ⟨_, broken⟩
    have inside : brokenLine <:+: inner.taken := by
      rcases infix_cons_iff.1 broken with ⟨more, same⟩ | inside
      · rw [← (List.cons.inj same).1] at isQuote
        rcases isQuote with none | none <;> cases none
      · exact inside
    obtain ⟨start, more, taken, left⟩ :=
      (quoted_closed found).2.short isQuote inside inner.rest
    refine ⟨c :: start, more, by simp [ofCut, Cut.after, taken], ?_⟩
    rcases isQuote with rfl | rfl
    · simp [ofCut, Literal.first?, left, Cut.after]
    · simp [ofCut, Literal.first?, left, Cut.after]
  | template isTick found same =>
    subst same
    refine scanned_sealed (by simp [Token.isOpaque, ofCut, Cut.after])
      (fun _ => sealed_template found) (by simp [Token.isLineComment, ofCut]) ?_
    rintro ⟨isString, _⟩
    simp [Token.isString, ofCut, Cut.after] at isString
  | lineComment isSlash opens same =>
    subst same
    exact scanned_lineComment _ line
  | blockComment isSlash opens found same =>
    subst same
    refine scanned_sealed (by simp [Token.isOpaque, ofCut])
      (fun _ => sealed_blockComment found) (by simp [Token.isLineComment, ofCut, Cut.after]) ?_
    rintro ⟨isString, _⟩
    simp [Token.isString, ofCut, Cut.after] at isString
  | slash isSlash harmless same =>
    subst same
    obtain ⟨_, noComment⟩ := plainKind_operator '/' cs
    obtain ⟨n, text, rest, inert⟩ := inert_operator_tail '/' cs
    rw [text, rest]
    refine scanned_plain (by simp [Token.isOpaque, Token.isString, noComment]) ?_
    intro d more isRest
    rcases suffix_cons_iff.1 isRest with same | isRest
    · obtain ⟨rfl, rfl⟩ := List.cons.inj same
      rw [take_append_drop]
      exact first?_eq_none_iff.2 ⟨by decide, by decide, by decide, fun _ => harmless⟩
    · have plain := inert d (isRest.mem mem_cons_self)
      exact first?_of_isPlain (Bool.and_eq_true _ _ ▸ plain).1 _

end Lexeme

/-! ### Runs of tokens -/

theorem Reads.scanned {front back : List Token} {token : Token}
    (reads : Reads lexer (front ++ token :: back) after) :
    token.Scanned (back.flatMap Token.text ++ after.rest) := by
  obtain ⟨here, _, behind⟩ := reads.split
  cases behind with
  | token next more later =>
    rw [← later.text]
    rcases Lexer.next_cases next with ⟨_, rfl, _⟩ | ⟨_, rfl, _⟩ | ⟨c, cs, lexeme, _, _, cut, rfl, rfl⟩
    · exact Lexeme.scanned_inert _ _ (by simp) (by simp)
    · exact absurd rfl more
    · exact Lexeme.scanned_first cut _

namespace Token

/-- What a scan takes of the opaque ones among some tokens. -/
def opaqueTexts : List Token → List Text
  | [] => []
  | token :: tokens =>
    if token.isOpaque then
      (token.opaqueCut (tokens.flatMap Token.text)).taken :: opaqueTexts tokens
    else opaqueTexts tokens

theorem literals_opaqueCut (token : Token) (later : Text) :
    Text.literals (token.opaqueCut later).rest = Text.literals later := by
  rcases token.opaqueCut_cases later with same | ⟨more, rfl, same⟩
  · rw [same]
  · rw [same, Text.literals_cons (first?_of_isPlain (by decide) _)]

theorem Scanned.literals {token : Token} {later : Text} (scanned : token.Scanned later)
    (unbroken : ¬ token.Continues) : Text.literals (token.text ++ later) =
      if token.isOpaque then (token.opaqueCut later).taken :: Text.literals later
      else Text.literals later := by
  split
  · next isOpaque =>
    rw [Text.literals_literal (scanned.whole isOpaque unbroken), literals_opaqueCut]
  · next code =>
    have opens := scanned.code (by simpa using code)
    generalize token.text = text at opens
    induction text with
    | nil => rfl
    | cons c cs ih =>
      rw [cons_append, Text.literals_cons (opens c cs (suffix_refl _))]
      exact ih fun d more isRest => opens d more (isRest.trans (suffix_cons _ _))

end Token

/-- The scan of a text without such strings meets its opaque tokens. -/
theorem Reads.literals {tokens : List Token} (reads : Reads lexer tokens after)
    (atEnd : after.rest = []) (unbroken : ∀ token ∈ tokens, ¬ token.Continues) :
    Text.literals (tokens.flatMap Token.text) = Token.opaqueTexts tokens := by
  induction reads with
  | done => simp [Token.opaqueTexts]
  | @token lexer middle after token tokens next more later ih =>
    have reads : Reads lexer ([] ++ token :: tokens) after := .token next more later
    have scanned := reads.scanned
    rw [atEnd, append_nil] at scanned
    rw [flatMap_cons, scanned.literals (unbroken token mem_cons_self), Token.opaqueTexts,
      ih atEnd fun other member => unbroken other (mem_cons_of_mem _ member)]

/-- At every token of a text the scanner takes the whole of a comment, string or template literal
and nothing else, but for strings with an escaped CRLF pair, which it leaves at the line feed.
Without those a scan of the whole text meets exactly the comments, strings and templates. -/
theorem scan_follows_tokens {line : Nat} {text : Text} {tokens : List Token}
    (lexed : tokenizeFrom line text = .ok tokens) :
    (∀ front token back, tokens = front ++ token :: back →
      text = (front.flatMap Token.text) ++ (token.text ++ back.flatMap Token.text) ∧
      token.Scanned (back.flatMap Token.text)) ∧
    ((∀ token ∈ tokens, ¬ token.Continues) → text.literals = Token.opaqueTexts tokens) := by
  obtain ⟨after, reads, atEnd, _⟩ := (tokenizeFrom_eq_ok_iff line text tokens).1 lexed
  have whole := text_of_tokenizeFrom lexed
  constructor
  · rintro front token back rfl
    have scanned := reads.scanned
    rw [atEnd, List.append_nil] at scanned
    exact ⟨by rw [whole]; simp, scanned⟩
  · intro unbroken
    rw [whole, reads.literals atEnd unbroken]

/-- A division, quotes and comment marks in each other, and a line comment in front of a CRLF
pair. -/
def sampleScan : Text := "a /= \"//'\\\"\" / b // it's `\r\n+ `\\`\r\n/*` /**/ 'x\\\n\"'".toList

theorem scan_follows_tokens_sample : ∃ tokens, tokenizeFrom 1 sampleScan = .ok tokens ∧
    (∀ token ∈ tokens, ¬ token.Continues) ∧ tokens.length = 21 ∧
    sampleScan.literals = Token.opaqueTexts tokens ∧ (Token.opaqueTexts tokens).length = 5 := by
  have lexed : (tokenizeFrom 1 sampleScan).map (fun tokens =>
      (decide (∀ token ∈ tokens, ¬ token.Continues), tokens.length,
        (Token.opaqueTexts tokens).length)) = .ok (true, 21, 5) := by
    decide +kernel
  obtain ⟨tokens, lexed, same⟩ := exists_of_map_eq_ok lexed
  simp only [Prod.mk.injEq, decide_eq_true_eq] at same
  exact ⟨tokens, lexed, same.1, same.2.1, (scan_follows_tokens lexed).2 same.1, same.2.2⟩

/-- One string for the lexer; the scanner takes its last quote for the start of another. -/
theorem continued_string_cut_short :
    tokenize "'a\\\r\nb'".toList =
      .ok [⟨.other, "'a\\\r\nb'".toList, 1⟩, ⟨.lineReset, [], 2⟩] ∧
    Literal.first? "'a\\\r\nb'".toList = some ⟨"'a\\\r".toList, "\nb'".toList⟩ ∧
    Text.literals "'a\\\r\nb'".toList = ["'a\\\r".toList, "'".toList] := by
  decide +kernel

end FlatMemory
