import FlatMemory.Text.Cut
import FlatMemory.Text.Identifier
import FlatMemory.Token.Operator

/-! # Cutting a text into tokens

Each function here cuts one token off the front of a text and returns it with what follows.
Nothing is dropped: the text of a token followed by its rest is the text that was cut.

Regular-expression literals are not told from division, so a `/` starts a comment or an operator. -/

namespace FlatMemory

/-- A token that cannot be completed: why, and the text from which lexing can go on. -/
structure Stuck where
  reason : LexErrorKind
  rest : Text
  deriving DecidableEq, Repr

structure Lexeme where
  kind : TokenKind
  text : Text
  rest : Text
  deriving DecidableEq, Repr

namespace Lexeme

def ofCut (kind : TokenKind) (cut : Cut) : Lexeme := ⟨kind, cut.taken, cut.rest⟩

/-- Spaces within a line.  A lone carriage return is one too, but does not join a run. -/
def isSpace (c : Char) : Bool := c == ' ' || c == '\t' || c == '\x0b' || c == '\x0c'

def isHexDigit (c : Char) : Bool :=
  c.isDigit || ('a' ≤ c && c ≤ 'f') || ('A' ≤ c && c ≤ 'F')

/-- Digits of a class after a mark; without a digit the mark does not belong to the number. -/
def digitsAfter (p : Char → Bool) (mark text : Text) (otherwise : Text) : Cut :=
  let digits := Cut.span p text
  if digits.taken.isEmpty then Cut.none otherwise else digits.after mark

def fraction : Text → Cut
  | '.' :: cs => digitsAfter Char.isDigit ['.'] cs ('.' :: cs)
  | text => Cut.none text

def exponent : Text → Cut
  | [] => Cut.none []
  | e :: cs =>
    if e = 'e' ∨ e = 'E' then
      match cs with
      | '+' :: ds => digitsAfter Char.isDigit [e, '+'] ds (e :: cs)
      | '-' :: ds => digitsAfter Char.isDigit [e, '-'] ds (e :: cs)
      | ds => digitsAfter Char.isDigit [e] ds (e :: cs)
    else Cut.none (e :: cs)

def decimal (text : Text) : Cut :=
  let whole := Cut.span Char.isDigit text
  let frac := fraction whole.rest
  let exp := exponent frac.rest
  (exp.after frac.taken).after whole.taken

def hexadecimal : Text → Cut
  | [] => Cut.none []
  | x :: cs =>
    if x = 'x' ∨ x = 'X' then digitsAfter isHexDigit [x] cs (x :: cs) else Cut.none (x :: cs)

def number (first : Char) (cs : Text) : Cut :=
  let hex := hexadecimal cs
  if first = '0' ∧ !hex.taken.isEmpty then hex.after [first] else decimal (first :: cs)

/-- A quoted string behind its opening quote.  A line break ends it unfinished unless a backslash
stands before it. -/
def quoted (quote : Char) : Text → Except Stuck Cut
  | [] => .error ⟨.unterminatedString, []⟩
  | ['\\'] => .error ⟨.unterminatedString, []⟩
  | '\\' :: '\r' :: '\n' :: cs => (quoted quote cs).map (Cut.after ['\\', '\r', '\n'])
  | '\\' :: c :: cs => (quoted quote cs).map (Cut.after ['\\', c])
  | c :: cs =>
    if c = quote then .ok ⟨[c], cs⟩
    else if c = '\n' ∨ c = '\r' then .error ⟨.newlineInString, c :: cs⟩
    else (quoted quote cs).map (Cut.after [c])

def template : Text → Except Stuck Cut
  | [] => .error ⟨.unterminatedTemplate, []⟩
  | ['\\'] => .error ⟨.unterminatedTemplate, []⟩
  | '\\' :: c :: cs => (template cs).map (Cut.after ['\\', c])
  | c :: cs =>
    if c = '\x60' then .ok ⟨[c], cs⟩ else (template cs).map (Cut.after [c])

/-- A line comment ends before the line break, be it a line feed or a CRLF pair. -/
def lineComment : Text → Cut
  | [] => Cut.none []
  | '\n' :: cs => Cut.none ('\n' :: cs)
  | '\r' :: '\n' :: cs => Cut.none ('\r' :: '\n' :: cs)
  | c :: cs => (lineComment cs).after [c]

def blockComment : Text → Except Stuck Cut
  | [] => .error ⟨.unterminatedComment, []⟩
  | '*' :: '/' :: cs => .ok ⟨['*', '/'], cs⟩
  | c :: cs => (blockComment cs).map (Cut.after [c])

/-- The `@` markers count only as whole words; any other `@` stands alone. -/
def marker (cs : Text) : Lexeme :=
  let name := Cut.span isIdentPart cs
  if name.taken = "flatjs".toList then ofCut .defnStart (name.after ['@'])
  else if name.taken = "new".toList then ofCut .newInstance (name.after ['@'])
  else ⟨.other, ['@'], cs⟩

/-- The longest operator, or the character alone. -/
def operator (c : Char) (cs : Text) : Lexeme :=
  match Operator.trie.longestMatch (c :: cs) with
  | 0 => ⟨.other, [c], cs⟩
  | n + 1 => ⟨Operator.kind (String.ofList (c :: cs.take n)), c :: cs.take n, cs.drop n⟩

def punctuation? : Char → Option TokenKind
  | '(' => some .lParen
  | ')' => some .rParen
  | '[' => some .lBracket
  | ']' => some .rBracket
  | '{' => some .lBrace
  | '}' => some .rBrace
  | ',' => some .comma
  | ';' => some .semicolon
  | ':' => some .colon
  | _ => none

def slash (cs : Text) : Except Stuck Lexeme :=
  match cs with
  | '/' :: ds => .ok (ofCut .comment ((lineComment ds).after ['/', '/']))
  | '*' :: ds => (blockComment ds).map fun cut => ofCut .comment (cut.after ['/', '*'])
  | _ => .ok (operator '/' cs)

def carriageReturn : Text → Lexeme
  | '\n' :: cs => ⟨.linebreak, ['\r', '\n'], cs⟩
  | cs => ⟨.whitespace, ['\r'], cs⟩

/-- The first token of the text `c :: cs`. -/
def first (c : Char) (cs : Text) : Except Stuck Lexeme :=
  if isSpace c then .ok (ofCut .whitespace ((Cut.span isSpace cs).after [c]))
  else if c = '\r' then .ok (carriageReturn cs)
  else if c = '\n' then .ok ⟨.linebreak, [c], cs⟩
  else if isIdentStart c then .ok (ofCut .ident ((Cut.span isIdentPart cs).after [c]))
  else if c.isDigit then .ok (ofCut .other (number c cs))
  else if c = '"' ∨ c = '\x27' then (quoted c cs).map fun cut => ofCut .other (cut.after [c])
  else if c = '\x60' then (template cs).map fun cut => ofCut .other (cut.after [c])
  else if c = '/' then slash cs
  else if c = '@' then .ok (marker cs)
  else match punctuation? c with
    | some kind => .ok ⟨kind, [c], cs⟩
    | none => .ok (operator c cs)

end Lexeme

/-- A text being lexed: what is left, the line it starts on, and whether a marker for a token of
several lines is due. -/
structure Lexer where
  rest : Text
  line : Nat
  resetDue : Bool
  deriving DecidableEq, Repr

namespace Lexer

/-- Lex a text as if its first character stood on the given line. -/
def ofText (text : Text) (line : Nat) : Lexer := ⟨text, line, false⟩

/-- The next token.  The end of input repeats.  After an error lexing can go on where the
unfinished token stopped. -/
def next (lexer : Lexer) : Except LexError Token × Lexer :=
  if lexer.resetDue then
    (.ok ⟨.lineReset, [], lexer.line⟩, { lexer with resetDue := false })
  else
    match lexer.rest with
    | [] => (.ok ⟨.eof, [], lexer.line⟩, lexer)
    | c :: cs =>
      match Lexeme.first c cs with
      | .error stuck => (.error ⟨stuck.reason, lexer.line⟩, { lexer with rest := stuck.rest })
      | .ok lexeme =>
        let breaks := Text.lineBreaks lexeme.text
        (.ok ⟨lexeme.kind, lexeme.text, lexer.line⟩,
          ⟨lexeme.rest, lexer.line + breaks, lexeme.kind ≠ .linebreak ∧ 0 < breaks⟩)

end Lexer

end FlatMemory
