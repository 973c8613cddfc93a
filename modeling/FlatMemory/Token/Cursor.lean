import FlatMemory.Token.Lexer

/-! # Lexing by bytes

A cursor is a byte offset into a source.  It looks at the UTF-8 form of the source byte by byte, and
it takes texts out of the source, which can be done between character boundaries only: whatever
takes a text is `none` off a boundary.

The lexer on such a cursor jumps over the bytes it does not look at, counts lines in a word of 32
bits and counts them where line breaks are read or, for literals and comments, after the fact. -/

namespace FlatMemory

/-- The UTF-8 form of a text, each byte given as the character of its code. -/
def Text.octets (text : Text) : List Char :=
  text.flatMap fun c => (String.utf8EncodeChar c).map Char.ofUInt8

structure Cursor where
  source : Text
  pos : Nat
  deriving DecidableEq, Repr

namespace Cursor

def ahead (cursor : Cursor) : List Char := cursor.source.octets.drop cursor.pos

/-- The byte so many places ahead, zero past the end. -/
def peek (cursor : Cursor) (places : Nat) : Char := (cursor.ahead[places]?).getD '\x00'

/-- Tells the end from a zero byte of the source. -/
def isEnd (cursor : Cursor) : Bool := cursor.source.byteLength ≤ cursor.pos

def advance (cursor : Cursor) (width : Nat) : Cursor := { cursor with pos := cursor.pos + width }

def toEnd (cursor : Cursor) : Cursor := { cursor with pos := cursor.source.byteLength }

def rest? (cursor : Cursor) : Option Text :=
  (cursor.source.splitAtByte? cursor.pos).map Prod.snd

def textFrom? (cursor : Cursor) (start : Nat) : Option Text := cursor.source.slice? start cursor.pos

/-- Past one character, or past one byte at the end. -/
def advanceChar? (cursor : Cursor) : Option Cursor :=
  cursor.rest?.map fun rest => cursor.advance ((rest.head?.map Char.utf8Size).getD 1)

def eatWhile (cursor : Cursor) (p : Char → Bool) : Cursor :=
  cursor.advance (cursor.ahead.takeWhile p).length

/-- To what a search finds in the bytes ahead, or to the end. -/
def seek? (cursor : Cursor) (search : List Char → Option Nat) : Option Cursor :=
  cursor.rest?.map fun rest =>
    match search rest.octets with
    | some offset => cursor.advance offset
    | none => cursor.toEnd

/-! ### Searches -/

def earliest : Option Nat → Option Nat → Option Nat
  | some first, some second => some (min first second)
  | some first, none => some first
  | none, second => second

/-- What ends a string or stands for more than itself in it. -/
def quotedMark (quote : Char) (bytes : List Char) : Option Nat :=
  earliest (bytes.findIdx? fun b => b = quote ∨ b = '\\' ∨ b = '\n') (bytes.findIdx? (· = '\r'))

def templateMark (bytes : List Char) : Option Nat :=
  bytes.findIdx? fun b => b = '\x60' ∨ b = '\\'

/-- The end of the line, in front of both bytes of a CRLF pair. -/
def lineEnd (bytes : List Char) : Option Nat :=
  (bytes.findIdx? (· = '\n')).map fun offset =>
    if 0 < offset ∧ bytes[offset - 1]? = some '\r' then offset - 1 else offset

def commentEnd : List Char → Option Nat
  | [] => none
  | '*' :: '/' :: _ => some 0
  | _ :: bytes => (commentEnd bytes).map (· + 1)

/-! ### Numbers -/

def exponent (cursor : Cursor) : Cursor :=
  if cursor.peek 0 = 'e' ∨ cursor.peek 0 = 'E' then
    let mark := if cursor.peek 1 = '+' ∨ cursor.peek 1 = '-' then 2 else 1
    if (cursor.peek mark).isDigit then (cursor.advance mark).eatWhile Char.isDigit else cursor
  else cursor

def fraction (cursor : Cursor) : Cursor :=
  if cursor.peek 0 = '.' ∧ (cursor.peek 1).isDigit then (cursor.advance 1).eatWhile Char.isDigit
  else cursor

def number (cursor : Cursor) : Cursor :=
  let behind := cursor.advance 1
  if cursor.peek 0 = '0' ∧ (behind.peek 0 = 'x' ∨ behind.peek 0 = 'X') ∧
      Lexeme.isHexDigit (behind.peek 1) then
    (behind.advance 1).eatWhile Lexeme.isHexDigit
  else (behind.eatWhile Char.isDigit).fraction.exponent

/-! ### Literals and comments -/

variable {cursor next : Cursor}

theorem lt_of_advanceChar? (advances : cursor.advanceChar? = some next) :
    next.source = cursor.source ∧ cursor.pos < next.pos := by
  obtain ⟨rest, _, rfl⟩ := Option.map_eq_some_iff.1 advances
  refine ⟨rfl, ?_⟩
  cases rest with
  | nil => simp [advance]
  | cons c cs => simp [advance, Char.utf8Size_pos]

/-- Past the character behind a backslash, with both bytes of a CRLF pair. -/
def escaped? (cursor : Cursor) : Option Cursor :=
  if cursor.peek 0 = '\r' ∧ cursor.peek 1 = '\n' then (cursor.advance 1).advanceChar?
  else cursor.advanceChar?

theorem lt_of_escaped? (escapes : cursor.escaped? = some next) :
    next.source = cursor.source ∧ cursor.pos < next.pos := by
  unfold escaped? at escapes
  split at escapes
  · obtain ⟨source, further⟩ := lt_of_advanceChar? escapes
    exact ⟨source, Nat.lt_of_succ_lt further⟩
  · exact lt_of_advanceChar? escapes

/-- A search that does not get to the end, and an escape behind what it finds. -/
theorem left_lt_of_escape {found : Cursor} {search : List Char → Option Nat}
    (seeks : cursor.seek? search = some found) (inside : ¬ (found.advance 1).isEnd = true)
    (escapes : next.source = (found.advance 1).source ∧ (found.advance 1).pos < next.pos) :
    next.source.byteLength - next.pos < cursor.source.byteLength - cursor.pos := by
  obtain ⟨rest, _, same⟩ := Option.map_eq_some_iff.1 seeks
  obtain ⟨source, further⟩ := escapes
  have more : found.pos + 1 < found.source.byteLength :=
    Nat.lt_of_not_le fun ends => inside (decide_eq_true ends)
  cases searched : search rest.octets with
  | none =>
    simp only [searched, toEnd] at same
    subst same
    exact absurd more (by simp)
  | some offset =>
    simp only [searched, advance] at same
    subst same
    simp only [advance] at source further more
    rw [source]
    omega

def quoted? (quote : Char) (cursor : Cursor) : Option (Except LexErrorKind Unit × Cursor) :=
  match seeks : cursor.seek? (quotedMark quote) with
  | none => none
  | some found =>
    if found.peek 0 = quote then some (.ok (), found.advance 1)
    else if found.peek 0 = '\\' then
      if ends : (found.advance 1).isEnd then
        some (.error .unterminatedString, found.advance 1)
      else
        match escapes : (found.advance 1).escaped? with
        | none => none
        | some next =>
          have := left_lt_of_escape seeks ends (lt_of_escaped? escapes)
          quoted? quote next
    else if found.peek 0 = '\n' ∨ found.peek 0 = '\r' then some (.error .newlineInString, found)
    else some (.error .unterminatedString, found)
termination_by cursor.source.byteLength - cursor.pos

def template? (cursor : Cursor) : Option (Except LexErrorKind Unit × Cursor) :=
  match seeks : cursor.seek? templateMark with
  | none => none
  | some found =>
    if found.peek 0 = '\x60' then some (.ok (), found.advance 1)
    else if found.peek 0 = '\\' then
      if ends : (found.advance 1).isEnd then
        some (.error .unterminatedTemplate, found.advance 1)
      else
        match escapes : (found.advance 1).advanceChar? with
        | none => none
        | some next =>
          have := left_lt_of_escape seeks ends (lt_of_advanceChar? escapes)
          template? next
    else some (.error .unterminatedTemplate, found)
termination_by cursor.source.byteLength - cursor.pos

/-! ### Tokens -/

/-- What is read at a cursor: the kind of a token or why it cannot be completed, the cursor behind
it, and the line breaks that are counted on the way. -/
structure Scan where
  kind : Except LexErrorKind TokenKind
  behind : Cursor
  breaks : UInt32

def single (cursor : Cursor) (kind : TokenKind) : Scan := ⟨.ok kind, cursor.advance 1, 0⟩

def operator? (cursor : Cursor) : Option Scan := do
  let rest ← cursor.rest?
  let width := Operator.nodes.longestMatch rest.octets
  if width = 0 then return cursor.single .other
  else
    let behind := cursor.advance width
    let text ← behind.textFrom? cursor.pos
    return ⟨.ok (Operator.kind (String.ofList text)), behind, 0⟩

def slash? (cursor : Cursor) : Option Scan :=
  if cursor.peek 1 = '/' then (cursor.seek? lineEnd).map fun behind => ⟨.ok .comment, behind, 0⟩
  else if cursor.peek 1 = '*' then
    let body := cursor.advance 2
    body.rest?.map fun rest =>
      match commentEnd rest.octets with
      | some offset => ⟨.ok .comment, body.advance (offset + 2), 0⟩
      | none => ⟨.error .unterminatedComment, body.toEnd, 0⟩
  else cursor.operator?

def marker? (cursor : Cursor) : Option Scan := do
  let rest ← cursor.rest?
  let (_, behind) ← rest.splitAtByte? 1
  let word : Text := behind.takeWhile isIdentPart
  if word = "flatjs".toList then
    return ⟨.ok .defnStart, cursor.advance (1 + word.byteLength), 0⟩
  else if word = "new".toList then
    return ⟨.ok .newInstance, cursor.advance (1 + word.byteLength), 0⟩
  else return cursor.single .other

def carriageReturn (cursor : Cursor) : Scan :=
  if cursor.peek 1 = '\n' then ⟨.ok .linebreak, cursor.advance 2, 1⟩
  else cursor.single .whitespace

/-- The first bytes of operators, without the slash. -/
def operatorStarts : List Char :=
  ['+', '-', '*', '%', '=', '!', '<', '>', '&', '|', '^', '~', '?', '.']

/-- Read one token.  The first byte says what it can be. -/
def scan? (cursor : Cursor) : Option Scan :=
  let b := cursor.peek 0
  if b = '\x00' ∧ cursor.isEnd then some ⟨.ok .eof, cursor, 0⟩
  else if Lexeme.isSpace b then some ⟨.ok .whitespace, cursor.eatWhile Lexeme.isSpace, 0⟩
  else if b = '\r' then some cursor.carriageReturn
  else if b = '\n' then some ⟨.ok .linebreak, cursor.advance 1, 1⟩
  else if isIdentStart b then some ⟨.ok .ident, (cursor.advance 1).eatWhile isIdentPart, 0⟩
  else if b.isDigit then some ⟨.ok .other, cursor.number, 0⟩
  else if b = '"' ∨ b = '\x27' then
    ((cursor.advance 1).quoted? b).map fun (ends, behind) => ⟨ends.map fun _ => .other, behind, 0⟩
  else if b = '\x60' then
    (cursor.advance 1).template?.map fun (ends, behind) => ⟨ends.map fun _ => .other, behind, 0⟩
  else if b = '/' then cursor.slash?
  else if b = '@' then cursor.marker?
  else match Lexeme.punctuation? b with
    | some kind => some (cursor.single kind)
    | none =>
      if b ∈ operatorStarts then cursor.operator?
      else if b.toNat < 128 then some (cursor.single .other)
      else cursor.advanceChar?.map fun behind => ⟨.ok .other, behind, 0⟩

end Cursor

/-- A cursor with the line it is on and the line of a marker that is due. -/
structure ByteLexer where
  cursor : Cursor
  line : UInt32
  resetDue : Option UInt32

namespace ByteLexer

def ofText (text : Text) (line : UInt32) : ByteLexer := ⟨⟨text, 0⟩, line, none⟩

/-- Line feeds of a text, at most as many as a line number can be. -/
def lineFeeds (text : Text) : UInt32 :=
  UInt32.ofNat (min (text.octets.count '\n') (UInt32.size - 1))

/-- Count the line breaks inside a token that has just been read. -/
def noteLineBreaks (lexer : ByteLexer) (text : Text) : ByteLexer :=
  let breaks := lineFeeds text
  if 0 < breaks then
    { lexer with line := lexer.line + breaks, resetDue := some (lexer.line + breaks) }
  else lexer

/-- The next token, or `none` where a text would have been taken off a character boundary. -/
def next (lexer : ByteLexer) : Option (Except LexError Token × ByteLexer) :=
  match lexer.resetDue with
  | some line => some (.ok ⟨.lineReset, [], line.toNat⟩, { lexer with resetDue := none })
  | none => do
    let scan ← lexer.cursor.scan?
    let moved := { lexer with cursor := scan.behind, line := lexer.line + scan.breaks }
    match scan.kind with
    | .error reason => return (.error ⟨reason, moved.line.toNat⟩, moved)
    | .ok kind =>
      let text ← scan.behind.textFrom? lexer.cursor.pos
      let after := if kind = .comment ∨ kind = .other then moved.noteLineBreaks text else moved
      return (.ok ⟨kind, text, lexer.line.toNat⟩, after)

end ByteLexer

end FlatMemory
