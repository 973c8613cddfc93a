import FlatMemory.Diagnostic.Failure
import FlatMemory.Document.Basic
import FlatMemory.Document.Block
import FlatMemory.Token.Stream

/-! # Reading documents

Outside definition blocks every token is copied to the residual text unchanged. -/

namespace FlatMemory

namespace Block

theorem kind_of_isAt {token : Token} (mark : isAt token = true) : token.kind = .other := by
  simp only [isAt, Bool.and_eq_true, decide_eq_true_eq] at mark
  exact mark.1

/-- The members of a definition, through its closing brace. -/
def members (endLine : Nat) (declaration : Declaration) (tokens : List Token) :
    Except BlockError (Declaration × List Token) :=
  let token := (bump endLine tokens).1
  let after := (bump endLine tokens).2
  if token.kind = .rBrace then .ok (declaration, after)
  else if name : token.kind = .ident then
    match read : field endLine token after with
    | .error error => .error error
    | .ok (field, rest) =>
      have : rest.length < tokens.length :=
        Nat.lt_of_le_of_lt (field_length_le read)
          (bump_length_lt endLine tokens (by simp [token, name]))
      match checkUnique declaration field.name field.line with
      | .error error => .error error
      | .ok () => members endLine { declaration with fields := declaration.fields ++ [field] } rest
  else if mark : isAt token then
    match read : annotated endLine declaration token after with
    | .error error => .error error
    | .ok (extended, rest) =>
      have : rest.length < tokens.length :=
        Nat.lt_of_le_of_lt (annotated_length_le read)
          (bump_length_lt endLine tokens (by simp [token, kind_of_isAt mark]))
      members endLine extended rest
  else if token.kind = .eof then .error ⟨.endOfInput declaration.name, token.line⟩
  else .error ⟨.unexpected declaration.name token, token.line⟩
termination_by tokens.length

variable {found : Declaration} {tokens rest : List Token} {isClass : Bool} {type : String}

variable {endLine : Nat}

theorem members_length_le {declaration : Declaration}
    (read : members endLine declaration tokens = .ok (found, rest)) :
    rest.length ≤ tokens.length := by
  fun_induction members endLine declaration tokens with
  | case1 _ tokens =>
    have := bump_length_le endLine tokens
    grind
  | case2 => simp at read
  | case3 => simp at read
  | case4 => grind
  | case5 => simp at read
  | case6 => grind
  | case7 => simp at read
  | case8 => simp at read

def extends? (endLine : Nat) (isClass : Bool) (type : String) (tokens : List Token) :
    Except BlockError (Option String × List Token) :=
  let (word, after) := bump endLine tokens
  if word.isIdent "extends" then
    if isClass then
      (expectName endLine "base class name" after).map fun (base, rest) => (some base.word, rest)
    else .error ⟨.structExtends type, word.line⟩
  else .ok (none, tokens)

/-- Whether a definition is one of a class, by the keyword it starts with. -/
def keyword (endLine : Nat) (tokens : List Token) : Except BlockError (Bool × List Token) :=
  let (word, rest) := bump endLine tokens
  if word.isIdent "struct" then .ok (false, rest)
  else if word.isIdent "class" then .ok (true, rest)
  else .error ⟨.keyword word, word.line⟩

def ending (endLine : Nat) (type : String) (tokens : List Token) :
    Except BlockError (List Token) :=
  let (mark, after) := bump endLine tokens
  match isAt mark, annotation? after with
  | true, some (word, rest) =>
    if word.word = "end" then .ok rest else .error ⟨.missingEnd type mark, mark.line⟩
  | _, _ => .error ⟨.missingEnd type mark, mark.line⟩

/-- A block behind its opening marker, which stands on `line`. -/
def definition (file : String) (endLine line : Nat) (tokens : List Token) :
    Except BlockError (Declaration × List Token) := do
  let (isClass, tokens) ← keyword endLine tokens
  let (name, tokens) ← expectName endLine "type name" tokens
  let (base, tokens) ← extends? endLine isClass name.word tokens
  let (_, tokens) ← expect endLine .lBrace "`\x7b`" tokens
  let form := if isClass then Form.classForm base else .structForm
  let (declaration, tokens) ← members endLine ⟨name.word, file, line, form, [], [], 0⟩ tokens
  let tokens ← ending endLine declaration.name tokens
  return (declaration, tokens)

theorem keyword_length_le (read : keyword endLine tokens = .ok (isClass, rest)) :
    rest.length ≤ tokens.length := by
  have := bump_length_le endLine tokens
  grind [keyword]

theorem extends?_length_le {base : Option String}
    (read : extends? endLine isClass type tokens = .ok (base, rest)) :
    rest.length ≤ tokens.length := by
  have first := bump_length_le endLine tokens
  unfold extends? at read
  dsimp only at read
  split at read
  · split at read
    · obtain ⟨⟨_, _⟩, named, same⟩ := exists_of_map_eq_ok read
      cases same
      exact Nat.le_trans (expectName_length_le named) first
    · simp at read
  · grind

theorem ending_length_le (read : ending endLine type tokens = .ok rest) :
    rest.length ≤ tokens.length := by
  have first := bump_length_le endLine tokens
  unfold ending at read
  dsimp only at read
  split at read
  · next _ word _ _ annotation =>
    have second := annotation?_length_le annotation
    split at read
    · cases read; omega
    · simp at read
  · simp at read

theorem definition_length_le {file : String} {line : Nat}
    (read : definition file endLine line tokens = .ok (found, rest)) :
    rest.length ≤ tokens.length := by
  unfold definition at read
  obtain ⟨⟨_, _⟩, first, read⟩ := exists_of_bind_eq_ok read
  obtain ⟨⟨_, _⟩, second, read⟩ := exists_of_bind_eq_ok read
  obtain ⟨⟨_, _⟩, third, read⟩ := exists_of_bind_eq_ok read
  obtain ⟨⟨_, _⟩, fourth, read⟩ := exists_of_bind_eq_ok read
  obtain ⟨⟨_, _⟩, fifth, read⟩ := exists_of_bind_eq_ok read
  obtain ⟨_, sixth, read⟩ := exists_of_bind_eq_ok read
  cases read
  have := keyword_length_le first
  have := expectName_length_le second
  have := extends?_length_le third
  have := expect_length_le fourth
  have := members_length_le fifth
  have := ending_length_le sixth
  omega

end Block

/-- A document in order: tokens that stay and blocks that are taken out. -/
inductive Piece where
  | copied (token : Token)
  | block (declaration : Declaration)
  deriving DecidableEq, Repr

namespace Piece

def ofTokens (file : String) (endLine : Nat) (tokens : List Token) :
    Except BlockError (List Piece) :=
  match tokens with
  | [] => .ok []
  | token :: tokens =>
    if token.kind = .defnStart then
      match read : Block.definition file endLine token.line tokens with
      | .error error => .error error
      | .ok (declaration, rest) =>
        have := Block.definition_length_le read
        (ofTokens file endLine rest).map (block declaration :: ·)
    else (ofTokens file endLine tokens).map (copied token :: ·)
termination_by tokens.length

def text : Piece → Text
  | copied token => token.text
  | block _ => []

/-- The declarations of the blocks, each with the number of residual bytes before it. -/
def declarations (offset : Nat) : List Piece → List Declaration
  | [] => []
  | copied token :: pieces => declarations (offset + token.text.byteLength) pieces
  | block declaration :: pieces => { declaration with origin := offset } :: declarations offset pieces

/-- The first token with text after each run of blocks is a resume point. -/
def resumes (afterBlock : Bool) (offset : Nat) : List Piece → List Resume
  | [] => []
  | block _ :: pieces => resumes true offset pieces
  | copied token :: pieces =>
    let next := offset + token.text.byteLength
    if afterBlock && token.kind ≠ .lineReset then ⟨offset, token.line⟩ :: resumes false next pieces
    else resumes afterBlock next pieces

end Piece

namespace Document

def ofPieces (file : String) (pieces : List Piece) : Document where
  file := file
  residual := pieces.flatMap Piece.text
  resumes := Piece.resumes false 0 pieces
  declarations := Piece.declarations 0 pieces

/-- The line of the end of input: that on which the last token ends. -/
def endLine (tokens : List Token) : Nat :=
  match tokens.getLast? with
  | none => 1
  | some token => token.line + token.text.lineBreaks

def ofTokens (file : String) (tokens : List Token) : Except BlockError Document :=
  (Piece.ofTokens file (endLine tokens) tokens).map (ofPieces file)

/-- Read a source that is reported under the name `file`. -/
def read (file : String) (source : Text) : Except Failure Document :=
  match tokenize source with
  | .error error => .error (.fault (.lexical error.kind) file error.line)
  | .ok tokens =>
    match ofTokens file tokens with
    | .error error => .error (.fault (.definition error.cause) file error.line)
    | .ok document => .ok document

end Document

end FlatMemory
