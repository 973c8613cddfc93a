import FlatMemory.Diagnostic.Cause
import FlatMemory.Result
import FlatMemory.Types.Declaration

/-! # Definition blocks

    block  := '@flatjs' ('struct' | 'class') Name ['extends' Base] '{' member* '}' '@end'
    member := name ':' Type ['.' ('atomic' | 'synchronic')] ['.' 'Array'] ';'
            | ('@method' | '@virtual') name '(' 'SELF' (',' param)* ')' '{' body '}'
            | '@get' '(' 'SELF' ')' '{' body '}'
            | '@set' '(' 'SELF' ',' param ')' '{' body '}'

Trivia may stand between tokens, but not between an `@` and its word.  A body is any token sequence
whose brackets balance by kind.  Each reader returns what it read and the tokens that are left, and
never more tokens than it was given. -/

namespace FlatMemory

/-- Why a block cannot be read, and the line to report. -/
structure BlockError where
  cause : DefinitionCause
  line : Nat
  deriving DecidableEq, Repr

namespace Block

/-- The next token that is no trivia, and what follows it.  Past the last token stands the end of
input, on the line `endLine`. -/
def bump (endLine : Nat) (tokens : List Token) : Token × List Token :=
  match tokens.dropWhile fun token => token.kind.isTrivia with
  | [] => (⟨.eof, [], endLine⟩, [])
  | token :: rest => (token, rest)

theorem bump_length_le (endLine : Nat) (tokens : List Token) :
    (bump endLine tokens).2.length ≤ tokens.length := by
  have shorter := (List.dropWhile_suffix (l := tokens) fun token => token.kind.isTrivia).length_le
  unfold bump
  split
  · simp
  · next rest found => rw [found] at shorter; simp at shorter ⊢; omega

theorem bump_length_lt (endLine : Nat) (tokens : List Token)
    (found : (bump endLine tokens).1.kind ≠ .eof) :
    (bump endLine tokens).2.length < tokens.length := by
  have shorter := (List.dropWhile_suffix (l := tokens) fun token => token.kind.isTrivia).length_le
  unfold bump at found ⊢
  split at found
  · exact absurd rfl found
  · next rest eq => rw [eq] at shorter; exact shorter

def expect (endLine : Nat) (kind : TokenKind) (what : String) (tokens : List Token) :
    Except BlockError (Token × List Token) :=
  let (token, rest) := bump endLine tokens
  if token.kind = kind then .ok (token, rest)
  else .error ⟨.expected what token, token.line⟩

def expectName (endLine : Nat) (what : String) (tokens : List Token) :
    Except BlockError (Token × List Token) :=
  let (token, rest) := bump endLine tokens
  if token.kind = .ident then .ok (token, rest)
  else .error ⟨.expectedName what token, token.line⟩

/-- The word of an annotation, right behind its `@`. -/
def annotation? : List Token → Option (Token × List Token)
  | [] => none
  | token :: rest => if token.kind = .ident then some (token, rest) else none

def isAt (token : Token) : Bool := token.kind = .other && token.text = ['@']

/-! ### Fields -/

/-- Qualifier and array mark behind the type of a field, given those already read. -/
def suffixes (endLine : Nat) (field : String) (qualifier : Qualifier) (isArray : Bool)
    (tokens : List Token) : Except BlockError ((Qualifier × Bool) × List Token) :=
  if dot : (bump endLine tokens).1.kind = .dot then
    have afterDot := bump_length_lt endLine tokens (by simp [dot])
    let word := (bump endLine (bump endLine tokens).2).1
    let rest := (bump endLine (bump endLine tokens).2).2
    have afterWord := bump_length_le endLine (bump endLine tokens).2
    if word.kind ≠ .ident then .error ⟨.field field .suffixName, word.line⟩
    else match Qualifier.ofKeyword? word.word with
      | some read =>
        if qualifier = .plain ∧ isArray = false then suffixes endLine field read isArray rest
        else .error ⟨.field field (.suffix word.word), word.line⟩
      | none =>
        if word.word = "Array" ∧ isArray = false then suffixes endLine field qualifier true rest
        else .error ⟨.field field (.suffix word.word), word.line⟩
  else .ok ((qualifier, isArray), tokens)
termination_by tokens.length

def field (endLine : Nat) (name : Token) (tokens : List Token) :
    Except BlockError (Field × List Token) :=
  let (colon, tokens) := bump endLine tokens
  if colon.kind ≠ .colon then .error ⟨.field name.word .colon, name.line⟩
  else
    let (type, tokens) := bump endLine tokens
    if type.kind ≠ .ident then .error ⟨.field name.word .typeName, type.line⟩
    else
      match suffixes endLine name.word .plain false tokens with
      | .error error => .error error
      | .ok ((qualifier, isArray), tokens) =>
        let (semicolon, tokens) := bump endLine tokens
        if semicolon.kind ≠ .semicolon then
          .error ⟨.field name.word (.semicolon semicolon), semicolon.line⟩
        else .ok (⟨name.word, type.word, qualifier, isArray, name.line⟩, tokens)

/-! ### Methods -/

/-- Parameters behind `SELF`, through the closing parenthesis. -/
def parameters (endLine : Nat) (method : String) (tokens : List Token) :
    Except BlockError (List String × List Token) :=
  let token := (bump endLine tokens).1
  if token.kind = .rParen then .ok ([], (bump endLine tokens).2)
  else if comma : (bump endLine tokens).1.kind = .comma then
    have afterComma := bump_length_lt endLine tokens (by simp [comma])
    let parameter := (bump endLine (bump endLine tokens).2).1
    let rest := (bump endLine (bump endLine tokens).2).2
    have afterParameter := bump_length_le endLine (bump endLine tokens).2
    if parameter.kind ≠ .ident ∨ parameter.word = selfName then
      .error ⟨.signature method (.parameter parameter), parameter.line⟩
    else (parameters endLine method rest).map fun (later, left) => (parameter.word :: later, left)
  else if token.kind = .eof then .error ⟨.endInParameters method, token.line⟩
  else .error ⟨.signature method (.unexpected token), token.line⟩
termination_by tokens.length

/-- A parameter list; the leading `SELF` is not returned. -/
def signature (endLine : Nat) (method : String) (tokens : List Token) :
    Except BlockError (List String × List Token) :=
  match expect endLine .lParen "`(`" tokens with
  | .error error => .error error
  | .ok (opening, tokens) =>
    let (first, tokens) := bump endLine tokens
    if first.isIdent selfName then parameters endLine method tokens
    else .error ⟨.signature method .selfFirst, opening.line⟩

/-- The tokens of a body behind its opening brace, up to the brace that closes it.  `nesting` holds
the brackets open inside the body, innermost first. -/
def bodyTokens (method : String) (openingLine : Nat) :
    List TokenKind → List Token → Except BlockError (List Token × List Token)
  | _, [] => .error ⟨.endInBody method, openingLine⟩
  | nesting, token :: tokens =>
    let goOn := fun nesting =>
      (bodyTokens method openingLine nesting tokens).map fun (body, rest) => (token :: body, rest)
    if token.kind.isOpen then goOn (token.kind :: nesting)
    else if token.kind.isClose then
      match nesting with
      | [] =>
        if token.kind = .rBrace then .ok ([], tokens)
        else .error ⟨.unbalancedBody method token, token.line⟩
      | opener :: outer =>
        if opener.closer? = some token.kind then goOn outer
        else .error ⟨.unbalancedBody method token, token.line⟩
    else goOn nesting

/-- A body in braces: its raw text and the line of the opening brace. -/
def body (endLine : Nat) (method : String) (tokens : List Token) :
    Except BlockError ((Text × Nat) × List Token) :=
  match expect endLine .lBrace "`\x7b`" tokens with
  | .error error => .error error
  | .ok (opening, tokens) =>
    (bodyTokens method opening.line [] tokens).map fun (inner, rest) =>
      ((inner.flatMap Token.text, opening.line), rest)

/-- Signature and body, for a method called `what` in messages. -/
def signatureAndBody (endLine : Nat) (what : String) (tokens : List Token) :
    Except BlockError ((List String × Text × Nat) × List Token) :=
  match signature endLine what tokens with
  | .error error => .error error
  | .ok (parameters, tokens) =>
    (body endLine what tokens).map fun ((text, line), rest) => ((parameters, text, line), rest)

def checkUnique (declaration : Declaration) (name : String) (line : Nat) :
    Except BlockError Unit :=
  if declaration.hasMember name then .error ⟨.duplicateMember name declaration.name, line⟩
  else .ok ()

/-- A method of a class behind its annotation. -/
def namedMethod (endLine : Nat) (declaration : Declaration) (kind : MethodKind)
    (tokens : List Token) : Except BlockError (Declaration × List Token) := do
  let (name, tokens) ← expectName endLine "method name" tokens
  let ((parameters, text, line), tokens) ← signatureAndBody endLine name.word tokens
  checkUnique declaration name.word name.line
  return ({ declaration with
    methods := declaration.methods ++ [⟨kind, name.word, parameters, text, line⟩] }, tokens)

/-- A getter or setter of a struct behind its annotation `word`. -/
def accessor (endLine : Nat) (declaration : Declaration) (kind : MethodKind) (arity : Nat)
    (expected : String) (word : Token) (tokens : List Token) :
    Except BlockError (Declaration × List Token) :=
  if declaration.isClass then .error ⟨.accessorInClass word.word declaration.name, word.line⟩
  else if (declaration.methodOfKind? kind).isSome then
    .error ⟨.duplicateAccessor word.word declaration.name, word.line⟩
  else do
    let what := "@" ++ word.word
    let (parameters, tokens) ← signature endLine what tokens
    if parameters.length ≠ arity then .error ⟨.accessorParameters word.word expected, word.line⟩
    else
      let ((text, line), tokens) ← body endLine what tokens
      return ({ declaration with
        methods := declaration.methods ++ [⟨kind, "", parameters, text, line⟩] }, tokens)

/-- A method, getter or setter behind the `@` token `mark`. -/
def annotated (endLine : Nat) (declaration : Declaration) (mark : Token) (tokens : List Token) :
    Except BlockError (Declaration × List Token) :=
  match annotation? tokens with
  | none => .error ⟨.missingMarkWord declaration.name, mark.line⟩
  | some (word, tokens) =>
    if word.word = "method" then
      if declaration.isClass then namedMethod endLine declaration .nonVirtual tokens
      else .error ⟨.methodInStruct declaration.name, word.line⟩
    else if word.word = "virtual" then
      if declaration.isClass then namedMethod endLine declaration .virtual tokens
      else .error ⟨.virtualInStruct declaration.name, word.line⟩
    else if word.word = "get" then accessor endLine declaration .get 0 "(SELF)" word tokens
    else if word.word = "set" then accessor endLine declaration .set 1 "(SELF, value)" word tokens
    else .error ⟨.unknownMarkWord word.word declaration.name, word.line⟩

/-! ### Readers only use tokens up -/

variable {endLine : Nat} {what method : String} {tokens rest : List Token}
  {found declaration : Declaration} {kind : MethodKind}

variable {token : Token}

theorem expect_length_le {kind : TokenKind}
    (read : expect endLine kind what tokens = .ok (token, rest)) : rest.length ≤ tokens.length := by
  have shorter := bump_length_le endLine tokens
  grind [expect]

theorem expectName_length_le (read : expectName endLine what tokens = .ok (token, rest)) :
    rest.length ≤ tokens.length := by
  have shorter := bump_length_le endLine tokens
  grind [expectName]

theorem annotation?_length_le (read : annotation? tokens = some (token, rest)) :
    rest.length ≤ tokens.length := by
  cases tokens <;> grind [annotation?]

theorem suffixes_length_le {name : String} {qualifier : Qualifier} {isArray : Bool}
    {found : Qualifier × Bool}
    (read : suffixes endLine name qualifier isArray tokens = .ok (found, rest)) :
    rest.length ≤ tokens.length := by
  fun_induction suffixes endLine name qualifier isArray tokens with
  | case1 => simp at read
  | case2 => grind
  | case3 => simp at read
  | case4 => grind
  | case5 => simp at read
  | case6 => grind

theorem field_length_le {name : Token} {found : Field}
    (read : field endLine name tokens = .ok (found, rest)) : rest.length ≤ tokens.length := by
  unfold field at read
  dsimp only at read
  split at read
  · simp at read
  split at read
  · simp at read
  split at read
  · simp at read
  · next suffix =>
    split at read
    · simp at read
    · have first := bump_length_le endLine tokens
      have second := bump_length_le endLine (bump endLine tokens).2
      have third := suffixes_length_le suffix
      have fourth := bump_length_le endLine
      grind

theorem parameters_length_le {found : List String}
    (read : parameters endLine method tokens = .ok (found, rest)) :
    rest.length ≤ tokens.length := by
  fun_induction parameters endLine method tokens generalizing found with
  | case1 tokens =>
    have := bump_length_le endLine tokens
    grind
  | case2 => simp at read
  | case3 =>
    obtain ⟨_, _, same⟩ := exists_of_map_eq_ok read
    grind
  | case4 => simp at read
  | case5 => simp at read

theorem signature_length_le {found : List String}
    (read : signature endLine method tokens = .ok (found, rest)) : rest.length ≤ tokens.length := by
  unfold signature at read
  split at read
  · simp at read
  · next opening after opened =>
    dsimp only at read
    split at read
    · have first := expect_length_le opened
      have second := bump_length_le endLine after
      have third := parameters_length_le read
      omega
    · simp at read

theorem bodyTokens_length_le {openingLine : Nat} {nesting : List TokenKind} {inner : List Token}
    (read : bodyTokens method openingLine nesting tokens = .ok (inner, rest)) :
    rest.length ≤ tokens.length := by
  induction tokens generalizing nesting inner with
  | nil => simp [bodyTokens] at read
  | cons token tokens ih =>
    have step : ∀ {nesting inner},
        (bodyTokens method openingLine nesting tokens).map
          (fun (body, rest) => (token :: body, rest)) = .ok (inner, rest) →
        rest.length ≤ (token :: tokens).length := by
      intro nesting inner mapped
      obtain ⟨⟨_, _⟩, result, same⟩ := exists_of_map_eq_ok mapped
      cases same
      exact Nat.le_succ_of_le (ih result)
    unfold bodyTokens at read
    dsimp only at read
    split at read
    · exact step read
    split at read
    · split at read
      · split at read
        · grind
        · simp at read
      · split at read
        · exact step read
        · simp at read
    · exact step read

theorem body_length_le {found : Text × Nat}
    (read : body endLine method tokens = .ok (found, rest)) : rest.length ≤ tokens.length := by
  unfold body at read
  split at read
  · simp at read
  · next opening after opened =>
    obtain ⟨⟨_, _⟩, result, same⟩ := exists_of_map_eq_ok read
    cases same
    exact Nat.le_trans (bodyTokens_length_le result) (expect_length_le opened)

theorem signatureAndBody_length_le {found : List String × Text × Nat}
    (read : signatureAndBody endLine what tokens = .ok (found, rest)) :
    rest.length ≤ tokens.length := by
  unfold signatureAndBody at read
  split at read
  · simp at read
  · next parameters after signed =>
    obtain ⟨⟨_, _⟩, result, same⟩ := exists_of_map_eq_ok read
    cases same
    exact Nat.le_trans (body_length_le result) (signature_length_le signed)

theorem namedMethod_length_le
    (read : namedMethod endLine declaration kind tokens = .ok (found, rest)) :
    rest.length ≤ tokens.length := by
  unfold namedMethod at read
  obtain ⟨⟨name, afterName⟩, named, read⟩ := exists_of_bind_eq_ok read
  obtain ⟨⟨_, _⟩, rested, read⟩ := exists_of_bind_eq_ok read
  obtain ⟨_, _, read⟩ := exists_of_bind_eq_ok read
  cases read
  exact Nat.le_trans (signatureAndBody_length_le rested) (expectName_length_le named)

theorem accessor_length_le {arity : Nat} {expected : String} {word : Token}
    (read : accessor endLine declaration kind arity expected word tokens = .ok (found, rest)) :
    rest.length ≤ tokens.length := by
  unfold accessor at read
  split at read
  · simp at read
  split at read
  · simp at read
  obtain ⟨⟨_, _⟩, signed, read⟩ := exists_of_bind_eq_ok read
  dsimp only at read
  split at read
  · simp at read
  obtain ⟨⟨_, _⟩, bodied, read⟩ := exists_of_bind_eq_ok read
  cases read
  exact Nat.le_trans (body_length_le bodied) (signature_length_le signed)

theorem annotated_length_le {mark : Token}
    (read : annotated endLine declaration mark tokens = .ok (found, rest)) :
    rest.length ≤ tokens.length := by
  unfold annotated at read
  split at read
  · simp at read
  · next word after annotation =>
    have first := annotation?_length_le annotation
    have second : rest.length ≤ after.length := by
      repeat' split at read
      all_goals first
        | exact namedMethod_length_le read
        | exact accessor_length_le read
        | simp at read
    omega

end Block

end FlatMemory
