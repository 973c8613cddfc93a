import FlatMemory.Proofs.Document.Block

/-! # The grammar of definition blocks

Each nonterminal is a relation between what a sequence of tokens denotes and the sequence.  Trivia
may stand in front of any token but the word of an `@`; a body is taken with all its tokens. -/

namespace FlatMemory

namespace Grammar

/-! ### Terminals -/

def Spaced (token : Token) (tokens : List Token) : Prop :=
  ∃ trivia, tokens = trivia ++ [token] ∧ ∀ other ∈ trivia, other.kind.isTrivia = true

def Sign (kind : TokenKind) (tokens : List Token) : Prop :=
  ∃ token : Token, token.kind = kind ∧ Spaced token tokens

def Word (word : String) (tokens : List Token) : Prop :=
  ∃ token : Token, token.isIdent word = true ∧ Spaced token tokens

def Name (token : Token) (tokens : List Token) : Prop := token.kind = .ident ∧ Spaced token tokens

def Mark (word : String) (tokens : List Token) : Prop :=
  ∃ (mark name : Token) (front : List Token), Block.isAt mark = true ∧ name.isIdent word = true ∧
    Spaced mark front ∧ tokens = front ++ [name]

/-! ### Members -/

inductive QualifierPart : Qualifier → List Token → Prop
  | none : QualifierPart .plain []
  | atomic {dot word : List Token} (isDot : Sign .dot dot) (isWord : Word "atomic" word) :
    QualifierPart .atomic (dot ++ word)
  | synchronic {dot word : List Token} (isDot : Sign .dot dot) (isWord : Word "synchronic" word) :
    QualifierPart .synchronic (dot ++ word)

inductive ArrayPart : Bool → List Token → Prop
  | none : ArrayPart false []
  | array {dot word : List Token} (isDot : Sign .dot dot) (isWord : Word "Array" word) :
    ArrayPart true (dot ++ word)

inductive FieldTail (name : Token) : Field → List Token → Prop
  | mk {type : Token} {qualifier : Qualifier} {isArray : Bool}
    {colon typed qualified arrayed semicolon : List Token} (isColon : Sign .colon colon)
    (isType : Name type typed) (isQualifier : QualifierPart qualifier qualified)
    (isArrayed : ArrayPart isArray arrayed) (isSemicolon : Sign .semicolon semicolon) :
    FieldTail name ⟨name.word, type.word, qualifier, isArray, name.line⟩
      (colon ++ (typed ++ (qualified ++ (arrayed ++ semicolon))))

inductive Parameters : List String → List Token → Prop
  | nil : Parameters [] []
  | cons {parameter : Token} {later : List String} {comma named rest : List Token}
    (isComma : Sign .comma comma) (isName : Name parameter named)
    (notSelf : parameter.word ≠ selfName) (more : Parameters later rest) :
    Parameters (parameter.word :: later) (comma ++ (named ++ rest))

inductive Signature : List String → List Token → Prop
  | mk {parameters : List String} {opening self listed closing : List Token}
    (isOpening : Sign .lParen opening) (isSelf : Word selfName self)
    (isListed : Parameters parameters listed) (isClosing : Sign .rParen closing) :
    Signature parameters (opening ++ (self ++ (listed ++ closing)))

/-- Brackets that balance by kind. -/
inductive Closed : List Token → Prop
  | nil : Closed []
  | plain {token : Token} {later : List Token} (notOpen : token.kind.isOpen = false)
    (notClose : token.kind.isClose = false) (more : Closed later) : Closed (token :: later)
  | group {opening closing : Token} {inner later : List Token}
    (matching : opening.kind.closer? = some closing.kind) (inside : Closed inner)
    (more : Closed later) : Closed (opening :: (inner ++ closing :: later))

inductive Body : Text → Nat → List Token → Prop
  | mk {opening closing : Token} {spaced inner : List Token} (isOpening : opening.kind = .lBrace)
    (isSpaced : Spaced opening spaced) (closed : Closed inner)
    (isClosing : closing.kind = .rBrace) :
    Body (inner.flatMap Token.text) opening.line (spaced ++ (inner ++ [closing]))

inductive Item where
  | field (field : Field)
  | method (method : Method)

namespace Item

def field? : Item → Option Field
  | field declared => some declared
  | method _ => none

def method? : Item → Option Method
  | field _ => none
  | method declared => some declared

def name? : Item → Option String
  | field declared => some declared.name
  | method declared => if declared.kind.isNamed then some declared.name else none

def accessor? : Item → Option MethodKind
  | field _ => none
  | method declared => if declared.kind.isNamed then none else some declared.kind

end Item

inductive MethodMark : MethodKind → String → Prop
  | nonVirtual : MethodMark .nonVirtual "method"
  | virtual : MethodMark .virtual "virtual"

inductive AccessorMark : MethodKind → String → List String → Prop
  | get : AccessorMark .get "get" []
  | set (value : String) : AccessorMark .set "set" [value]

inductive Member : Bool → Item → List Token → Prop
  | field {isClass : Bool} {name : Token} {declared : Field} {named tail : List Token}
    (isName : Name name named) (isTail : FieldTail name declared tail) :
    Member isClass (.field declared) (named ++ tail)
  | method {kind : MethodKind} {word : String} {name : Token} {parameters : List String}
    {text : Text} {line : Nat} {mark named signed body : List Token}
    (spelled : MethodMark kind word) (isMark : Mark word mark) (isName : Name name named)
    (isSigned : Signature parameters signed) (isBody : Body text line body) :
    Member true (.method ⟨kind, name.word, parameters, text, line⟩)
      (mark ++ (named ++ (signed ++ body)))
  | accessor {kind : MethodKind} {word : String} {parameters : List String} {text : Text}
    {line : Nat} {mark signed body : List Token} (spelled : AccessorMark kind word parameters)
    (isMark : Mark word mark) (isSigned : Signature parameters signed)
    (isBody : Body text line body) :
    Member false (.method ⟨kind, "", parameters, text, line⟩) (mark ++ (signed ++ body))

inductive Members (isClass : Bool) : List Item → List Token → Prop
  | nil : Members isClass [] []
  | cons {item : Item} {items : List Item} {first rest : List Token}
    (isFirst : Member isClass item first) (more : Members isClass items rest) :
    Members isClass (item :: items) (first ++ rest)

/-! ### Blocks -/

inductive Header : Form → String → List Token → Prop
  | struct {name : Token} {keyword named : List Token} (isKeyword : Word "struct" keyword)
    (isName : Name name named) : Header .structForm name.word (keyword ++ named)
  | root {name : Token} {keyword named : List Token} (isKeyword : Word "class" keyword)
    (isName : Name name named) : Header (.classForm none) name.word (keyword ++ named)
  | derived {name base : Token} {keyword named marked based : List Token}
    (isKeyword : Word "class" keyword) (isName : Name name named) (isMarked : Word "extends" marked)
    (isBase : Name base based) :
    Header (.classForm (some base.word)) name.word (keyword ++ (named ++ (marked ++ based)))

/-- A block behind its opening marker: members have names of their own, and a struct has a getter
and a setter at most. -/
inductive Definition (file : String) (line : Nat) : Declaration → List Token → Prop
  | mk {form : Form} {name : String} {items : List Item}
    {header opening members closing ending : List Token} (isHeader : Header form name header)
    (isOpening : Sign .lBrace opening)
    (isMembers : Members (form != .structForm) items members)
    (isClosing : Sign .rBrace closing) (isEnding : Mark "end" ending)
    (distinct : (items.filterMap Item.name?).Nodup)
    (single : (items.filterMap Item.accessor?).Nodup) :
    Definition file line
      ⟨name, file, line, form, items.filterMap Item.field?, items.filterMap Item.method?, 0⟩
      (header ++ (opening ++ (members ++ (closing ++ ending))))

/-- A document: tokens that stay, and blocks that start with a marker each. -/
inductive Derives (file : String) : List Piece → List Token → Prop
  | nil : Derives file [] []
  | copied {token : Token} {pieces : List Piece} {tokens : List Token}
    (stays : token.kind ≠ .defnStart) (more : Derives file pieces tokens) :
    Derives file (.copied token :: pieces) (token :: tokens)
  | block {start : Token} {declaration : Declaration} {pieces : List Piece}
    {block tokens : List Token} (starts : start.kind = .defnStart)
    (isBlock : Definition file start.line declaration block) (more : Derives file pieces tokens) :
    Derives file (.block declaration :: pieces) (start :: (block ++ tokens))

end Grammar

end FlatMemory
