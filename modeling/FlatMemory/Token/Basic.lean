import FlatMemory.Text.Basic

/-! # Tokens

A token is a kind, its exact text and the line on which it starts. -/

namespace FlatMemory

inductive TokenKind where
  | ident
  | dot
  | ellipsis
  | colon
  | semicolon
  | comma
  | lBracket
  | rBracket
  | lParen
  | rParen
  | lBrace
  | rBrace
  /-- Plain and compound assignment operators. -/
  | assign
  /-- Other operators, string, template and number literals, any other character. -/
  | other
  | whitespace
  | linebreak
  | comment
  /-- Zero-width marker after a token that spans several lines. -/
  | lineReset
  | defnStart
  | newInstance
  | eof
  deriving DecidableEq, Repr

namespace TokenKind

/-- Kinds without effect on program structure. -/
def isTrivia : TokenKind → Bool
  | whitespace | linebreak | comment | lineReset => true
  | _ => false

def isOpen : TokenKind → Bool
  | lParen | lBracket | lBrace => true
  | _ => false

def isClose : TokenKind → Bool
  | rParen | rBracket | rBrace => true
  | _ => false

/-- The closing kind that an opening kind asks for. -/
def closer? : TokenKind → Option TokenKind
  | lParen => some rParen
  | lBracket => some rBracket
  | lBrace => some rBrace
  | _ => none

end TokenKind

structure Token where
  kind : TokenKind
  text : Text
  line : Nat
  deriving DecidableEq, Repr

namespace Token

def word (token : Token) : String := String.ofList token.text

def isIdent (token : Token) (name : String) : Bool :=
  token.kind = .ident && token.word = name

def describe (token : Token) : String :=
  match token.kind with
  | .eof => "end of input"
  | .linebreak => "line break"
  | .lineReset => "line marker"
  | _ => "`" ++ token.word ++ "`"

end Token

inductive LexErrorKind where
  | unterminatedString
  | newlineInString
  | unterminatedTemplate
  | unterminatedComment
  deriving DecidableEq, Repr

def LexErrorKind.message : LexErrorKind → String
  | unterminatedString => "unterminated string literal"
  | newlineInString => "line break inside string literal"
  | unterminatedTemplate => "unterminated template literal"
  | unterminatedComment => "unterminated block comment"

/-- A token that cannot be completed, with the line on which it starts. -/
structure LexError where
  kind : LexErrorKind
  line : Nat
  deriving DecidableEq, Repr

end FlatMemory
