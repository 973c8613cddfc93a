import FlatMemory.Text.Trie
import FlatMemory.Token.Basic

/-! # Operators of the host language

Brackets, `,`, `;` and `:` are no operators here: they have kinds of their own. -/

namespace FlatMemory

namespace Operator

def all : List String :=
  [">>>=",
   ">>>", "<<=", ">>=", "===", "!==", "**=", "&&=", "||=", "??=", "...",
   "=>", "==", "!=", "<=", ">=", "&&", "||", "??", "?.", "++", "--", "+=", "-=", "*=", "/=",
   "%=", "&=", "|=", "^=", "<<", ">>", "**",
   "=", "+", "-", "*", "/", "%", "&", "|", "^", "!", "~", "<", ">", "?", "."]

def assignments : List String :=
  ["=", "+=", "-=", "*=", "/=", "%=", "&=", "|=", "^=", "<<=", ">>=", ">>>=", "**=", "&&=",
   "||=", "??="]

def trie : Trie Char := Trie.ofWords (all.map String.toList)

/-- The operators in an array of nodes, which the bytes of a source are looked up in. -/
def nodes : NodeTrie Char := NodeTrie.ofWords (all.map String.toList)

def kind (operator : String) : TokenKind :=
  if operator = "." then .dot
  else if operator = "..." then .ellipsis
  else if operator ∈ assignments then .assign
  else .other

end Operator

end FlatMemory
