import FlatMemory.Text.Basic

/-! # Identifier characters

Identifiers of the host language as far as this tool reads them: ASCII letters, digits, `_` and `$`,
not starting with a digit. -/

namespace FlatMemory

def isIdentStart (c : Char) : Bool := c.isAlpha || c == '_' || c == '$'

def isIdentPart (c : Char) : Bool := c.isAlphanum || c == '_' || c == '$'

theorem isIdentPart_of_isIdentStart {c : Char} (start : isIdentStart c = true) :
    isIdentPart c = true := by
  simp only [isIdentStart, isIdentPart, Char.isAlphanum, Bool.or_eq_true] at start ⊢
  rcases start with (letter | low) | dollar
  · exact .inl (.inl (.inl letter))
  · exact .inl (.inr low)
  · exact .inr dollar

end FlatMemory
