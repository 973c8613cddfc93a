import FlatMemory.Text.Basic

/-! # Blank text

Blank characters are those with the Unicode property White_Space.  Trimming takes them off the ends
of a text. -/

namespace FlatMemory

/-- Ranges of the code points with the property White_Space. -/
def blankRanges : List (Nat × Nat) :=
  [(0x9, 0xD), (0x20, 0x20), (0x85, 0x85), (0xA0, 0xA0), (0x1680, 0x1680), (0x2000, 0x200A),
   (0x2028, 0x2029), (0x202F, 0x202F), (0x205F, 0x205F), (0x3000, 0x3000)]

def isBlank (c : Char) : Bool :=
  blankRanges.any fun (low, high) => low ≤ c.toNat && c.toNat ≤ high

/-- The blank characters of ASCII without the vertical tab. -/
def isAsciiBlank (c : Char) : Bool :=
  c == ' ' || c == '\t' || c == '\n' || c == '\x0c' || c == '\r'

namespace Text

def isBlank (text : Text) : Bool := text.all FlatMemory.isBlank

def trimStart (text : Text) : Text := text.dropWhile FlatMemory.isBlank

def trimEnd (text : Text) : Text := (text.reverse.dropWhile FlatMemory.isBlank).reverse

def trim (text : Text) : Text := text.trimStart.trimEnd

/-- The blank characters at the end, which `trimEnd` takes off. -/
def trailingBlank (text : Text) : Text := (text.reverse.takeWhile FlatMemory.isBlank).reverse

end Text

end FlatMemory
