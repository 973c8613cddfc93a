/-! # Texts

A text is its list of characters.  Positions in a text are offsets in bytes of its UTF-8 form, so
the width of a character is between one and four, and an offset may fall inside a character. -/

namespace FlatMemory

abbrev Text := List Char

namespace Text

/-- Length of the UTF-8 form. -/
def byteLength : Text → Nat
  | [] => 0
  | c :: cs => c.utf8Size + byteLength cs

/-- Line breaks are counted by their line feeds, so a CRLF pair is one break. -/
def lineBreaks (text : Text) : Nat := text.count '\n'

/-- Cut a text at a byte offset.  There is no cut past the end or inside a character. -/
def splitAtByte? : Nat → Text → Option (Text × Text)
  | 0, text => some ([], text)
  | _ + 1, [] => none
  | n + 1, c :: cs =>
    if c.utf8Size ≤ n + 1 then
      (splitAtByte? (n + 1 - c.utf8Size) cs).map fun (before, after) => (c :: before, after)
    else none

/-- The text between two byte offsets, when both are character boundaries in this order. -/
def slice? (text : Text) (start stop : Nat) : Option Text :=
  if start ≤ stop then do
    let (_, after) ← splitAtByte? start text
    let (between, _) ← splitAtByte? (stop - start) after
    return between
  else none

/-- Line feeds at the byte offsets from `start` up to but not including `stop`. -/
def lineBreaksBetween (start stop : Nat) : Nat → Text → Nat
  | _, [] => 0
  | offset, c :: cs =>
    let here := if c = '\n' ∧ start ≤ offset ∧ offset < stop then 1 else 0
    here + lineBreaksBetween start stop (offset + c.utf8Size) cs

@[simp] theorem byteLength_append (first second : Text) :
    byteLength (first ++ second) = byteLength first + byteLength second := by
  induction first with
  | nil => simp [byteLength]
  | cons c cs ih => simp [byteLength, ih, Nat.add_assoc]

theorem byteLength_pos {text : Text} (some : text ≠ []) : 0 < text.byteLength := by
  cases text with
  | nil => exact absurd rfl some
  | cons c cs => exact Nat.add_pos_left (Char.utf8Size_pos c) _

@[simp] theorem lineBreaks_append (first second : Text) :
    lineBreaks (first ++ second) = lineBreaks first + lineBreaks second := by
  simp [lineBreaks]

theorem splitAtByte?_byteLength (before after : Text) :
    splitAtByte? before.byteLength (before ++ after) = some (before, after) := by
  induction before with
  | nil => cases after <;> rfl
  | cons c cs ih =>
    have wide := Char.utf8Size_pos c
    obtain ⟨n, width⟩ : ∃ n, byteLength (c :: cs) = n + 1 :=
      ⟨c.utf8Size + byteLength cs - 1, by simp only [byteLength]; omega⟩
    have left : n + 1 - c.utf8Size = byteLength cs := by
      rw [← width]
      simp only [byteLength]
      omega
    rw [width, List.cons_append, splitAtByte?, if_pos (by rw [← width, byteLength]; omega), left, ih]
    rfl

theorem slice?_between (front middle back : Text) :
    (front ++ (middle ++ back)).slice? front.byteLength (front ++ middle).byteLength =
      some middle := by
  unfold slice?
  have room : (front ++ middle).byteLength - front.byteLength = middle.byteLength := by
    rw [byteLength_append, Nat.add_sub_cancel_left]
  rw [if_pos (by simp), splitAtByte?_byteLength, room]
  change (splitAtByte? middle.byteLength (middle ++ back)).bind _ = _
  rw [splitAtByte?_byteLength]
  rfl

end Text

end FlatMemory
