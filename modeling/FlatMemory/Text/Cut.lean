import FlatMemory.Text.Basic

/-! # Cutting texts

A cut is a text in two parts: what was taken off its front and the rest. -/

namespace FlatMemory

structure Cut where
  taken : Text
  rest : Text
  deriving DecidableEq, Repr

namespace Cut

def span (p : Char → Bool) (text : Text) : Cut := ⟨text.takeWhile p, text.dropWhile p⟩

def none (text : Text) : Cut := ⟨[], text⟩

/-- Put characters in front of what was taken. -/
def after (front : Text) (cut : Cut) : Cut := ⟨front ++ cut.taken, cut.rest⟩

def whole (cut : Cut) : Text := cut.taken ++ cut.rest

@[simp] theorem whole_span (p : Char → Bool) (text : Text) : (span p text).whole = text :=
  List.takeWhile_append_dropWhile

@[simp] theorem whole_none (text : Text) : (none text).whole = text := rfl

@[simp] theorem whole_after (front : Text) (cut : Cut) :
    (cut.after front).whole = front ++ cut.whole := by
  simp [after, whole]

theorem rest_length_le {cut : Cut} {text : Text} (whole : cut.whole = text) :
    cut.rest.length ≤ text.length := by
  rw [← whole, Cut.whole]
  simp

theorem rest_length_lt {cut : Cut} {text : Text} (whole : cut.whole = text)
    (some : cut.taken ≠ []) : cut.rest.length < text.length := by
  have := List.length_pos_iff.2 some
  rw [← whole, Cut.whole, List.length_append]
  omega

end Cut

end FlatMemory
