import FlatMemory.Text.Cut

/-! # Literals and comments in plain text

Text that is not cut into tokens is scanned past strings, template literals and comments.  The scan
is forgiving: an unfinished literal runs to the end of the text, and a broken string to the end of
its line. -/

namespace FlatMemory

namespace Literal

/-- A string behind its opening quote.  A line feed ends a broken string and stays. -/
def quoted (quote : Char) : Text → Cut
  | [] => Cut.none []
  | ['\\'] => ⟨['\\'], []⟩
  | '\\' :: c :: cs => (quoted quote cs).after ['\\', c]
  | c :: cs =>
    if c = quote then ⟨[c], cs⟩
    else if c = '\n' then Cut.none (c :: cs)
    else (quoted quote cs).after [c]

def template : Text → Cut
  | [] => Cut.none []
  | ['\\'] => ⟨['\\'], []⟩
  | '\\' :: c :: cs => (template cs).after ['\\', c]
  | c :: cs => if c = '\x60' then ⟨[c], cs⟩ else (template cs).after [c]

def blockComment : Text → Cut
  | [] => Cut.none []
  | '*' :: '/' :: cs => ⟨['*', '/'], cs⟩
  | c :: cs => (blockComment cs).after [c]

/-- A line comment behind its opening mark ends before the line feed. -/
def lineComment (text : Text) : Cut := Cut.span (fun c => c ≠ '\n') text

def first? : Text → Option Cut
  | '/' :: '/' :: cs => some ((lineComment cs).after ['/', '/'])
  | '/' :: '*' :: cs => some ((blockComment cs).after ['/', '*'])
  | c :: cs =>
    if c = '"' ∨ c = '\x27' then some ((quoted c cs).after [c])
    else if c = '\x60' then some ((template cs).after [c])
    else none
  | [] => none

theorem whole_quoted (quote : Char) (text : Text) : (quoted quote text).whole = text := by
  fun_induction quoted quote text with
  | case1 => rfl
  | case2 => rfl
  | case3 c cs ih => rw [Cut.whole_after, ih]; rfl
  | case4 => rfl
  | case5 => rfl
  | case6 c cs _ _ _ _ ih => rw [Cut.whole_after, ih]; rfl

theorem whole_template (text : Text) : (template text).whole = text := by
  fun_induction template text with
  | case1 => rfl
  | case2 => rfl
  | case3 c cs ih => rw [Cut.whole_after, ih]; rfl
  | case4 => rfl
  | case5 c cs _ _ _ ih => rw [Cut.whole_after, ih]; rfl

theorem whole_blockComment (text : Text) : (blockComment text).whole = text := by
  fun_induction blockComment text with
  | case1 => rfl
  | case2 => rfl
  | case3 c cs _ ih => rw [Cut.whole_after, ih]; rfl

variable {text : Text} {cut : Cut}

/-- A literal at the start of a text is a non-empty part of it. -/
theorem whole_first? (found : first? text = some cut) : cut.whole = text ∧ cut.taken ≠ [] := by
  unfold first? at found
  split at found
  · cases found
    exact ⟨by simp [lineComment], by simp [Cut.after]⟩
  · cases found
    exact ⟨by simp [whole_blockComment], by simp [Cut.after]⟩
  · split at found
    · cases found
      exact ⟨by simp [whole_quoted], by simp [Cut.after]⟩
    · split at found
      · cases found
        exact ⟨by simp [whole_template], by simp [Cut.after]⟩
      · simp at found
  · simp at found

theorem rest_length_lt (found : first? text = some cut) : cut.rest.length < text.length :=
  Cut.rest_length_lt (whole_first? found).1 (whole_first? found).2

end Literal

end FlatMemory
