import FlatMemory.Token.Lexer

/-! # Token streams

Lexing loses nothing and always moves on: the text of a token followed by its rest is the text it
was cut from, and an unfinished token leaves a proper suffix behind.  So a lexer, asked again and
again, reaches the end of its input. -/

namespace FlatMemory

namespace Lexeme

theorem whole_digitsAfter (p : Char → Bool) (mark text : Text) :
    (digitsAfter p mark text (mark ++ text)).whole = mark ++ text := by
  unfold digitsAfter
  dsimp only
  split
  · rfl
  · rw [Cut.whole_after, Cut.whole_span]

theorem whole_fraction (text : Text) : (fraction text).whole = text := by
  unfold fraction
  split
  · exact whole_digitsAfter _ ['.'] _
  · rfl

theorem whole_exponent (text : Text) : (exponent text).whole = text := by
  unfold exponent
  split
  · rfl
  · next e cs =>
    split
    · split
      · exact whole_digitsAfter _ [e, '+'] _
      · exact whole_digitsAfter _ [e, '-'] _
      · exact whole_digitsAfter _ [e] _
    · rfl

theorem whole_decimal (text : Text) : (decimal text).whole = text := by
  have cutExponent := whole_exponent (fraction (Cut.span Char.isDigit text).rest).rest
  have cutFraction := whole_fraction (Cut.span Char.isDigit text).rest
  have cutWhole := Cut.whole_span Char.isDigit text
  unfold decimal
  rw [Cut.whole_after, Cut.whole_after, cutExponent]
  exact (congrArg _ cutFraction).trans cutWhole

theorem whole_hexadecimal (text : Text) : (hexadecimal text).whole = text := by
  unfold hexadecimal
  split
  · rfl
  · next x cs =>
    split
    · exact whole_digitsAfter _ [x] _
    · rfl

theorem whole_number (c : Char) (cs : Text) : (number c cs).whole = c :: cs := by
  unfold number
  dsimp only
  split
  · rw [Cut.whole_after, whole_hexadecimal]; rfl
  · exact whole_decimal (c :: cs)

theorem taken_number_ne_nil (c : Char) (cs : Text) (digit : c.isDigit = true) :
    (number c cs).taken ≠ [] := by
  unfold number
  dsimp only
  split
  · simp [Cut.after]
  · simp [decimal, Cut.after, Cut.span, digit]

/-- What a cut that may fail has to do: keep the text, or leave a suffix of it. -/
def Keeps (text : Text) : Except Stuck Cut → Prop
  | .ok cut => cut.whole = text
  | .error stuck => stuck.rest <:+ text

variable {text cs : Text} {result : Except Stuck Cut} {c : Char}

theorem Keeps.map_after (front : Text) (keeps : Keeps text result) :
    Keeps (front ++ text) (result.map (Cut.after front)) := by
  cases result with
  | ok cut => simpa [Keeps, Except.map] using keeps
  | error stuck => exact keeps.trans (List.suffix_append front text)

theorem keeps_quoted (quote : Char) (text : Text) : Keeps text (quoted quote text) := by
  fun_induction quoted quote text with
  | case1 => exact List.suffix_refl _
  | case2 => exact List.nil_suffix
  | case3 cs ih => exact ih.map_after ['\\', '\r', '\n']
  | case4 c cs _ ih => exact ih.map_after ['\\', c]
  | case5 => rfl
  | case6 => exact List.suffix_refl _
  | case7 c cs _ _ _ _ _ ih => exact ih.map_after [c]

theorem keeps_template (text : Text) : Keeps text (template text) := by
  fun_induction template text with
  | case1 => exact List.suffix_refl _
  | case2 => exact List.nil_suffix
  | case3 c cs ih => exact ih.map_after ['\\', c]
  | case4 => rfl
  | case5 c cs _ _ _ ih => exact ih.map_after [c]

theorem keeps_blockComment (text : Text) : Keeps text (blockComment text) := by
  fun_induction blockComment text with
  | case1 => exact List.suffix_refl _
  | case2 => rfl
  | case3 c cs _ ih => exact ih.map_after [c]

theorem whole_lineComment (text : Text) : (lineComment text).whole = text := by
  fun_induction lineComment text with
  | case1 => rfl
  | case2 => rfl
  | case3 => rfl
  | case4 c cs _ _ ih => rw [Cut.whole_after, ih]; rfl

/-- What the first token of `c :: cs` has to do: hold at least one character and keep the rest,
or leave a suffix of `cs`. -/
def Advances (c : Char) (cs : Text) : Except Stuck Lexeme → Prop
  | .ok lexeme => lexeme.text ++ lexeme.rest = c :: cs ∧ lexeme.text ≠ []
  | .error stuck => stuck.rest <:+ cs

theorem advances_ofCut {cut : Cut} (kind : TokenKind) (whole : cut.whole = c :: cs)
    (taken : cut.taken ≠ []) : Advances c cs (.ok (ofCut kind cut)) :=
  ⟨whole, taken⟩

/-- A literal or comment found behind its opening mark. -/
theorem advances_behind (kind : TokenKind) (mark : Text) (keeps : Keeps text result)
    (split : c :: (mark ++ text) = c :: cs) :
    Advances c cs (result.map fun cut => ofCut kind (cut.after (c :: mark))) := by
  cases result with
  | ok cut =>
    refine ⟨?_, by simp [ofCut, Cut.after]⟩
    change (cut.after (c :: mark)).whole = c :: cs
    rw [Cut.whole_after, show cut.whole = text from keeps]
    exact split
  | error stuck =>
    have same : mark ++ text = cs := (List.cons.inj split).2
    exact same ▸ (show stuck.rest <:+ text from keeps).trans (List.suffix_append mark text)

theorem advances_operator (c : Char) (cs : Text) : Advances c cs (.ok (operator c cs)) := by
  unfold operator
  split
  · exact ⟨rfl, by simp⟩
  · exact ⟨by simp, by simp⟩

theorem advances_slash (cs : Text) : Advances '/' cs (slash cs) := by
  unfold slash
  split
  · next ds =>
    exact advances_ofCut _ (by rw [Cut.whole_after, whole_lineComment]; rfl) (by simp [Cut.after])
  · next ds => exact advances_behind .comment ['*'] (keeps_blockComment ds) rfl
  · exact advances_operator '/' cs

theorem advances_marker (cs : Text) : Advances '@' cs (.ok (marker cs)) := by
  have whole : ((Cut.span isIdentPart cs).after ['@']).whole = '@' :: cs := by simp
  have taken : ((Cut.span isIdentPart cs).after ['@']).taken ≠ [] := by simp [Cut.after]
  unfold marker
  simp only
  split
  · exact advances_ofCut _ whole taken
  · split
    · exact advances_ofCut _ whole taken
    · exact ⟨rfl, by simp⟩

theorem advances_carriageReturn (cs : Text) : Advances '\r' cs (.ok (carriageReturn cs)) := by
  unfold carriageReturn
  split <;> exact ⟨rfl, by simp⟩

theorem advances_first (c : Char) (cs : Text) : Advances c cs (first c cs) := by
  unfold first
  split
  · exact advances_ofCut _ (by simp) (by simp [Cut.after])
  split
  · next eq => exact eq ▸ advances_carriageReturn cs
  split
  · exact ⟨rfl, by simp⟩
  split
  · exact advances_ofCut _ (by simp) (by simp [Cut.after])
  split
  · next digit => exact advances_ofCut _ (whole_number c cs) (taken_number_ne_nil c cs digit)
  split
  · exact advances_behind .other [] (keeps_quoted c cs) rfl
  split
  · exact advances_behind .other [] (keeps_template cs) rfl
  split
  · next eq => exact eq ▸ advances_slash cs
  split
  · next eq => exact eq ▸ advances_marker cs
  split
  · exact ⟨rfl, by simp⟩
  · exact advances_operator c cs

end Lexeme

namespace Lexer

/-- Bound on how often a lexer can still be asked before it stays at the end. -/
def remaining (lexer : Lexer) : Nat := 2 * lexer.rest.length + lexer.resetDue.toNat

variable {lexer after : Lexer}

/-- A token other than the end of input brings the end nearer. -/
theorem remaining_lt_of_token {token : Token} (step : lexer.next = (.ok token, after))
    (more : token.kind ≠ .eof) : after.remaining < lexer.remaining := by
  unfold next at step
  split at step
  · next due =>
    obtain ⟨_, rfl⟩ := Prod.mk.inj step
    simp [remaining, due]
  · split at step
    · obtain ⟨same, rfl⟩ := Prod.mk.inj step
      exact absurd (congrArg Token.kind (Except.ok.inj same)).symm more
    · next notDue c cs text =>
      have advances := Lexeme.advances_first c cs
      split at step
      · simp at step
      · next lexeme found =>
        rw [found] at advances
        obtain ⟨_, rfl⟩ := Prod.mk.inj step
        have total := congrArg List.length advances.1
        have some := List.length_pos_iff.2 advances.2
        simp only [List.length_append, List.length_cons] at total
        simp only [remaining, text, List.length_cons]
        have := Bool.toNat_le (decide (lexeme.kind ≠ .linebreak ∧ 0 < Text.lineBreaks lexeme.text))
        omega

theorem remaining_lt_of_error {error : LexError} (step : lexer.next = (.error error, after)) :
    after.remaining < lexer.remaining := by
  unfold next at step
  split at step
  · simp at step
  · split at step
    · simp at step
    · next notDue c cs text =>
      have advances := Lexeme.advances_first c cs
      split at step
      · next stuck found =>
        rw [found] at advances
        obtain ⟨_, rfl⟩ := Prod.mk.inj step
        have shorter := (show stuck.rest <:+ cs from advances).length_le
        simp only [remaining, text, List.length_cons]
        omega
      · simp at step

/-- Everything the lexer answers before the end of input, and the lexer that stays there. -/
def answers (lexer : Lexer) : List (Except LexError Token) × Lexer :=
  match step : lexer.next with
  | (.ok token, after) =>
    if more : token.kind = .eof then ([], after)
    else
      have := remaining_lt_of_token step more
      let (later, final) := answers after
      (.ok token :: later, final)
  | (.error error, after) =>
    have := remaining_lt_of_error step
    let (later, final) := answers after
    (.error error :: later, final)
termination_by lexer.remaining

end Lexer

/-- All tokens of a text that starts on the given line, without the end of input. -/
def tokenizeFrom (line : Nat) (text : Text) : Except LexError (List Token) :=
  (Lexer.ofText text line).answers.1.mapM id

def tokenize (text : Text) : Except LexError (List Token) := tokenizeFrom 1 text

end FlatMemory
