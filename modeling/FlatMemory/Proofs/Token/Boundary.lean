import FlatMemory.Proofs.Token.Stream

/-! # Token boundaries

A bracket, comma, semicolon or colon never belongs to a longer token, unless a literal or comment
runs over it.  So tokens that lie in front of one are cut the same way when the text ends there:
the part of a text between two brackets, lexed on its own, gives the tokens it had. -/

namespace FlatMemory

open List

variable {lexer after : Lexer}

def stops : List Char := ['(', ')', '[', ']', '{', '}', ',', ';', ':']

namespace Cut

def followedBy (tail : Text) (cut : Cut) : Cut := ⟨cut.taken, cut.rest ++ tail⟩

theorem after_followedBy (front tail : Text) (cut : Cut) :
    (cut.followedBy tail).after front = (cut.after front).followedBy tail := rfl

theorem span_stop {p : Char → Bool} {stop : Char} (outside : p stop = false) (text more : Text) :
    span p (text ++ stop :: more) = (span p text).followedBy (stop :: more) := by
  unfold span followedBy
  induction text with
  | nil => simp [outside]
  | cons c cs ih =>
    by_cases inside : p c = true
    · simp only [Cut.mk.injEq] at ih
      simp [inside, ih.1, ih.2]
    · simp [inside]

end Cut

def Trie.avoids (c : Char) : Trie Char → Bool
  | empty => true
  | edge label _ below beside => label != c && below.avoids c && beside.avoids c

theorem Trie.longestMatch_stop {trie : Trie Char} {stop : Char} (avoids : trie.avoids stop = true)
    (text more : Text) : trie.longestMatch (text ++ stop :: more) = trie.longestMatch text := by
  induction trie generalizing text with
  | empty => simp [longestMatch]
  | edge label wordEnds below beside ihBelow ihBeside =>
    simp only [Trie.avoids, Bool.and_eq_true, bne_iff_ne, ne_eq] at avoids
    obtain ⟨⟨different, avoidsBelow⟩, avoidsBeside⟩ := avoids
    cases text with
    | nil =>
      have later := ihBeside avoidsBeside []
      have passes : (edge label wordEnds below beside).longestMatch (stop :: more) =
          beside.longestMatch (stop :: more) := by simp [longestMatch, different]
      rw [nil_append] at later ⊢
      rw [passes, later]
      cases beside <;> rfl
    | cons c cs =>
      rw [cons_append, longestMatch, longestMatch, ihBelow avoidsBelow cs,
        ← cons_append, ihBeside avoidsBeside (c :: cs)]

theorem Trie.longestMatch_le (trie : Trie Char) (text : Text) :
    trie.longestMatch text ≤ text.length := by
  induction trie generalizing text with
  | empty => simp [longestMatch]
  | edge label wordEnds below beside ihBelow ihBeside =>
    cases text with
    | nil => simp [longestMatch]
    | cons c cs =>
      have inBelow := ihBelow cs
      have inBeside := ihBeside (c :: cs)
      unfold longestMatch
      split
      · split
        · split <;> simp
        · next n matched =>
          rw [matched] at inBelow
          simp only [length_cons]
          omega
      · exact inBeside

namespace Lexeme

variable {c : Char} {cs : Text} {stop : Char}

def followedBy (tail : Text) (lexeme : Lexeme) : Lexeme :=
  { lexeme with rest := lexeme.rest ++ tail }

theorem digitsAfter_stop {p : Char → Bool} (outside : p stop = false)
    (mark text otherwise more : Text) :
    digitsAfter p mark (text ++ stop :: more) (otherwise ++ stop :: more) =
      (digitsAfter p mark text otherwise).followedBy (stop :: more) := by
  unfold digitsAfter
  dsimp only
  rw [Cut.span_stop outside]
  by_cases none : (Cut.span p text).taken.isEmpty = true
  · simp [Cut.followedBy, none, Cut.none]
  · simp [Cut.followedBy, none, Cut.after]

theorem lineComment_plain (notFeed : c ≠ '\n')
    (notPair : ∀ rest, c = '\r' → cs = '\n' :: rest → False) :
    lineComment (c :: cs) = (lineComment cs).after [c] := by
  rw [lineComment]
  · exact notFeed
  · exact notPair

section Stop

variable {stop : Char} (isStop : stop ∈ stops) (more : Text)

include isStop

theorem stop_of_all {p : Char → Bool} (all : stops.all p = true) : p stop = true :=
  all_eq_true.1 all stop isStop

theorem stop_isDigit : stop.isDigit = false := by
  simpa using stop_of_all isStop (p := fun c => !c.isDigit) (by decide)

theorem stop_isIdentPart : isIdentPart stop = false := by
  simpa using stop_of_all isStop (p := fun c => !isIdentPart c) (by decide)

theorem stop_isHexDigit : isHexDigit stop = false := by
  simpa using stop_of_all isStop (p := fun c => !isHexDigit c) (by decide)

theorem stop_isSpace : isSpace stop = false := by
  simpa using stop_of_all isStop (p := fun c => !isSpace c) (by decide)

theorem stop_avoided : Operator.trie.avoids stop = true :=
  stop_of_all isStop (p := Operator.trie.avoids) (by decide)

theorem stop_ne (mark : c ∈ ['.', '+', '-', 'e', 'E', 'x', 'X', '\n', '\r', '/', '*']) :
    stop ≠ c := by
  have apart := stop_of_all isStop (p := fun stop =>
    ['.', '+', '-', 'e', 'E', 'x', 'X', '\n', '\r', '/', '*'].all fun c => stop != c) (by decide)
  simpa using all_eq_true.1 apart c mark

theorem fraction_stop (text : Text) :
    fraction (text ++ stop :: more) = (fraction text).followedBy (stop :: more) := by
  cases text with
  | nil =>
    have notDot := stop_ne isStop (c := '.') (by simp)
    rw [nil_append, fraction]
    · rfl
    · rintro cs same
      exact notDot (List.cons.inj same).1
  | cons c cs =>
    by_cases dot : c = '.'
    · subst dot
      exact digitsAfter_stop (stop_isDigit isStop) ['.'] cs ('.' :: cs) more
    · rw [cons_append, fraction, fraction]
      · rfl
      · rintro _ same
        exact dot (List.cons.inj same).1
      · rintro _ same
        exact dot (List.cons.inj same).1

theorem exponent_stop (text : Text) :
    exponent (text ++ stop :: more) = (exponent text).followedBy (stop :: more) := by
  have digits := stop_isDigit isStop
  cases text with
  | nil =>
    have notMark : ¬ (stop = 'e' ∨ stop = 'E') := by
      rintro (same | same)
      · exact stop_ne isStop (by simp) same
      · exact stop_ne isStop (by simp) same
    simp [exponent, notMark, Cut.none, Cut.followedBy]
  | cons e cs =>
    by_cases mark : e = 'e' ∨ e = 'E'
    · simp only [cons_append, exponent, mark, if_true]
      -- A sign counts only right behind the mark, and a stop is none.
      cases cs with
      | nil =>
        have bare := digitsAfter_stop digits [e] [] [e] more
        split
        · next same => exact absurd (List.cons.inj same).1 (stop_ne isStop (by simp))
        · next same => exact absurd (List.cons.inj same).1 (stop_ne isStop (by simp))
        · exact bare
      | cons sign ds =>
        by_cases plus : sign = '+'
        · subst plus
          exact digitsAfter_stop digits [e, '+'] ds (e :: '+' :: ds) more
        by_cases minus : sign = '-'
        · subst minus
          exact digitsAfter_stop digits [e, '-'] ds (e :: '-' :: ds) more
        · have bare := digitsAfter_stop digits [e] (sign :: ds) (e :: sign :: ds) more
          simp only [cons_append] at bare ⊢
          split
          · next same => exact absurd (List.cons.inj same).1 plus
          · next same => exact absurd (List.cons.inj same).1 minus
          · split
            · next same => exact absurd (List.cons.inj same).1 plus
            · next same => exact absurd (List.cons.inj same).1 minus
            · exact bare
    · simp [exponent, mark, Cut.none, Cut.followedBy]

theorem decimal_stop (text : Text) :
    decimal (text ++ stop :: more) = (decimal text).followedBy (stop :: more) := by
  unfold decimal
  dsimp only
  rw [Cut.span_stop (stop_isDigit isStop)]
  dsimp only [Cut.followedBy]
  rw [fraction_stop isStop]
  dsimp only [Cut.followedBy]
  rw [exponent_stop isStop]
  rfl

theorem hexadecimal_stop (text : Text) :
    hexadecimal (text ++ stop :: more) = (hexadecimal text).followedBy (stop :: more) := by
  cases text with
  | nil =>
    have notMark : ¬ (stop = 'x' ∨ stop = 'X') := by
      rintro (same | same)
      · exact stop_ne isStop (by simp) same
      · exact stop_ne isStop (by simp) same
    simp [hexadecimal, notMark, Cut.none, Cut.followedBy]
  | cons x cs =>
    by_cases mark : x = 'x' ∨ x = 'X'
    · simp only [cons_append, hexadecimal, mark, if_true]
      exact digitsAfter_stop (stop_isHexDigit isStop) [x] cs (x :: cs) more
    · simp [hexadecimal, mark, Cut.none, Cut.followedBy]

theorem number_stop (c : Char) (text : Text) :
    number c (text ++ stop :: more) = (number c text).followedBy (stop :: more) := by
  have hex := hexadecimal_stop isStop more text
  have dec := decimal_stop isStop more (c :: text)
  unfold number
  dsimp only
  rw [hex, ← cons_append, dec]
  change (if c = '0' ∧ (!(hexadecimal text).taken.isEmpty) = true then
    ((hexadecimal text).followedBy (stop :: more)).after [c]
    else (decimal (c :: text)).followedBy (stop :: more)) = _
  by_cases hexadecimal : c = '0' ∧ (!(hexadecimal text).taken.isEmpty) = true
  · rw [if_pos hexadecimal, if_pos hexadecimal, Cut.after_followedBy]
  · rw [if_neg hexadecimal, if_neg hexadecimal]

theorem operator_stop (c : Char) (text : Text) :
    operator c (text ++ stop :: more) = (operator c text).followedBy (stop :: more) := by
  have same := Trie.longestMatch_stop (stop_avoided isStop) (c :: text) more
  have short := Trie.longestMatch_le Operator.trie (c :: text)
  unfold operator
  rw [← cons_append, same]
  cases matched : Operator.trie.longestMatch (c :: text) with
  | zero => rfl
  | succ n =>
    rw [matched] at short
    simp only [length_cons] at short
    simp only [followedBy]
    rw [take_append_of_le_length (by omega), drop_append_of_le_length (by omega)]

theorem marker_stop (text : Text) :
    marker (text ++ stop :: more) = (marker text).followedBy (stop :: more) := by
  unfold marker
  rw [Cut.span_stop (stop_isIdentPart isStop)]
  dsimp only [Cut.followedBy]
  by_cases opens : (Cut.span isIdentPart text).taken = "flatjs".toList
  · rw [if_pos opens, if_pos opens]
    rfl
  by_cases allocates : (Cut.span isIdentPart text).taken = "new".toList
  · rw [if_neg opens, if_pos allocates, if_neg opens, if_pos allocates]
    rfl
  · rw [if_neg opens, if_neg allocates, if_neg opens, if_neg allocates]
    rfl

theorem carriageReturn_stop (text : Text) :
    carriageReturn (text ++ stop :: more) =
      (carriageReturn text).followedBy (stop :: more) := by
  cases text with
  | nil =>
    unfold carriageReturn
    split
    · next same => exact absurd (List.cons.inj same).1 (stop_ne isStop (by simp))
    · rfl
  | cons c cs =>
    by_cases feed : c = '\n'
    · subst feed
      rfl
    · unfold carriageReturn
      split
      · next same => exact absurd (List.cons.inj same).1 feed
      · split
        · next same => exact absurd (List.cons.inj same).1 feed
        · rfl

/-- A line comment that ends before the stop ends where it did. -/
theorem lineComment_stop (text : Text)
    (fits : (lineComment (text ++ stop :: more)).taken.length ≤ text.length) :
    lineComment (text ++ stop :: more) = (lineComment text).followedBy (stop :: more) := by
  have notFeed : stop ≠ '\n' := stop_ne isStop (by simp)
  have notReturn : stop ≠ '\r' := stop_ne isStop (by simp)
  fun_induction lineComment text with
  | case1 =>
    rw [nil_append, lineComment_plain notFeed fun _ same _ => notReturn same] at fits
    simp [Cut.after] at fits
  | case2 cs => rfl
  | case3 cs => rfl
  | case4 c cs other notPair ih =>
    have step : lineComment (c :: (cs ++ stop :: more)) =
        (lineComment (cs ++ stop :: more)).after [c] := by
      refine lineComment_plain other ?_
      intro rest same feed
      cases cs with
      | nil => exact notFeed (List.cons.inj feed).1
      | cons d ds => exact notPair ds same (by rw [(List.cons.inj feed).1])
    rw [cons_append, step] at fits ⊢
    simp only [Cut.after, length_append, length_cons, length_nil] at fits
    rw [ih (by omega), Cut.after_followedBy]

end Stop

/-! ### Literals and block comments -/

theorem quoted_escape (quote : Char) (notBreak : ∀ rest, c = '\r' → cs = '\n' :: rest → False) :
    quoted quote ('\\' :: c :: cs) = (quoted quote cs).map (Cut.after ['\\', c]) := by
  rw [quoted]
  exact notBreak

theorem quoted_plain (notEscape : c ≠ '\\') (quote : Char) (cs : Text) :
    quoted quote (c :: cs) =
      if c = quote then .ok ⟨[c], cs⟩
      else if c = '\n' ∨ c = '\r' then .error ⟨.newlineInString, c :: cs⟩
      else (quoted quote cs).map (Cut.after [c]) := by
  rw [quoted]
  · exact fun same _ => notEscape same
  · exact fun _ same _ => notEscape same
  · exact fun _ _ same _ => notEscape same

theorem template_plain (notEscape : c ≠ '\\') (cs : Text) :
    template (c :: cs) =
      if c = '\x60' then .ok ⟨[c], cs⟩ else (template cs).map (Cut.after [c]) := by
  rw [template]
  · exact fun same _ => notEscape same
  · exact fun _ _ same _ => notEscape same

theorem ne_escape (alone : c = '\\' → cs = [] → False)
    (followed : ∀ d ds, c = '\\' → cs = d :: ds → False) : c ≠ '\\' := by
  intro same
  cases cs with
  | nil => exact alone same rfl
  | cons d ds => exact followed d ds same rfl

inductive Quoted (quote : Char) : Text → Prop where
  | close : Quoted quote [quote]
  | pair {more : Text} : Quoted quote more → Quoted quote ('\\' :: '\r' :: '\n' :: more)
  | escape {c : Char} {more : Text} : (c = '\r' → more.head? ≠ some '\n') → Quoted quote more →
      Quoted quote ('\\' :: c :: more)
  | plain {c : Char} {more : Text} : c ≠ '\\' → c ≠ quote → ¬ (c = '\n' ∨ c = '\r') →
      Quoted quote more → Quoted quote (c :: more)

inductive Ticked : Text → Prop where
  | close : Ticked ['\x60']
  | escape {more : Text} (c : Char) : Ticked more → Ticked ('\\' :: c :: more)
  | plain {c : Char} {more : Text} : c ≠ '\\' → c ≠ '\x60' → Ticked more → Ticked (c :: more)

inductive Starred : Text → Prop where
  | close : Starred ['*', '/']
  | plain {c : Char} {more : Text} : (c = '*' → more.head? ≠ some '/') → Starred more →
      Starred (c :: more)

section Closed

variable {quote : Char} {text : Text} {cut : Cut}

theorem quote_ne_escape (isQuote : quote = '"' ∨ quote = '\x27') : quote ≠ '\\' := by
  rcases isQuote with rfl | rfl <;> decide

theorem Quoted.ends (closed : Quoted quote text) : ∃ start, text = start ++ [quote] := by
  induction closed with
  | close => exact ⟨[], rfl⟩
  | pair _ ih =>
    obtain ⟨start, rfl⟩ := ih
    exact ⟨'\\' :: '\r' :: '\n' :: start, rfl⟩
  | @escape c _ _ _ ih =>
    obtain ⟨start, rfl⟩ := ih
    exact ⟨'\\' :: c :: start, rfl⟩
  | @plain c _ _ _ _ _ ih =>
    obtain ⟨start, rfl⟩ := ih
    exact ⟨c :: start, rfl⟩

theorem Quoted.head? (closed : Quoted quote text) (more : Text) :
    (text ++ more).head? = text.head? := by
  cases closed <;> rfl

theorem Quoted.takes (notSlash : quote ≠ '\\') (closed : Quoted quote text) (more : Text) :
    quoted quote (text ++ more) = .ok ⟨text, more⟩ := by
  induction closed with
  | close => rw [singleton_append, quoted_plain notSlash, if_pos rfl]
  | pair _ ih =>
    simp only [cons_append, quoted]
    rw [ih]
    rfl
  | escape single later ih =>
    rw [cons_append, cons_append, quoted_escape, ih]
    · rfl
    · intro rest isReturn feed
      exact single isReturn (by rw [← later.head? more, feed]; rfl)
  | plain notEscape notQuote notBreak _ ih =>
    rw [cons_append, quoted_plain notEscape, if_neg notQuote, if_neg notBreak, ih]
    rfl

theorem quoted_closed (found : quoted quote text = .ok cut) :
    text = cut.taken ++ cut.rest ∧ Quoted quote cut.taken := by
  fun_induction quoted quote text generalizing cut with
  | case1 => cases found
  | case2 => cases found
  | case3 cs ih =>
    obtain ⟨inner, within, rfl⟩ := exists_of_map_eq_ok found
    obtain ⟨rfl, closed⟩ := ih within
    exact ⟨rfl, .pair closed⟩
  | case4 c cs notPair ih =>
    obtain ⟨inner, within, rfl⟩ := exists_of_map_eq_ok found
    obtain ⟨rfl, closed⟩ := ih within
    refine ⟨rfl, .escape (fun isReturn feed => ?_) closed⟩
    obtain ⟨rest, same⟩ := head?_eq_some_iff.1 ((closed.head? inner.rest).trans feed)
    exact notPair rest isReturn same
  | case5 cs =>
    cases found
    exact ⟨rfl, .close⟩
  | case6 => cases found
  | case7 c cs alone _ followed notQuote notBreak ih =>
    obtain ⟨inner, within, rfl⟩ := exists_of_map_eq_ok found
    obtain ⟨rfl, closed⟩ := ih within
    exact ⟨rfl, .plain (ne_escape alone followed) notQuote notBreak closed⟩

theorem Ticked.ends (closed : Ticked text) : ∃ start, text = start ++ ['\x60'] := by
  induction closed with
  | close => exact ⟨[], rfl⟩
  | escape c _ ih =>
    obtain ⟨start, rfl⟩ := ih
    exact ⟨'\\' :: c :: start, rfl⟩
  | @plain c _ _ _ _ ih =>
    obtain ⟨start, rfl⟩ := ih
    exact ⟨c :: start, rfl⟩

theorem Ticked.takes (closed : Ticked text) (more : Text) :
    template (text ++ more) = .ok ⟨text, more⟩ := by
  induction closed with
  | close => rw [singleton_append, template_plain (by decide), if_pos rfl]
  | escape c _ ih =>
    simp only [cons_append, template]
    rw [ih]
    rfl
  | plain notEscape notTick _ ih =>
    rw [cons_append, template_plain notEscape, if_neg notTick, ih]
    rfl

theorem template_closed (found : template text = .ok cut) :
    text = cut.taken ++ cut.rest ∧ Ticked cut.taken := by
  fun_induction template text generalizing cut with
  | case1 => cases found
  | case2 => cases found
  | case3 c cs ih =>
    obtain ⟨inner, within, rfl⟩ := exists_of_map_eq_ok found
    obtain ⟨rfl, closed⟩ := ih within
    exact ⟨rfl, .escape c closed⟩
  | case4 cs =>
    cases found
    exact ⟨rfl, .close⟩
  | case5 c cs alone followed notTick ih =>
    obtain ⟨inner, within, rfl⟩ := exists_of_map_eq_ok found
    obtain ⟨rfl, closed⟩ := ih within
    exact ⟨rfl, .plain (ne_escape alone followed) notTick closed⟩

theorem Starred.ends (closed : Starred text) : ∃ start, text = start ++ ['/'] := by
  induction closed with
  | close => exact ⟨['*'], rfl⟩
  | @plain c _ _ _ ih =>
    obtain ⟨start, rfl⟩ := ih
    exact ⟨c :: start, rfl⟩

theorem Starred.head? (closed : Starred text) (more : Text) :
    (text ++ more).head? = text.head? := by
  cases closed <;> rfl

theorem Starred.takes (closed : Starred text) (more : Text) :
    blockComment (text ++ more) = .ok ⟨text, more⟩ := by
  induction closed with
  | close => rfl
  | plain single later ih =>
    rw [cons_append, blockComment, ih]
    · rfl
    · intro rest isStar slash
      exact single isStar (by rw [← later.head? more, slash]; rfl)

theorem blockComment_closed (found : blockComment text = .ok cut) :
    text = cut.taken ++ cut.rest ∧ Starred cut.taken := by
  fun_induction blockComment text generalizing cut with
  | case1 => cases found
  | case2 cs =>
    cases found
    exact ⟨rfl, .close⟩
  | case3 c cs notEnd ih =>
    obtain ⟨inner, within, rfl⟩ := exists_of_map_eq_ok found
    obtain ⟨rfl, closed⟩ := ih within
    refine ⟨rfl, .plain (fun isStar slash => ?_) closed⟩
    obtain ⟨rest, same⟩ := head?_eq_some_iff.1 ((closed.head? inner.rest).trans slash)
    exact notEnd rest isStar same

end Closed

/-- How the cut of a text relates to that of a longer text: it is the same, or else the one of the
longer text, if there is one, goes beyond. -/
def Agrees (tail : Text) (size : Nat) (short long : Except Stuck Cut) : Prop :=
  match short with
  | .ok cut => long = .ok (cut.followedBy tail)
  | .error _ => ∀ cut, long = .ok cut → size < cut.taken.length

theorem agrees_of_closed {scan : Text → Except Stuck Cut} {closed : Text → Prop}
    (cuts : ∀ text, closed text → ∀ more, scan (text ++ more) = .ok ⟨text, more⟩)
    (closes : ∀ text cut, scan text = .ok cut → text = cut.taken ++ cut.rest ∧ closed cut.taken)
    (tail text : Text) : Agrees tail text.length (scan text) (scan (text ++ tail)) := by
  cases short : scan text with
  | ok cut =>
    obtain ⟨rfl, isClosed⟩ := closes _ _ short
    change scan (cut.taken ++ cut.rest ++ tail) = _
    rw [append_assoc]
    exact cuts _ isClosed _
  | error stuck =>
    intro cut long
    obtain ⟨whole, isClosed⟩ := closes _ _ long
    apply Nat.lt_of_not_le
    intro fits
    obtain ⟨rest, rfl⟩ := prefix_of_prefix_length_le ⟨cut.rest, whole.symm⟩
      (prefix_append text tail) fits
    rw [cuts _ isClosed] at short
    cases short

/-! ### Tokens -/

def CutsShort (tail : Text) (size : Nat) (long short : Except Stuck Lexeme) : Prop :=
  ∀ lexeme, long = .ok lexeme → lexeme.text.length ≤ size →
    ∃ rest, lexeme.rest = rest ++ tail ∧ short = .ok ⟨lexeme.kind, lexeme.text, rest⟩

theorem cutsShort_same (tail : Text) (size : Nat) (short : Lexeme) :
    CutsShort tail size (.ok (short.followedBy tail)) (.ok short) := by
  intro lexeme same _
  cases same
  exact ⟨short.rest, rfl, rfl⟩

theorem cutsShort_behind {tail : Text} {size : Nat} {short long : Except Stuck Cut}
    (kind : TokenKind) (front : Text) (agrees : Agrees tail size short long) :
    CutsShort tail (front.length + size) (long.map fun cut => ofCut kind (cut.after front))
      (short.map fun cut => ofCut kind (cut.after front)) := by
  intro lexeme cut fits
  obtain ⟨whole, isWhole, rfl⟩ := exists_of_map_eq_ok cut
  cases short with
  | ok part =>
    rw [show long = .ok (part.followedBy tail) from agrees] at isWhole
    cases isWhole
    exact ⟨part.rest, rfl, rfl⟩
  | error stuck =>
    have longer := agrees whole isWhole
    simp only [ofCut, Cut.after, length_append] at fits
    omega

theorem slash_operator (line : ∀ ds, cs = '/' :: ds → False)
    (block : ∀ ds, cs = '*' :: ds → False) :
    slash cs = .ok (operator '/' cs) := by
  rw [slash]
  · exact line
  · exact block

theorem slash_stop (isStop : stop ∈ stops) (more text : Text) :
    CutsShort (stop :: more) (text.length + 1) (slash (text ++ stop :: more)) (slash text) := by
  have operator : ∀ {cs : Text}, (∀ ds, cs = '/' :: ds → False) → (∀ ds, cs = '*' :: ds → False) →
      (∀ ds, cs ++ stop :: more = '/' :: ds → False) →
      (∀ ds, cs ++ stop :: more = '*' :: ds → False) →
      CutsShort (stop :: more) (cs.length + 1) (slash (cs ++ stop :: more)) (slash cs) := by
    intro cs line block longLine longBlock
    rw [slash_operator line block, slash_operator longLine longBlock, operator_stop isStop]
    exact cutsShort_same _ _ _
  cases text with
  | nil =>
    refine operator (by simp) (by simp) ?_ ?_
    · exact fun ds same => stop_ne isStop (by simp) (List.cons.inj same).1
    · exact fun ds same => stop_ne isStop (by simp) (List.cons.inj same).1
  | cons d ds =>
    by_cases line : d = '/'
    · subst line
      intro lexeme cut fits
      rw [cons_append] at cut
      cases cut
      simp only [ofCut, Cut.after, length_append, length_cons, length_nil] at fits
      have short := lineComment_stop isStop more ds (by omega)
      refine ⟨(lineComment ds).rest, ?_, ?_⟩
      · rw [short]
        rfl
      · rw [short]
        rfl
    by_cases block : d = '*'
    · subst block
      intro lexeme cut fits
      refine cutsShort_behind .comment ['/', '*']
        (agrees_of_closed (fun _ => Starred.takes) (fun _ _ => blockComment_closed) _ ds) lexeme cut ?_
      simp only [length_cons, length_nil] at fits ⊢
      omega
    · refine operator ?_ ?_ ?_ ?_
      · exact fun _ same => line (List.cons.inj same).1
      · exact fun _ same => block (List.cons.inj same).1
      · exact fun _ same => line (List.cons.inj same).1
      · exact fun _ same => block (List.cons.inj same).1

theorem first_stop (isStop : stop ∈ stops) (more text : Text) (c : Char) :
    CutsShort (stop :: more) (text.length + 1) (first c (text ++ stop :: more)) (first c text) := by
  have same := cutsShort_same (stop :: more) (text.length + 1)
  unfold first
  by_cases space : isSpace c = true
  · rw [if_pos space, if_pos space, Cut.span_stop (stop_isSpace isStop)]
    exact same (ofCut .whitespace ((Cut.span isSpace text).after [c]))
  rw [if_neg space, if_neg space]
  by_cases carriage : c = '\r'
  · rw [if_pos carriage, if_pos carriage, carriageReturn_stop isStop]
    exact same _
  rw [if_neg carriage, if_neg carriage]
  by_cases feed : c = '\n'
  · rw [if_pos feed, if_pos feed]
    exact same ⟨.linebreak, [c], text⟩
  rw [if_neg feed, if_neg feed]
  by_cases start : isIdentStart c = true
  · rw [if_pos start, if_pos start, Cut.span_stop (stop_isIdentPart isStop)]
    exact same (ofCut .ident ((Cut.span isIdentPart text).after [c]))
  rw [if_neg start, if_neg start]
  by_cases digit : c.isDigit = true
  · rw [if_pos digit, if_pos digit, number_stop isStop]
    exact same (ofCut .other (number c text))
  rw [if_neg digit, if_neg digit]
  by_cases quote : c = '"' ∨ c = '\x27'
  · rw [if_pos quote, if_pos quote, Nat.add_comm]
    exact cutsShort_behind .other [c] (agrees_of_closed
      (fun _ => Quoted.takes (quote_ne_escape quote)) (fun _ _ => quoted_closed) _ text)
  rw [if_neg quote, if_neg quote]
  by_cases tick : c = '\x60'
  · rw [if_pos tick, if_pos tick, Nat.add_comm]
    exact cutsShort_behind .other [c]
      (agrees_of_closed (fun _ => Ticked.takes) (fun _ _ => template_closed) _ text)
  rw [if_neg tick, if_neg tick]
  by_cases slashed : c = '/'
  · rw [if_pos slashed, if_pos slashed]
    exact slash_stop isStop more text
  rw [if_neg slashed, if_neg slashed]
  by_cases marked : c = '@'
  · rw [if_pos marked, if_pos marked, marker_stop isStop]
    exact same _
  rw [if_neg marked, if_neg marked]
  cases punctuation? c with
  | some kind => exact same ⟨kind, [c], text⟩
  | none =>
    dsimp only
    rw [operator_stop isStop]
    exact same _

end Lexeme

/-! ### Token sequences -/

/-- What is read in front of a stop is read the same way when the text ends there. -/
theorem Reads.stop {stop : Char} (isStop : stop ∈ stops) {more : Text} {tokens : List Token}
    (reads : Reads lexer tokens after) (ends : after.rest = stop :: more) :
    Reads { lexer with rest := tokens.flatMap Token.text } tokens { after with rest := [] } := by
  induction reads with
  | done lexer => exact .done _
  | @token lexer middle after token tokens next notEnd later ih =>
    have whole := (Reads.token next notEnd later).text
    have behind := later.text
    rw [ends] at whole behind
    refine .token ?_ notEnd (ih ends)
    rcases Lexer.next_cases next with ⟨due, rfl, rfl⟩ | ⟨_, rfl, _⟩ |
      ⟨c, cs, lexeme, notDue, text, cut, rfl, rfl⟩
    · simp [Lexer.next, due]
    · exact absurd rfl notEnd
    · rw [flatMap_cons] at whole ⊢
      dsimp only at behind whole ⊢
      have advances := Lexeme.advances_first c cs
      rw [cut] at advances
      -- The token starts with the first character, and what it leaves ends with the stop.
      obtain ⟨d, ds, spelled⟩ := exists_cons_of_ne_nil advances.2
      rw [text, spelled, cons_append, cons_append, append_assoc] at whole
      obtain ⟨rfl, rfl⟩ := List.cons.inj whole
      rw [← append_assoc] at cut
      obtain ⟨rest, rests, short⟩ := Lexeme.first_stop isStop more
        (ds ++ tokens.flatMap Token.text) c lexeme cut (by simp [spelled])
      rw [behind] at rests
      have same := append_cancel_right rests
      subst same
      rw [spelled, cons_append]
      simp only [Lexer.next, notDue, short]
      simp [spelled]

/-- The tokens between an opening token and a stop are those of the text between them. -/
theorem tokenizeFrom_between {inner later : List Token} {close : Token} {stop : Char}
    (isStop : stop ∈ stops) (spelled : close.text = [stop]) (notDue : lexer.resetDue = false)
    (reads : Reads lexer (inner ++ close :: later) after) :
    tokenizeFrom lexer.line (inner.flatMap Token.text) = .ok inner := by
  obtain ⟨middle, inside, behind⟩ := reads.split
  cases behind with
  | @token _ next _ _ _ closes _ _ =>
    have ends := Lexer.text_of_next closes
    rw [spelled] at ends
    have short := inside.stop isStop ends
    rw [notDue] at short
    refine (tokenizeFrom_eq_ok_iff _ _ _).2 ⟨_, short, rfl, ?_⟩
    · rcases Lexer.next_cases closes with ⟨_, rfl, _⟩ | ⟨_, rfl, _⟩ | ⟨_, _, _, notDue, _⟩
      · cases spelled
      · cases spelled
      · exact notDue

end FlatMemory
