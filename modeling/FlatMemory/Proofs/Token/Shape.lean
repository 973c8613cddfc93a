import FlatMemory.Proofs.Text.Arguments
import FlatMemory.Proofs.Token.Boundary

/-! # What a token can be

A token is a literal or comment that its own text closes, a line comment in front of a line break, a
bracket or other punctuation, or it is made of characters that open nothing.  The scanners of plain
text take a literal as the lexer does, unless a string goes on behind a CRLF pair: the lexer takes both
characters behind the backslash, a scanner only the first. -/

namespace FlatMemory

open List Literal Token

variable {c : Char} {text : Text} {cut : Cut} {p : Char → Bool} {trie : Trie Char}

def brokenLine : Text := ['\\', '\r', '\n']

namespace Token

def isLineComment (token : Token) : Bool :=
  token.kind = .comment && token.text.take 2 = ['/', '/']

def isString (token : Token) : Bool :=
  token.text.head? = some '"' || token.text.head? = some '\x27'

/-- A string that goes on behind a CRLF pair. -/
def Continues (token : Token) : Prop := token.isString = true ∧ brokenLine <:+: token.text

instance (token : Token) : Decidable token.Continues :=
  inferInstanceAs (Decidable (token.isString = true ∧ brokenLine <:+: token.text))

def ending (token : Token) : Ending :=
  if token.isLineComment then .comment else Ending.ofText token.text

end Token

/-! ### Literals -/

namespace Lexeme

theorem Quoted.passed {quote : Char} (notSlash : quote ≠ '\\') (closed : Quoted quote text)
    (unbroken : ¬ brokenLine <:+: text) (rest : Text) :
    Literal.quoted quote (text ++ rest) = ⟨text, rest⟩ := by
  induction closed with
  | close => rw [singleton_append, quoted_cons notSlash, if_pos rfl]
  | @pair more => exact absurd ⟨[], more, rfl⟩ unbroken
  | @escape c more _ _ ih =>
    simp only [cons_append, Literal.quoted]
    rw [ih fun broken => unbroken (broken.trans (suffix_append ['\\', c] more).isInfix)]
    rfl
  | plain notEscape notQuote notBreak _ ih =>
    rw [cons_append, quoted_cons notEscape, if_neg notQuote,
      if_neg fun feed => notBreak (.inl feed),
      ih fun broken => unbroken (broken.trans (suffix_cons _ _).isInfix)]
    rfl

theorem Ticked.passed (closed : Ticked text) (rest : Text) :
    Literal.template (text ++ rest) = ⟨text, rest⟩ := by
  induction closed with
  | close => rw [singleton_append, template_cons (by decide), if_pos rfl]
  | escape c _ ih =>
    simp only [cons_append, Literal.template]
    rw [ih]
    rfl
  | plain notEscape notTick _ ih =>
    rw [cons_append, template_cons notEscape, if_neg notTick, ih]
    rfl

theorem Starred.passed (closed : Starred text) (rest : Text) :
    Literal.blockComment (text ++ rest) = ⟨text, rest⟩ := by
  induction closed with
  | close => rfl
  | plain single later ih =>
    rw [cons_append, Literal.blockComment, ih]
    · rfl
    · intro more isStar slash
      exact single isStar (by rw [← later.head? rest, slash]; rfl)

end Lexeme

structure Commented (body feed : Text) : Prop where
  inLine : '\n' ∉ body
  feeds : feed = ['\r', '\n'] ∨ feed = ['\n'] ∧ body.getLast? ≠ some '\r'

namespace Lexeme

theorem lineComment_spec (text : Text) : '\n' ∉ (lineComment text).taken ∧
    ((lineComment text).rest = [] ∨ ∃ feed more, (lineComment text).rest = feed ++ more ∧
      Commented (lineComment text).taken feed) := by
  fun_induction lineComment text with
  | case1 => exact ⟨by simp [Cut.none], .inl rfl⟩
  | case2 cs =>
    exact ⟨by simp [Cut.none], .inr ⟨['\n'], cs, rfl, by simp [Cut.none], .inr ⟨rfl, by simp [Cut.none]⟩⟩⟩
  | case3 cs => exact ⟨by simp [Cut.none], .inr ⟨['\r', '\n'], cs, rfl, by simp [Cut.none], .inl rfl⟩⟩
  | case4 c cs notFeed notPair ih =>
    have inLine : '\n' ∉ ((lineComment cs).after [c]).taken := by
      simp only [Cut.after, singleton_append, mem_cons, not_or]
      exact ⟨fun same => notFeed same.symm, ih.1⟩
    refine ⟨inLine, ih.2.imp_right ?_⟩
    rintro ⟨feed, more, rest, commented⟩
    refine ⟨feed, more, rest, inLine, commented.feeds.imp_right ?_⟩
    rintro ⟨isFeed, notReturn⟩
    refine ⟨isFeed, ?_⟩
    have whole := whole_lineComment cs
    cases taken : (lineComment cs).taken with
    | nil =>
      have all : cs = '\n' :: more := by
        rw [← whole, Cut.whole, taken, rest, isFeed]
        rfl
      intro isReturn
      refine notPair more ?_ all
      simpa [Cut.after, taken] using isReturn
    | cons d ds =>
      rw [taken] at notReturn
      simpa [Cut.after, taken] using notReturn

/-! ### Characters of the other tokens -/

def isInert (c : Char) : Bool := isPlain c && !isMark c

theorem isInert_iff : isInert c = true ↔ isPlain c = true ∧ isMark c = false := by
  rw [isInert, Bool.and_eq_true, Bool.not_eq_true']

theorem plain_of_inert (inert : ∀ c ∈ text, isInert c = true) : ∀ c ∈ text, isPlain c = true :=
  fun c member => (isInert_iff.1 (inert c member)).1

theorem inert_isIdentPart (part : isIdentPart c = true) : isInert c = true :=
  isInert_iff.2 (Walk.isPlain_of_class part (by decide))

theorem isAlpha_iff : c.isAlpha = true ↔
    (65 ≤ c.toNat ∧ c.toNat ≤ 90) ∨ 97 ≤ c.toNat ∧ c.toNat ≤ 122 := by
  change (decide (c.val ≥ 65 ∧ c.val ≤ 90) || (decide (c.val ≥ 97) && decide (c.val ≤ 122))) =
    true ↔ _
  simp only [Bool.or_eq_true, Bool.and_eq_true, decide_eq_true_eq, ge_iff_le,
    UInt32.le_iff_toNat_le]
  rfl

theorem isDigit_iff : c.isDigit = true ↔ 48 ≤ c.toNat ∧ c.toNat ≤ 57 := by
  change (decide (c.val ≥ 48) && decide (c.val ≤ 57)) = true ↔ _
  simp only [Bool.and_eq_true, decide_eq_true_eq, ge_iff_le, UInt32.le_iff_toNat_le]
  rfl

theorem isAlphanum_iff : c.isAlphanum = true ↔
    ((65 ≤ c.toNat ∧ c.toNat ≤ 90) ∨ 97 ≤ c.toNat ∧ c.toNat ≤ 122) ∨
      48 ≤ c.toNat ∧ c.toNat ≤ 57 := by
  rw [Char.isAlphanum, Bool.or_eq_true, isAlpha_iff, isDigit_iff]

theorem isIdentPart_range (part : isIdentPart c = true) : 36 ≤ c.toNat ∧ c.toNat ≤ 122 := by
  simp only [isIdentPart, isAlphanum_iff, Bool.or_eq_true, beq_iff_eq] at part
  rcases part with (((upper | lower) | digit) | rfl) | rfl
  · omega
  · omega
  · omega
  · decide
  · decide

theorem not_isBlank_of_isIdentPart (part : isIdentPart c = true) : isBlank c = false := by
  have range := isIdentPart_range part
  simp only [isBlank, blankRanges, any_cons, any_nil, Bool.or_false, Bool.or_eq_false_iff,
    Bool.and_eq_false_iff, decide_eq_false_iff_not]
  omega

theorem isIdentPart_of_isDigit (digit : c.isDigit = true) : isIdentPart c = true := by
  simp [isIdentPart, Char.isAlphanum, digit]

theorem isIdentPart_of_isHexDigit (digit : isHexDigit c = true) :
    isIdentPart c = true := by
  simp only [isHexDigit, Bool.or_eq_true, Bool.and_eq_true, decide_eq_true_eq] at digit
  rcases digit with (digit | ⟨low, high⟩) | ⟨low, high⟩
  · exact isIdentPart_of_isDigit digit
  · have letter : c.isAlphanum = true :=
      isAlphanum_iff.2 (.inl (.inr ⟨low, Nat.le_trans high (by decide)⟩))
    simp [isIdentPart, letter]
  · have letter : c.isAlphanum = true :=
      isAlphanum_iff.2 (.inl (.inl ⟨low, Nat.le_trans high (by decide)⟩))
    simp [isIdentPart, letter]

theorem inert_digitsAfter {mark otherwise : Text} (digits : ∀ c, p c = true → isIdentPart c = true)
    (marked : ∀ c ∈ mark, isInert c = true) :
    ∀ c ∈ (digitsAfter p mark text otherwise).taken, isInert c = true := by
  intro c member
  unfold digitsAfter at member
  dsimp only at member
  split at member
  · cases member
  · rcases mem_append.1 member with member | member
    · exact marked c member
    · exact inert_isIdentPart (digits c (mem_takeWhile_imp member))

theorem inert_decimal (text : Text) : ∀ c ∈ (decimal text).taken, isInert c = true := by
  have fractions : ∀ text, ∀ c ∈ (fraction text).taken, isInert c = true := by
    intro text
    unfold fraction
    split
    · exact inert_digitsAfter (fun c => isIdentPart_of_isDigit) (by simp; decide)
    · simp [Cut.none]
  have exponents : ∀ text, ∀ c ∈ (exponent text).taken, isInert c = true := by
    intro text
    unfold exponent
    split
    · simp [Cut.none]
    · next e cs =>
      split
      · next isExponent =>
        have mark : isInert e = true := by rcases isExponent with rfl | rfl <;> decide
        split
        · exact inert_digitsAfter (fun c => isIdentPart_of_isDigit) (by simp [mark]; decide)
        · exact inert_digitsAfter (fun c => isIdentPart_of_isDigit) (by simp [mark]; decide)
        · exact inert_digitsAfter (fun c => isIdentPart_of_isDigit) (by simp [mark])
      · simp [Cut.none]
  intro c member
  unfold decimal at member
  dsimp only [Cut.after] at member
  rcases mem_append.1 member with member | member
  · exact inert_isIdentPart (isIdentPart_of_isDigit (mem_takeWhile_imp member))
  · rcases mem_append.1 member with member | member
    · exact fractions _ c member
    · exact exponents _ c member

theorem inert_number {first : Char} (digit : first.isDigit = true) (cs : Text) :
    ∀ c ∈ (number first cs).taken, isInert c = true := by
  have hexadecimals : ∀ c ∈ (hexadecimal cs).taken, isInert c = true := by
    unfold hexadecimal
    split
    · simp [Cut.none]
    · next x ds =>
      split
      · next isMark =>
        have mark : isInert x = true := by rcases isMark with rfl | rfl <;> decide
        exact inert_digitsAfter (fun c => isIdentPart_of_isHexDigit) (by simp [mark])
      · simp [Cut.none]
  intro c member
  unfold number at member
  dsimp only at member
  split at member
  · rcases mem_append.1 member with member | member
    · rw [mem_singleton] at member
      exact member ▸ inert_isIdentPart (isIdentPart_of_isDigit digit)
    · exact hexadecimals c member
  · exact inert_decimal _ c member

end Lexeme

def Trie.all (p : Char → Bool) : Trie Char → Bool
  | empty => true
  | edge label _ below beside => p label && below.all p && beside.all p

def Trie.allBelow (p : Char → Bool) : Trie Char → Bool
  | empty => true
  | edge _ _ below beside => below.all p && beside.allBelow p

theorem Trie.of_mem_take (all : trie.all p = true) :
    ∀ c ∈ text.take (trie.longestMatch text), p c = true := by
  induction trie generalizing text with
  | empty => simp [longestMatch]
  | edge label wordEnds below beside ihBelow ihBeside =>
    simp only [Trie.all, Bool.and_eq_true] at all
    cases text with
    | nil => simp
    | cons d ds =>
      intro c member
      rw [longestMatch] at member
      split at member
      · next same =>
        subst same
        split at member
        · split at member
          · rw [take_succ_cons, take_zero, mem_singleton] at member
            exact member ▸ all.1.1
          · cases member
        · next n matched =>
          rw [take_succ_cons, mem_cons] at member
          rcases member with rfl | member
          · exact all.1.1
          · exact ihBelow all.1.2 c (by rw [matched]; exact member)
      · exact ihBeside all.2 c member

theorem Trie.of_mem_take_tail (all : trie.allBelow p = true) {d : Char} {ds : Text} {n : Nat}
    (matched : trie.longestMatch (d :: ds) = n + 1) : ∀ c ∈ ds.take n, p c = true := by
  induction trie with
  | empty => cases matched
  | edge label wordEnds below beside _ ihBeside =>
    simp only [Trie.allBelow, Bool.and_eq_true] at all
    rw [longestMatch] at matched
    split at matched
    · split at matched
      · split at matched
        · cases matched
          simp
        · cases matched
      · next m inner =>
        cases matched
        intro c member
        exact Trie.of_mem_take all.1 c (by rw [inner]; exact member)
    · exact ihBeside all.2 matched

/-! ### Tokens -/

namespace Lexeme

variable {cs : Text} {lexeme : Lexeme}

theorem sealed_quoted {quote : Char} (isQuote : quote = '"' ∨ quote = '\x27')
    (found : quoted quote cs = .ok cut) (unbroken : ¬ brokenLine <:+: cut.taken) :
    Literal.Sealed (quote :: cut.taken) := by
  have closed := (quoted_closed found).2
  constructor
  · intro rest
    have passed := closed.passed (quote_ne_escape isQuote) unbroken rest
    rcases isQuote with rfl | rfl
    · simp [Literal.first?, passed, Cut.after]
    · simp [Literal.first?, passed, Cut.after]
  · obtain ⟨start, ends⟩ := closed.ends
    refine ⟨quote :: start, quote, by rw [ends]; rfl, ?_⟩
    rcases isQuote with rfl | rfl <;> decide

theorem sealed_template (found : template cs = .ok cut) :
    Literal.Sealed ('\x60' :: cut.taken) := by
  have closed := (template_closed found).2
  constructor
  · intro rest
    simp [Literal.first?, closed.passed rest, Cut.after]
  · obtain ⟨start, ends⟩ := closed.ends
    exact ⟨'\x60' :: start, '\x60', by rw [ends]; rfl, by decide⟩

theorem sealed_blockComment (found : blockComment cs = .ok cut) :
    Literal.Sealed ('/' :: '*' :: cut.taken) := by
  have closed := (blockComment_closed found).2
  constructor
  · intro rest
    simp [Literal.first?, closed.passed rest, Cut.after]
  · obtain ⟨start, ends⟩ := closed.ends
    exact ⟨'/' :: '*' :: start, '/', by rw [ends]; rfl, by decide⟩

theorem plainKind_operator (c : Char) (cs : Text) :
    ((operator c cs).kind.isOpen || (operator c cs).kind.isClose ||
      (operator c cs).kind = .comma) = false ∧ (operator c cs).kind ≠ .comment := by
  unfold operator
  split
  · exact ⟨rfl, by simp⟩
  · dsimp only
    unfold Operator.kind
    repeat' split
    all_goals exact ⟨rfl, by simp⟩

theorem inert_operator_tail (c : Char) (cs : Text) :
    ∃ n, (operator c cs).text = c :: cs.take n ∧ (operator c cs).rest = cs.drop n ∧
      ∀ d ∈ cs.take n, isInert d = true := by
  have labels : Operator.trie.allBelow isInert = true := by decide
  unfold operator
  split
  · exact ⟨0, rfl, rfl, by simp⟩
  · next n matched =>
    exact ⟨n, rfl, rfl, Trie.of_mem_take_tail labels matched⟩

theorem inert_isSpace (space : isSpace c = true) : isInert c = true := by
  simp only [isSpace, Bool.or_eq_true, beq_iff_eq] at space
  rcases space with ((rfl | rfl) | rfl) | rfl <;> decide

inductive Shape (c : Char) (cs : Text) (lexeme : Lexeme) : Prop
  | inert (chars : ∀ d ∈ lexeme.text, isInert d = true)
    (plainKind : (lexeme.kind.isOpen || lexeme.kind.isClose || lexeme.kind = .comma) = false)
    (noComment : lexeme.kind ≠ .comment)
  | punctuation {kind : TokenKind} (found : punctuation? c = some kind)
    (same : lexeme = ⟨kind, [c], cs⟩)
  | quoted {inner : Cut} (isQuote : c = '"' ∨ c = '\x27') (found : Lexeme.quoted c cs = .ok inner)
    (same : lexeme = ofCut .other (inner.after [c]))
  | template {inner : Cut} (isTick : c = '\x60') (found : Lexeme.template cs = .ok inner)
    (same : lexeme = ofCut .other (inner.after ['\x60']))
  | lineComment {ds : Text} (isSlash : c = '/') (opens : cs = '/' :: ds)
    (same : lexeme = ofCut .comment ((Lexeme.lineComment ds).after ['/', '/']))
  | blockComment {ds : Text} {inner : Cut} (isSlash : c = '/') (opens : cs = '*' :: ds)
    (found : Lexeme.blockComment ds = .ok inner)
    (same : lexeme = ofCut .comment (inner.after ['/', '*']))
  | slash (isSlash : c = '/') (harmless : Harmless cs) (same : lexeme = operator '/' cs)

theorem shape_first (cut : first c cs = .ok lexeme) : Shape c cs lexeme := by
  have inIdent : ∀ d ∈ (Cut.span isIdentPart cs).taken, isInert d = true := fun d member =>
    inert_isIdentPart (mem_takeWhile_imp member)
  unfold first at cut
  split at cut
  · next space =>
    cases cut
    refine .inert ?_ rfl (by simp [ofCut])
    intro d member
    rcases mem_cons.1 member with rfl | member
    · exact inert_isSpace space
    · exact inert_isSpace (mem_takeWhile_imp member)
  next notSpace =>
  split at cut
  · cases cut
    unfold carriageReturn
    split
    · exact .inert (by simp; decide) rfl (by simp)
    · exact .inert (by simp; decide) rfl (by simp)
  split at cut
  · next feed =>
    cases cut
    subst feed
    exact .inert (by simp; decide) rfl (by simp)
  split at cut
  · next start =>
    cases cut
    refine .inert ?_ rfl (by simp [ofCut])
    intro d member
    rcases mem_cons.1 member with rfl | member
    · exact inert_isIdentPart (isIdentPart_of_isIdentStart start)
    · exact inIdent d member
  next notStart =>
  split at cut
  · next digit =>
    cases cut
    exact .inert (inert_number digit cs) rfl (by simp [ofCut])
  next notDigit =>
  split at cut
  · next isQuote =>
    obtain ⟨inner, found, rfl⟩ := exists_of_map_eq_ok cut
    exact .quoted isQuote found rfl
  next notQuote =>
  split at cut
  · next isTick =>
    subst isTick
    obtain ⟨inner, found, rfl⟩ := exists_of_map_eq_ok cut
    exact .template rfl found rfl
  next notTick =>
  split at cut
  · next isSlash =>
    unfold slash at cut
    split at cut
    · cases cut
      exact .lineComment isSlash rfl rfl
    · obtain ⟨inner, found, rfl⟩ := exists_of_map_eq_ok cut
      exact .blockComment isSlash rfl found rfl
    · next notLine notBlock =>
      cases cut
      refine .slash isSlash ⟨?_, ?_⟩ rfl
      · cases cs with
        | nil => simp
        | cons d ds => exact fun same => notLine ds (by rw [Option.some.inj same])
      · cases cs with
        | nil => simp
        | cons d ds => exact fun same => notBlock ds (by rw [Option.some.inj same])
  next notSlash =>
  split at cut
  · next isAt =>
    cases cut
    have inMarker : ∀ d ∈ '@' :: (Cut.span isIdentPart cs).taken, isInert d = true := by
      intro d member
      rcases mem_cons.1 member with rfl | member
      · decide
      · exact inIdent d member
    unfold marker
    dsimp only
    split
    · exact .inert inMarker rfl (by simp [ofCut])
    split
    · exact .inert inMarker rfl (by simp [ofCut])
    · exact .inert (by simp; decide) rfl (by simp)
  next notAt =>
  split at cut
  · next found =>
    cases cut
    exact .punctuation found rfl
  · next none =>
    cases cut
    obtain ⟨plainKind, noComment⟩ := plainKind_operator c cs
    obtain ⟨n, text, rest, inert⟩ := inert_operator_tail c cs
    refine .inert ?_ plainKind noComment
    rw [text]
    intro d member
    rcases mem_cons.1 member with rfl | member
    · have notMark : isMark d = false := by
        cases mark : isMark d with
        | false => rfl
        | true =>
          exfalso
          simp only [isMark, isOpenBracket, isCloseBracket, Bool.or_eq_true, beq_iff_eq] at mark
          rcases mark with (((rfl | rfl) | rfl) | ((rfl | rfl) | rfl)) | rfl <;> cases none
      rw [not_or] at notQuote
      simp [isInert, isPlain, notMark, notQuote, notTick, notSlash]
    · exact inert d member

theorem plain_punctuation {kind : TokenKind} (found : punctuation? c = some kind) :
    isPlain c = true ∧ kind ≠ .comment := by
  unfold punctuation? at found
  split at found
  all_goals cases found
  all_goals exact ⟨by decide, by simp⟩

theorem isString_quoted (isQuote : c = '"' ∨ c = '\x27') (kind : TokenKind) (text : Text)
    (line : Nat) : Token.isString ⟨kind, c :: text, line⟩ = true := by
  simpa [Token.isString] using isQuote

end Lexeme

end FlatMemory
