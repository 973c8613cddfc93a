import FlatMemory.Proofs.Token.Octets

/-! # The byte cursor reads characters

A cursor that stands between two characters sees the bytes of what follows.  Each arm of the byte
lexer moves it over the characters of the token that is cut off there, and so between two characters
again: no text is ever taken off a boundary. -/

namespace FlatMemory

open List Text Lexeme Option

variable {c : Char} {text cs rest : Text}

namespace Cursor

structure At (cursor : Cursor) (front rest : Text) : Prop where
  source : cursor.source = front ++ rest
  pos : cursor.pos = front.byteLength

namespace At

variable {cursor : Cursor} {front : Text} {d : Char} {later taken : Text}
  {search : List Char → Option Nat}

theorem ahead (stands : cursor.At front rest) : cursor.ahead = rest.octets := by
  unfold Cursor.ahead
  rw [stands.source, stands.pos, octets_append, ← length_octets, drop_left]

theorem rest? (stands : cursor.At front rest) : cursor.rest? = some rest := by
  unfold Cursor.rest?
  rw [stands.source, stands.pos, splitAtByte?_byteLength]
  rfl

theorem peek_zero (stands : cursor.At front rest) : cursor.peek 0 = rest.lead := by
  rw [peek, stands.ahead]
  rfl

theorem peek_succ (stands : cursor.At front (c :: cs)) (ascii : c.toNat < 128) (places : Nat) :
    cursor.peek (places + 1) = (cs.octets[places]?).getD '\x00' := by
  rw [peek, stands.ahead, octets_ascii ascii, getElem?_cons_succ]

theorem peek_zero_iff (stands : cursor.At front rest) (ascii : d.toNat < 128)
    (notZero : d ≠ '\x00') :
    cursor.peek 0 = d ↔ ∃ cs, rest = d :: cs := by
  rw [stands.peek_zero, lead_eq_iff ascii notZero]

theorem peek_head (stands : cursor.At front (c :: cs)) (ascii : d.toNat < 128)
    (notZero : d ≠ '\x00') : cursor.peek 0 = d ↔ c = d := by
  rw [stands.peek_zero_iff ascii notZero]
  simp

theorem peek_one (stands : cursor.At front (c :: cs)) (ascii : c.toNat < 128) :
    cursor.peek 1 = cs.lead :=
  stands.peek_succ ascii 0

theorem isEnd_iff (stands : cursor.At front rest) : cursor.isEnd = true ↔ rest = [] := by
  rw [isEnd, decide_eq_true_eq, stands.source, stands.pos, byteLength_append]
  cases rest with
  | nil => simp [Text.byteLength]
  | cons c cs =>
    have wide := Char.utf8Size_pos c
    simp only [Text.byteLength, reduceCtorEq, iff_false]
    omega

theorem advance (taken : Text) (stands : cursor.At front (taken ++ later)) :
    (cursor.advance taken.byteLength).At (front ++ taken) later := by
  refine ⟨?_, ?_⟩
  · rw [append_assoc]
    exact stands.source
  · rw [byteLength_append, ← stands.pos]
    rfl

theorem advance_ascii (taken : Text) (stands : cursor.At front (taken ++ later))
    (ascii : ∀ c ∈ taken, c.toNat < 128) :
    (cursor.advance taken.length).At (front ++ taken) later := by
  rw [← byteLength_ascii ascii]
  exact stands.advance taken

theorem step (stands : cursor.At front (c :: cs)) (ascii : c.toNat < 128) :
    (cursor.advance 1).At (front ++ [c]) cs :=
  stands.advance_ascii [c] (by simpa using ascii)

theorem toEnd (stands : cursor.At front rest) : cursor.toEnd.At (front ++ rest) [] := by
  refine ⟨?_, ?_⟩
  · rw [append_nil]
    exact stands.source
  · exact congrArg Text.byteLength stands.source

theorem textFrom? (stands : cursor.At (front ++ taken) later) :
    cursor.textFrom? front.byteLength = some taken := by
  rw [Cursor.textFrom?, stands.source, stands.pos, append_assoc, slice?_between]

theorem advanceChar? (stands : cursor.At front (c :: cs)) :
    ∃ next, cursor.advanceChar? = some next ∧ next.At (front ++ [c]) cs := by
  refine ⟨cursor.advance (Text.byteLength [c]), ?_, stands.advance [c]⟩
  rw [Cursor.advanceChar?, stands.rest?]
  rfl

theorem eatWhile {p : Char → Bool} (stands : cursor.At front rest) (ascii : AsciiOnly p) :
    (cursor.eatWhile p).At (front ++ rest.takeWhile p) (rest.dropWhile p) := by
  rw [Cursor.eatWhile, stands.ahead, takeWhile_octets ascii]
  rw [← takeWhile_append_dropWhile (p := p) (l := rest)] at stands
  exact stands.advance_ascii _ fun c member => ascii c (mem_takeWhile_imp member)

theorem seek?_some (stands : cursor.At front (taken ++ later))
    (found : search (taken ++ later).octets = some taken.byteLength) :
    ∃ next, cursor.seek? search = some next ∧ next.At (front ++ taken) later := by
  refine ⟨cursor.advance taken.byteLength, ?_, stands.advance taken⟩
  rw [Cursor.seek?, stands.rest?, map_some, found]

theorem seek?_none (stands : cursor.At front rest) (absent : search rest.octets = none) :
    ∃ next, cursor.seek? search = some next ∧ next.At (front ++ rest) [] := by
  refine ⟨cursor.toEnd, ?_, stands.toEnd⟩
  rw [Cursor.seek?, stands.rest?, map_some, absent]

end At

/-! ### Numbers -/

section Numbers

variable {cursor : Cursor} {front : Text}

theorem At.digitsAfter {p : Char → Bool} (mark : Text) (stands : cursor.At front (mark ++ text))
    (ascii : AsciiOnly p) (zero : p '\x00' = false) (low : ∀ c ∈ mark, c.toNat < 128) :
    (if p text.lead = true then (cursor.advance mark.length).eatWhile p else cursor).At
      (front ++ (Lexeme.digitsAfter p mark text (mark ++ text)).taken)
      (Lexeme.digitsAfter p mark text (mark ++ text)).rest := by
  have head := class_lead ascii zero text
  unfold Lexeme.digitsAfter
  dsimp only
  cases text with
  | nil =>
    have none : (Cut.span p []).taken.isEmpty = true := rfl
    rw [if_neg (by simp [head]), if_pos none]
    simpa [Cut.none] using stands
  | cons c cs =>
    simp only [head?_cons, any_some] at head
    by_cases digit : p c = true
    · rw [if_pos (head.trans digit), if_neg (by simp [Cut.span, digit])]
      have further := (stands.advance_ascii mark low).eatWhile ascii
      rw [append_assoc] at further
      exact further
    · rw [if_neg (by simp [head, digit]), if_pos (by simp [Cut.span, digit])]
      simpa [Cut.none] using stands

section

variable (stands : cursor.At front rest)

include stands

theorem At.fraction :
    cursor.fraction.At (front ++ (Lexeme.fraction rest).taken) (Lexeme.fraction rest).rest := by
  have isPoint := stands.peek_zero_iff (show '.'.toNat < 128 by decide) (by decide)
  unfold Cursor.fraction
  by_cases point : ∃ cs, rest = '.' :: cs
  · obtain ⟨cs, rfl⟩ := point
    have digits := stands.digitsAfter ['.'] ascii_isDigit (by decide) (by simp)
    simp only [isPoint.2 ⟨cs, rfl⟩, stands.peek_one (by decide), true_and]
    exact digits
  · have none : Lexeme.fraction rest = Cut.none rest := by
      unfold Lexeme.fraction
      split
      · exact absurd ⟨_, rfl⟩ point
      · rfl
    rw [if_neg fun both => point (isPoint.1 both.1), none]
    simpa [Cut.none] using stands

theorem At.exponent :
    cursor.exponent.At (front ++ (Lexeme.exponent rest).taken) (Lexeme.exponent rest).rest := by
  cases rest with
  | nil =>
    rw [Cursor.exponent, if_neg (by rw [stands.peek_zero]; decide)]
    simpa [Lexeme.exponent, Cut.none] using stands
  | cons e cs =>
    have isMark : (cursor.peek 0 = 'e' ∨ cursor.peek 0 = 'E') ↔ e = 'e' ∨ e = 'E' :=
      or_congr (stands.peek_head (by decide) (by decide)) (stands.peek_head (by decide) (by decide))
    unfold Lexeme.exponent
    dsimp only
    by_cases mark : e = 'e' ∨ e = 'E'
    swap
    · rw [Cursor.exponent, if_neg (isMark.not.2 mark), if_neg mark]
      simpa [Cut.none] using stands
    have low : e.toNat < 128 := by rcases mark with rfl | rfl <;> decide
    have signed : ∀ sign ds, cs = sign :: ds → sign.toNat < 128 → cursor.peek 1 = sign ∧
        cursor.peek 2 = Text.lead ds ∧ ∀ d ∈ [e, sign], d.toNat < 128 := by
      rintro sign ds rfl signLow
      rw [stands.peek_one low, lead_ascii signLow, stands.peek_succ low 1,
        octets_ascii signLow]
      exact ⟨rfl, rfl, by simp [low, signLow]⟩
    have marked := isMark.2 mark
    rw [if_pos mark]
    split
    · next ds =>
      obtain ⟨sign, later, lows⟩ := signed '+' ds rfl (by decide)
      have digits := stands.digitsAfter [e, '+'] ascii_isDigit (by decide) lows
      have isSigned : cursor.peek 1 = '+' ∨ cursor.peek 1 = '-' := .inl sign
      rw [Cursor.exponent, if_pos marked]
      simp only [if_pos isSigned, later]
      exact digits
    · next ds =>
      obtain ⟨sign, later, lows⟩ := signed '-' ds rfl (by decide)
      have digits := stands.digitsAfter [e, '-'] ascii_isDigit (by decide) lows
      have isSigned : cursor.peek 1 = '+' ∨ cursor.peek 1 = '-' := .inr sign
      rw [Cursor.exponent, if_pos marked]
      simp only [if_pos isSigned, later]
      exact digits
    · next notPlus notMinus =>
      have digits := stands.digitsAfter [e] ascii_isDigit (by decide) (by simpa using low)
      have unsigned : ¬ (cursor.peek 1 = '+' ∨ cursor.peek 1 = '-') := by
        rw [stands.peek_one low, lead_eq_iff (by decide) (by decide),
          lead_eq_iff (by decide) (by decide)]
        rintro (⟨ds, plus⟩ | ⟨ds, minus⟩)
        · exact notPlus ds plus
        · exact notMinus ds minus
      rw [Cursor.exponent, if_pos marked]
      simp only [if_neg unsigned]
      rw [stands.peek_one low]
      exact digits

theorem At.isHexadecimal :
    ((cursor.peek 0 = 'x' ∨ cursor.peek 0 = 'X') ∧ Lexeme.isHexDigit (cursor.peek 1) = true) ↔
      (Lexeme.hexadecimal rest).taken.isEmpty = false := by
  unfold Lexeme.hexadecimal
  cases rest with
  | nil => simp [stands.peek_zero, Text.lead, Cut.none]
  | cons x ds =>
    dsimp only
    rw [stands.peek_head (by decide) (by decide), stands.peek_head (by decide) (by decide)]
    by_cases mark : x = 'x' ∨ x = 'X'
    swap
    · simp [mark, Cut.none]
    have low : x.toNat < 128 := by rcases mark with rfl | rfl <;> decide
    rw [if_pos mark, stands.peek_one low, class_lead ascii_isHexDigit (by decide)]
    unfold Lexeme.digitsAfter
    cases ds with
    | nil => simp [Cut.span, Cut.none]
    | cons d es => by_cases digit : Lexeme.isHexDigit d = true <;>
        simp [Cut.span, Cut.after, Cut.none, digit, mark]

theorem At.hexadecimal (isHex : (Lexeme.hexadecimal rest).taken.isEmpty = false) :
    ((cursor.advance 1).eatWhile Lexeme.isHexDigit).At
      (front ++ (Lexeme.hexadecimal rest).taken) (Lexeme.hexadecimal rest).rest := by
  obtain ⟨mark, digit⟩ := stands.isHexadecimal.2 isHex
  unfold Lexeme.hexadecimal at isHex ⊢
  cases rest with
  | nil => cases isHex
  | cons x ds =>
    rw [stands.peek_head (by decide) (by decide), stands.peek_head (by decide) (by decide)] at mark
    have low : x.toNat < 128 := by rcases mark with rfl | rfl <;> decide
    have digits := stands.digitsAfter [x] ascii_isHexDigit (by decide) (by simpa using low)
    rw [stands.peek_one low] at digit
    rw [if_pos digit] at digits
    dsimp only
    rw [if_pos mark]
    exact digits

end

theorem At.number (stands : cursor.At front (c :: cs)) (digit : c.isDigit = true) :
    cursor.number.At (front ++ (Lexeme.number c cs).taken) (Lexeme.number c cs).rest := by
  have low := ascii_isDigit c digit
  have behind := stands.step low
  have isHex : (cursor.peek 0 = '0' ∧ ((cursor.advance 1).peek 0 = 'x' ∨
      (cursor.advance 1).peek 0 = 'X') ∧ Lexeme.isHexDigit ((cursor.advance 1).peek 1) = true) ↔
        c = '0' ∧ (!(Lexeme.hexadecimal cs).taken.isEmpty) = true := by
    rw [stands.peek_head (by decide) (by decide), behind.isHexadecimal, Bool.not_eq_true']
  unfold Cursor.number Lexeme.number
  dsimp only
  by_cases hex : c = '0' ∧ (!(Lexeme.hexadecimal cs).taken.isEmpty) = true
  · rw [if_pos (isHex.2 hex), if_pos hex]
    simpa [Cut.after] using behind.hexadecimal (by simpa using hex.2)
  · rw [if_neg (isHex.not.2 hex), if_neg hex]
    have further := (behind.eatWhile ascii_isDigit).fraction.exponent
    simpa [Lexeme.decimal, Cut.after, Cut.span, digit] using further

end Numbers

/-! ### Literals -/

/-- What comes of a literal in a text: the cursor behind it, or the reason it cannot be completed
and the cursor where it stopped. -/
def Follows (front text : Text) :
    Except Stuck Cut → Option (Except LexErrorKind Unit × Cursor) → Prop
  | .ok cut, some (.ok _, next) => next.At (front ++ cut.taken) cut.rest
  | .error stuck, some (.error reason, next) => reason = stuck.reason ∧
    ∃ skipped, text = skipped ++ stuck.rest ∧ next.At (front ++ skipped) stuck.rest
  | _, _ => False

theorem Follows.after {front taken : Text} {cut : Except Stuck Cut}
    {read : Option (Except LexErrorKind Unit × Cursor)}
    (follows : Follows (front ++ taken) text cut read) :
    Follows front (taken ++ text) (cut.map (Cut.after taken)) read := by
  unfold Follows at follows
  split at follows
  · simpa [Follows, Except.map, Cut.after] using follows
  · obtain ⟨reason, skipped, rfl, stands⟩ := follows
    exact ⟨reason, taken ++ skipped, (append_assoc ..).symm, by rwa [← append_assoc]⟩
  · exact follows.elim

theorem earliest_findIdx? (p q : Char → Bool) (bytes : List Char) :
    earliest (bytes.findIdx? p) (bytes.findIdx? q) = bytes.findIdx? fun b => p b || q b := by
  induction bytes with
  | nil => rfl
  | cons b bytes ih =>
    rw [findIdx?_cons, findIdx?_cons, findIdx?_cons, ← ih]
    cases p b <;> cases q b <;> cases bytes.findIdx? p <;> cases bytes.findIdx? q <;>
      simp [earliest, Nat.succ_min_succ]

def endsPlain (quote c : Char) : Bool := c = quote ∨ c = '\\' ∨ c = '\n' ∨ c = '\r'

theorem quotedMark_eq (quote : Char) (bytes : List Char) :
    quotedMark quote bytes = bytes.findIdx? (endsPlain quote) := by
  rw [quotedMark, earliest_findIdx?]
  congr 1
  funext b
  simp [endsPlain, Bool.or_assoc]

end Cursor

namespace Lexeme

variable {plain : Text}

theorem map_after_map (front more : Text) (cut : Except Stuck Cut) :
    (cut.map (Cut.after more)).map (Cut.after front) = cut.map (Cut.after (front ++ more)) := by
  cases cut <;> simp [Except.map, Cut.after]

theorem quoted_append {quote : Char} (free : ∀ c ∈ plain, Cursor.endsPlain quote c = false)
    (later : Text) :
    quoted quote (plain ++ later) = (quoted quote later).map (Cut.after plain) := by
  induction plain with
  | nil => cases cut : quoted quote later <;> simp [cut, Except.map, Cut.after]
  | cons c cs ih =>
    have head := free c mem_cons_self
    simp only [Cursor.endsPlain, decide_eq_false_iff_not, not_or] at head
    obtain ⟨notQuote, notEscape, notFeed, notReturn⟩ := head
    rw [cons_append, quoted_plain notEscape, if_neg notQuote,
      if_neg (by simp [notFeed, notReturn]), ih fun d member => free d (mem_cons_of_mem _ member),
      map_after_map]
    rfl

theorem template_append (free : ∀ c ∈ plain, decide (c = '\x60' ∨ c = '\\') = false)
    (later : Text) :
    template (plain ++ later) = (template later).map (Cut.after plain) := by
  induction plain with
  | nil => cases cut : template later <;> simp [cut, Except.map, Cut.after]
  | cons c cs ih =>
    have head := free c mem_cons_self
    simp only [decide_eq_false_iff_not, not_or] at head
    rw [cons_append, template_plain head.2, if_neg head.1,
      ih fun d member => free d (mem_cons_of_mem _ member), map_after_map]
    rfl

end Lexeme

namespace Cursor

variable {cursor : Cursor} {front : Text}

theorem At.seek?_class {p : Char → Bool} (stands : cursor.At front rest) (ascii : AsciiOnly p)
    (search : List Char → Option Nat)
    (searches : ∀ bytes, search bytes = bytes.findIdx? p) :
    ∃ found plain later, cursor.seek? search = some found ∧ rest = plain ++ later ∧
      (∀ c ∈ plain, p c = false) ∧ found.At (front ++ plain) later ∧
      (later = [] ∨ ∃ c cs, later = c :: cs ∧ p c = true) := by
  have whole : rest = rest.takeWhile (fun c => !p c) ++ rest.dropWhile (fun c => !p c) :=
    takeWhile_append_dropWhile.symm
  have free : ∀ c ∈ rest.takeWhile (fun c => !p c), p c = false := fun c member => by
    simpa using mem_takeWhile_imp member
  cases ends : rest.dropWhile (fun c => !p c) with
  | nil =>
    rw [ends, append_nil] at whole
    rw [← whole] at free
    obtain ⟨found, seeks, foundAt⟩ := stands.seek?_none
      ((searches _).trans (findIdx?_octets_none ascii free))
    exact ⟨found, rest, [], seeks, (append_nil _).symm, free, foundAt, .inl rfl⟩
  | cons c cs =>
    have isMark : p c = true := by
      have head := head_dropWhile_not (l := rest) (fun c => !p c) (by simp [ends])
      simpa [ends] using head
    rw [ends] at whole
    rw [whole] at stands
    obtain ⟨found, seeks, foundAt⟩ := stands.seek?_some
      ((searches _).trans (findIdx?_octets_some ascii cs free isMark))
    exact ⟨found, _, c :: cs, seeks, whole, free, foundAt, .inr ⟨c, cs, rfl, isMark⟩⟩

theorem At.escaped? {d : Char} {ds : Text} (stands : cursor.At front (d :: ds)) :
    ∃ next, cursor.escaped? = some next ∧
      ((∃ es, d = '\r' ∧ ds = '\n' :: es ∧ next.At (front ++ ['\r', '\n']) es) ∨
        (∀ es, d = '\r' → ds = '\n' :: es → False) ∧ next.At (front ++ [d]) ds) := by
  have isReturn := stands.peek_head (show '\r'.toNat < 128 by decide) (by decide)
  unfold Cursor.escaped?
  by_cases pair : d = '\r' ∧ ∃ es, ds = '\n' :: es
  · obtain ⟨rfl, es, rfl⟩ := pair
    have feed : cursor.peek 1 = '\n' := by
      rw [stands.peek_one (by decide), lead_ascii (by decide)]
    obtain ⟨next, advances, nextAt⟩ := (stands.step (by decide)).advanceChar?
    rw [append_assoc] at nextAt
    rw [if_pos ⟨isReturn.2 rfl, feed⟩]
    exact ⟨next, advances, .inl ⟨es, rfl, rfl, nextAt⟩⟩
  · have unpaired : ¬ (cursor.peek 0 = '\r' ∧ cursor.peek 1 = '\n') := by
      rintro ⟨isR, isN⟩
      have same := isReturn.1 isR
      subst same
      rw [stands.peek_one (by decide), lead_eq_iff (by decide) (by decide)] at isN
      exact pair ⟨rfl, isN⟩
    obtain ⟨next, advances, nextAt⟩ := stands.advanceChar?
    rw [if_neg unpaired]
    exact ⟨next, advances, .inr ⟨fun es isR isN => pair ⟨isR, es, isN⟩, nextAt⟩⟩

/-- A string, by induction on what is left: the cursor jumps to the next character that cannot
stand for itself. -/
theorem At.quoted? {quote : Char} (isQuote : quote = '"' ∨ quote = '\x27')
    (stands : cursor.At front rest) :
    Follows front rest (Lexeme.quoted quote rest) (cursor.quoted? quote) := by
  have low : quote.toNat < 128 := by rcases isQuote with rfl | rfl <;> decide
  have notZero : quote ≠ '\x00' := by rcases isQuote with rfl | rfl <;> decide
  have ascii : AsciiOnly (endsPlain quote) := by
    intro c ends
    simp only [endsPlain, decide_eq_true_eq] at ends
    rcases ends with rfl | rfl | rfl | rfl
    · exact low
    all_goals decide
  induction size : rest.length using Nat.strong_induction_on generalizing cursor front rest with
  | _ size ih =>
  subst size
  obtain ⟨found, plain, later, seeks, rfl, free, foundAt, ends⟩ :=
    stands.seek?_class ascii _ (quotedMark_eq quote)
  rw [quoted_append free]
  apply Follows.after
  rw [Cursor.quoted?]
  split
  · next none => rw [seeks] at none; cases none
  next found' seeks' =>
  rw [seeks] at seeks'
  cases seeks'
  rcases ends with rfl | ⟨c, cs, rfl, mark⟩
  · have zero : found.peek 0 = '\x00' := foundAt.peek_zero
    rw [zero, if_neg (Ne.symm notZero), if_neg (by decide), if_neg (by decide)]
    exact ⟨rfl, [], rfl, by rwa [append_nil]⟩
  have isHead : ∀ {d : Char}, d.toNat < 128 → d ≠ '\x00' → (found.peek 0 = d ↔ c = d) :=
    foundAt.peek_head
  by_cases escape : c = '\\'
  · subst escape
    have notQuote : ¬ found.peek 0 = quote := by
      rw [isHead low notZero]
      rcases isQuote with rfl | rfl <;> decide
    have behind := foundAt.step (by decide)
    rw [if_neg notQuote, if_pos ((isHead (by decide) (by decide)).2 rfl)]
    split
    · next atEnd =>
      cases behind.isEnd_iff.1 atEnd
      exact ⟨rfl, ['\\'], rfl, behind⟩
    · next inside =>
      cases cs with
      | nil => exact absurd (behind.isEnd_iff.2 rfl) inside
      | cons d ds =>
        obtain ⟨next, escapes, nextAt⟩ := behind.escaped?
        split
        · next none => rw [escapes] at none; cases none
        next next' escapes' =>
        rw [escapes] at escapes'
        cases escapes'
        rcases nextAt with ⟨es, rfl, rfl, nextAt⟩ | ⟨unpaired, nextAt⟩
        · rw [append_assoc] at nextAt
          exact (ih _ (by simp; omega) nextAt rfl).after
        · rw [quoted_escape quote unpaired]
          rw [append_assoc] at nextAt
          exact (ih _ (by simp; omega) nextAt rfl).after
  · rw [quoted_plain escape]
    by_cases close : c = quote
    · subst close
      rw [if_pos rfl, if_pos ((isHead low notZero).2 rfl)]
      exact foundAt.step low
    · simp only [endsPlain, close, escape, false_or, decide_eq_true_eq] at mark
      have broken : found.peek 0 = '\n' ∨ found.peek 0 = '\r' :=
        (or_congr (isHead (by decide) (by decide)) (isHead (by decide) (by decide))).2 mark
      rw [if_neg close, if_pos mark, if_neg ((isHead low notZero).not.2 close),
        if_neg ((isHead (by decide) (by decide)).not.2 escape), if_pos broken]
      exact ⟨rfl, [], rfl, by rwa [append_nil]⟩

theorem At.template? (stands : cursor.At front rest) :
    Follows front rest (Lexeme.template rest) cursor.template? := by
  have ascii : AsciiOnly fun c => c = '\x60' ∨ c = '\\' := by
    intro c ends
    rcases of_decide_eq_true ends with rfl | rfl <;> decide
  induction size : rest.length using Nat.strong_induction_on generalizing cursor front rest with
  | _ size ih =>
  subst size
  obtain ⟨found, plain, later, seeks, rfl, free, foundAt, ends⟩ :=
    stands.seek?_class ascii templateMark fun _ => rfl
  rw [template_append free]
  apply Follows.after
  rw [Cursor.template?]
  split
  · next none => rw [seeks] at none; cases none
  next found' seeks' =>
  rw [seeks] at seeks'
  cases seeks'
  rcases ends with rfl | ⟨c, cs, rfl, mark⟩
  · have zero : found.peek 0 = '\x00' := foundAt.peek_zero
    rw [zero, if_neg (by decide), if_neg (by decide)]
    exact ⟨rfl, [], rfl, by rwa [append_nil]⟩
  have isHead : ∀ {d : Char}, d.toNat < 128 → d ≠ '\x00' → (found.peek 0 = d ↔ c = d) :=
    foundAt.peek_head
  rcases of_decide_eq_true mark with rfl | rfl
  · rw [template_plain (by decide), if_pos rfl,
      if_pos ((isHead (by decide) (by decide)).2 rfl)]
    exact foundAt.step (by decide)
  · have behind := foundAt.step (by decide)
    rw [if_neg ((isHead (by decide) (by decide)).not.2 (by decide)),
      if_pos ((isHead (by decide) (by decide)).2 rfl)]
    split
    · next atEnd =>
      cases behind.isEnd_iff.1 atEnd
      exact ⟨rfl, ['\\'], rfl, behind⟩
    · next inside =>
      cases cs with
      | nil => exact absurd (behind.isEnd_iff.2 rfl) inside
      | cons d ds =>
        obtain ⟨next, advances, nextAt⟩ := behind.advanceChar?
        split
        · next none => rw [advances] at none; cases none
        next next' advances' =>
        rw [advances] at advances'
        cases advances'
        rw [append_assoc] at nextAt
        exact (ih _ (by simp; omega) nextAt rfl).after

/-! ### Comments -/

theorem lineEnd_none (inLine : '\n' ∉ text) : lineEnd text.octets = none := by
  have absent : text.octets.findIdx? (· = '\n') = none := by
    apply findIdx?_octets_none
    · intro c feed
      rw [of_decide_eq_true feed]
      decide
    · intro c member
      simp only [decide_eq_false_iff_not]
      rintro rfl
      exact inLine member
  rw [lineEnd, absent]
  rfl

theorem lineEnd_some (inLine : '\n' ∉ text) (more : Text) :
    lineEnd (text ++ '\n' :: more).octets =
      some (if text.getLast? = some '\r' then text.byteLength - 1 else text.byteLength) := by
  have found : (text ++ '\n' :: more).octets.findIdx? (· = '\n') = some text.byteLength := by
    apply Text.findIdx?_octets_some
    · intro c feed
      rw [of_decide_eq_true feed]
      decide
    · intro c member
      simp only [decide_eq_false_iff_not]
      rintro rfl
      exact inLine member
    · decide
  have before : (0 < text.byteLength ∧
      (text ++ '\n' :: more).octets[text.byteLength - 1]? = some '\r') ↔
        text.getLast? = some '\r' := by
    rw [← Text.getLast?_octets (by decide), List.getLast?_eq_getElem?, Text.octets_append,
      ← Text.length_octets]
    constructor
    · rintro ⟨some, last⟩
      rwa [List.getElem?_append_left (by omega)] at last
    · intro last
      have some : 0 < text.octets.length := by
        have := (List.getElem?_eq_some_iff.1 last).1
        omega
      exact ⟨some, by rwa [List.getElem?_append_left (by omega)]⟩
  rw [lineEnd, found, Option.map_some, if_congr before rfl rfl]

variable {bytes : List Char}

theorem At.lineComment {cursor : Cursor} {front ds : Text}
    (stands : cursor.At front ('/' :: '/' :: ds)) :
    ∃ next, cursor.seek? lineEnd = some next ∧ next.At
      (front ++ '/' :: '/' :: (Lexeme.lineComment ds).taken) (Lexeme.lineComment ds).rest := by
  have whole := whole_lineComment ds
  obtain ⟨inLine, ends⟩ := lineComment_spec ds
  rw [← whole] at stands
  generalize Lexeme.lineComment ds = cut at *
  obtain ⟨taken, rest⟩ := cut
  dsimp only [Cut.whole] at *
  have split : '/' :: '/' :: (taken ++ rest) = ('/' :: '/' :: taken) ++ rest := rfl
  have inside : '\n' ∉ '/' :: '/' :: taken := by simpa using inLine
  rw [split] at stands
  rcases ends with rfl | ⟨_, more, rfl, _, rfl | ⟨rfl, last⟩⟩
  · rw [append_nil] at stands
    exact stands.seek?_none (lineEnd_none inside)
  · refine stands.seek?_some ?_
    have pair : ('/' :: '/' :: taken) ++ '\r' :: '\n' :: more =
        ('/' :: '/' :: taken ++ ['\r']) ++ '\n' :: more := by simp
    rw [show ['\r', '\n'] ++ more = '\r' :: '\n' :: more from rfl, pair,
      lineEnd_some (by simpa using inLine), if_pos getLast?_concat, byteLength_append]
    rfl
  · refine stands.seek?_some ?_
    rw [singleton_append, lineEnd_some inside, if_neg]
    cases taken with
    | nil => decide
    | cons c cs => rwa [getLast?_cons_cons, getLast?_cons_cons]

theorem commentEnd_cons {b : Char} (more : ∀ later, b = '*' → bytes = '/' :: later → False) :
    commentEnd (b :: bytes) = (commentEnd bytes).map (· + 1) := by
  rw [commentEnd]
  exact more

theorem commentEnd_append (free : '*' ∉ bytes) (later : List Char) :
    commentEnd (bytes ++ later) = (commentEnd later).map (· + bytes.length) := by
  induction bytes with
  | nil => simp
  | cons b bytes ih =>
    simp only [mem_cons, not_or] at free
    rw [cons_append, commentEnd_cons fun _ star => absurd star.symm free.1, ih free.2]
    cases commentEnd later with
    | none => rfl
    | some n => simp [Nat.add_assoc]

theorem commentEnd_octets (more : ∀ ds, c = '*' → cs = '/' :: ds → False) :
    commentEnd (Text.octets (c :: cs)) = (commentEnd cs.octets).map (· + c.utf8Size) := by
  by_cases low : c.toNat < 128
  · have width : c.utf8Size = 1 :=
      (byteLength_ascii (by simpa using low) : Text.byteLength [c] = [c].length)
    rw [octets_ascii low, width]
    refine commentEnd_cons fun later star slash => ?_
    have leads : cs.lead = '/' := by
      rw [Text.lead, slash]
      rfl
    obtain ⟨ds, same⟩ := (lead_eq_iff (by decide) (by decide) cs).1 leads
    exact more ds star same
  · obtain ⟨b, bytes, split, high⟩ := octets_wide low cs
    have width : c.utf8Size = (b :: bytes).length := by
      have sizes := congrArg List.length split
      rw [length_octets, Text.byteLength, length_cons, length_append,
        length_octets] at sizes
      rw [length_cons]
      omega
    rw [split, ← cons_append, commentEnd_append fun star => high _ star (by decide), width]

theorem commentEnd_of_ok {cut : Cut} (found : Lexeme.blockComment text = .ok cut) :
    ∃ offset, commentEnd text.octets = some offset ∧ cut.taken.byteLength = offset + 2 := by
  fun_induction Lexeme.blockComment text generalizing cut with
  | case1 => cases found
  | case2 cs =>
    cases found
    rw [octets_ascii (by decide), octets_ascii (by decide)]
    exact ⟨0, rfl, rfl⟩
  | case3 c cs more ih =>
    obtain ⟨inner, inside, rfl⟩ := exists_of_map_eq_ok found
    obtain ⟨offset, ends, width⟩ := ih inside
    refine ⟨offset + c.utf8Size, ?_, ?_⟩
    · rw [commentEnd_octets more, ends, map_some]
    · rw [Cut.after, byteLength_append, width, Text.byteLength, Text.byteLength]
      omega

theorem commentEnd_of_error {stuck : Stuck} (failed : Lexeme.blockComment text = .error stuck) :
    commentEnd text.octets = none ∧ stuck = ⟨.unterminatedComment, []⟩ := by
  fun_induction Lexeme.blockComment text with
  | case1 =>
    cases failed
    exact ⟨rfl, rfl⟩
  | case2 => cases failed
  | case3 c cs more ih =>
    cases inner : Lexeme.blockComment cs with
    | ok cut => rw [inner] at failed; cases failed
    | error reason =>
      rw [inner] at failed
      obtain ⟨absent, same⟩ := ih (inner.trans (by cases failed; rfl))
      exact ⟨by rw [commentEnd_octets more, absent]; rfl, same⟩

/-! ### Tokens -/

def Yields (front text : Text) : Except Stuck Lexeme → Option Scan → Prop
  | .ok lexeme, some ⟨.ok kind, behind, breaks⟩ =>
    kind = lexeme.kind ∧ behind.At (front ++ lexeme.text) lexeme.rest ∧
      breaks = if lexeme.kind = .linebreak then 1 else 0
  | .error stuck, some ⟨.error reason, behind, breaks⟩ =>
    reason = stuck.reason ∧ breaks = 0 ∧
      ∃ skipped, text = skipped ++ stuck.rest ∧ behind.At (front ++ skipped) stuck.rest
  | _, _ => False

section Arms

variable {cursor : Cursor} {front : Text} {kind : TokenKind}

theorem yields_ok {behind : Cursor} {taken : Text} (inLine : kind ≠ .linebreak)
    (stands : behind.At (front ++ taken) rest) :
    Yields front text (.ok ⟨kind, taken, rest⟩) (some ⟨.ok kind, behind, 0⟩) :=
  ⟨rfl, stands, (if_neg inLine).symm⟩

theorem At.single (stands : cursor.At front (c :: cs)) (low : c.toNat < 128)
    (inLine : kind ≠ .linebreak) :
    Yields front (c :: cs) (.ok ⟨kind, [c], cs⟩) (some (cursor.single kind)) :=
  yields_ok inLine (stands.step low)

theorem Follows.yields {mark : Text} {cut : Except Stuck Cut}
    {read : Option (Except LexErrorKind Unit × Cursor)}
    (follows : Follows (front ++ mark) text cut read) :
    Yields front (mark ++ text) (cut.map fun cut => Lexeme.ofCut .other (cut.after mark))
      (read.map fun (ends, behind) => ⟨ends.map fun _ => .other, behind, 0⟩) := by
  unfold Follows at follows
  split at follows
  · rw [append_assoc] at follows
    exact yields_ok (by decide) follows
  · obtain ⟨reason, skipped, rfl, stands⟩ := follows
    refine ⟨reason, rfl, mark ++ skipped, (append_assoc ..).symm, ?_⟩
    rwa [← append_assoc]
  · exact follows.elim

theorem At.operator? (stands : cursor.At front (c :: cs)) (low : c.toNat < 128) :
    Yields front (c :: cs) (.ok (Lexeme.operator c cs)) cursor.operator? := by
  have inLine : ∀ text, Operator.kind text ≠ .linebreak := by
    intro text
    unfold Operator.kind
    repeat' split
    all_goals decide
  have ascii : ∀ d ∈ List.take (Operator.trie.longestMatch (c :: cs)) (c :: cs), d.toNat < 128 := by
    intro d member
    simpa using Trie.of_mem_take Operator.trie_ascii d member
  have inside := Trie.longestMatch_le Operator.trie (c :: cs)
  unfold Cursor.operator? Lexeme.operator
  rw [stands.rest?, bind_eq_bind, bind_some, Operator.longestMatch_nodes,
    Trie.longestMatch_octets Operator.trie_ascii]
  split
  · next none =>
    rw [none, if_pos rfl]
    exact stands.single low (by decide)
  · next n matched =>
    rw [matched] at ascii inside ⊢
    have split : c :: cs = (c :: cs.take n) ++ cs.drop n := by simp
    have width : (c :: cs.take n).length = n + 1 := by
      rw [length_cons, length_take_of_le (Nat.le_of_succ_le_succ inside)]
    rw [split] at stands
    have behind := stands.advance_ascii _ ascii
    rw [width] at behind
    have text := behind.textFrom?
    rw [← stands.pos] at text
    rw [if_neg (Nat.succ_ne_zero n)]
    dsimp only
    rw [text]
    exact yields_ok (inLine _) behind

theorem At.slash? (stands : cursor.At front ('/' :: cs)) :
    Yields front ('/' :: cs) (Lexeme.slash cs) cursor.slash? := by
  unfold Cursor.slash?
  rw [stands.peek_one (by decide)]
  unfold Lexeme.slash
  split
  · next ds =>
    obtain ⟨next, seeks, nextAt⟩ := stands.lineComment
    rw [if_pos (lead_ascii (by decide) ds), seeks]
    exact yields_ok (by decide) nextAt
  · next ds =>
    have star : Text.lead ('*' :: ds) = '*' := lead_ascii (by decide) ds
    have body := stands.advance_ascii ['/', '*'] (by simp)
    rw [star, if_neg (by decide), if_pos rfl]
    dsimp only
    rw [show cursor.advance 2 = cursor.advance ['/', '*'].length from rfl, body.rest?]
    cases found : Lexeme.blockComment ds with
    | ok cut =>
      obtain ⟨offset, ends, width⟩ := commentEnd_of_ok found
      have whole : cut.taken ++ cut.rest = ds := by
        have keeps := keeps_blockComment ds
        rwa [found] at keeps
      rw [← whole] at body
      have behind := body.advance cut.taken
      rw [width, append_assoc] at behind
      rw [map_some, ends]
      exact yields_ok (by decide) behind
    | error stuck =>
      obtain ⟨absent, rfl⟩ := commentEnd_of_error found
      have atEnd := body.toEnd
      rw [append_assoc] at atEnd
      rw [map_some, absent]
      exact ⟨rfl, rfl, _, (append_nil _).symm, atEnd⟩
  · next notLine notBlock =>
    have isHead := fun d low notZero => lead_eq_iff (d := d) low notZero cs
    rw [if_neg fun line => (isHead '/' (by decide) (by decide)).1 line |>.elim notLine,
      if_neg fun block => (isHead '*' (by decide) (by decide)).1 block |>.elim notBlock]
    exact stands.operator? (by decide)

theorem At.marker? (stands : cursor.At front ('@' :: cs)) :
    Yields front ('@' :: cs) (.ok (Lexeme.marker cs)) cursor.marker? := by
  have split : Text.splitAtByte? 1 ('@' :: cs) = some (['@'], cs) :=
    splitAtByte?_byteLength ['@'] cs
  have whole : '@' :: cs = ('@' :: cs.takeWhile isIdentPart) ++ cs.dropWhile isIdentPart := by
    rw [cons_append, takeWhile_append_dropWhile]
  have behind : (cursor.advance (1 + Text.byteLength (cs.takeWhile isIdentPart))).At
      (front ++ '@' :: cs.takeWhile isIdentPart) (cs.dropWhile isIdentPart) := by
    rw [whole] at stands
    exact stands.advance ('@' :: cs.takeWhile isIdentPart)
  unfold Cursor.marker? Lexeme.marker
  rw [stands.rest?]
  simp only [bind_eq_bind, bind_some, split]
  by_cases opens : (Cut.span isIdentPart cs).taken = "flatjs".toList
  · rw [if_pos opens, if_pos (show cs.takeWhile isIdentPart = _ from opens)]
    exact yields_ok (by decide) behind
  rw [if_neg opens, if_neg (show ¬ cs.takeWhile isIdentPart = _ from opens)]
  by_cases allocates : (Cut.span isIdentPart cs).taken = "new".toList
  · rw [if_pos allocates, if_pos (show cs.takeWhile isIdentPart = _ from allocates)]
    exact yields_ok (by decide) behind
  rw [if_neg allocates, if_neg (show ¬ cs.takeWhile isIdentPart = _ from allocates)]
  exact stands.single (by decide) (by decide)

theorem At.carriageReturn (stands : cursor.At front ('\r' :: cs)) :
    Yields front ('\r' :: cs) (.ok (Lexeme.carriageReturn cs)) (some cursor.carriageReturn) := by
  unfold Cursor.carriageReturn
  rw [stands.peek_one (by decide)]
  unfold Lexeme.carriageReturn
  split
  · next ds =>
    rw [if_pos (lead_ascii (by decide) ds)]
    exact ⟨rfl, stands.advance_ascii ['\r', '\n'] (by simp), rfl⟩
  · next notFeed =>
    rw [if_neg fun feed =>
      (lead_eq_iff (by decide) (by decide) cs).1 feed |>.elim notFeed]
    exact stands.single (by decide) (by decide)

end Arms

end Cursor

theorem ne_of_wide {d : Char} (wide : ¬ c.toNat < 128) (low : d.toNat < 128) : c ≠ d := by
  rintro rfl
  exact wide low

theorem not_mem_of_wide {chars : List Char} (wide : ¬ c.toNat < 128)
    (low : ∀ d ∈ chars, d.toNat < 128) : c ∉ chars :=
  fun member => wide (low c member)

theorem Lexeme.punctuation?_wide (wide : ¬ c.toNat < 128) : punctuation? c = none := by
  unfold punctuation?
  split
  case h_10 => rfl
  all_goals exact absurd (by decide) wide

theorem Lexeme.inLine_punctuation {kind : TokenKind} (found : punctuation? c = some kind) :
    kind ≠ .linebreak := by
  rintro rfl
  unfold punctuation? at found
  split at found
  all_goals cases found

theorem Lexeme.operator_of_not_start (noStart : c ∉ '/' :: Cursor.operatorStarts) (cs : Text) :
    operator c cs = ⟨.other, [c], cs⟩ := by
  unfold operator
  rw [Trie.longestMatch_of_not_start fun start => noStart (Operator.mem_starts start)]

namespace Cursor

variable {cursor : Cursor} {front : Text}

theorem At.scan?_nil (stands : cursor.At front []) :
    cursor.scan? = some ⟨.ok .eof, cursor, 0⟩ := by
  unfold Cursor.scan?
  have zero : cursor.peek 0 = '\x00' := stands.peek_zero
  dsimp only
  rw [if_pos ⟨zero, stands.isEnd_iff.2 rfl⟩]

theorem At.scan?_wide (stands : cursor.At front (c :: cs)) (wide : ¬ c.toNat < 128) :
    Yields front (c :: cs) (Lexeme.first c cs) cursor.scan? := by
  have inside : ¬ cursor.isEnd = true := stands.isEnd_iff.not.2 (by simp)
  have high : ¬ (cursor.peek 0).toNat < 128 := by
    rw [stands.peek_zero]
    exact lead_wide wide cs
  have alone : Lexeme.first c cs = .ok ⟨.other, [c], cs⟩ := by
    rw [Lexeme.first, ascii_isSpace.false wide, ascii_isIdentStart.false wide,
      ascii_isDigit.false wide, punctuation?_wide wide,
      operator_of_not_start (not_mem_of_wide wide (by simp [operatorStarts]))]
    simp [ne_of_wide wide]
  obtain ⟨next, advances, nextAt⟩ := stands.advanceChar?
  have scanned : cursor.scan? = some ⟨.ok .other, next, 0⟩ := by
    rw [Cursor.scan?]
    generalize cursor.peek 0 = b at high
    dsimp only
    rw [ascii_isSpace.false high, ascii_isIdentStart.false high,
      ascii_isDigit.false high, punctuation?_wide high]
    have noStart : b ∉ operatorStarts := not_mem_of_wide high (by simp [operatorStarts])
    simp [ne_of_wide high, inside, noStart, high, advances]
  rw [alone, scanned]
  exact yields_ok (by decide) nextAt

theorem At.scan?_ascii (stands : cursor.At front (c :: cs)) (low : c.toNat < 128) :
    Yields front (c :: cs) (Lexeme.first c cs) cursor.scan? := by
  have inside : ¬ (c = '\x00' ∧ cursor.isEnd = true) := fun both =>
    absurd (stands.isEnd_iff.1 both.2) (by simp)
  have head : cursor.peek 0 = c := by rw [stands.peek_zero, lead_ascii low]
  have behind := stands.step low
  unfold Cursor.scan? Lexeme.first
  dsimp only
  rw [head, if_neg inside]
  by_cases space : Lexeme.isSpace c = true
  · rw [if_pos space, if_pos space]
    have further := stands.eatWhile ascii_isSpace
    rw [takeWhile_cons_of_pos space, dropWhile_cons_of_pos space] at further
    exact yields_ok (by decide) further
  rw [if_neg space, if_neg space]
  by_cases isReturn : c = '\r'
  · subst isReturn
    rw [if_pos rfl, if_pos rfl]
    exact stands.carriageReturn
  rw [if_neg isReturn, if_neg isReturn]
  by_cases feed : c = '\n'
  · rw [if_pos feed, if_pos feed]
    exact ⟨rfl, behind, rfl⟩
  rw [if_neg feed, if_neg feed]
  by_cases start : isIdentStart c = true
  · rw [if_pos start, if_pos start]
    have further := behind.eatWhile ascii_isIdentPart
    rw [append_assoc] at further
    exact yields_ok (by decide) further
  rw [if_neg start, if_neg start]
  by_cases digit : c.isDigit = true
  · rw [if_pos digit, if_pos digit]
    exact yields_ok (by decide) (stands.number digit)
  rw [if_neg digit, if_neg digit]
  by_cases isQuote : c = '"' ∨ c = '\x27'
  · rw [if_pos isQuote, if_pos isQuote]
    exact (behind.quoted? isQuote).yields
  rw [if_neg isQuote, if_neg isQuote]
  by_cases tick : c = '\x60'
  · rw [if_pos tick, if_pos tick]
    exact behind.template?.yields
  rw [if_neg tick, if_neg tick]
  by_cases slash : c = '/'
  · subst slash
    rw [if_pos rfl, if_pos rfl]
    exact stands.slash?
  rw [if_neg slash, if_neg slash]
  by_cases isAt : c = '@'
  · subst isAt
    rw [if_pos rfl, if_pos rfl]
    exact stands.marker?
  rw [if_neg isAt, if_neg isAt]
  cases known : Lexeme.punctuation? c with
  | some kind => exact stands.single low (inLine_punctuation known)
  | none =>
    dsimp only
    by_cases starts : c ∈ operatorStarts
    · rw [if_pos starts]
      exact stands.operator? low
    · rw [if_neg starts, if_pos low, operator_of_not_start (by simp [slash, starts])]
      exact stands.single low (by decide)

theorem At.scan? (stands : cursor.At front (c :: cs)) :
    Yields front (c :: cs) (Lexeme.first c cs) cursor.scan? := by
  by_cases low : c.toNat < 128
  · exact stands.scan?_ascii low
  · exact stands.scan?_wide low

end Cursor

end FlatMemory
