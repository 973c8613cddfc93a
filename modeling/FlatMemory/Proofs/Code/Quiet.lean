import FlatMemory.Proofs.Code.Scanner

/-! # Text that expansion leaves alone

The scanner goes through text in which it replaces nothing by literals, single characters and names.
`Passes session rest before front parts` is such a way through `front`, with `rest` behind it.  What
is behind may change as long as it ends a name and opens no group: a near miss stays one, because
the groups behind names close before. -/

namespace FlatMemory

open List Text Lexeme Literal Option

variable {c : Char} {text : Text} {p : Char → Bool}

/-! ### Names in front of other text -/

def Text.continuesName : Text → Bool
  | '.' :: c :: _ => isIdentStart c
  | c :: _ => isIdentPart c
  | [] => false

theorem Text.continuesName_cons (other : c ≠ '.') (cs : Text) :
    continuesName (c :: cs) = isIdentPart c := by
  rw [continuesName]
  exact fun _ _ same _ => other same

theorem Text.not_isIdentPart_head (ends : text.continuesName = false) :
    ∀ c, text.head? = some c → isIdentPart c = false := by
  rintro c head
  obtain ⟨cs, rfl⟩ := head?_eq_some_iff.1 head
  by_cases dot : c = '.'
  · subst dot
    decide
  · rwa [continuesName_cons dot] at ends

theorem Cut.span_change (text : Text) {other : Text}
    (stops : ∀ c, other.head? = some c → p c = false) :
    span p ((span p text).taken ++ other) = ⟨(span p text).taken, other⟩ := by
  have inside : ∀ c ∈ (span p text).taken, p c = true := fun c member => mem_takeWhile_imp member
  generalize (span p text).taken = taken at inside
  rw [span, takeWhile_append_of_pos inside, dropWhile_append_of_pos inside]
  cases other with
  | nil => simp
  | cons c cs => simp [stops c rfl]

theorem Cut.not_head_span : ∀ c, (span p text).rest.head? = some c → p c = false := by
  intro c head
  have stops := head?_dropWhile_not p text
  rw [show text.dropWhile p = (span p text).rest from rfl, head] at stops
  simpa using stops

namespace DottedName

variable {other : Text}

theorem not_continuesName_segments (text : Text)
    (stops : ∀ c, text.head? = some c → isIdentPart c = false) :
    (readSegments text).2.rest.continuesName = false := by
  fun_induction readSegments text with
  | case1 c cs start word shorter later cut found ih =>
    rw [found] at ih
    exact ih Cut.not_head_span
  | case2 c cs notStart => simpa [Cut.none, Text.continuesName] using notStart
  | case3 text other =>
    cases text with
    | nil => rfl
    | cons c cs =>
      rw [Cut.none, Text.continuesName]
      · exact stops c rfl
      · rintro d ds rfl rfl
        exact other d ds rfl

theorem not_continuesName (text : Text) : (read text).2.rest.continuesName = false :=
  not_continuesName_segments _ Cut.not_head_span

theorem stops_segments (text : Text) (ends : other.continuesName = false) :
    ∀ c, ((readSegments text).2.taken ++ other).head? = some c → isIdentPart c = false := by
  fun_cases readSegments text with
  | case1 =>
    rintro c ⟨⟩
    decide
  | case2 => exact not_isIdentPart_head ends
  | case3 => exact not_isIdentPart_head ends

theorem readSegments_of_stop (ends : text.continuesName = false) :
    readSegments text = ([], ⟨[], text⟩) := by
  unfold readSegments
  split
  · next c cs => rw [if_neg (by simpa [Text.continuesName] using ends)]; rfl
  · rfl

theorem readSegments_change (text : Text) (ends : other.continuesName = false) :
    readSegments ((readSegments text).2.taken ++ other) =
      ((readSegments text).1, ⟨(readSegments text).2.taken, other⟩) := by
  fun_induction readSegments text with
  | case1 c cs start word shorter later cut found ih =>
    rw [found] at ih
    have stops := stops_segments word.rest ends
    rw [found] at stops
    dsimp only [Cut.after]
    rw [append_assoc, cons_append, cons_append, readSegments, if_pos start]
    dsimp only
    rw [Cut.span_change cs stops]
    dsimp only
    rw [ih]
    rfl
  | case2 => exact readSegments_of_stop ends
  | case3 => exact readSegments_of_stop ends

theorem read_change {text other : Text} (ends : other.continuesName = false) :
    read ((read text).2.taken ++ other) = ((read text).1, ⟨(read text).2.taken, other⟩) := by
  have segments := readSegments_change (Cut.span isIdentPart text).rest ends
  unfold read
  dsimp only [Cut.after]
  rw [append_assoc, Cut.span_change text (stops_segments _ ends)]
  dsimp only
  rw [segments]

end DottedName

namespace Accessor

variable {own : Session} {session : Option Session} {before : Option Char} {name : DottedName}
  {cs rest other : Text}
  {parts : List Part}

/-! ### Ways through text that stays -/

/-- A name that is no accessor of a session, if there is one, or that takes other arguments than the
group behind it has. -/
def Stays (session : Option Session) (name : DottedName) (counts : Option (Nat × Nat)) : Prop :=
  ∀ own ∈ session, ∀ (type : TypeRef) (call : Call) (access : Access) (places : Nat),
    own.lookup name.head = some type → name.segments ≠ [] →
    call? own name type = .ok (some (call, access, places)) →
    access.target.supports access.operation = true →
    counts ≠ some (access.operation.operands + places, access.operation.operands + places)

theorem stays_none (session : Option Session) (name : DottedName) : Stays session name none := by
  intro own _ type call access places _ _ _ _ counted
  cases counted

/-- A way of the scanner through a text in which it replaces nothing, with the parts that it meets.
`before` is the character in front of the text and `rest` stands behind it.  Without a session it does
not look for names and markers. -/
inductive Passes (session : Option Session) (rest : Text) : Option Char → Text → List Part → Prop
  | done (before : Option Char) : Passes session rest before [] []
  | literal {before : Option Char} {literal front : Text} {parts : List Part}
    (found : Literal.first? (literal ++ (front ++ rest)) = some ⟨literal, front ++ rest⟩)
    (later : Passes session rest literal.getLast? front parts) :
    Passes session rest before (literal ++ front) (.literal literal :: parts)
  | char {before : Option Char} {c : Char} {front : Text} {parts : List Part}
    (plain : Literal.first? (c :: (front ++ rest)) = none)
    (alone : session.isSome = true → startsWord before = true →
      isIdentStart c = false ∧ marker? (c :: (front ++ rest)) = none)
    (later : Passes session rest (some c) front parts) :
    Passes session rest before (c :: front) (.code c :: parts)
  | word {before : Option Char} {c : Char} {cs front : Text} {name : DottedName} {parts : List Part}
    (starts : startsWord before = true) (isName : isIdentStart c = true)
    (read : DottedName.read (c :: (cs ++ (front ++ rest))) = (name, ⟨c :: cs, front ++ rest⟩))
    (stays : Stays session name (groupCounts (Text.parts (front ++ rest))))
    (later : Passes session rest (c :: cs).getLast? front parts) :
    Passes session rest before (c :: (cs ++ front)) ((c :: cs).map .code ++ parts)

/-- No accessor takes no argument at all. -/
theorem call?_positive {type : TypeRef} {call : Call} {access : Access} {places : Nat}
    (found : call? own name type = .ok (some (call, access, places))) : 0 < places := by
  cases standsFor_of_call? found <;> decide

theorem find_literal {cut : Cut} (found : Literal.first? (c :: cs) = some cut) :
    find own before c cs = ⟨.copied, cut⟩ := by
  rw [find, found]

theorem find_char (plain : Literal.first? (c :: cs) = none)
    (alone : startsWord before = true → isIdentStart c = false ∧ marker? (c :: cs) = none) :
    find own before c cs = ⟨.copied, [c], cs⟩ := by
  rw [find, plain]
  dsimp only
  split
  · next starts =>
    obtain ⟨notName, unmarked⟩ := alone starts
    rw [unmarked]
    dsimp only
    rw [if_neg (by simp [notName])]
  · rfl

theorem marker?_eq_none (other : c ≠ '@') (cs : Text) : marker? (c :: cs) = none := by
  rw [marker?]
  rintro ds same
  exact other (List.cons.inj same).1

theorem first?_of_isIdentPart (part : isIdentPart c = true) (cs : Text) :
    Literal.first? (c :: cs) = none :=
  first?_of_isPlain (isInert_iff.1 (inert_isIdentPart part)).1 cs

theorem ne_at_of_isIdentStart (start : isIdentStart c = true) : c ≠ '@' := by
  rintro rfl
  cases start

theorem find_name (starts : startsWord before = true) (isName : isIdentStart c = true) (cs : Text) :
    find own before c cs = accessor own (c :: cs) := by
  rw [find, first?_of_isIdentPart (isIdentPart_of_isIdentStart isName), if_pos starts,
    marker?_eq_none (ne_at_of_isIdentStart isName)]
  dsimp only
  rw [if_pos isName]

theorem accessor_stays {word : Text} (read : DottedName.read text = (name, ⟨word, rest⟩))
    (stays : Stays own name (groupCounts rest.parts)) :
    ∃ form, accessor own text = ⟨form, word, rest⟩ ∧
      (form = .copied ∨ ∃ warning, form = .refused warning) := by
  have found := accesses own text
  rw [read] at found
  generalize accessor own text = whole at found ⊢
  cases found with
  | copied => exact ⟨_, rfl, .inl rfl⟩
  | refused warning => exact ⟨_, rfl, .inr ⟨warning, rfl⟩⟩
  | @call type call access places group known qualified called supported grouped length given =>
    have positive := call?_positive called
    refine absurd ?_ (stays own rfl type call access places known qualified called supported)
    exact (groupCounts_eq_some_iff (by omega)).2 ⟨group, grouped, length, given⟩

/-- Characters that start no literal, and no name or marker that is looked for. -/
theorem passes_code (plain : ∀ c ∈ text, isPlain c = true)
    (alone : session.isSome = true → ∀ c ∈ text, isIdentStart c = false ∧ c ≠ '@')
    (before : Option Char) (rest : Text) : Passes session rest before text (text.map .code) := by
  induction text generalizing before with
  | nil => exact .done before
  | cons c cs ih =>
    obtain ⟨head, later⟩ := forall_mem_cons.1 plain
    refine .char (first?_of_isPlain head _) (fun heeded _ => ?_)
      (ih later (fun heeded d member => alone heeded d (mem_cons_of_mem _ member)) _)
    obtain ⟨notName, notAt⟩ := alone heeded c mem_cons_self
    exact ⟨notName, marker?_eq_none notAt _⟩

namespace Passes

variable {front : Text}

theorem plain_name {word : Text} (read : DottedName.read text = (name, ⟨word, rest⟩)) :
    ∀ c ∈ word, isPlain c = true := by
  have plain := DottedName.isPlain_read text
  rwa [read] at plain

theorem parts_append (passes : Passes session rest before front parts) :
    Text.parts (front ++ rest) = parts ++ rest.parts := by
  induction passes with
  | done => rfl
  | literal found _ ih =>
    rw [append_assoc, parts_literal found, ih]
    rfl
  | char plain _ _ ih =>
    rw [cons_append, parts_cons plain, ih]
    rfl
  | @word _ c cs front _ _ _ _ read _ _ ih =>
    rw [← cons_append, append_assoc, parts_plain (plain_name read), ih, append_assoc]

theorem spelled_code (text : Text) : (text.map Part.code).flatMap Part.text = text := by
  rw [flatMap_map]
  exact flatMap_singleton' _

theorem spelled (passes : Passes session rest before front parts) :
    parts.flatMap Part.text = front := by
  induction passes with
  | done => rfl
  | literal _ _ ih => rw [flatMap_cons, ih]; rfl
  | char _ _ _ ih => rw [flatMap_cons, ih]; rfl
  | word _ _ _ _ _ ih =>
    rw [flatMap_append, ih, spelled_code]
    rfl

theorem getLast?_or {taken : Text} (nonempty : taken ≠ []) (front : Text) (before : Option Char) :
    (taken ++ front).getLast?.or before = front.getLast?.or taken.getLast? := by
  rw [getLast?_append, Option.or_assoc, getLast?_eq_some_getLast nonempty]
  rfl

theorem append {back : Text} {more : List Part}
    (passes : Passes session (back ++ rest) before front parts)
    (goesOn : Passes session rest (front.getLast?.or before) back more) :
    Passes session rest before (front ++ back) (parts ++ more) := by
  induction passes with
  | done => exact goesOn
  | @literal _ literal front _ found _ ih =>
    rw [getLast?_or (whole_first? found).2] at goesOn
    rw [← append_assoc front] at found
    rw [append_assoc]
    exact .literal found (ih goesOn)
  | @char _ c front _ plain alone _ ih =>
    rw [← singleton_append, getLast?_or (by simp)] at goesOn
    rw [← append_assoc front] at plain alone
    exact .char plain alone (ih goesOn)
  | @word _ c cs front _ _ starts isName read stays _ ih =>
    rw [← cons_append, getLast?_or (by simp)] at goesOn
    rw [← append_assoc front] at read stays
    rw [cons_append, append_assoc, append_assoc]
    exact .word starts isName read stays (ih goesOn)

/-- Without a session a name is passed character by character. -/
theorem unread {word : Text} (plain : ∀ c ∈ word, isPlain c = true) (nonempty : word ≠ [])
    (later : Passes none rest word.getLast? front parts) :
    Passes none rest before (word ++ front) (word.map .code ++ parts) := by
  refine (passes_code plain (fun heeded => by cases heeded) before _).append ?_
  rwa [getLast?_eq_some_getLast nonempty, Option.some_or, ← getLast?_eq_some_getLast nonempty]

/-- Of the character in front it matters only whether a name may start behind it. -/
theorem behind {other : Option Char} (passes : Passes session rest before front parts)
    (same : startsWord other = startsWord before) : Passes session rest other front parts := by
  cases passes with
  | done => exact .done other
  | literal found later => exact .literal found later
  | char plain alone later => exact .char plain (fun heeded => same ▸ alone heeded) later
  | word starts isName read stays later => exact .word (same.trans starts) isName read stays later

theorem expand {scene : Scene} {text : Text} (passes : Passes scene.session [] before text parts)
    (offset : Nat) : (Accessor.expand scene before offset text).result = .ok text := by
  have copies : ∀ {before : Option Char} {offset : Nat} {c : Char} {cs taken later : Text} {form : Form},
      find scene.session before c cs = ⟨form, taken, later⟩ →
      (form = .copied ∨ ∃ warning, form = .refused warning) →
      (∀ offset, (Accessor.expand scene taken.getLast? offset later).result = .ok later) →
      (Accessor.expand scene before offset (c :: cs)).result = .ok (taken ++ later) := by
    intro before offset c cs taken later form found formed expanded
    have stays : (replacement scene offset ⟨form, taken, later⟩).result = .ok taken := by
      rcases formed with rfl | ⟨warning, rfl⟩ <;> rfl
    rw [expand_cons, found, Warned.bind_of_ok stays, Warned.bind_of_ok (expanded _)]
    rfl
  induction passes generalizing offset with
  | done => rw [Accessor.expand]; rfl
  | @literal _ literal front _ found _ ih =>
    obtain ⟨c, cs, rfl⟩ := exists_cons_of_ne_nil (whole_first? found).2
    rw [append_nil] at found
    exact copies (find_literal found) (.inl rfl) ih
  | @char _ c front _ plain alone _ ih =>
    rw [append_nil] at plain alone
    exact copies (find_char plain (alone rfl)) (.inl rfl) ih
  | @word _ c cs front _ _ starts isName read stays _ ih =>
    rw [append_nil] at read stays
    obtain ⟨form, found, formed⟩ := accessor_stays read stays
    exact copies ((find_name starts isName _).trans found) formed ih

end Passes

/-! ### Other text behind -/

def Apart (rest : Text) : Prop :=
  ∀ c, rest.head? = some c → isIdentPart c = false ∧ c ≠ '.' ∧ c ≠ '('

def Leaves (session : Option Session) (rest : Text) : Prop := session.isSome = true → Apart rest

theorem apart_nil : Apart [] := fun _ head => by cases head

theorem marker?_eq_none_iff :
    marker? (c :: cs) = none ↔ ¬ (c = '@' ∧ cs.takeWhile isIdentPart = ['n', 'e', 'w']) := by
  unfold marker?
  split
  · next later same =>
    obtain ⟨rfl, rfl⟩ := List.cons.inj same
    have word : List.takeWhile isIdentPart ('n' :: 'e' :: 'w' :: later) =
        'n' :: 'e' :: 'w' :: later.takeWhile isIdentPart := rfl
    rw [word]
    cases later with
    | nil => simp
    | cons d ds => cases part : isIdentPart d <;> simp [part]
  · next other =>
    refine iff_of_true rfl ?_
    rintro ⟨rfl, word⟩
    have whole := takeWhile_append_dropWhile (p := isIdentPart) (l := cs)
    rw [word] at whole
    exact other _ (by rw [← whole]; rfl)

theorem takeWhile_stop (stops : ∀ c, other.head? = some c → p c = false) :
    (text ++ other).takeWhile p = text.takeWhile p := by
  have none : other.takeWhile p = [] := by
    cases other with
    | nil => rfl
    | cons c cs => rw [takeWhile_cons_of_neg (by simp [stops c rfl])]
  rw [takeWhile_append, none, append_nil]
  split
  · next whole => exact (IsPrefix.eq_of_length ( takeWhile_prefix p) whole).symm
  · rfl

theorem Apart.stops (apart : Apart rest) :
    ∀ c, rest.head? = some c → isIdentPart c = false := fun c head => (apart c head).1

theorem marker?_change {one : Text} (oneStops : ∀ c, one.head? = some c → isIdentPart c = false)
    (otherStops : ∀ c, other.head? = some c → isIdentPart c = false)
    (unmarked : marker? (c :: (text ++ one)) = none) : marker? (c :: (text ++ other)) = none := by
  rw [marker?_eq_none_iff, takeWhile_stop oneStops] at unmarked
  rwa [marker?_eq_none_iff, takeWhile_stop otherStops]

theorem continuesName_change {text one other : Text} (apart : Apart other)
    (ends : Text.continuesName (text ++ one) = false) : Text.continuesName (text ++ other) = false := by
  cases text with
  | nil =>
    cases other with
    | nil => rfl
    | cons c cs => exact (continuesName_cons (apart c rfl).2.1 cs).trans (apart c rfl).1
  | cons c cs =>
    by_cases dot : c = '.'
    · subst dot
      cases cs with
      | cons d ds => exact ends
      | nil =>
        cases other with
        | nil => rfl
        | cons d ds => exact not_isIdentStart (apart d rfl).1
    · rw [cons_append, continuesName_cons dot] at ends ⊢
      exact ends

/-- The counts of a group do not depend on what is behind parts that close it. -/
theorem groupCounts_change {tally next : Tally} (passed : tally.passAll parts = some next)
    (closed : next.nesting = []) (one other : List Part) (nonempty : parts ≠ []) :
    groupCounts (parts ++ one) = groupCounts (parts ++ other) := by
  cases parts with
  | nil => exact absurd rfl nonempty
  | cons part parts =>
    by_cases paren : part = .code '('
    · subst paren
      rw [Tally.passAll, Tally.pass, if_pos (by decide), bind_some] at passed
      obtain ⟨counts, closes⟩ := @Tally.exists_close parts [] tally.nesting _ next rfl passed
        (by simp [closed]) Tally.start rfl
      exact (closes one).trans (closes other).symm
    · rw [cons_append, cons_append, groupCounts, groupCounts]
      · exact fun _ same => paren (List.cons.inj same).1
      · exact fun _ same => paren (List.cons.inj same).1

namespace Passes

variable {front : Text} {d : Char}

theorem parts_nil (passes : Passes session rest before [] parts) : parts = [] := by
  generalize same : ([] : Text) = front at passes
  cases passes with
  | done => rfl
  | literal found =>
    obtain ⟨none, _⟩ := append_eq_nil_iff.1 same.symm
    exact absurd none (whole_first? found).2
  | char => cases same
  | word => cases same

theorem change (passes : Passes session rest before front parts) (restLeaves : Leaves session rest)
    (otherLeaves : Leaves session other) (slash : front.getLast? = some '/' → Harmless other)
    (closed : ∀ literal, parts.getLast? = some (.literal literal) → Literal.Sealed literal)
    {tally next : Tally} (passed : tally.passAll parts = some next) (nested : next.nesting = []) :
    Passes session other before front parts := by
  have lastOf : ∀ {part : Part} {parts : List Part},
      (∀ literal, (part :: parts).getLast? = some (.literal literal) → Literal.Sealed literal) →
      ∀ literal, parts.getLast? = some (.literal literal) → Literal.Sealed literal := by
    intro part parts closed literal last
    exact closed literal (by rw [getLast?_cons, last]; rfl)
  have slashOf : ∀ {taken front : Text},
      ((taken ++ front).getLast? = some '/' → Harmless other) →
      front.getLast? = some '/' → Harmless other := by
    intro taken front slash last
    exact slash (by rw [getLast?_append, last]; rfl)
  induction passes generalizing tally with
  | done before => exact .done before
  | @literal _ literal front parts found later ih =>
    obtain ⟨middle, _, passed⟩ := bind_eq_some_iff.1 passed
    refine .literal ?_ (ih (slashOf slash) (lastOf closed) passed)
    cases front with
    | nil =>
      obtain rfl := later.parts_nil
      exact (closed literal rfl).first other
    | cons d ds =>
      refine first?_change found ?_
      rintro (⟨none, _⟩ | ⟨feed, _⟩)
      · cases none
      · exact .inr ⟨feed, feed⟩
  | @char _ c front parts plain alone later ih =>
    obtain ⟨middle, _, passed⟩ := bind_eq_some_iff.1 passed
    refine .char ?_ (fun heeded starts => ?_) (ih (@slashOf [c] _ slash) (lastOf closed) passed)
    · rw [first?_eq_none_iff] at plain ⊢
      refine ⟨plain.1, plain.2.1, plain.2.2.1, fun isSlash => ?_⟩
      cases front with
      | nil => exact slash (by rw [isSlash]; rfl)
      | cons d ds => exact plain.2.2.2 isSlash
    · obtain ⟨notName, unmarked⟩ := alone heeded starts
      exact ⟨notName, marker?_change (restLeaves heeded).stops (otherLeaves heeded).stops unmarked⟩
  | @word _ c cs front name parts starts isName read stays later ih =>
    rw [Tally.passAll_append] at passed
    obtain ⟨middle, _, passed⟩ := bind_eq_some_iff.1 passed
    have goesOn := ih (@slashOf (c :: cs) _ slash) (fun literal last => closed literal (by
      rw [getLast?_append, last]; rfl)) passed
    cases session with
    | none => exact goesOn.unread (plain_name read) (cons_ne_nil c cs)
    | some session =>
    have otherApart := otherLeaves rfl
    have ends := DottedName.not_continuesName (c :: (cs ++ (front ++ rest)))
    have again := @DottedName.read_change (c :: (cs ++ (front ++ rest))) (front ++ other)
      (continuesName_change otherApart (by rwa [read] at ends))
    rw [read] at again
    refine .word starts isName again ?_ goesOn
    cases front with
    | nil =>
      have none : groupCounts other.parts = none :=
        groupCounts_eq_none fun paren => (otherApart _ paren).2.2 rfl
      exact none.symm ▸ stays_none session name
    | cons d ds =>
      have nonempty : parts ≠ [] := by
        rintro rfl
        cases later.spelled
      rw [later.parts_append] at stays
      rwa [goesOn.parts_append, ← groupCounts_change passed nested rest.parts other.parts nonempty]

theorem sealed_last (passes : Passes session (d :: rest) before front parts) (notFeed : d ≠ '\n') :
    ∀ literal, parts.getLast? = some (.literal literal) → Literal.Sealed literal := by
  induction passes with
  | done => simp
  | @literal _ literal front parts found later ih =>
    intro other last
    cases front with
    | nil =>
      obtain rfl := later.parts_nil
      obtain rfl : literal = other := by simpa using last
      rcases sealed_or_halts found with closed | ⟨⟨none, _⟩ | ⟨feed, _⟩, _⟩
      · exact closed
      · cases none
      · exact absurd (Option.some.inj feed) notFeed
    | cons e es =>
      have nonempty : parts ≠ [] := by
        rintro rfl
        cases later.spelled
      exact ih other (by rwa [getLast?_cons_of_ne_nil nonempty] at last)
  | @char _ c front parts _ _ later ih =>
    intro other last
    cases parts with
    | nil => cases last
    | cons part parts => exact ih other (by rwa [getLast?_cons_cons] at last)
  | @word _ c cs front _ parts _ _ _ _ later ih =>
    intro other last
    rw [getLast?_append] at last
    cases isLast : parts.getLast? with
    | some part => exact ih other (by rwa [isLast] at last ⊢)
    | none =>
      rw [isLast, none_or] at last
      obtain ⟨_, _, isCode⟩ := mem_map.1 (mem_of_getLast? last)
      cases isCode

/-! ### Cutting a way off -/

theorem split_text {early later : List Part}
    (passes : Passes session rest before front (early ++ .code d :: later)) :
    front ++ rest = early.flatMap Part.text ++ d :: (later.flatMap Part.text ++ rest) := by
  rw [← passes.spelled, flatMap_append, flatMap_cons, append_assoc]
  rfl

/-- A way leads to every character that is not part of a literal or of a name. -/
theorem split {early later : List Part} {d : Char} (passes : Passes session rest before front parts)
    (same : parts = early ++ .code d :: later) (notPart : isIdentPart d = false) (notDot : d ≠ '.') :
    Passes session (d :: (later.flatMap Part.text ++ rest)) before (early.flatMap Part.text) early := by
  induction passes generalizing early with
  | done => simp at same
  | literal found goesOn ih =>
    cases early with
    | nil => cases same
    | cons part early =>
      obtain ⟨rfl, rfl⟩ := List.cons.inj same
      rw [goesOn.split_text] at found
      exact .literal found (ih rfl)
  | char plain alone goesOn ih =>
    cases early with
    | nil => exact .done _
    | cons part early =>
      obtain ⟨rfl, rfl⟩ := List.cons.inj same
      rw [goesOn.split_text] at plain alone
      exact .char plain alone (ih rfl)
  | @word _ c cs front name parts starts isName read stays goesOn ih =>
    obtain ⟨early, rfl, rfl⟩ : ∃ behind, early = (c :: cs).map .code ++ behind ∧
        parts = behind ++ .code d :: later := by
      rcases append_eq_append_iff.1 same with ⟨behind, isEarly, isParts⟩ | ⟨behind, isWord, isLater⟩
      · exact ⟨behind, isEarly, isParts⟩
      · cases behind with
        | nil => exact ⟨[], by simpa using isWord.symm, isLater.symm⟩
        | cons part behind =>
          -- The character would be part of the name.
          obtain ⟨rfl, _⟩ := List.cons.inj isLater
          have member : Part.code d ∈ (c :: cs).map Part.code := by rw [isWord]; simp
          obtain ⟨e, inWord, isCode⟩ := mem_map.1 member
          cases isCode
          have isPart := DottedName.plain_read (c :: (cs ++ (front ++ rest))) d
          rw [read] at isPart
          rcases isPart inWord with part | dot
          · rw [part] at notPart
            cases notPart
          · exact absurd dot notDot
    rw [goesOn.split_text] at read stays
    rw [flatMap_append, spelled_code]
    exact .word starts isName read stays (ih rfl)

theorem step (passes : Passes session rest before (c :: front) parts) (plain : isPlain c = true)
    (notName : isIdentStart c = false) :
    ∃ later, parts = .code c :: later ∧ Passes session rest (some c) front later := by
  generalize same : c :: front = text at passes
  cases passes with
  | done => cases same
  | literal found =>
    rw [← append_assoc, ← same, cons_append, first?_of_isPlain plain] at found
    cases found
  | char _ _ later =>
    obtain ⟨rfl, rfl⟩ := List.cons.inj same
    exact ⟨_, rfl, later⟩
  | word _ isName =>
    obtain ⟨rfl, _⟩ := List.cons.inj same
    rw [isName] at notName
    cases notName

theorem apart_of_isBlank (blank : isBlank c = true) (cs : Text) : Apart (c :: cs) := by
  rintro d ⟨⟩
  refine ⟨?_, ?_, ?_⟩
  · cases part : isIdentPart c with
    | false => rfl
    | true =>
      rw [not_isBlank_of_isIdentPart part] at blank
      cases blank
  · rintro rfl
    cases blank
  · rintro rfl
    cases blank

theorem trimStart (passes : Passes session rest before front parts)
    (starts : startsWord before = true) :
    ∃ lead later, parts = lead.map .code ++ later ∧ Text.isBlank lead = true ∧
      Passes session rest before front.trimStart later := by
  induction front generalizing before parts with
  | nil => exact ⟨[], parts, rfl, rfl, passes⟩
  | cons c cs ih =>
    cases blank : isBlank c with
    | false =>
      rw [trimStart_cons_of_solid blank]
      exact ⟨[], parts, rfl, rfl, passes⟩
    | true =>
      have apart := apart_of_isBlank blank [] c rfl
      obtain ⟨later, rfl, goesOn⟩ :=
        passes.step (Walk.isPlain_of_isBlank blank).1 (not_isIdentStart apart.1)
      have startsBehind : startsWord (some c) = true := by simp [startsWord, apart.1, apart.2.1]
      obtain ⟨lead, later, rfl, isLead, passes⟩ := ih goesOn startsBehind
      rw [trimStart_cons_of_blank blank]
      refine ⟨c :: lead, later, rfl, ?_, passes.behind (starts.trans startsBehind.symm)⟩
      rw [Text.isBlank, all_cons, blank]
      exact isLead

theorem trimEnd (passes : Passes session rest before front parts) (shut : endsOpen parts = false) :
    ∃ early trail, parts = early ++ trail.map .code ∧ Text.isBlank trail = true ∧
      Passes session (trail ++ rest) before front.trimEnd early ∧
      ∀ literal, early.getLast? = some (.literal literal) → Literal.Sealed literal := by
  obtain ⟨early, trail, rfl, blank, solid⟩ := exists_trimmed parts
  have spelled := passes.spelled
  rw [flatMap_append, spelled_code] at spelled
  have leads : Passes session (trail ++ rest) before (early.flatMap Part.text) early := by
    cases trail with
    | nil =>
      rw [append_nil] at spelled
      rw [map_nil, append_nil] at passes
      rwa [spelled]
    | cons d ds =>
      have apart := apart_of_isBlank (isBlank_iff.1 blank d mem_cons_self) [] d rfl
      have cut := passes.split rfl apart.1 apart.2.1
      rwa [spelled_code] at cut
  rw [endsOpen_append_blank (isSolid_code_of_blank blank)] at shut
  have last : ∀ part, early.getLast? = some part → part.isBlank = false ∧ part.isOpen = false := by
    intro part isLast
    obtain ⟨init, rfl⟩ := getLast?_eq_some_iff.1 isLast
    have notBlank := solid part isLast
    rw [endsOpen_append (by simp [isSolid, notBlank])] at shut
    exact ⟨notBlank, by simpa [endsOpen, solidParts, notBlank] using shut⟩
  have trimmed : front.trimEnd = early.flatMap Part.text := by
    rw [← spelled]
    rcases eq_nil_or_concat early with rfl | ⟨init, part, isEarly⟩
    · rw [flatMap_nil, nil_append, (trimEnd_of_blank blank).1]
    · rw [concat_eq_append] at isEarly
      subst isEarly
      obtain ⟨notBlank, closed⟩ := last part (by simp)
      obtain ⟨start, final, isText, isSolid⟩ := part.ends_solid notBlank closed
      rw [flatMap_append, flatMap_singleton, isText, ← append_assoc, append_assoc,
        singleton_append, (trimEnd_append_cons isSolid).1, (trimEnd_of_blank blank).1]
  rw [trimmed]
  exact ⟨early, trail, rfl, blank, leads, fun literal isLast =>
    sealed_of_not_isOpen (last _ isLast).2⟩

end Passes

/-! ### Text that is carried along -/

def Runs (session : Option Session) (behind : Text → Prop) (text : Text) (parts : List Part) : Prop :=
  ∀ (before : Option Char) (rest : Text), startsWord before = true → behind rest →
    Passes session rest before text parts

def Carries (session : Option Session) (behind : Text → Prop) (found : List Text) (text : Text) : Prop :=
  ∃ parts, Replaceable parts ∧ literalsIn parts = found ∧ Runs session behind text parts

theorem Carries.mono {behind other : Text → Prop} {found : List Text}
    (carries : Carries session behind found text) (within : ∀ rest, other rest → behind rest) :
    Carries session other found text := by
  obtain ⟨parts, replaceable, literals, runs⟩ := carries
  exact ⟨parts, replaceable, literals, fun before rest starts isOther =>
    runs before rest starts (within rest isOther)⟩

def Clean (session : Option Session) (text rest : Text) : Prop :=
  Leaves session rest ∧ (text.getLast? = some '/' → Harmless rest)

/-- An argument that passes by itself can stand anywhere once it is trimmed. -/
theorem carries_trim (passes : Passes session [] none text parts)
    (replaceable : Replaceable parts) :
    Carries session (Clean session text.trim) text.literals text.trim := by
  have literals : literalsIn parts = text.literals := by
    rw [Text.literals, ← append_nil text, passes.parts_append, Text.parts_nil, append_nil]
    rfl
  obtain ⟨lead, later, rfl, isLead, passes⟩ := passes.trimStart rfl
  have inLater := replaceable.behind_blank isLead
  obtain ⟨early, trail, rfl, isTrail, passes, closed⟩ := passes.trimEnd inLater.shut
  have inEarly := inLater.before_blank isTrail
  refine ⟨early, inEarly, by simpa using literals, fun before rest starts clean => ?_⟩
  have leavesTrail : Leaves session (trail ++ []) := by
    rw [append_nil]
    intro _
    cases trail with
    | nil => exact apart_nil
    | cons c cs => exact Passes.apart_of_isBlank (isBlank_iff.1 isTrail c mem_cons_self) cs
  exact (passes.change leavesTrail clean.1 clean.2 closed (inEarly.flush Tally.start) rfl).behind starts

end Accessor

end FlatMemory
