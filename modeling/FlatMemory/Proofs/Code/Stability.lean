import FlatMemory.Proofs.Code.Emission

/-! # What expansion makes of a text

An expanded text has the literals of the text it was made from, and its brackets and commas count alike.
If the emitted code does not run into the text around it, and no name of the runtime is one of the program,
another expansion passes it. -/

namespace FlatMemory

open List Text Lexeme Literal Warned

namespace Accessor

variable {before : Option Char} {text : Text} {session : Option Session} {own : Session} {scene : Scene}
  {offset : Nat} {output : Text}

/-! ### What a text and its expansion start with -/

/-- An expansion starts like the text behind the same character, or with emitted code where the text
starts with a form.  Markers matter if there is a session to look for them. -/
structure Mirrors (session : Option Session) (before : Option Char) (text output : Text) : Prop where
  head : output.head? = text.head? ∨
    startsWord before = true ∧ startsForm text = true ∧ ∃ d ds, output = d :: ds ∧ Emit.isLead d = true
  marker : session.isSome = true → marker? text = none → marker? output = none
  marked : session.isSome = true → before = some '@' → marker? ('@' :: text) = none →
    marker? ('@' :: output) = none
  name : startsWord before = false → text.continuesName = false → output.continuesName = false

theorem mirrors_nil (before : Option Char) : Mirrors session before [] [] :=
  ⟨.inl rfl, fun _ => id, fun _ _ unmarked => unmarked, fun _ ends => ends⟩

namespace Mirrors

section

variable (mirrors : Mirrors session before text output)

include mirrors

theorem head_eq (formless : startsForm text = false) : output.head? = text.head? := by
  rcases mirrors.head with same | ⟨_, form, _⟩
  · exact same
  · rw [formless] at form
    cases form

theorem head_behind (inside : startsWord before = false) : output.head? = text.head? := by
  rcases mirrors.head with same | ⟨starts, _⟩
  · exact same
  · rw [inside] at starts
    cases starts

omit mirrors in
theorem nil (mirrors : Mirrors session before [] output) : output = [] :=
  head?_eq_none_iff.1 (mirrors.head_eq rfl)

theorem feed (feed : text.head? = some '\n') : output.head? = some '\n' := by
  obtain ⟨cs, rfl⟩ := head?_eq_some_iff.1 feed
  exact mirrors.head_eq rfl

theorem harmless (harmless : Harmless text) : Harmless output := by
  rcases mirrors.head with same | ⟨_, _, d, ds, rfl, lead⟩
  · rwa [Harmless, same]
  · constructor
    · rintro ⟨⟩
      cases lead
    · rintro ⟨⟩
      cases lead

theorem first? {literal : Text} (found : Literal.first? (literal ++ text) = some ⟨literal, text⟩) :
    Literal.first? (literal ++ output) = some ⟨literal, output⟩ := by
  refine first?_change found ?_
  rintro (⟨rfl, _⟩ | ⟨feed, _⟩)
  · exact .inl ⟨rfl, mirrors.nil⟩
  · exact .inr ⟨feed, mirrors.feed feed⟩

end

theorem plain (mirrors : Mirrors session before text output) {c : Char}
    (plain : Literal.first? (c :: text) = none) : Literal.first? (c :: output) = none := by
  rw [first?_eq_none_iff] at plain ⊢
  exact ⟨plain.1, plain.2.1, plain.2.2.1, fun slash => mirrors.harmless (plain.2.2.2 slash)⟩

theorem marker?_at_of_ne (other : text.takeWhile isIdentPart ≠ ['n', 'e', 'w']) :
    marker? ('@' :: text) = none :=
  marker?_eq_none_iff.2 fun marked => other marked.2

theorem literal {literal rest : Text}
    (found : Literal.first? (literal ++ rest) = some ⟨literal, rest⟩)
    (output : Text) : Mirrors session before (literal ++ rest) (literal ++ output) := by
  obtain ⟨c, cs, rfl⟩ := exists_cons_of_ne_nil (whole_first? found).2
  have notPlain : isPlain c = false := by
    cases plain : isPlain c with
    | false => rfl
    | true =>
      rw [cons_append, first?_of_isPlain plain] at found
      cases found
  have notPart : isIdentPart c = false := by
    cases part : isIdentPart c with
    | false => rfl
    | true =>
      rw [(isInert_iff.1 (inert_isIdentPart part)).1] at notPlain
      cases notPlain
  have notAt : c ≠ '@' := by
    rintro rfl
    cases notPlain
  have notDot : c ≠ '.' := by
    rintro rfl
    cases notPlain
  refine ⟨.inl rfl, fun _ _ => marker?_eq_none notAt _, fun _ _ _ => marker?_at_of_ne ?_, fun _ _ => ?_⟩
  · rw [cons_append, takeWhile_cons_of_neg (by simp [notPart])]
    simp
  · rw [cons_append, continuesName_cons notDot, notPart]

theorem char {c : Char} (mirrors : Mirrors session (some c) text output)
    (alone : startsWord before = true → isIdentStart c = false) :
    Mirrors session before (c :: text) (c :: output) := by
  refine ⟨.inl rfl, ?_, ?_, ?_⟩
  · by_cases isAt : c = '@'
    · subst isAt
      exact fun heeded => mirrors.marked heeded rfl
    · exact fun _ _ => marker?_eq_none isAt output
  · rintro _ rfl _
    refine marker?_at_of_ne fun word => ?_
    have notStart := alone (by decide)
    cases part : isIdentPart c with
    | false =>
      rw [takeWhile_cons_of_neg (by simp [part])] at word
      cases word
    | true =>
      rw [takeWhile_cons_of_pos part] at word
      obtain ⟨rfl, _⟩ := List.cons.inj word
      cases notStart
  · rintro _ ends
    by_cases dot : c = '.'
    · subst dot
      have same := mirrors.head_behind (by decide)
      cases text with
      | nil =>
        rw [mirrors.nil]
        rfl
      | cons d ds =>
        obtain ⟨es, rfl⟩ := head?_eq_some_iff.1 same
        exact ends
    · rw [continuesName_cons dot] at ends ⊢
      exact ends

theorem word {c : Char} {cs rest output : Text} {name : DottedName}
    (starts : startsWord before = true)
    (isName : isIdentStart c = true)
    (read : DottedName.read (c :: (cs ++ rest)) = (name, ⟨c :: cs, rest⟩))
    (mirrors : Mirrors session (c :: cs).getLast? rest output) :
    Mirrors session before (c :: (cs ++ rest)) (c :: (cs ++ output)) := by
  have ends := continuesName_read read
  have endsToo := mirrors.name (startsWord_read read (cons_ne_nil c cs)) ends
  refine ⟨.inl rfl, fun _ _ => marker?_eq_none (ne_at_of_isIdentStart isName) _, fun _ _ unmarked => ?_, ?_⟩
  · rw [← cons_append] at unmarked ⊢
    exact marker?_change (not_isIdentPart_head ends) (not_isIdentPart_head endsToo) unmarked
  · rw [starts]
    exact nofun

theorem form {emitted : Text} (starts : startsWord before = true) (isForm : startsForm text = true)
    (lead : ∃ d ds, emitted = d :: ds ∧ Emit.isLead d = true)
    (unmarked : session.isSome = true → before = some '@' →
      ∀ rest, (emitted ++ rest).takeWhile isIdentPart ≠ ['n', 'e', 'w'])
    (output : Text) : Mirrors session before text (emitted ++ output) := by
  obtain ⟨d, ds, rfl, isLead⟩ := lead
  have notAt : d ≠ '@' := by
    rintro rfl
    cases isLead
  refine ⟨.inr ⟨starts, isForm, d, ds ++ output, rfl, isLead⟩, fun _ _ => marker?_eq_none notAt _,
    fun heeded sign _ => marker?_at_of_ne (unmarked heeded sign output), ?_⟩
  rw [starts]
  exact nofun

end Mirrors

/-! ### Steps of an expansion -/

structure Stable (session : Option Session) (before : Option Char) (text output : Text) : Prop where
  mirrors : Mirrors session before text output
  passes : ∃ parts, Passes session [] before output parts ∧ Alike text.parts parts

theorem stable_nil (session : Option Session) (before : Option Char) : Stable session before [] [] :=
  ⟨mirrors_nil before, [], .done before, by rw [parts_nil]; exact .nil⟩

theorem Passes.behind_any {parts : List Part} (passes : Passes session [] before text parts)
    (formless : session.isSome = true → startsForm text = false) (other : Option Char) :
    Passes session [] other text parts := by
  cases passes with
  | done => exact .done other
  | literal found later => exact .literal found later
  | char plain alone later =>
    refine .char plain (fun heeded _ => ?_) later
    simpa [startsForm] using formless heeded
  | word starts isName read stays later =>
    cases session with
    | none => exact later.unread (Passes.plain_name read) (cons_ne_nil _ _)
    | some session => simp [startsForm, isName] at formless

namespace Stable

variable {rest : Text}

theorem literal {literal : Text} (found : Literal.first? (literal ++ rest) = some ⟨literal, rest⟩)
    (stable : Stable session literal.getLast? rest output) :
    Stable session before (literal ++ rest) (literal ++ output) := by
  obtain ⟨parts, passes, alike⟩ := stable.passes
  refine ⟨.literal found output, .literal literal :: parts, .literal ?_ passes, ?_⟩
  · rw [append_nil]
    exact stable.mirrors.first? found
  · rw [parts_literal found]
    exact .same _ alike

theorem char {c : Char} (plain : Literal.first? (c :: rest) = none)
    (alone : startsWord before = true → isIdentStart c = false ∧ marker? (c :: rest) = none)
    (stable : Stable session (some c) rest output) : Stable session before (c :: rest) (c :: output) := by
  obtain ⟨parts, passes, alike⟩ := stable.passes
  have mirrors : Mirrors session before (c :: rest) (c :: output) :=
    .char stable.mirrors fun starts => (alone starts).1
  refine ⟨mirrors, .code c :: parts, .char ?_ (fun heeded starts => ?_) passes, ?_⟩
  · rw [append_nil]
    exact stable.mirrors.plain plain
  · rw [append_nil]
    exact ⟨(alone starts).1, mirrors.marker heeded (alone starts).2⟩
  · rw [parts_cons plain]
    exact .same _ alike

theorem groupCounts_eq (stable : Stable session before text output)
    (inside : startsWord before = false) : groupCounts output.parts = groupCounts text.parts := by
  have same := stable.mirrors.head_behind inside
  by_cases paren : text.head? = some '('
  · obtain ⟨cs, rfl⟩ := head?_eq_some_iff.1 paren
    obtain ⟨os, rfl⟩ := head?_eq_some_iff.1 same
    obtain ⟨parts, passes, alike⟩ := stable.passes
    have isParts := passes.parts_append
    rw [append_nil, parts_nil, append_nil] at isParts
    rw [← isParts, parts_cons (first?_of_isPlain (by decide) cs),
      parts_cons (first?_of_isPlain (by decide) os)] at alike
    rw [groupCounts_paren, groupCounts_paren, alike.behind_paren.close]
  · rw [groupCounts_eq_none paren, groupCounts_eq_none (same ▸ paren)]

theorem word {c : Char} {cs : Text} {name : DottedName} (starts : startsWord before = true)
    (isName : isIdentStart c = true)
    (read : DottedName.read (c :: (cs ++ rest)) = (name, ⟨c :: cs, rest⟩))
    (stays : Stays session name (groupCounts rest.parts))
    (stable : Stable session (c :: cs).getLast? rest output) :
    Stable session before (c :: (cs ++ rest)) (c :: (cs ++ output)) := by
  have inside := startsWord_read read (cons_ne_nil c cs)
  have again := @DottedName.read_change (c :: (cs ++ rest)) output
    (stable.mirrors.name inside (continuesName_read read))
  obtain ⟨parts, passes, alike⟩ := stable.passes
  rw [← stable.groupCounts_eq inside, ← append_nil output] at stays
  rw [read, ← append_nil output] at again
  refine ⟨.word starts isName read stable.mirrors, _, .word starts isName again stays passes, ?_⟩
  rw [← cons_append, parts_plain (Passes.plain_name read)]
  exact alike.append _

theorem form {taken emitted : Text} {form : List Part} {behind : Text → Prop} {found : List Text}
    (stable : Stable session taken.getLast? rest output)
    (parts : Text.parts (taken ++ rest) = form ++ rest.parts) (isForm : Replaceable form)
    (opens : form.head? ≠ some (.code '(')) (literals : found = literalsIn form)
    (starts : startsWord before = true)
    (mirrors : Mirrors session before (taken ++ rest) (emitted ++ output))
    (carries : Carries session behind found emitted) (isBehind : behind output)
    (follows : startsWord emitted.getLast? = startsWord taken.getLast? ∨
      (session.isSome = true → startsForm output = false)) :
    Stable session before (taken ++ rest) (emitted ++ output) := by
  obtain ⟨others, passes, alike⟩ := stable.passes
  obtain ⟨inner, replaceable, rfl, runs⟩ := carries
  have front : Passes session (output ++ []) before emitted inner := by
    rw [append_nil]
    exact runs before output starts isBehind
  have nonempty : emitted ≠ [] := by
    rintro rfl
    rw [front.parts_nil] at replaceable
    cases replaceable.solid
  have last : emitted.getLast?.or before = emitted.getLast? := by
    rw [getLast?_eq_some_getLast nonempty]
    rfl
  refine ⟨mirrors, inner ++ others, front.append ?_, ?_⟩
  · rw [last]
    rcases follows with same | formless
    · exact passes.behind same
    · exact passes.behind_any formless _
  · rw [parts]
    exact .replaced isForm replaceable opens literals alike

end Stable

/-! ### Whole expansions -/

def isFree (rest : Text) : Bool := !rest.head?.any Emit.isLead && (marker? rest).isNone

def isClear (session : Session) (before : Option Char) (found : Found) : Bool :=
  match found.form with
  | .allocation replacement =>
    (session.types.all fun type => !type.isClass || replacement != allocationText type ||
      (type.slot? "initInstance").isNone) &&
    (before != some '@' || replacement.takeWhile isIdentPart != ['n', 'e', 'w']) &&
    (marker? found.cut.rest).isNone
  | .call call _ _ =>
    call.access?.all Access.isClear &&
    (before != some '@' || !call.isBare && call.copied?.all fun type => type.name != "new") &&
    (!call.isBare || isFree found.cut.rest)
  | _ => true

theorem head?_of_marker? (marked : (marker? text).isSome = true) : text.head? = some '@' := by
  cases text with
  | nil => cases marked
  | cons c cs =>
    by_cases sign : c = '@'
    · rw [sign]
      rfl
    · rw [marker?_eq_none sign] at marked
      cases marked

theorem formless_iff : startsForm text = false ↔
    (∀ c, text.head? = some c → isIdentStart c = false) ∧ marker? text = none := by
  simp [startsForm, Option.any_eq_false]

namespace Stable

variable {taken rest : Text}

theorem allocation (same : ∀ other ∈ session, other = own) (wellNamed : own.WellNamed)
    (named : own.Named) {type : UserType} (isType : type ∈ own.types) (starts : startsWord before = true)
    (marked : (marker? (taken ++ rest)).isSome = true)
    (parts : Text.parts (taken ++ rest) = taken.map .code ++ rest.parts)
    (isForm : Replaceable (taken.map .code)) (last : startsWord taken.getLast? = false)
    (ends : rest.continuesName = false)
    (clear : session.isSome = true →
      isClear own before ⟨.allocation (allocationText type), taken, rest⟩ = true)
    (stable : Stable session taken.getLast? rest output) :
    Stable session before (taken ++ rest) (allocationText type ++ output) := by
  simp only [isClear, Bool.and_eq_true, Bool.or_eq_true, bne_iff_ne, Option.isNone_iff_eq_none,
    all_eq_true] at clear
  obtain ⟨carries, word, opens⟩ := carries_allocationText same wellNamed isType (named type isType)
    fun heeded isClass => by simpa [isClass] using (clear heeded).1.1 type isType
  have paren : (taken.map Part.code).head? ≠ some (.code '(') := by
    have head := head?_of_marker? marked
    cases taken with
    | nil => cases isForm.solid
    | cons c cs =>
      cases head
      simp
  refine stable.form parts isForm paren (literalsIn_code taken).symm starts ?_ carries trivial
    (.inr fun heeded => ?_)
  · refine .form starts (by simp [startsForm, marked]) opens.lead (fun heeded isSign more => ?_) output
    have isWord := opens.takeWhile []
    rw [append_nil] at isWord
    rw [opens.takeWhile, ← isWord]
    exact (clear heeded).1.2.resolve_left (not_not.2 isSign)
  · refine formless_iff.2 ⟨fun c head => ?_, stable.mirrors.marker heeded (clear heeded).2⟩
    rw [stable.mirrors.head_behind last] at head
    exact not_isIdentStart (not_isIdentPart_head ends c head)

theorem free (stable : Stable session before rest output) (heeded : session.isSome = true)
    (isFree : isFree rest = true) :
    Apart output ∧ startsForm output = false := by
  simp only [Accessor.isFree, Bool.and_eq_true, Bool.not_eq_true', Option.isNone_iff_eq_none,
    Option.any_eq_false] at isFree
  obtain ⟨lead, unmarked⟩ := isFree
  have formless : startsForm rest = false := by
    refine formless_iff.2 ⟨fun c head => not_isIdentStart ?_, unmarked⟩
    have notLead := lead c head
    simp only [Emit.isLead, Bool.or_eq_false_iff] at notLead
    exact notLead.1.1
  have same := stable.mirrors.head_eq formless
  constructor
  · intro c head
    rw [same] at head
    simpa [Emit.isLead, and_assoc] using lead c head
  · rw [formless_iff] at formless ⊢
    exact ⟨fun c head => formless.1 c (same ▸ head), stable.mirrors.marker heeded unmarked⟩

theorem call {form : List Part} {call : Call} {start : Nat} {arguments : List Argument}
    {emitted : Text}
    (starts : startsWord before = true) (isStart : startsForm (taken ++ rest) = true)
    (parts : Text.parts (taken ++ rest) = form ++ rest.parts) (isForm : Replaceable form)
    (opens : form.head? ≠ some (.code '(')) (last : taken.getLast? = some ')')
    (clear : session.isSome = true → isClear own before ⟨.call call start arguments, taken, rest⟩ = true)
    (emits : call.Emits session (literalsIn form) emitted)
    (stable : Stable session taken.getLast? rest output) :
    Stable session before (taken ++ rest) (emitted ++ output) := by
  simp only [isClear, Bool.and_eq_true, Bool.or_eq_true, bne_iff_ne, Bool.not_eq_true',
    Option.all_eq_true] at clear
  have mirrors : Mirrors session before (taken ++ rest) (emitted ++ output) := by
    refine .form starts isStart emits.lead (fun heeded isSign more isNew => ?_) output
    obtain ⟨notBare, copied⟩ := (clear heeded).1.2.resolve_left (not_not.2 isSign)
    obtain ⟨word, opens, exempt⟩ := emits.unmarked notBare
    rw [opens.takeWhile] at isNew
    obtain ⟨type, isCopied, name⟩ := exempt isNew
    exact copied type isCopied name
  have free : call.isBare = true → session.isSome = true → Apart output ∧ startsForm output = false :=
    fun isBare heeded => stable.free heeded ((clear heeded).2.resolve_left (by simp [isBare]))
  refine stable.form parts isForm opens rfl starts mirrors emits.carries
    (fun isBare heeded => (free isBare heeded).1) ?_
  · cases isBare : call.isBare with
    | true => exact .inr fun heeded => (free isBare heeded).2
    | false =>
      rw [emits.last isBare, last]
      exact .inl rfl

end Stable

theorem Stable.alike (stable : Stable session before text output) : Alike text.parts output.parts := by
  obtain ⟨parts, passes, alike⟩ := stable.passes
  rwa [← append_nil output, passes.parts_append, Text.parts_nil, append_nil]

theorem Stable.literals (stable : Stable session before text output) : output.literals = text.literals :=
  stable.alike.literals

theorem Stable.fit {argument : Text} (stable : Stable session none argument text)
    (flush : Flush argument.parts) (solid : argument.isBlank = false)
    (shut : endsOpen argument.parts = false) : Emit.Fit session text := by
  obtain ⟨parts, passes, alike⟩ := stable.passes
  refine carries_trim passes (alike.replaceable ⟨flush, ?_, shut⟩)
  rw [isSolid_parts, solid]
  rfl

theorem literals_expanded {arguments : List Argument} {texts : List Text}
    (each : Forall₂ (fun argument text => text.literals = argument.text.literals) arguments texts) :
    texts.flatMap Text.literals = (arguments.map Argument.text).flatMap Text.literals := by
  induction each with
  | nil => rfl
  | cons same _ ih => rw [flatMap_cons, map_cons, flatMap_cons, same, ih]

section

variable (same : ∀ other ∈ session, other = scene.session) (wellNamed : scene.session.WellNamed)
  (named : scene.session.Named)

include same wellNamed named

/-- What is expanded at one place, in front of what is expanded behind it. -/
theorem Finds.stable {replaced : Text} {found : Found} (finds : Finds scene.session before text found)
    (clear : session.isSome = true → isClear scene.session before found = true)
    (inside : ∀ call start arguments, found.form = .call call start arguments →
      call.Takes arguments.length ∧ ∀ argument ∈ arguments, endsOpen argument.text.parts = false ∧
        ∀ offset expanded, (expand scene none offset argument.text).result = .ok expanded →
          Stable session none argument.text expanded)
    (replacing : (replacement scene offset found).result = .ok replaced)
    (stable : Stable session found.cut.taken.getLast? found.cut.rest output) :
    Stable session before text (replaced ++ output) := by
  cases finds with
  | malformed => cases replacing
  | literal found =>
    rw [replacement_stays (.inl rfl) replacing]
    exact stable.literal found
  | char plain alone =>
    rw [replacement_stays (.inl rfl) replacing]
    exact stable.char plain alone
  | word starts isName read stays formed =>
    rw [replacement_stays formed replacing]
    refine stable.word starts isName read fun other isOther => ?_
    rw [same other isOther]
    exact stays scene.session rfl
  | allocation starts marked isType parts isForm last ends =>
    cases replacing
    exact stable.allocation same wellNamed named isType starts marked parts isForm last ends clear
  | @call taken rest form call start arguments starts isStart known parts isForm opens last literals flush
      solid =>
    obtain ⟨texts, expandedArguments, emitting⟩ := exists_of_bind_result replacing
    obtain ⟨takes, each⟩ := inside call start arguments rfl
    have pairs := (forall₂_and_left _ _).2
      ⟨fun argument member => member, forall₂_of_mapM_result expandedArguments⟩
    rw [pairs.length_eq] at takes
    have fit : ∀ text ∈ texts, Emit.Fit session text := by
      intro text member
      obtain ⟨argument, _, isArgument, expanding⟩ := exists_of_mem_forall₂ pairs.flip member
      obtain ⟨shut, expansion⟩ := each argument isArgument
      exact (expansion _ text expanding).fit (flush argument isArgument) (solid argument isArgument) shut
    have sameLiterals := literals_expanded (pairs.imp fun argument text expanding =>
      ((each argument expanding.1).2 _ text expanding.2).literals)
    have emits := Call.emits same wellNamed named known takes (fun heeded => ?_) fit emitting
    · rw [sameLiterals, ← literals] at emits
      exact stable.call starts isStart parts isForm opens last clear emits
    · have clear := clear heeded
      simp only [isClear, Bool.and_eq_true] at clear
      exact clear.1.1

omit same wellNamed named in
def Inherited (session : Option Session) (own : Session) (ready : Option Char → Text → Prop) : Prop :=
  ∀ before c cs, ready before (c :: cs) →
    let found := find own before c cs
    (session.isSome = true → isClear own before found = true) ∧
    ((∀ cause, found.form ≠ .malformed cause) → ready found.cut.taken.getLast? found.cut.rest) ∧
    ∀ call start arguments, found.form = .call call start arguments →
      ∀ argument ∈ arguments, endsOpen argument.text.parts = false ∧ ready none argument.text

/-- An expanded text counts like the text that it was made from, if no argument ends in an open literal. -/
theorem stable_expand {ready : Option Char → Text → Prop}
    (inherited : Inherited session scene.session ready) (isReady : ready before text)
    (expanded : (expand scene before offset text).result = .ok output) :
    Stable session before text output := by
  induction size : text.length using Nat.strongRecOn generalizing before offset text output with
  | ind size ih =>
    cases text with
    | nil =>
      rw [expand] at expanded
      cases expanded
      exact stable_nil _ before
    | cons c cs =>
      have fits := fits_find scene.session before c cs
      have shorter := Cut.rest_length_lt fits.whole fits.taken
      obtain ⟨clear, restReady, argumentsReady⟩ := inherited before c cs isReady
      rw [expand_cons] at expanded
      obtain ⟨replaced, replacing, expanded⟩ := exists_of_bind_result expanded
      obtain ⟨rest, expandedRest, isOutput⟩ := exists_of_bind_result expanded
      cases isOutput
      have wellFormed : ∀ cause, (find scene.session before c cs).form ≠ .malformed cause := by
        intro cause formed
        rw [replacement, formed] at replacing
        cases replacing
      have stable := ih _ (size ▸ shorter) (restReady wellFormed) expandedRest rfl
      refine (finds_find scene.session before c cs).stable same wellNamed named clear ?_ replacing stable
      intro call start arguments formed
      refine ⟨find_takes formed, fun argument member => ?_⟩
      obtain ⟨shut, isReady⟩ := argumentsReady call start arguments formed argument member
      have smaller := fits.arguments call start arguments formed argument member
      exact ⟨shut, fun offset expanded expanding => ih _ (size ▸ smaller) isReady expanding rfl⟩

end

end Accessor

end FlatMemory
