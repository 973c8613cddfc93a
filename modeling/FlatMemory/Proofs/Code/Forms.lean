import FlatMemory.Proofs.Code.Quiet
import FlatMemory.Proofs.Program

/-! # What the scanner finds

At each place the scanner finds something that it copies, or a form with the parts that it takes.  The
arguments of a call keep their brackets and commas to themselves and are not blank. -/

namespace FlatMemory

open List Lexeme Session Warned

variable {session : Session} {access : Access}

theorem Warned.forall₂_of_mapM_result {α β : Type} {f : α → Warned β} {items : List α}
    {results : List β} (mapped : (items.mapM f).result = .ok results) :
    List.Forall₂ (fun item result => (f item).result = .ok result) items results := by
  induction items generalizing results with
  | nil =>
    cases mapped
    exact .nil
  | cons item items ih =>
    rw [mapM_cons] at mapped
    obtain ⟨first, isFirst, mapped⟩ := exists_of_bind_result mapped
    obtain ⟨later, areLater, same⟩ := exists_of_bind_result mapped
    cases same
    exact .cons isFirst (ih areLater)

/-! ### Names in emitted code -/

def Session.Named (session : Session) : Prop := ∀ type ∈ session.types, IsIdentifier type.name

theorem Session.Readable.named (readable : session.Readable) : session.Named :=
  fun type member => (readable type member).named

namespace Session

variable {segments : List String}

theorem mem_of_user {type : TypeRef} {user : UserType} (found : session.user type = .ok user) :
    user ∈ session.types := by
  cases type with
  | primitive type => cases found
  | user index => exact mem_of_getElem? (userAt_ok found)

def Knows (session : Session) : Target → Prop
  | .structure type => type ∈ session.types
  | _ => True

theorem knows_ofType (type : TypeRef) : session.Knows (Target.ofType session type) := by
  cases type with
  | primitive type => trivial
  | user index =>
    unfold Target.ofType
    dsimp only
    split
    · next type found =>
      split
      · trivial
      · exact mem_of_getElem? found
    · trivial

theorem knows_ofSlot (slot : Slot) : session.Knows (Target.ofSlot session slot) := by
  unfold Target.ofSlot
  split
  · trivial
  · exact knows_ofType _

theorem knows_resolveInType? {type : UserType} (isType : type ∈ session.types)
    (found : session.resolveInType? type segments = some access) : session.Knows access.target := by
  unfold Session.resolveInType? at found
  split at found
  · obtain ⟨_, _, rfl⟩ := Option.map_eq_some_iff.1 found
    exact knows_ofSlot _
  · split at found
    · cases found
    · obtain ⟨_, _, rfl⟩ := Option.map_eq_some_iff.1 found
      exact isType

theorem knows_resolveInElement? {element : Target} (known : session.Knows element)
    (found : session.resolveInElement? element segments = some access) :
    session.Knows access.target := by
  unfold Session.resolveInElement? at found
  split at found
  · exact knows_resolveInType? known found
  · obtain ⟨_, _, rfl⟩ := Option.map_eq_some_iff.1 found
    exact known

end Session

namespace Accessor

variable {rest : Text} {front text word : Text} {group : Cut} {c : Char} {name : DottedName}
  {before : Option Char} {call : Call} {type : TypeRef} {places offset : Nat} {scene : Scene}

/-- The access that a call performs; an allocation performs none. -/
def Call.access? : Call → Option Access
  | allocateArray _ => none
  | field access => some access
  | element _ access => some access

theorem call?_access (found : call? session name type = .ok (some (call, access, places))) :
    call.access? = some access ∧ session.Knows access.target := by
  cases standsFor_of_call? found with
  | field _ isUser resolved =>
    exact ⟨rfl, knows_resolveInType? (mem_of_user isUser) resolved⟩
  | element _ resolved =>
    exact ⟨rfl, knows_resolveInElement? (knows_ofType _) resolved⟩

theorem replacement_stays {found : Found}
    (formed : found.form = .copied ∨ ∃ warning, found.form = .refused warning)
    (replaced : (replacement scene offset found).result = .ok text) : text = found.cut.taken := by
  unfold replacement at replaced
  rcases formed with formed | ⟨warning, formed⟩
  · rw [formed] at replaced
    cases replaced
    rfl
  · rw [formed] at replaced
    cases replaced
    rfl

def startsForm (text : Text) : Bool := text.head?.any isIdentStart || (marker? text).isSome

/-- What is found in a text behind a character. -/
inductive Finds (session : Session) (before : Option Char) : Text → Found → Prop
  | malformed {text : Text} {cause : AllocationCause} (cut : Cut) :
    Finds session before text ⟨.malformed cause, cut⟩
  | literal {literal rest : Text} (found : Literal.first? (literal ++ rest) = some ⟨literal, rest⟩) :
    Finds session before (literal ++ rest) ⟨.copied, literal, rest⟩
  | char {c : Char} {cs : Text} (plain : Literal.first? (c :: cs) = none)
    (alone : startsWord before = true → isIdentStart c = false ∧ marker? (c :: cs) = none) :
    Finds session before (c :: cs) ⟨.copied, [c], cs⟩
  | word {c : Char} {cs rest : Text} {name : DottedName} {form : Form}
    (starts : startsWord before = true) (isName : isIdentStart c = true)
    (read : DottedName.read (c :: (cs ++ rest)) = (name, ⟨c :: cs, rest⟩))
    (stays : Stays session name (groupCounts rest.parts))
    (formed : form = .copied ∨ ∃ warning, form = .refused warning) :
    Finds session before (c :: (cs ++ rest)) ⟨form, c :: cs, rest⟩
  | allocation {taken rest : Text} {type : UserType} (starts : startsWord before = true)
    (marked : (marker? (taken ++ rest)).isSome = true) (isType : type ∈ session.types)
    (parts : Text.parts (taken ++ rest) = taken.map .code ++ rest.parts)
    (isForm : Replaceable (taken.map .code)) (last : startsWord taken.getLast? = false)
    (ends : rest.continuesName = false) :
    Finds session before (taken ++ rest) ⟨.allocation (allocationText type), taken, rest⟩
  | call {taken rest : Text} {form : List Part} {call : Call} {start : Nat} {arguments : List Argument}
    (starts : startsWord before = true) (isStart : startsForm (taken ++ rest) = true)
    (known : ∀ access, call.access? = some access → session.Knows access.target)
    (parts : Text.parts (taken ++ rest) = form ++ rest.parts) (isForm : Replaceable form)
    (opens : form.head? ≠ some (.code '(')) (last : taken.getLast? = some ')')
    (literals : literalsIn form = (arguments.map Argument.text).flatMap Text.literals)
    (flush : ∀ argument ∈ arguments, Flush argument.text.parts)
    (solid : ∀ argument ∈ arguments, argument.text.isBlank = false) :
    Finds session before (taken ++ rest) ⟨.call call start arguments, taken, rest⟩

/-! ### Groups of arguments -/

theorem solid_of_givenCount {arguments : List Argument}
    (all : givenCount arguments = arguments.length) :
    ∀ argument ∈ arguments, argument.text.isBlank = false := by
  have filtered := filter_sublist.eq_of_length all
  intro argument member
  rw [← filtered] at member
  simpa using (mem_filter.1 member).2

theorem literals_parted (first : Text) (others : List Text) :
    literalsIn (parted first.parts (others.map Text.parts)) = (first :: others).flatMap Text.literals := by
  rw [parted, literalsIn_append, flatMap_cons]
  congr 1
  induction others with
  | nil => rfl
  | cons piece others ih =>
    rw [map_cons, flatMap_cons, literalsIn_append, ih, flatMap_cons]
    rfl

theorem literals_splitArguments (text : Text) :
    ((splitArguments text).map Argument.text).flatMap Text.literals =
      (commaPieces 0 text).flatMap Text.literals := by
  unfold splitArguments
  split
  · next blank =>
    rw [commaPieces_of_blank blank, flatMap_singleton, Text.literals, Text.parts_of_blank blank]
    exact (literalsIn_code text).symm
  · rw [texts_withOffsets]

theorem parts_enclosed (inert : ∀ c ∈ front, Lexeme.isInert c = true)
    (grouped : group? rest = some group) :
    ∃ inside, Text.parts (front ++ rest) =
        front.map .code ++ .code '(' :: (inside ++ .code ')' :: group.rest.parts) ∧
      Inside inside ∧ (∀ argument ∈ splitArguments group.taken, Flush argument.text.parts) ∧
      literalsIn inside = ((splitArguments group.taken).map Argument.text).flatMap Text.literals := by
  have whole := group?_whole grouped
  subst whole
  obtain ⟨first, others, parts⟩ :=
    @groupParts_of_closeGroup [] (group.taken ++ ')' :: group.rest) group grouped
  have pieces : commaPieces 0 group.taken = first :: others := parts.pieces
  refine ⟨parted first.parts (others.map Text.parts), ?_, ?_, ?_, ?_⟩
  · rw [Text.parts_plain (plain_of_inert inert),
      Text.parts_cons (Literal.first?_of_isPlain (by decide) _), parts.parted]
  · exact (parts.flush first mem_cons_self).inside.parted
      (forall_mem_map.2 fun piece member => (parts.others piece member).inside)
  · intro argument member
    unfold splitArguments at member
    split at member
    · cases member
    · have piece := mem_of_mem_withOffsets member
      rw [pieces] at piece
      exact parts.flush _ piece
  · rw [literals_splitArguments, pieces, literals_parted]

theorem parts_group (inert : ∀ c ∈ front, Lexeme.isInert c = true) (solid : front.isBlank = false)
    (grouped : group? rest = some group) :
    ∃ form, Text.parts (front ++ rest) = form ++ group.rest.parts ∧ Replaceable form ∧
      form.head? ≠ some (.code '(') ∧
      (∀ argument ∈ splitArguments group.taken, Flush argument.text.parts) ∧
      literalsIn form = ((splitArguments group.taken).map Argument.text).flatMap Text.literals := by
  obtain ⟨inside, parts, isInside, flush, literals⟩ := parts_enclosed inert grouped
  have isName := replaceable_code (fun c member => (isInert_iff.1 (inert c member)).2) solid
  refine ⟨front.map .code ++ (.code '(' :: (inside ++ [.code ')'])), by simpa using parts,
    isName.append (isInside.replaceable (by decide) rfl), ?_, flush, ?_⟩
  · cases front with
    | nil => cases solid
    | cons c cs =>
      intro same
      obtain rfl : c = '(' := by simpa using same
      exact absurd (inert '(' mem_cons_self) (by decide)
  · rw [← literals, literalsIn_append, literalsIn_code, nil_append, literalsIn_cons_code,
      literalsIn_append]
    exact append_nil _

/-! ### Accessors -/

theorem exists_read (isName : isIdentStart c = true) (cs : Text) :
    ∃ name word rest, cs = word ++ rest ∧
      DottedName.read (c :: (word ++ rest)) = (name, ⟨c :: word, rest⟩) := by
  have nonempty := @DottedName.taken_read_ne_nil c cs isName
  have whole := DottedName.whole_read (c :: cs)
  generalize same : DottedName.read (c :: cs) = answer at nonempty whole
  obtain ⟨name, taken, rest⟩ := answer
  obtain ⟨d, word, rfl⟩ := exists_cons_of_ne_nil nonempty
  obtain ⟨rfl, isText⟩ := List.cons.inj whole
  exact ⟨name, word, rest, isText.symm, by rw [show word ++ rest = cs from isText, same]⟩

theorem startsWord_read (read : DottedName.read text = (name, ⟨word, rest⟩))
    (nonempty : word ≠ []) :
    startsWord word.getLast? = false := by
  have parts := DottedName.plain_read text
  rw [read] at parts
  rw [getLast?_eq_some_getLast nonempty]
  rcases parts _ (getLast_mem nonempty) with part | dot
  · simp [startsWord, part]
  · simp [startsWord, dot]

theorem continuesName_read (read : DottedName.read text = (name, ⟨word, rest⟩)) :
    rest.continuesName = false := by
  have ends := DottedName.not_continuesName text
  rwa [read] at ends

theorem accessor_called (read : DottedName.read text = (name, ⟨front, rest⟩))
    (known : session.lookup name.head = some type) (qualified : name.segments ≠ [])
    (called : call? session name type = .ok (some (call, access, places)))
    (supported : access.target.supports access.operation = true)
    (grouped : group? rest = some group)
    (length : (splitArguments group.taken).length = access.operation.operands + places)
    (given : givenCount (splitArguments group.taken) = access.operation.operands + places) :
    accessor session text = callFound (.call call (front.byteLength + 1) (splitArguments group.taken))
      ⟨front, rest⟩ group := by
  have opens : rest.head? = some '(' := by
    rw [← group?_whole grouped]
    rfl
  rw [accessor, read]
  dsimp only
  rw [known]
  dsimp only
  rw [if_neg (by simp [qualified, opens]), called]
  dsimp only
  rw [grouped]
  dsimp only
  rw [if_neg (by simp [length, given]), if_neg (by simp [supported])]

theorem callFound_whole {front rest : Text} {group : Cut} (grouped : group? rest = some group) :
    (front ++ '(' :: (group.taken ++ [')'])) ++ group.rest = front ++ rest := by
  rw [← group?_whole grouped]
  simp

theorem finds_accessor (cs : Text) (starts : startsWord before = true)
    (isName : isIdentStart c = true) :
    Finds session before (c :: cs) (accessor session (c :: cs)) := by
  obtain ⟨name, word, rest, rfl, read⟩ := exists_read isName cs
  by_cases stays : Stays session name (groupCounts rest.parts)
  · obtain ⟨form, found, formed⟩ := accessor_stays read stays
    rw [found]
    exact .word starts isName read stays formed
  · simp only [Stays, not_forall, not_not] at stays
    obtain ⟨_, ⟨⟩, type, call, access, places, known, qualified, called, supported, counted⟩ := stays
    have positive := call?_positive called
    obtain ⟨group, grouped, length, given⟩ := (groupCounts_eq_some_iff (by omega)).1 counted
    have inert : ∀ d ∈ c :: word, Lexeme.isInert d = true := by
      have inert := DottedName.inert_read (c :: (word ++ rest))
      rwa [read] at inert
    have solid : Text.isBlank (c :: word) = false := by
      have part := isIdentPart_of_isIdentStart isName
      simp [Text.isBlank, not_isBlank_of_isIdentPart part]
    obtain ⟨form, parts, isForm, head, flush, literals⟩ := parts_group inert solid grouped
    obtain ⟨accessed, isKnown⟩ := call?_access called
    rw [accessor_called read known qualified called supported grouped length given, callFound]
    rw [← callFound_whole grouped] at parts
    rw [← cons_append, ← @callFound_whole (c :: word) rest group grouped]
    refine .call starts ?_ ?_ parts isForm head ?_ literals flush
      (solid_of_givenCount (given.trans length.symm))
    · simp [startsForm, isName]
    · intro other same
      rw [accessed] at same
      cases same
      exact isKnown
    · rw [← cons_append, ← append_assoc, getLast?_concat]

/-! ### Allocations -/

theorem head?_marker {marker : Cut} (found : marker? text = some marker) :
    marker.taken.head? = some '@' := by
  unfold marker? at found
  split at found
  · split at found
    · cases found
    · cases found
      rfl
  · cases found

theorem solid_of_single (grouped : group? rest = some group) {length : Argument}
    (single : splitArguments group.taken = [length]) : length.text.isBlank = false := by
  have whole := group?_whole grouped
  subst whole
  obtain ⟨first, others, parts⟩ :=
    @groupParts_of_closeGroup [] (group.taken ++ ')' :: group.rest) group grouped
  have spelled := parts.spelled grouped
  have pieces : commaPieces 0 group.taken = first :: others := parts.pieces
  unfold splitArguments at single
  split at single
  · cases single
  · next solid =>
    have texts := congrArg (List.map Argument.text) single
    rw [texts_withOffsets, pieces] at texts
    obtain ⟨rfl, rfl⟩ := List.cons.inj texts
    rw [map_nil, map_nil, parted, flatMap_nil, append_nil, Text.spelled_parts] at spelled
    rw [spelled]
    simpa using solid

theorem finds_allocation {marker : Text} (starts : startsWord before = true)
    (marked : (marker? (marker ++ text)).isSome = true)
    (isMarker : ∀ c ∈ marker, Lexeme.isInert c = true) (head : marker.head? = some '@')
    (isName : text.head?.any isIdentStart = true) :
    Finds session before (marker ++ text) (allocation session marker text) := by
  cases text with
  | nil => cases isName
  | cons c cs =>
  obtain ⟨name, word, rest, rfl, read⟩ := exists_read isName cs
  have inert : ∀ d ∈ marker ++ c :: word, Lexeme.isInert d = true := by
    have inert := DottedName.inert_read (c :: (word ++ rest))
    rw [read] at inert
    exact forall_mem_append.2 ⟨isMarker, inert⟩
  have solid : Text.isBlank (marker ++ c :: word) = false := by
    obtain ⟨later, rfl⟩ := head?_eq_some_iff.1 head
    rfl
  have text : marker ++ c :: (word ++ rest) = (marker ++ c :: word) ++ rest := by simp
  rw [text] at marked ⊢
  have found := allocates session marker (c :: (word ++ rest))
  rw [read] at found
  generalize allocation session marker (c :: (word ++ rest)) = whole at found ⊢
  cases found with
  | malformed => exact .malformed _
  | alone _ _ isUser =>
    refine .allocation starts marked (Session.mem_of_user isUser)
      (Text.parts_plain (plain_of_inert inert) rest)
      (replaceable_code (fun d member => (isInert_iff.1 (inert d member)).2) solid) ?_
      (continuesName_read read)
    rw [getLast?_append_of_ne_nil _ (cons_ne_nil c word)]
    exact startsWord_read read (cons_ne_nil c word)
  | array grouped single =>
    replace grouped : group? rest = some _ := grouped
    obtain ⟨form, parts, isForm, opens, flush, literals⟩ := parts_group inert solid grouped
    rw [single] at flush literals
    rw [← callFound_whole grouped] at parts marked ⊢
    refine .call starts ?_ (by rintro _ ⟨⟩) parts isForm opens ?_ literals flush ?_
    · rw [startsForm, marked, Bool.or_true]
    · rw [← cons_append, ← append_assoc, getLast?_concat]
    · rw [forall_mem_singleton]
      exact solid_of_single grouped single

/-- What the scanner finds at any place. -/
theorem finds_find (session : Session) (before : Option Char) (c : Char) (cs : Text) :
    Finds session before (c :: cs) (find session before c cs) := by
  have seen := sees session before c cs
  generalize find session before c cs = found at seen ⊢
  cases seen with
  | @literal cut plain =>
    obtain ⟨literal, rest⟩ := cut
    have whole : literal ++ rest = c :: cs := (Literal.whole_first? plain).1
    rw [← whole] at plain ⊢
    exact .literal plain
  | char plain alone => exact .char plain alone
  | nameless => exact .malformed _
  | @allocation marker starts marked isName =>
    have whole : marker.taken ++ marker.rest = c :: cs := (marker?_whole marked).1
    rw [← whole]
    exact finds_allocation starts (by rw [whole, marked]; rfl) (inert_marker marked)
      (head?_marker marked) isName
  | accessor starts isName => exact finds_accessor cs starts isName

end Accessor

end FlatMemory
