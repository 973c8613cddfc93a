import FlatMemory.Proofs.Code.BodyOutline
import FlatMemory.Proofs.Code.Forms

/-! # Recognising what is written for a reference

The call that is written for a reference to a field is an accessor of its own.  Where it is legible,
finding a form at its start gives back the access that the reference was checked for. -/

namespace FlatMemory

open List Warned Option

variable {path segments : List String} {access : Access} {text : Text}

/-! ### Reading names back -/

theorem Cut.span_all {p : Char → Bool} {stop : Char} (inside : ∀ c ∈ text, p c = true)
    (outside : p stop = false) (more : Text) :
    span p (text ++ stop :: more) = ⟨text, stop :: more⟩ := by
  rw [span_stop outside, span, takeWhile_eq_self_iff.2 inside, dropWhile_eq_nil_iff.2 inside]
  rfl

namespace DottedName

theorem stop_flatMap (segments : List String) (more : Text) :
    ∃ stop later, (segments.flatMap fun segment => '.' :: segment.toList) ++ '(' :: more =
      stop :: later ∧ isIdentPart stop = false := by
  cases segments with
  | nil => exact ⟨'(', more, rfl, by decide⟩
  | cons segment segments => exact ⟨'.', _, by simp; rfl, by decide⟩

theorem readSegments_written (identifiers : ∀ segment ∈ segments, IsIdentifier segment)
    (more : Text) :
    readSegments ((segments.flatMap fun segment => '.' :: segment.toList) ++ '(' :: more) =
      (segments, ⟨segments.flatMap fun segment => '.' :: segment.toList, '(' :: more⟩) := by
  induction segments with
  | nil =>
    rw [flatMap_nil, nil_append, readSegments]
    · rfl
    · rintro c cs same
      cases same
  | cons segment segments ih =>
    obtain ⟨c, cs, chars, start, parts⟩ := identifiers segment mem_cons_self
    obtain ⟨stop, later, stops, outside⟩ := stop_flatMap segments more
    have rest := ih fun other member => identifiers other (mem_cons_of_mem _ member)
    have back : String.ofList (c :: cs) = segment := by rw [← chars, String.ofList_toList]
    rw [flatMap_cons, chars, cons_append, cons_append, cons_append,
      cons_append, append_assoc, readSegments, if_pos start]
    dsimp only
    rw [stops] at rest ⊢
    rw [Cut.span_all parts outside]
    dsimp only
    rw [rest]
    simp [Cut.after, back]

theorem read_written {owner : String} (isOwner : IsIdentifier owner)
    (identifiers : ∀ segment ∈ segments, IsIdentifier segment) (more : Text) :
    read ((owner.toList ++ segments.flatMap fun segment => '.' :: segment.toList) ++ '(' :: more) =
      (⟨owner, segments⟩,
        ⟨owner.toList ++ segments.flatMap fun segment => '.' :: segment.toList, '(' :: more⟩) := by
  have parts := isOwner.parts
  have rest := readSegments_written identifiers more
  obtain ⟨stop, later, stops, outside⟩ := stop_flatMap segments more
  unfold read
  rw [append_assoc]
  rw [stops] at rest ⊢
  rw [Cut.span_all parts outside]
  dsimp only
  rw [rest]
  simp [Cut.after, String.ofList_toList]

end DottedName

/-! ### Resolving paths again -/

theorem Operation.ofName?_name
    (operation : Operation) : ofName? operation.name = some operation := by
  cases operation <;> decide

namespace UserType

theorem longestField?_concat (type : UserType) (path : List String) (name : String)
    (free : type.slot? (dotted (path ++ [name])) = none) :
    type.longestField? (path ++ [name]) = type.longestField? path := by
  unfold longestField?
  rw [length_append, length_singleton, range_succ, reverse_append,
    reverse_singleton, singleton_append, findSome?_cons,
    take_of_length_le (by simp), free]
  dsimp only [map_none]
  rw [← head?_filterMap, ← head?_filterMap]
  refine congrArg head? (filterMap_congr ?_)
  intro count member
  rw [mem_reverse, mem_range] at member
  rw [take_append_of_le_length (by omega)]

theorem longestField?_le {type : UserType} {count : Nat} {slot : Slot}
    (found : type.longestField? path = some (count, slot)) : count ≤ path.length := by
  obtain ⟨before, member, isSome⟩ := exists_of_findSome?_eq_some found
  obtain ⟨_, _, same⟩ := map_eq_some_iff.1 isSome
  rw [mem_reverse, mem_range] at member
  cases same
  omega

end UserType

theorem trailingOperation?_implied {operation : Operation}
    (trails : trailingOperation? segments = some (operation, false)) :
    segments = [] ∧ operation = .get := by
  match segments, trails with
  | [], rfl => exact ⟨rfl, rfl⟩
  | [name], trails =>
    obtain ⟨_, _, same⟩ := map_eq_some_iff.1 trails
    cases same

namespace Session

variable {session : Session} {type : UserType}

theorem resolveInType?_implied (nonempty : path ≠ [])
    (resolved : session.resolveInType? type path = some access)
    (implied : access.explicit = false) :
    ∃ slot, type.longestField? path = some (path.length, slot) ∧
      access = ⟨Target.ofSlot session slot, slot.offset, .get, false⟩ := by
  unfold resolveInType? at resolved
  split at resolved
  · next count slot found =>
    obtain ⟨⟨operation, explicit⟩, trails, rfl⟩ := map_eq_some_iff.1 resolved
    obtain rfl : explicit = false := implied
    obtain ⟨none, rfl⟩ := trailingOperation?_implied trails
    have bound := UserType.longestField?_le found
    have same : count = path.length := by
      have := drop_eq_nil_iff.1 none
      omega
    exact ⟨slot, same ▸ found, rfl⟩
  · split at resolved
    · cases resolved
    · obtain ⟨⟨operation, explicit⟩, trails, rfl⟩ := map_eq_some_iff.1 resolved
      obtain rfl : explicit = false := implied
      exact absurd (trailingOperation?_implied trails).1 nonempty

/-- A path with an operation behind it names the field of the path, if no field is called like the
whole. -/
theorem resolveInType?_concat (nonempty : path ≠ [])
    (resolved : session.resolveInType? type path = some access) (implied : access.explicit = false)
    (operation : Operation) (free : type.slot? (dotted (path ++ [operation.name])) = none) :
    session.resolveInType? type (path ++ [operation.name]) =
      some ⟨access.target, access.offset, operation, true⟩ := by
  obtain ⟨slot, found, rfl⟩ := resolveInType?_implied nonempty resolved implied
  unfold resolveInType?
  rw [type.longestField?_concat path operation.name free, found]
  dsimp only
  rw [drop_left, trailingOperation?, Operation.ofName?_name]
  rfl

end Session

/-! ### Parting the arguments again -/

theorem commaPieces_inert (inert : ∀ c ∈ text, Lexeme.isInert c = true) (rest : Text) :
    commaPieces 0 (text ++ rest) = joinFirst text (commaPieces 0 rest) := by
  have same := Text.parts_plain (Lexeme.plain_of_inert inert) rest
  have flush := flush_unmarked fun c member => (Lexeme.isInert_iff.1 (inert c member)).2
  have joined := (Tally.scan_passAll same (flush .start)).2 rfl
  rwa [Text.spelled_early same] at joined

theorem givenCount_withOffsets {pieces : List Text}
    (solid : ∀ piece ∈ pieces, piece.isBlank = false)
    (offset : Nat) : Accessor.givenCount (withOffsets offset pieces) = pieces.length := by
  rw [givenCount_eq_countP, countP_eq_length]
  intro piece member
  rw [solid piece member]
  rfl

theorem splitValue_topLevelCommas (depth : Nat) (tokens : List Token) :
    SelfReference.topLevelCommas depth (SelfReference.splitValue depth tokens).1 = 0 := by
  induction tokens generalizing depth with
  | nil => rfl
  | cons token tokens ih =>
    unfold SelfReference.splitValue
    dsimp only
    split
    · next opens => rw [SelfReference.topLevelCommas, if_pos opens, ih]
    split
    · next notOpen closes =>
      cases depth with
      | zero => rfl
      | succ outer =>
        dsimp only
        rw [SelfReference.topLevelCommas, if_neg notOpen, if_pos closes, Nat.add_sub_cancel, ih]
    split
    · rfl
    · next notOpen notClose inside =>
      rw [SelfReference.topLevelCommas, if_neg notOpen, if_neg notClose,
        if_neg fun top => inside ⟨.inr top.1, top.2⟩, ih]

/-! ### Legible references -/

namespace SelfReference

variable {session : Session} {type : UserType} {index : Nat} {reference : Reference}
  {front inner : Text} {after rest : List Token}

/-- What the call written for a reference behind `front` needs to be read as the access it is for. -/
structure Legible (session : Session) (type : UserType) (reference : Reference) (access : Access)
    (front inner : Text) : Prop where
  /-- No name runs into the call. -/
  apart : Accessor.startsWord front.getLast? = true
  /-- The path does not look like one into an array. -/
  notArray : Accessor.arrayPath? reference.segments = none
  /-- No field is called like an operation on the one assigned to. -/
  unshadowed : reference.assigns = true → type.slot? (dotted reference.segments) = none
  settled : reference.Settled
  tidy : Tidy session type false reference.inner
  /-- Arguments are more than comments. -/
  filled : reference.assigns = false →
    if access.operation.operands = 0 then inner.isBlank = true
    else ∀ piece ∈ commaPieces 0 (reference.given inner), piece.isBlank = false

section

variable (nonempty : path ≠ []) (uses : Uses session type path after reference rest)

include nonempty uses

theorem Uses.segments_ne_nil : reference.segments ≠ [] := by
  cases uses with
  | load => exact nonempty
  | store => simp
  | call => exact nonempty
  | method => exact nonempty

theorem Uses.resolves (accesses : reference.access = some access)
    (unshadowed : reference.assigns = true → type.slot? (dotted reference.segments) = none) :
    reference.owner = type.name ∧ access.target.supports access.operation = true ∧
      session.resolveInType? type reference.segments = some access := by
  cases uses with
  | load resolved implied supported =>
    cases accesses
    obtain ⟨_, _, rfl⟩ := Session.resolveInType?_implied nonempty resolved implied
    exact ⟨rfl, supported, resolved⟩
  | store resolved implied _ _ _ _ supported _ =>
    cases accesses
    exact ⟨rfl, supported,
      Session.resolveInType?_concat nonempty resolved implied _ (unshadowed rfl)⟩
  | call resolved _ _ supported _ =>
    cases accesses
    exact ⟨rfl, supported, resolved⟩
  | method => cases accesses

theorem Uses.operands (accesses : reference.access = some access) :
    if reference.assigns then
      access.operation.operands = 1 ∧ topLevelCommas 0 reference.inner = 0
    else access.operation.operands = argumentCount reference.inner := by
  cases uses with
  | load resolved implied supported =>
    cases accesses
    obtain ⟨_, _, rfl⟩ := Session.resolveInType?_implied nonempty resolved implied
    rfl
  | @store _ operation _ value rest operator _ _ _ _ _ named _ split =>
    cases accesses
    have isAssignment := find?_some named
    have commas := splitValue_topLevelCommas 0 (value ++ rest)
    rw [split] at commas
    refine ⟨?_, commas⟩
    cases operation <;> first | rfl | simp [Operation.assignment?] at isAssignment
  | call _ _ _ _ count =>
    cases accesses
    exact count.symm
  | method => cases accesses

end

theorem Occurs.outline_given (occurs : Occurs session type reference inner)
    (settled : reference.Settled) (tidy : Tidy session type false reference.inner)
    (readable : session.Readable) (member : type ∈ session.types) :
    ∃ marks ending, Outline [] (reference.given inner) marks ending ∧ Mirrors reference.inner marks ∧
      Token.literals marks = Token.literals reference.inner := by
  obtain ⟨context, run⟩ := occurs.run
  obtain ⟨marks, outline, sketches⟩ := occurs.writes.outline readable member run
  exact ⟨marks, _, Reference.outline_given outline settled, sketches.closed tidy, sketches.literals⟩

theorem Reference.commaPieces_arguments (reference : Reference) (text : Text) :
    commaPieces 0 (reference.arguments text) = selfName.toList ::
      if (reference.given text).isBlank then []
      else joinFirst [' '] (commaPieces 0 (reference.given text)) := by
  have inert : ∀ c ∈ selfName.toList, Lexeme.isInert c = true :=
    all_eq_true.1 (show selfName.toList.all Lexeme.isInert = true by decide)
  have space : ∀ c ∈ [' '], Lexeme.isInert c = true :=
    all_eq_true.1 (show [' '].all Lexeme.isInert = true by decide)
  unfold Reference.arguments
  rw [commaPieces_inert inert]
  split
  · rw [commaPieces_nil]
    rfl
  · have comma : Literal.first? (',' :: ' ' :: reference.given text) = none :=
      Literal.first?_eq_none_iff.2 ⟨by decide, by decide, by decide, by simp⟩
    rw [show ", ".toList ++ reference.given text = ',' :: ' ' :: reference.given text by
      simp, commaPieces_cons comma, if_neg (by decide), if_neg (by decide), if_pos ⟨rfl, rfl⟩,
      show ' ' :: reference.given text = [' '] ++ reference.given text from rfl,
      commaPieces_inert space]
    rfl

theorem Reference.Named.read (named : reference.Named) (text back : Text) :
    DottedName.read (reference.written text ++ back) = (⟨reference.owner, reference.segments⟩,
      ⟨reference.name, '(' :: (reference.arguments text ++ ')' :: back)⟩) := by
  have read := DottedName.read_written named.owner named.segments
    (reference.arguments text ++ ')' :: back)
  rw [Reference.written]
  simpa [Reference.name] using read

theorem isBlank_arguments (reference : Reference) (text : Text) :
    (reference.arguments text).isBlank = false := by
  rw [Reference.arguments, Text.isBlank, all_append]
  exact Bool.and_eq_false_imp.2 fun blank => absurd blank (by decide)

/-- At the start of a call with the operands of its access the scanner finds the access, and takes the
call and no more. -/
theorem Reference.Named.find (named : reference.Named) (qualified : reference.segments ≠ [])
    (known : session.lookup reference.owner = some (.user index))
    (found : session.types[index]? = some type)
    (notArray : Accessor.arrayPath? reference.segments = none)
    (resolved : session.resolveInType? type reference.segments = some access)
    (supported : access.target.supports access.operation = true) {pieces : List Text}
    (parted : commaPieces 0 (reference.arguments inner) = selfName.toList :: pieces)
    (count : pieces.length = access.operation.operands)
    (solid : ∀ piece ∈ pieces, piece.isBlank = false) {tail : Text}
    (grouped : group? ('(' :: (reference.arguments inner ++ ')' :: tail)) =
      some ⟨reference.arguments inner, tail⟩) {before : Option Char}
    (starts : Accessor.startsWord before = true) :
    ∃ c cs, reference.written inner ++ tail = c :: cs ∧
      Accessor.find session before c cs =
        ⟨.call (.field access) (reference.name.byteLength + 1)
          (withOffsets 0 (selfName.toList :: pieces)), ⟨reference.written inner, tail⟩⟩ := by
  have arguments : splitArguments (reference.arguments inner) =
      withOffsets 0 (selfName.toList :: pieces) := by
    rw [splitArguments, if_neg (by simp [isBlank_arguments]), parted]
  have present : ∀ piece ∈ selfName.toList :: pieces, Text.isBlank piece = false :=
    forall_mem_cons.2 ⟨by decide, solid⟩
  have isCall : Accessor.call? session ⟨reference.owner, reference.segments⟩ (.user index) =
      .ok (some (.field access, access, 1)) := by
    simp only [Accessor.call?, notArray, Session.user, Session.userAt, found, resolved]
    rfl
  obtain ⟨c, cs, written, start⟩ := named.written inner
  have spelled : reference.written inner ++ tail = c :: (cs ++ [')'] ++ tail) := by rw [written]; rfl
  refine ⟨c, _, spelled, ?_⟩
  have whole := Accessor.accessor_called (named.read inner tail) known qualified isCall supported
    grouped (by rw [arguments, length_withOffsets, length_cons, count])
    (by rw [arguments, givenCount_withOffsets present, length_cons, count])
  rw [Accessor.find_name starts start, ← spelled, whole, arguments]
  rfl

section

variable (occurs : Occurs session type reference inner)
  (legible : Legible session type reference access front inner) (readable : session.Readable)
  (member : type ∈ session.types) (unbroken : ∀ token ∈ reference.inner, ¬ token.Continues)

include occurs legible readable member unbroken

theorem Occurs.length_pieces :
    (commaPieces 0 (reference.given inner)).length = topLevelCommas 0 reference.inner + 1 := by
  obtain ⟨marks, ending, outline, mirrors, literals⟩ :=
    occurs.outline_given legible.settled legible.tidy readable member
  obtain ⟨balanced, commas⟩ := mirrors [] occurs.balanced
  have closed : Outline [')'] _ _ _ := outline.change ⟨by simp, by simp⟩
  obtain ⟨early, same, counts⟩ := closed.scan (Token.unbroken_of_literals literals fun token member _ =>
    unbroken token member)
  obtain ⟨next, passed, top, count⟩ := counts [] .start balanced rfl
  rw [length_commaPieces same passed top, count, commas]
  exact congrArg (· + 1) (Nat.zero_add _)

theorem Occurs.pieces (accesses : reference.access = some access) :
    ∃ pieces : List Text, commaPieces 0 (reference.arguments inner) = selfName.toList :: pieces ∧
      pieces.length = access.operation.operands ∧ ∀ piece ∈ pieces, piece.isBlank = false := by
  obtain ⟨path, after, rest, nonempty, uses⟩ := occurs.uses
  have length := occurs.length_pieces legible readable member unbroken
  have operands := uses.operands nonempty accesses
  have spaced : ∀ {pieces : List Text}, (∀ piece ∈ pieces, piece.isBlank = false) → pieces ≠ [] →
      (joinFirst [' '] pieces).length = pieces.length ∧
        ∀ piece ∈ joinFirst [' '] pieces, piece.isBlank = false := by
    intro pieces solid some
    obtain ⟨first, others, rfl⟩ := exists_cons_of_ne_nil some
    refine ⟨rfl, fun piece isPiece => ?_⟩
    rcases mem_cons.1 isPiece with rfl | isOther
    · have := solid first mem_cons_self
      simp only [Text.isBlank] at this ⊢
      simp [this]
    · exact solid piece (mem_cons_of_mem _ isOther)
  refine ⟨_, reference.commaPieces_arguments inner, ?_⟩
  cases assigns : reference.assigns with
  | true =>
    rw [assigns, if_pos rfl] at operands
    have solid : (reference.given inner).isBlank = false := by
      rw [Reference.given, assigns, if_pos rfl, Text.isBlank_trim, occurs.assigned assigns]
    rw [operands.2] at length
    obtain ⟨piece, alone⟩ := length_eq_one_iff.1 length
    have whole := intercalate_commaPieces 0 (reference.given inner)
    rw [alone, intercalate_singleton] at whole
    rw [if_neg (by simp [solid]), alone, operands.1]
    exact @spaced [piece] (by simpa [whole] using solid) (by simp)
  | false =>
    have filled := legible.filled assigns
    rw [assigns, if_neg (by simp)] at operands
    split at filled
    · next none =>
      have blank : (reference.given inner).isBlank = true := by
        rw [Reference.given, assigns, if_neg (by simp), Text.isBlank_trimStart, filled]
      rw [if_pos blank, none]
      exact ⟨rfl, by simp⟩
    · next some =>
      have solid : (reference.given inner).isBlank = false := by
        cases blank : (reference.given inner).isBlank with
        | false => rfl
        | true =>
          rw [commaPieces_of_blank blank] at filled
          exact blank.symm.trans (filled _ mem_cons_self)
      have counted : access.operation.operands = (commaPieces 0 (reference.given inner)).length := by
        rw [operands] at some ⊢
        unfold argumentCount at some ⊢
        split at some
        · exact absurd rfl some
        · next given => rw [if_neg given, length]
      rw [if_neg (by simp [solid]), counted]
      exact spaced filled (commaPieces_ne_nil _ _)

theorem Occurs.grouped (rest : Text) : group? ('(' :: (reference.arguments inner ++ ')' :: rest)) =
    some ⟨reference.arguments inner, rest⟩ := by
  obtain ⟨marks, ending, outline, mirrors, literals⟩ :=
    occurs.outline_given legible.settled legible.tidy readable member
  obtain ⟨commas, last, isComma, outline⟩ := Reference.outline_arguments outline
  have plain : ∀ comma ∈ commas, comma.kind.isOpen ≠ true ∧ comma.kind.isClose ≠ true :=
    fun comma member => by rw [isComma comma member]; decide
  have same : Token.literals (commas ++ marks) = Token.literals reference.inner := by
    rw [Token.literals_append, literals_of_not_other fun comma member => by simp [isComma comma member],
      literals, nil_append]
  obtain ⟨early, parts, counts⟩ := (outline rest).scan
    (Token.unbroken_of_literals same fun token member _ => unbroken token member)
  obtain ⟨next, passed, top, _⟩ := counts [] .start
    ((balanced_skip plain).2 (mirrors [] occurs.balanced).1) rfl
  exact group?_of_passAll parts passed top

theorem Occurs.compact : Accessor.Compact session (reference.written inner) := by
  obtain ⟨path, after, rest, nonempty, uses⟩ := occurs.uses
  have segments := uses.segments_ne_nil nonempty
  have named := occurs.named
  refine ⟨?_, ?_, fun marker back => ?_, fun back marker marked => ?_⟩
  · obtain ⟨c, cs, written, start⟩ := named.written inner
    exact ⟨c, _, written, start⟩
  · intro back
    obtain ⟨c, cs, chars, start⟩ := named.name.1
    have solid : reference.name.isBlank = false := by
      simp [chars, Text.isBlank,
        Lexeme.not_isBlank_of_isIdentPart (isIdentPart_of_isIdentStart start)]
    obtain ⟨form, parts, replaceable, _⟩ := Accessor.parts_group named.inert solid
      (occurs.grouped legible readable member unbroken back)
    exact ⟨form, by simpa [Reference.written] using parts, replaceable.flush⟩
  · have notArray := legible.notArray
    unfold Accessor.allocation
    rw [named.read]
    dsimp only
    split
    · exact ⟨_, rfl⟩
    split
    · next none => exact absurd none segments
    · next array =>
      rw [array] at notArray
      cases notArray
    · split
      · exact ⟨_, rfl⟩
      · exact ⟨_, rfl⟩
    · exact ⟨_, rfl⟩
  · obtain ⟨first, others, isPath⟩ := exists_cons_of_ne_nil segments
    have spelled : ∃ more, reference.written inner ++ back = reference.owner.toList ++ '.' :: more := by
      rw [Reference.written, Reference.name, isPath]
      exact ⟨_, by simp; rfl⟩
    obtain ⟨more, spelled⟩ := spelled
    have spans := Cut.span_all named.owner.parts (show isIdentPart '.' = false by decide)
      more
    rw [spelled] at marked
    unfold Accessor.marker? at marked
    split at marked
    · next cs same =>
      rw [(List.cons.inj same).2] at spans
      split at marked
      · cases marked
      next ends =>
      cases cs with
      | nil => cases (Cut.mk.inj spans).2
      | cons d ds =>
        -- The type is called like the word of the marker, and a dot follows.
        have outside : isIdentPart d = false := by simpa using ends
        have word := Cut.span_all (all_eq_true.1
          (show ['n', 'e', 'w'].all isIdentPart = true by decide)) outside ds
        obtain ⟨_, dot⟩ := Cut.mk.inj (word.symm.trans spans)
        obtain ⟨rfl, _⟩ := List.cons.inj dot
        cases marked
        rfl
    · cases marked

theorem Occurs.find (accesses : reference.access = some access)
    (known : session.lookup type.name = some (.user index))
    (found : session.types[index]? = some type) {before : Option Char}
    (starts : Accessor.startsWord before = true) (tail : Text) :
    ∃ c cs, reference.written inner ++ tail = c :: cs ∧
      Accessor.find session before c cs =
        ⟨.call (.field access) (reference.name.byteLength + 1)
          (splitArguments (reference.arguments inner)), ⟨reference.written inner, tail⟩⟩ := by
  obtain ⟨path, after, rest, nonempty, uses⟩ := occurs.uses
  obtain ⟨owned, supported, resolved⟩ := uses.resolves nonempty accesses legible.unshadowed
  obtain ⟨pieces, parted, count, solid⟩ := occurs.pieces legible readable member unbroken accesses
  rw [splitArguments, if_neg (by simp [isBlank_arguments]), parted]
  exact occurs.named.find (uses.segments_ne_nil nonempty) (by rw [owned, known]) found legible.notArray
    resolved supported parted count solid
    (occurs.grouped legible readable member unbroken tail) starts

end

end SelfReference

namespace Accessor

/-- On its way through a text the scanner comes by a word at a byte offset, finds it to be an access,
and puts the memory operation in its place, without a warning besides those that come from the
arguments and from what is behind. -/
inductive Recognised (scene : Scene) (offset : Nat) (word : Text) (access : Access) : Prop
  | intro {before : Option Char} {c : Char} {cs tail emitted later : Text} {start : Nat}
    {arguments : List Argument} {expanded : List Text} (text : word ++ tail = c :: cs)
    (visited : Visits scene.session ⟨none, 0, scene.pasted.text⟩ ⟨before, offset, c :: cs⟩)
    (found : find scene.session before c cs =
      ⟨.call (.field access) start arguments, ⟨word, tail⟩⟩)
    (passed : (argumentTexts scene (offset + start) arguments).result = .ok expanded)
    (emits : (Call.field access).emit expanded = .ok emitted)
    (behind : (expand scene word.getLast? (offset + word.byteLength) tail).result = .ok later)
    (replaced : (expand scene before offset (c :: cs)).result = .ok (emitted ++ later))
    (quiet : (expand scene before offset (c :: cs)).warnings =
      (argumentTexts scene (offset + start) arguments).warnings ++
        (expand scene word.getLast? (offset + word.byteLength) tail).warnings)

theorem Recognised.of_visits {scene : Scene} {before : Option Char} {offset : Nat} {c : Char}
    {word cs tail : Text} {start : Nat} {arguments : List Argument} (text : word ++ tail = c :: cs)
    (visited : Visits scene.session ⟨none, 0, scene.pasted.text⟩ ⟨before, offset, c :: cs⟩)
    (found : find scene.session before c cs =
      ⟨.call (.field access) start arguments, ⟨word, tail⟩⟩)
    (succeeds : Succeeds scene ⟨none, 0, scene.pasted.text⟩) :
    Recognised scene offset word access := by
  obtain ⟨output, expanding⟩ := visited.succeeds succeeds
  dsimp only at expanding
  have whole := expand_cons scene before offset c cs
  rw [found] at whole
  dsimp only [replacement] at whole
  rw [whole] at expanding
  obtain ⟨emitted, replacing, expanding⟩ := exists_of_bind_result expanding
  obtain ⟨expanded, passed, emits⟩ := exists_of_bind_result replacing
  obtain ⟨later, behind, joined⟩ := exists_of_bind_result expanding
  have emission : (argumentTexts scene (offset + start) arguments >>= fun expanded =>
      Warned.ofResult ((Call.field access).emit expanded)) =
      ⟨(argumentTexts scene (offset + start) arguments).warnings, .ok emitted⟩ := by
    rw [bind_of_ok passed]
    simp only [Warned.ofResult, append_nil] at emits ⊢
    rw [emits]
  have expansion : expand scene before offset (c :: cs) =
      ⟨(argumentTexts scene (offset + start) arguments).warnings ++
        (expand scene word.getLast? (offset + word.byteLength) tail).warnings,
        .ok (emitted ++ later)⟩ := by
    rw [whole, emission, bind_of_ok rfl, bind_of_ok behind]
    simp [Pure.pure]
  exact .intro text visited found passed emits behind (by rw [expansion]) (by rw [expansion])

end Accessor

/-- A legible reference that a scan comes by is recognised as the access it was checked for. -/
theorem SelfReference.Occurs.recognised {scene : Accessor.Scene} {type : UserType} {index : Nat}
    {reference : Reference} {front inner before after : Text}
    (occurs : Occurs scene.session type reference inner)
    (legible : Legible scene.session type reference access front inner)
    (accesses : reference.access = some access) (readable : scene.session.Readable)
    (known : scene.session.lookup type.name = some (.user index))
    (found : scene.session.types[index]? = some type)
    (unbroken : ∀ token ∈ reference.inner, ¬ token.Continues)
    (text : scene.pasted.text = before ++ (reference.written inner ++ after))
    (meets : Text.Meets before (reference.written inner ++ after))
    (apart : Accessor.startsWord before.getLast? = true)
    (succeeds : Accessor.Succeeds scene ⟨none, 0, scene.pasted.text⟩) :
    Accessor.Recognised scene before.byteLength (reference.written inner) access := by
  have member := mem_of_getElem? found
  have compact := occurs.compact legible readable member unbroken
  have here := succeeds
  rw [text] at here
  obtain ⟨last, tail, starts, visits⟩ := Accessor.visits_word compact here meets (by rwa [or_none])
  obtain ⟨c, cs, spelled, finds⟩ :=
    occurs.find legible readable member unbroken accesses known found starts tail
  rw [Nat.zero_add, spelled, ← text] at visits
  exact .of_visits spelled visits finds succeeds

end FlatMemory
