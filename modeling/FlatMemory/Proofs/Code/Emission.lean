import FlatMemory.Proofs.Code.Recognition

/-! # Emitted operations are left alone

The scanner passes what is emitted for a call, given arguments that it passes: the functions of the
runtime are called with other numbers of arguments than an accessor of the same name would take. -/

namespace FlatMemory

open List Lexeme Emit

variable {arguments found : List Text} {text address : Text} {own : Session}

namespace Accessor

variable {session : Option Session} {type : UserType}

/-! ### Putting text together -/

def isQuiet (c : Char) : Bool := isPlain c && !isIdentStart c && c != '@'

def Detached (session : Option Session) (rest : Text) : Prop := Leaves session rest ∧ Harmless rest

def CarriesInside (session : Option Session) (found : List Text) (text : Text) : Prop :=
  ∃ parts, Inside parts ∧ literalsIn parts = found ∧ Runs session (Detached session) text parts

def isOpening (text : Text) : Bool :=
  text.all isQuiet && text.getLast?.any fun c => startsWord (some c)

def isClosing (text : Text) : Bool :=
  text.all isQuiet && text.head?.any fun c => !isIdentPart c && c != '.' && c != '(' && c != '*'

theorem passes_quiet (quiet : text.all isQuiet = true) (before : Option Char) (rest : Text) :
    Passes session rest before text (text.map .code) := by
  simp only [all_eq_true, isQuiet, Bool.and_eq_true, Bool.not_eq_true', bne_iff_ne] at quiet
  exact passes_code (fun c member => (quiet c member).1.1)
    (fun _ c member => ⟨(quiet c member).1.2, (quiet c member).2⟩) before rest

theorem detached_of_isClosing (closing : isClosing text = true) (rest : Text) :
    Detached session (text ++ rest) := by
  cases text with
  | nil => simp [isClosing] at closing
  | cons c cs =>
    simp only [isClosing, all_cons, head?_cons, Option.any_some, Bool.and_eq_true,
      Bool.not_eq_true', bne_iff_ne, ne_eq] at closing
    obtain ⟨⟨quiet, _⟩, ⟨⟨notPart, notDot⟩, notParen⟩, notStar⟩ := closing
    refine ⟨?_, ?_, ?_⟩
    · rintro _ d ⟨⟩
      exact ⟨notPart, notDot, notParen⟩
    · rintro ⟨⟩
      cases quiet
    · rintro ⟨⟩
      exact notStar rfl

section

variable {more : Text} {parts others : List Part} {behind : Text → Prop}

theorem Runs.append (first : Runs session (Detached session) text parts)
    (second : Runs session behind more others)
    {between : Text} (opening : isOpening between = true) (closing : isClosing between = true) :
    Runs session behind (text ++ (between ++ more)) (parts ++ (between.map .code ++ others)) := by
  intro before rest starts isBehind
  obtain ⟨quiet, last⟩ := Bool.and_eq_true_iff.1 opening
  have detached := @detached_of_isClosing _ session closing (more ++ rest)
  rw [← append_assoc] at detached
  refine (first before _ starts detached).append ?_
  refine (passes_quiet quiet _ _).append (second _ rest ?_ isBehind)
  cases isLast : between.getLast? with
  | none => simp [isLast] at last
  | some c => simpa [isLast] using last

theorem Runs.enclosed (runs : Runs session (Detached session) text parts) {opener closer : Char}
    (opening : isOpening [opener] = true) (closing : isClosing [closer] = true) (before : Option Char)
    (rest : Text) : Passes session rest before (opener :: (text ++ [closer]))
      (.code opener :: (parts ++ [.code closer])) := by
  obtain ⟨quiet, last⟩ := Bool.and_eq_true_iff.1 opening
  have inner : Passes session rest (some opener) (text ++ [closer]) (parts ++ [.code closer]) :=
    (runs (some opener) _ last (detached_of_isClosing closing rest)).append
      (passes_quiet (Bool.and_eq_true_iff.1 closing).1 _ rest)
  exact (passes_quiet quiet before _).append inner

theorem Carries.inside (carries : Carries session (Detached session) found text) :
    CarriesInside session found text := by
  obtain ⟨parts, replaceable, literals, runs⟩ := carries
  exact ⟨parts, replaceable.flush.inside, literals, runs⟩

def isOperator (text : Text) : Bool := isOpening text && isClosing text && text.all (!isMark ·)

theorem Carries.append {later : List Text} (first : Carries session (Detached session) found text)
    (between : Text) (second : Carries session behind later more)
    (operator : isOperator between = true) :
    Carries session behind (found ++ later) (text ++ (between ++ more)) := by
  obtain ⟨parts, areParts, rfl, runs⟩ := first
  obtain ⟨others, areOthers, rfl, goesOn⟩ := second
  simp only [isOperator, Bool.and_eq_true] at operator
  obtain ⟨⟨opening, closing⟩, unmarked⟩ := operator
  have isFlush : Flush (between.map .code) :=
    flush_unmarked fun c member => by simpa using all_eq_true.1 unmarked c member
  refine ⟨_, ⟨areParts.flush.append (isFlush.append areOthers.flush), ?_, ?_⟩, by simp,
    runs.append goesOn opening closing⟩
  · rw [isSolid, any_append, ← isSolid, areParts.solid, Bool.true_or]
  · rw [← append_assoc, endsOpen_append areOthers.solid, areOthers.shut]

theorem Carries.anywhere (carries : Carries session (fun _ => True) found text) :
    Carries session behind found text := carries.mono fun _ _ => trivial

theorem Carries.detached (carries : Carries session (Leaves session) found text) :
    Carries session (Detached session) found text :=
  carries.mono fun _ detached => detached.1

structure Closed (session : Option Session) (found : List Text) (text : Text) : Prop where
  carries : Carries session (fun _ => True) found text
  last : startsWord text.getLast? = true

theorem CarriesInside.parenthesised (carries : CarriesInside session found text) :
    Closed session found ('(' :: (text ++ [')'])) := by
  obtain ⟨parts, inside, rfl, runs⟩ := carries
  refine ⟨⟨_, inside.replaceable (by decide) rfl, by simp, fun before rest _ _ =>
    runs.enclosed (by decide) (by decide) before rest⟩, ?_⟩
  rw [← cons_append, getLast?_concat]
  decide

/-! ### Numbers and names -/

theorem not_isIdentStart_of_isDigit {c : Char}
    (digit : c.isDigit = true) : isIdentStart c = false := by
  have range := isDigit_iff.1 digit
  rw [Bool.eq_false_iff]
  intro start
  simp only [isIdentStart, isAlpha_iff, Bool.or_eq_true, beq_iff_eq] at start
  rcases start with ((upper | lower) | rfl) | rfl
  · omega
  · omega
  · exact absurd range (by decide)
  · exact absurd range (by decide)

theorem carries_number (n : Nat) : Carries session (fun _ => True) [] (Emit.number n) := by
  have isNumber : Emit.number n = Nat.toDigits 10 n := Nat.toList_repr
  have digits : ∀ c ∈ Emit.number n, c.isDigit = true := by
    intro c member
    rw [isNumber] at member
    exact Nat.isDigit_of_mem_toDigits (by decide) (by decide) member
  have inert : ∀ c ∈ Emit.number n, isPlain c = true ∧ isMark c = false := fun c member =>
    isInert_iff.1 (inert_isIdentPart (isIdentPart_of_isDigit (digits c member)))
  have quiet : (Emit.number n).all isQuiet = true := by
    rw [all_eq_true]
    intro c member
    have notAt : c ≠ '@' := by
      rintro rfl
      cases digits _ member
    simp [isQuiet, (inert c member).1, not_isIdentStart_of_isDigit (digits c member), notAt]
  refine ⟨_, replaceable_code (fun c member => (inert c member).2) ?_, literalsIn_code _,
    fun before rest _ _ => passes_quiet quiet before rest⟩
  obtain ⟨c, cs, spelled⟩ := exists_cons_of_ne_nil (isNumber ▸ Nat.toDigits_ne_nil)
  have head := digits c (by rw [spelled]; exact mem_cons_self)
  simp [spelled, Text.isBlank,
    not_isBlank_of_isIdentPart (isIdentPart_of_isDigit head)]

end

structure IsWord (word : Text) (name : DottedName) : Prop where
  starts : ∃ c cs, word = c :: cs ∧ isIdentStart c = true
  read : ∀ rest, Text.continuesName rest = false →
    DottedName.read (word ++ rest) = (name, ⟨word, rest⟩)

theorem IsWord.of_read {word rest : Text} {name : DottedName}
    (starts : word.head?.any isIdentStart = true)
    (read : DottedName.read (word ++ rest) = (name, ⟨word, rest⟩)) : IsWord word name := by
  constructor
  · cases word with
    | nil => cases starts
    | cons c cs => exact ⟨c, cs, rfl, starts⟩
  · intro other ends
    have again := @DottedName.read_change (word ++ rest) other ends
    rwa [read] at again

namespace IsWord

variable {word : Text} {name : DottedName} {parts : List Part}

theorem passes (isWord : IsWord word name) {before : Option Char} {rest later : Text}
    (starts : startsWord before = true) (passes : Passes session rest word.getLast? later parts)
    (ends : Text.continuesName (later ++ rest) = false)
    (stays : Stays session name (groupCounts (parts ++ rest.parts))) :
    Passes session rest before (word ++ later) (word.map .code ++ parts) := by
  rw [← passes.parts_append] at stays
  have read := isWord.read _ ends
  obtain ⟨c, cs, rfl, isName⟩ := isWord.starts
  exact .word starts isName read stays passes

theorem inert (isWord : IsWord word name) : ∀ c ∈ word, Lexeme.isInert c = true := by
  have inert := DottedName.inert_read (word ++ [])
  rwa [isWord.read [] rfl] at inert

theorem replaceable (isWord : IsWord word name) : Replaceable (word.map .code) := by
  refine replaceable_code (fun c member => (isInert_iff.1 (isWord.inert c member)).2) ?_
  obtain ⟨c, cs, rfl, isName⟩ := isWord.starts
  simp [Text.isBlank,
    not_isBlank_of_isIdentPart (isIdentPart_of_isIdentStart isName)]

theorem carries (isWord : IsWord word name) : Carries session (Leaves session) [] word := by
  refine ⟨_, isWord.replaceable, literalsIn_code _, fun before rest starts leaves => ?_⟩
  cases session with
  | none =>
    exact passes_code (fun c member => (isInert_iff.1 (isWord.inert c member)).1)
      (fun heeded => by cases heeded) before rest
  | some session =>
  have apart := leaves rfl
  have none : groupCounts rest.parts = none :=
    groupCounts_eq_none fun paren => (apart _ paren).2.2 rfl
  have passes := isWord.passes starts (.done word.getLast?)
    (@continuesName_change [] [] rest apart rfl) (none.symm ▸ stays_none session name)
  rwa [append_nil, append_nil] at passes

theorem closed_indexed (isWord : IsWord word name) (inside : CarriesInside session found text) :
    Closed session found (word ++ '[' :: (text ++ [']'])) := by
  obtain ⟨parts, areInside, rfl, runs⟩ := inside
  have bracketed := @Inside.replaceable parts areInside '[' ']' (by decide) rfl
  refine ⟨⟨_, isWord.replaceable.append bracketed, by simp, fun before rest starts _ => ?_⟩,
    ?_⟩
  · exact isWord.passes starts (runs.enclosed (by decide) (by decide) _ rest) rfl
      (stays_none session name)
  · rw [← cons_append, ← append_assoc, getLast?_concat]
    decide

theorem closed_call (isWord : IsWord word name) (inside : Inside parts)
    (runs : Runs session (Detached session) text parts)
    (stays : ∀ more, Stays session name (Tally.start.close (parts ++ .code ')' :: more))) :
    Closed session (literalsIn parts) (word ++ '(' :: (text ++ [')'])) := by
  have bracketed := @Inside.replaceable parts inside '(' ')' (by decide) rfl
  refine ⟨⟨_, isWord.replaceable.append bracketed, by simp, fun before rest starts _ => ?_⟩,
    ?_⟩
  · refine isWord.passes starts (runs.enclosed (by decide) (by decide) _ rest) rfl ?_
    rw [cons_append, append_assoc]
    exact stays rest.parts
  · rw [← cons_append, ← append_assoc, getLast?_concat]
    decide

end IsWord

/-! ### Lists of arguments -/

def listed (texts : List Text) : Text := texts.flatMap fun text => ", ".toList ++ text

/-- Text that is passed, with its literals, the number of its arguments and that of those that are not
blank. -/
def CarriesList (session : Option Session) (found : List Text) (text : Text) (total given : Nat) : Prop :=
  ∃ first others, (∀ piece ∈ first :: others, Flush piece) ∧ others.length + 1 = total ∧
    (first :: others).countP isSolid = given ∧ literalsIn (parted first others) = found ∧
    Runs session (Detached session) text (parted first others)

section

variable {total given : Nat}

theorem Carries.list (carries : Carries session (Detached session) found text) :
    CarriesList session found text 1 1 := by
  obtain ⟨parts, replaceable, rfl, runs⟩ := carries
  refine ⟨parts, [], ?_, rfl, ?_, ?_, ?_⟩
  · rw [forall_mem_singleton]
    exact replaceable.flush
  · rw [countP_singleton, if_pos replaceable.solid]
  · rw [parted, flatMap_nil, append_nil]
  · rwa [parted, flatMap_nil, append_nil]

theorem CarriesList.concat_flush {other : Text} {later : List Text} {parts : List Part}
    (carries : CarriesList session found text total given) (flush : Flush parts)
    (solid : isSolid parts = true) (literals : literalsIn parts = later)
    (goesOn : Runs session (Detached session) other parts) :
    CarriesList session (found ++ later) (text ++ (", ".toList ++ other)) (total + 1) (given + 1) := by
  obtain ⟨first, others, pieces, rfl, rfl, rfl, runs⟩ := carries
  have blank : Flush [.code ' '] := @flush_unmarked [' '] (by simp; decide)
  have solid : isSolid (.code ' ' :: parts) = true := by
    rw [isSolid, any_cons, ← isSolid, solid, Bool.or_true]
  refine ⟨first, others ++ [.code ' ' :: parts], ?_, by simp, ?_, by simp [parted, literals], ?_⟩
  · rw [← cons_append]
    refine forall_mem_append.2 ⟨pieces, ?_⟩
    rw [forall_mem_singleton]
    exact blank.append flush
  · rw [← cons_append, countP_append, countP_singleton, if_pos solid]
  · have joined := @Runs.append text session other _ _ _ runs goesOn ", ".toList (by decide) (by decide)
    rw [parted, append_assoc] at joined
    rw [parted, flatMap_append, flatMap_singleton]
    exact joined

theorem CarriesList.concat {other : Text} {later : List Text}
    (carries : CarriesList session found text total given)
    (further : Carries session (Detached session) later other) :
    CarriesList session (found ++ later) (text ++ (", ".toList ++ other)) (total + 1) (given + 1) := by
  obtain ⟨parts, replaceable, literals, goesOn⟩ := further
  exact carries.concat_flush replaceable.flush replaceable.solid literals goesOn

theorem CarriesList.listed {texts : List Text} (carries : CarriesList session found text total given)
    (each : ∀ other ∈ texts, Carries session (Detached session) other.literals other.trim) :
    CarriesList session (found ++ texts.flatMap Text.literals) (text ++ listed (texts.map Text.trim))
      (total + texts.length) (given + texts.length) := by
  induction texts generalizing found text total given with
  | nil =>
    rw [map_nil, Accessor.listed, flatMap_nil, flatMap_nil, append_nil, append_nil]
    exact carries
  | cons other texts ih =>
    obtain ⟨isOther, areTexts⟩ := forall_mem_cons.1 each
    have further := ih (carries.concat isOther) areTexts
    rw [map_cons, Accessor.listed, flatMap_cons, flatMap_cons, ← append_assoc, ← append_assoc, length_cons,
      Nat.add_comm texts.length, ← Nat.add_assoc, ← Nat.add_assoc]
    exact further

theorem CarriesList.call (carries : CarriesList session found text total given) {word : Text}
    {name : DottedName} (isWord : IsWord word name)
    (stays : Stays session name (some (total, given))) :
    Closed session found (word ++ '(' :: (text ++ [')'])) := by
  obtain ⟨first, others, pieces, rfl, rfl, rfl, runs⟩ := carries
  obtain ⟨isFirst, areOthers⟩ := forall_mem_cons.1 pieces
  refine isWord.closed_call (isFirst.inside.parted fun piece member =>
    (areOthers piece member).inside) runs fun more => ?_
  have one : (if isSolid first = true then 1 else 0) = (isSolid first).toNat := by
    cases isSolid first <;> rfl
  rw [@Tally.close_parted Tally.start rfl first others pieces more]
  rw [countP_cons, one, Nat.add_comm (others.countP isSolid)] at stays
  simpa [Tally.start] using stays

end

/-! ### Names that stay -/

theorem trailingOperation?_last {segments : List String} {count : Nat} {operation : Operation}
    {explicit : Bool} (found : trailingOperation? (segments.drop count) = some (operation, explicit)) :
    operation = .get ∨ segments.getLast?.bind Operation.ofName? = some operation := by
  unfold trailingOperation? at found
  split at found
  · cases found
    exact .inl rfl
  · next name rest =>
    obtain ⟨_, named, same⟩ := Option.map_eq_some_iff.1 found
    cases same
    have last : segments.getLast? = some name := by
      have dropped := congrArg getLast? rest
      rw [getLast?_drop] at dropped
      split at dropped
      · cases dropped
      · exact dropped
    rw [last]
    exact .inr named
  · cases found

theorem resolveInType?_operation {segments : List String} {access : Access}
    (found : own.resolveInType? type segments = some access) :
    access.operation = .get ∨ segments.getLast?.bind Operation.ofName? = some access.operation := by
  unfold Session.resolveInType? at found
  split at found
  · obtain ⟨⟨operation, explicit⟩, trailing, rfl⟩ := Option.map_eq_some_iff.1 found
    exact trailingOperation?_last trailing
  · split at found
    · cases found
    · obtain ⟨⟨operation, explicit⟩, trailing, rfl⟩ := Option.map_eq_some_iff.1 found
      exact @trailingOperation?_last segments 0 operation explicit trailing

def isForeign (name : DottedName) (total : Nat) : Bool :=
  (arrayPath? name.segments).isNone && total != 1 &&
    (name.segments.getLast?.bind Operation.ofName?).all fun operation => operation.arity != total

theorem stays_foreign {name : DottedName} {total : Nat} (foreign : isForeign name total = true)
    (given : Nat) : Stays session name (some (total, given)) := by
  simp only [isForeign, Bool.and_eq_true, Option.isNone_iff_eq_none, bne_iff_ne, ne_eq,
    Option.all_eq_true] at foreign
  obtain ⟨⟨arrayless, several⟩, others⟩ := foreign
  intro own _ type call access places _ _ found _ counted
  cases standsFor_of_call? found with
  | element isArray =>
    rw [arrayless] at isArray
    cases isArray
  | field _ _ resolved =>
    have counted : total = access.operation.arity := (Prod.mk.inj (Option.some.inj counted)).1
    rcases resolveInType?_operation resolved with reading | named
    · rw [reading] at counted
      exact several counted
    · exact others _ named counted.symm

theorem stays_member (same : ∀ other ∈ session, other = own) (wellNamed : own.WellNamed)
    (isType : type ∈ own.types) {member : String}
    (absent : session.isSome = true → type.slot? member = none)
    (notOperation : Operation.ofName? member = none) (notArray : member ≠ "Array")
    (counts : Option (Nat × Nat)) : Stays session ⟨type.name, [member]⟩ counts := by
  intro other isOther found call access places known _ called _ _
  obtain rfl := same other isOther
  obtain rfl := Option.mem_def.1 isOther
  obtain ⟨index, place⟩ := mem_iff_getElem?.1 isType
  have arrayless : arrayPath? [member] = none := by
    unfold arrayPath?
    split
    · next same => exact absurd (List.cons.inj same).1 notArray
    · next same => cases (List.cons.inj same).2
    · rfl
  have user : other.user (.user index) = .ok type := by
    rw [Session.user, Session.userAt, place]
  have unresolved : other.resolveInType? type [member] = none := by
    have noField : type.longestField? [member] = none := by
      simp [UserType.longestField?, dotted, absent rfl]
    rw [Session.resolveInType?, noField]
    dsimp only
    rw [trailingOperation?, notOperation]
    split <;> rfl
  rw [wellNamed.lookup place] at known
  obtain rfl := Option.some.inj known
  rw [call?, arrayless, user] at called
  dsimp only at called
  rw [unresolved] at called
  cases called

theorem isWord_written {owner : String} (isOwner : IsIdentifier owner) {segments : List String}
    (areSegments : ∀ segment ∈ segments, IsIdentifier segment) :
    IsWord (owner.toList ++ segments.flatMap fun segment => '.' :: segment.toList) ⟨owner, segments⟩ := by
  refine .of_read ?_ (DottedName.read_written isOwner areSegments [])
  obtain ⟨c, cs, chars, start, _⟩ := isOwner
  simpa [chars] using start

theorem isWord_name {name : String} (identifier : IsIdentifier name) :
    IsWord name.toList ⟨name, []⟩ := by
  have isWord := @isWord_written name identifier [] (by simp)
  rwa [flatMap_nil, append_nil] at isWord

theorem isWord_member {owner member : String} (isOwner : IsIdentifier owner)
    (isMember : IsIdentifier member) :
    IsWord (owner.toList ++ '.' :: member.toList) ⟨owner, [member]⟩ := by
  have isWord := @isWord_written owner isOwner [member] (by simpa using isMember)
  rwa [flatMap_singleton] at isWord

end Accessor

namespace Emit

variable {operation : Operation} {argument : Text} {base word : Text} {callee : String}
  {type : UserType} {target : Target}

open Accessor

variable {session : Option Session}

/-! ### Addresses -/

theorem isSimple_iff :
    isSimple text = true ↔ text ≠ [] ∧ ∀ c ∈ text, isIdentPart c = true ∨ c = '.' := by
  simp [isSimple, all_eq_true]

def Fit (session : Option Session) (argument : Text) : Prop :=
  Accessor.Carries session (Accessor.Clean session argument.trim) argument.literals argument.trim

theorem Fit.trim (fit : Fit session argument) :
    Accessor.Carries session (Detached session) argument.literals argument.trim :=
  fit.mono fun _ detached => ⟨detached.1, fun _ => detached.2⟩

theorem carries_operand (fit : Fit session argument) :
    Accessor.Carries session (Leaves session) argument.literals (operand argument) := by
  unfold operand
  dsimp only
  split
  · next unwrapped =>
    -- The last character of a name, a number or a group is no slash.
    refine fit.mono fun rest leaves => ⟨leaves, fun slash => ?_⟩
    exfalso
    rcases Bool.or_eq_true_iff.1 unwrapped with simple | wrapped
    · have part := (isSimple_iff.1 simple).2 '/' (mem_of_getLast? slash)
      exact absurd part (by decide)
    · unfold isWrapped at wrapped
      split at wrapped
      · next cut grouped =>
        have whole := group?_whole grouped
        rw [isEmpty_iff.1 wrapped, ← cons_append] at whole
        rw [← whole, getLast?_concat] at slash
        cases slash
      · cases wrapped
  · exact fit.trim.inside.parenthesised.carries.anywhere

theorem carries_fieldSum (fit : Fit session base) (offset : Nat) :
    Accessor.Carries session (Detached session) base.literals
      (operand base ++ (" + ".toList ++ number offset)) := by
  have sum : Accessor.Carries session (Detached session) _ _ := (carries_operand fit).detached.append
    " + ".toList (carries_number offset).anywhere (by decide)
  rwa [append_nil] at sum

theorem closed_fieldAddress (fit : Fit session base) {offset : Nat} (shifted : offset ≠ 0) :
    Closed session base.literals (fieldAddress base offset) := by
  have closed := (carries_fieldSum fit offset).inside.parenthesised
  rw [fieldAddress, if_neg shifted]
  simp only [append_assoc] at closed ⊢
  exact closed

theorem carries_fieldAddress (fit : Fit session base) (offset : Nat) :
    Accessor.Carries session (Detached session) base.literals (fieldAddress base offset) := by
  by_cases shifted : offset = 0
  · rw [fieldAddress, if_pos shifted]
    exact (carries_operand fit).detached
  · exact (closed_fieldAddress fit shifted).carries.anywhere

def elementTerm (base index : Text) (stride offset : Nat) : Text :=
  operand base ++ " + ".toList ++ number stride ++ " * ".toList ++ operand index
    ++ if offset = 0 then [] else " + ".toList ++ number offset

theorem elementAddress_enclosed (base index : Text) (stride offset : Nat) :
    elementAddress base index stride offset = '(' :: (elementTerm base index stride offset ++ [')']) := by
  simp [elementAddress, elementTerm]

theorem carries_elementTerm {index : Text} (isBase : Fit session base) (isIndex : Fit session index)
    (stride offset : Nat) :
    Accessor.Carries session (Detached session) (base.literals ++ index.literals)
      (elementTerm base index stride offset) := by
  have product := (carries_number stride).anywhere.append " * ".toList (carries_operand isIndex).detached
    (by decide)
  have sum := (carries_operand isBase).detached.append " + ".toList product (by decide)
  rw [nil_append] at sum
  unfold elementTerm
  split
  · simp only [append_assoc, append_nil] at sum ⊢
    exact sum
  · have moved : Accessor.Carries session (Detached session) _ _ :=
      sum.append " + ".toList (carries_number offset).anywhere (by decide)
    simp only [append_assoc, append_nil] at moved ⊢
    exact moved

theorem closed_elementAddress {index : Text} (isBase : Fit session base)
    (isIndex : Fit session index) (stride offset : Nat) :
    Closed session (base.literals ++ index.literals) (elementAddress base index stride offset) := by
  rw [elementAddress_enclosed]
  exact (carries_elementTerm isBase isIndex stride offset).inside.parenthesised

theorem carries_viewIndex (carries : Accessor.Carries session (Detached session) found address)
    (type : Scalar) :
    Accessor.Carries session (Detached session) found (viewIndex type address) := by
  unfold viewIndex
  split
  · exact carries
  · have shifted : Accessor.Carries session (Detached session) _ _ :=
      carries.append " >> ".toList (carries_number type.shift).anywhere (by decide)
    rw [append_nil] at shifted
    rw [append_assoc]
    exact shifted

/-! ### Views and the functions of the runtime -/

theorem identifier_view (type : Scalar) : IsIdentifier type.view := by
  rcases type with type | _ | _
  · cases type <;> exact ⟨_, _, rfl, by decide, all_eq_true.1 (by decide)⟩
  · exact ⟨_, _, rfl, by decide, all_eq_true.1 (by decide)⟩
  · exact ⟨_, _, rfl, by decide, all_eq_true.1 (by decide)⟩

theorem isWord_view (type : Scalar) : IsWord type.view.toList ⟨type.view, []⟩ :=
  isWord_name (identifier_view type)

theorem carries_view (type : Scalar) :
    Accessor.Carries session (Detached session) [] type.view.toList := (isWord_view type).carries.detached

theorem isOperator_assignment {operator : String}
    (assigned : operation.assignment? = some operator) :
    isOperator (" ".toList ++ (operator.toList ++ " ".toList)) = true := by
  cases operation <;> cases assigned <;> decide

theorem closed_scalar (carries : Accessor.Carries session (Detached session) found address)
    (type : Scalar) (fit : ∀ argument ∈ arguments, Fit session argument)
    (count : arguments.length = operation.assignment?.toList.length) :
    Closed session (found ++ arguments.flatMap Text.literals)
      (scalar type address operation arguments) := by
  have element := (isWord_view type).closed_indexed (carries_viewIndex carries type).inside
  unfold scalar
  dsimp only
  cases assigned : operation.assignment? with
  | none =>
    rw [assigned] at count
    obtain rfl := length_eq_zero_iff.1 count
    simp only [append_assoc, flatMap_nil, append_nil] at element ⊢
    exact element
  | some operator =>
    rw [assigned] at count
    obtain ⟨value, rfl⟩ := length_eq_one_iff.1 count
    have isValue := (fit value mem_cons_self).trim
    have assignment := element.carries.anywhere.append _ isValue (isOperator_assignment assigned)
    have closed := assignment.inside.parenthesised
    simp only [append_assoc, cons_append, flatMap_singleton] at closed ⊢
    exact closed

theorem Fit.ne_nil (fit : Fit session argument) : argument.trim ≠ [] := by
  obtain ⟨parts, replaceable, _, runs⟩ := fit
  intro blank
  have passes := runs none [] rfl ⟨fun _ => apart_nil, fun _ => harmless_nil⟩
  rw [blank] at passes
  rw [passes.parts_nil] at replaceable
  cases replaceable.solid

theorem intercalate_listed (first : Text) (others : List Text) :
    ", ".toList.intercalate (first :: others) = first ++ listed others := by
  induction others generalizing first with
  | nil => rw [intercalate_singleton, listed, flatMap_nil, append_nil]
  | cons second others ih =>
    rw [intercalate_cons_cons, ih, listed, listed, flatMap_cons]
    simp only [append_assoc]

theorem furtherArguments_eq (fit : ∀ argument ∈ arguments, Fit session argument) :
    furtherArguments arguments = listed (arguments.map Text.trim) := by
  cases arguments with
  | nil => rfl
  | cons first others =>
    have nonempty := (fit first mem_cons_self).ne_nil
    rw [furtherArguments, map_cons, intercalate_listed, if_neg (by simp [nonempty]),
      ← append_assoc]
    rfl

theorem closed_viewCall {name : DottedName} (isWord : IsWord callee.toList name) (type : Scalar)
    {place : Text} (carries : Accessor.Carries session (Detached session) found place)
    (fit : ∀ argument ∈ arguments, Fit session argument)
    (foreign : isForeign name (2 + arguments.length) = true) :
    Closed session (found ++ arguments.flatMap Text.literals)
      (viewCall callee type place arguments) := by
  have list := ((carries_view type).list.concat carries).listed fun argument member =>
    (fit argument member).trim
  have called := list.call isWord (stays_foreign foreign _)
  rw [viewCall, furtherArguments_eq fit]
  simp only [append_assoc] at called ⊢
  exact called

theorem isWord_simd (type : SimdType) (operation : Operation) :
    IsWord ("SIMD." ++ type.constructor ++ "." ++ if operation = .get then "load" else "store").toList
      ⟨"SIMD", [type.constructor, if operation = .get then "load" else "store"]⟩ := by
  by_cases reading : operation = .get
  · rw [if_pos reading]
    cases type <;> exact @IsWord.of_read _ [] _ (by decide) (by decide +kernel)
  · rw [if_neg reading]
    cases type <;> exact @IsWord.of_read _ [] _ (by decide) (by decide +kernel)

theorem isWord_atomic (operation : Operation) :
    IsWord ("Atomics." ++ operation.runtimeName).toList ⟨"Atomics", [operation.runtimeName]⟩ := by
  cases operation <;> exact @IsWord.of_read _ [] _ (by decide) (by decide +kernel)

theorem isWord_synchronic (operation : Operation) :
    IsWord ("FlatJS.sync" ++ operation.capitalName).toList
      ⟨"FlatJS", ["sync" ++ operation.capitalName]⟩ := by
  cases operation <;> exact @IsWord.of_read _ [] _ (by decide) (by decide +kernel)

section

variable (carries : Accessor.Carries session (Detached session) found address)

include carries

theorem closed_primitive (type : Primitive) (accessed : operation ≠ .ref)
    (count : arguments.length = operation.operands)
    (supported : (Target.primitive type).supports operation = true)
    (fit : ∀ argument ∈ arguments, Fit session argument) :
    Closed session (found ++ arguments.flatMap Text.literals)
      (primitive type address operation arguments) := by
  rcases type with type | type | type | type
  · refine closed_scalar carries type fit (count.trans ?_)
    cases operation <;>
      simp_all [Target.supports, Target.isBasic, Target.isArithmetic, Target.isBitwise,
        Operation.operands, Operation.assignment?]
  · refine closed_viewCall (isWord_simd type operation) _ (carries_viewIndex carries _) fit ?_
    rw [count]
    cases operation with
    | ref => exact absurd rfl accessed
    | _ => cases type <;> decide
  · refine closed_viewCall (isWord_atomic operation) _ (carries_viewIndex carries _) fit ?_
    rw [count]
    cases operation with
    | ref => exact absurd rfl accessed
    | _ => decide
  · refine closed_viewCall (isWord_synchronic operation) _ carries fit ?_
    rw [count]
    cases operation with
    | ref => exact absurd rfl accessed
    | _ => decide

/-! ### Copies of structs -/

theorem carries_unwrapped :
    ∃ total given, 0 < total ∧ CarriesList session found (unwrapped address) total given := by
  unfold unwrapped
  split
  · next cut grouped =>
    split
    · next whole =>
      have isText := group?_whole grouped
      obtain ⟨taken, rest⟩ := cut
      obtain rfl := isEmpty_iff.1 whole
      subst isText
      obtain ⟨first, others, group⟩ := @groupParts_of_closeGroup [] (taken ++ [')']) ⟨taken, []⟩ grouped
      have parts : Text.parts (taken ++ [')']) =
          parted first.parts (others.map Text.parts) ++ .code ')' :: [] := by
        rw [group.parted, Text.parts_nil]
      have flush : ∀ piece ∈ first.parts :: others.map Text.parts, Flush piece := by
        rw [← map_cons]
        exact forall_mem_map.2 group.flush
      obtain ⟨_, _, rfl, runs⟩ := carries
      obtain ⟨later, rfl, inner⟩ :=
        (runs none [] rfl ⟨fun _ => apart_nil, harmless_nil⟩).step (by decide) (by decide)
      have same := inner.parts_append
      rw [append_nil, Text.parts_nil, append_nil, parts] at same
      have front := inner.split same.symm (by decide) (by decide)
      rw [group.spelled grouped] at front
      obtain ⟨_, passed, nested⟩ := @Tally.passAll_parted Tally.start rfl _ _ flush
      refine ⟨_, _, Nat.succ_pos _, _, _, flush, rfl, rfl, ?_, fun before rest starts detached => ?_⟩
      · rw [← same]
        simp
      exact (front.change (by rintro _ c ⟨⟩; decide) detached.1 (fun _ => detached.2)
        (front.sealed_last (by decide)) passed nested).behind starts
    · exact ⟨1, 1, Nat.one_pos, carries.list⟩
  · exact ⟨1, 1, Nat.one_pos, carries.list⟩

theorem closed_structCopy (same : ∀ other ∈ session, other = own) (wellNamed : own.WellNamed)
    (isType : type ∈ own.types) (named : IsIdentifier type.name)
    (absent : session.isSome = true → arguments = [] → type.slot? "_get_impl" = none)
    (fit : ∀ argument ∈ arguments, Fit session argument)
    (emitted : structCopy type address arguments = .ok text) :
    Closed session (found ++ arguments.flatMap Text.literals) text := by
  obtain ⟨total, given, positive, list⟩ := carries_unwrapped carries
  match arguments, emitted with
  | [], rfl =>
    have isWord := @isWord_member _ "_get_impl" named
      ⟨_, _, rfl, by decide, all_eq_true.1 (by decide)⟩
    have called := list.call isWord (stays_member same wellNamed isType
      (fun heeded => absent heeded rfl) (by decide) (by decide) _)
    simp only [append_assoc, cons_append, flatMap_nil, append_nil] at called ⊢
    exact called
  | [value], rfl =>
    have isWord := @isWord_member _ "_set_impl" named
      ⟨_, _, rfl, by decide, all_eq_true.1 (by decide)⟩
    have copied := list.concat (fit value mem_cons_self).trim
    have foreign : isForeign ⟨type.name, ["_set_impl"]⟩ (total + 1) = true := by
      have several : total ≠ 0 := by omega
      simp [isForeign, arrayPath?, several, show Operation.ofName? "_set_impl" = none from by decide]
    have called := copied.call isWord (stays_foreign foreign _)
    simp only [append_assoc, cons_append, flatMap_singleton] at called ⊢
    exact called

end

/-! ### What emitted text starts with -/

def Opens (text word : Text) : Prop :=
  ∃ stop more, text = word ++ stop :: more ∧ (∀ c ∈ word, isIdentPart c = true) ∧
    isIdentPart stop = false ∧ (word = [] → stop = '(')

theorem opens_paren (more : Text) : Opens ('(' :: more) [] :=
  ⟨'(', more, rfl, by simp, by decide, fun _ => rfl⟩

theorem Opens.append {text word : Text} (opens : Opens text word) (more : Text) :
    Opens (text ++ more) word := by
  obtain ⟨stop, later, rfl, parts, stops, paren⟩ := opens
  exact ⟨stop, later ++ more, by rw [append_assoc]; rfl, parts, stops, paren⟩

theorem Opens.takeWhile (opens : Opens text word) (rest : Text) :
    (text ++ rest).takeWhile isIdentPart = word := by
  obtain ⟨stop, later, rfl, parts, stops, _⟩ := opens
  rw [append_assoc, takeWhile_append_of_pos parts, cons_append,
    takeWhile_cons_of_neg (by simp [stops]), append_nil]

def isLead (c : Char) : Bool := isIdentPart c || c == '.' || c == '('

theorem Opens.lead (opens : Opens text word) : ∃ c cs, text = c :: cs ∧ isLead c = true := by
  obtain ⟨stop, later, rfl, parts, _, paren⟩ := opens
  cases word with
  | nil => exact ⟨stop, later, rfl, by rw [paren rfl]; decide⟩
  | cons c cs => exact ⟨c, _, rfl, by simp [isLead, parts c mem_cons_self]⟩

theorem lead_operand (fit : Fit session argument) :
    ∃ c cs, operand argument = c :: cs ∧ isLead c = true := by
  obtain ⟨c, cs, trimmed⟩ := exists_cons_of_ne_nil fit.ne_nil
  unfold operand
  dsimp only
  split
  · next unwrapped =>
    refine ⟨c, cs, trimmed, ?_⟩
    rw [trimmed] at unwrapped
    rcases Bool.or_eq_true_iff.1 unwrapped with simple | wrapped
    · rcases (isSimple_iff.1 simple).2 c mem_cons_self with part | rfl
      · simp [isLead, part]
      · decide
    · unfold isWrapped at wrapped
      split at wrapped
      · next cut grouped =>
        obtain ⟨rfl, _⟩ := List.cons.inj (group?_whole grouped)
        decide
      · cases wrapped
  · exact ⟨'(', _, rfl, by decide⟩

theorem opens_identifier {name : String} (identifier : IsIdentifier name) {stop : Char}
    (stops : isIdentPart stop = false) (more : Text) : Opens (name.toList ++ stop :: more) name.toList := by
  refine ⟨stop, more, rfl, identifier.parts, stops, fun none => ?_⟩
  obtain ⟨c, cs, chars, _⟩ := identifier
  rw [chars] at none
  cases none

def Unmarked (text : Text) (exempt : Prop) : Prop :=
  ∃ word, Opens text word ∧ (word = ['n', 'e', 'w'] → exempt)

theorem Unmarked.mono {one other : Prop} (unmarked : Unmarked text one) (implies : one → other) :
    Unmarked text other := by
  obtain ⟨word, opens, exempt⟩ := unmarked
  exact ⟨word, opens, fun same => implies (exempt same)⟩

theorem unmarked_paren (more : Text) : Unmarked ('(' :: more) False := ⟨
    [], opens_paren more, by simp⟩

theorem unmarked_scalar (type : Scalar) (address : Text) (operation : Operation)
    (arguments : List Text) :
    Unmarked (scalar type address operation arguments) False := by
  have view : type.view.toList ≠ ['n', 'e', 'w'] := by
    rw [Scalar.view, String.toList_append]
    exact fun same => absurd (List.cons.inj same).1 (by decide)
  unfold scalar
  dsimp only
  split
  · exact unmarked_paren _
  · simp only [append_assoc]
    exact ⟨_, opens_identifier (identifier_view type) (by decide) _, view⟩

theorem unmarked_viewCall (unmarked : Unmarked callee.toList False) (type : Scalar) (place : Text)
    (arguments : List Text) : Unmarked (viewCall callee type place arguments) False := by
  obtain ⟨word, opens, other⟩ := unmarked
  rw [viewCall]
  simp only [append_assoc]
  exact ⟨word, opens.append _, other⟩

theorem unmarked_primitive (type : Primitive) (address : Text) (operation : Operation)
    (arguments : List Text) : Unmarked (primitive type address operation arguments) False := by
  have member : ∀ {owner : Text} (more : Text), owner.all isIdentPart = true → owner ≠ [] →
      owner ≠ ['n', 'e', 'w'] → Unmarked (owner ++ '.' :: more) False := by
    intro owner more parts nonempty other
    exact ⟨owner, ⟨'.', more, rfl, all_eq_true.1 parts, by decide, fun none => absurd none nonempty⟩,
      other⟩
  rcases type with type | type | type | type
  · exact unmarked_scalar type address operation arguments
  · refine unmarked_viewCall ?_ _ _ _
    rw [String.append_assoc, String.append_assoc, String.toList_append]
    exact @member "SIMD".toList _ (by decide) (by decide) (by decide)
  · refine unmarked_viewCall ?_ _ _ _
    rw [String.toList_append]
    exact @member "Atomics".toList _ (by decide) (by decide) (by decide)
  · refine unmarked_viewCall ?_ _ _ _
    rw [String.toList_append]
    exact @member "FlatJS".toList _ (by decide) (by decide) (by decide)

theorem unmarked_structCopy (named : IsIdentifier type.name)
    (emitted : structCopy type address arguments = .ok text) :
    Unmarked text (type.name = "new") := by
  have starts : ∀ more, Unmarked (type.name.toList ++ '.' :: more) (type.name = "new") := fun more =>
    ⟨_, opens_identifier named (by decide) more, fun same => String.toList_inj.1 same⟩
  match arguments, emitted with
  | [], rfl =>
    simp only [append_assoc]
    exact starts _
  | [value], rfl =>
    simp only [append_assoc]
    exact starts _

/-! ### Allocated memory -/

theorem closed_allocate {given : Nat} (list : CarriesList session found text 2 given) :
    Closed session found ("FlatJS.allocOrThrow(".toList ++ (text ++ ")".toList)) := by
  have isWord : IsWord "FlatJS.allocOrThrow".toList ⟨"FlatJS", ["allocOrThrow"]⟩ :=
    @IsWord.of_read _ [] _ (by decide) (by decide +kernel)
  have spelled : "FlatJS.allocOrThrow(".toList = "FlatJS.allocOrThrow".toList ++ ['('] := by decide
  rw [spelled, append_assoc]
  exact list.call isWord (stays_foreign (by decide) _)

theorem opens_allocate (more : Text) : Opens
    ("FlatJS.allocOrThrow(".toList ++ more) "FlatJS".toList := by
  have opens : Opens "FlatJS.allocOrThrow(".toList "FlatJS".toList :=
    ⟨'.', "allocOrThrow(".toList, by decide, all_eq_true.1 (by decide), by decide, by simp⟩
  exact opens.append more

/-! ### Accesses -/

theorem access_ref (isRef : operation = .ref)
    (emitted : access target address operation arguments = .ok text) :
    text = address ∧ arguments = [] := by
  unfold access at emitted
  rw [if_pos isRef] at emitted
  split at emitted
  · cases emitted
  · next counted =>
    obtain ⟨count, _⟩ := not_or.1 counted
    subst isRef
    exact ⟨(Except.ok.inj emitted).symm, length_eq_zero_iff.1 (not_not.1 count)⟩

theorem closed_access (same : ∀ other ∈ session, other = own) (wellNamed : own.WellNamed)
    (named : own.Named) (carries : Accessor.Carries session (Detached session) found address)
    (known : own.Knows target) (accessed : operation ≠ .ref)
    (fit : ∀ argument ∈ arguments, Fit session argument)
    (absent : session.isSome = true → ∀ type, target = .structure type → operation = .get →
      type.slot? "_get_impl" = none)
    (emitted : access target address operation arguments = .ok text) :
    Closed session (found ++ arguments.flatMap Text.literals) text ∧
      Unmarked text (∃ type, target = .structure type ∧ type.name = "new") := by
  unfold access at emitted
  rw [if_neg accessed] at emitted
  split at emitted
  · cases emitted
  next counted =>
  obtain ⟨count, supported⟩ : arguments.length = operation.operands ∧
      target.supports operation = true := by
    simpa using counted
  rcases target with type | _ | type
  · cases emitted
    exact ⟨closed_primitive carries type accessed count supported fit,
      (unmarked_primitive type address operation arguments).mono False.elim⟩
  · cases emitted
    refine ⟨closed_scalar carries _ fit (count.trans ?_),
      (unmarked_scalar _ address operation arguments).mono False.elim⟩
    cases operation <;>
      simp_all [Target.supports, Target.isBasic, Operation.operands, Operation.assignment?]
  · have reading : arguments = [] → operation = .get := by
      rintro rfl
      cases operation with
      | get => rfl
      | ref => exact absurd rfl accessed
      | _ => simp [Operation.operands, Target.supports, Target.isBasic] at count supported
    refine ⟨closed_structCopy carries same wellNamed known (named type known)
      (fun heeded none => absent heeded type rfl (reading none)) fit emitted, ?_⟩
    exact (unmarked_structCopy (named type known) emitted).mono fun isNew => ⟨type, rfl, isNew⟩

end Emit

def Access.copied? (access : Access) : Option UserType :=
  match access.target with
  | .structure type => if access.operation = .ref then none else some type
  | _ => none

def Access.isClear (access : Access) : Bool :=
  access.operation != .get || access.copied?.all fun type => (type.slot? "_get_impl").isNone

namespace Accessor

variable {session : Option Session}

namespace Call

variable {access : Access} {base : Text} {call : Call}

def isBare : Call → Bool
  | field access => access.operation = .ref && access.offset = 0
  | _ => false

def copied? (call : Call) : Option UserType := call.access?.bind Access.copied?

structure Emits (session : Option Session) (call : Call) (found : List Text) (text : Text) : Prop where
  carries : Carries session (fun rest => call.isBare = true → Leaves session rest) found text
  last : call.isBare = false → startsWord text.getLast? = true
  lead : ∃ c cs, text = c :: cs ∧ Emit.isLead c = true
  unmarked : call.isBare = false →
    Emit.Unmarked text (∃ type, call.copied? = some type ∧ type.name = "new")

theorem Emits.of_closed (closed : Closed session found text)
    (unmarked : Emit.Unmarked text (∃ type, call.copied? = some type ∧ type.name = "new")) :
    Emits session call found text where
  carries := closed.carries.anywhere
  last := fun _ => closed.last
  lead := by
    obtain ⟨word, opens, _⟩ := unmarked
    exact opens.lead
  unmarked := fun _ => unmarked

theorem emits_access (same : ∀ other ∈ session, other = own) (wellNamed : own.WellNamed)
    (named : own.Named) (accessed : call.access? = some access) (known : own.Knows access.target)
    (clear : session.isSome = true → access.isClear = true)
    (carries : Carries session (Detached session) found address)
    (notRef : access.operation ≠ .ref) (fit : ∀ argument ∈ arguments, Emit.Fit session argument)
    (emitted : Emit.access access.target address access.operation arguments = .ok text) :
    Emits session call (found ++ arguments.flatMap Text.literals) text := by
  have copied : ∀ type, access.target = .structure type → access.copied? = some type := by
    intro type isTarget
    rw [Access.copied?, isTarget]
    dsimp only
    rw [if_neg notRef]
  have absent : session.isSome = true → ∀ type, access.target = .structure type →
      access.operation = .get → type.slot? "_get_impl" = none := by
    intro heeded type isTarget reading
    simpa [Access.isClear, copied type isTarget, reading] using clear heeded
  obtain ⟨closed, unmarked⟩ := closed_access same wellNamed named carries known notRef fit absent emitted
  refine .of_closed closed (unmarked.mono ?_)
  rintro ⟨type, isTarget, isNew⟩
  exact ⟨type, by rw [copied?, accessed, Option.bind_some, copied type isTarget], isNew⟩

theorem emits_allocateArray {item : Target} {length : Text} (fit : Emit.Fit session length)
    (emitted : (allocateArray item).emit [length] = .ok text) :
    Emits session (allocateArray item) length.literals text := by
  have size := (carries_number item.stride).anywhere.append " * ".toList
    (carries_operand fit).detached (by decide)
  have called := closed_allocate (size.list.concat (carries_number item.align).anywhere)
  cases emitted
  simp only [append_assoc, append_nil, nil_append] at called ⊢
  exact .of_closed called ⟨_, opens_allocate _, by simp⟩

section

variable (same : ∀ other ∈ session, other = own) (wellNamed : own.WellNamed) (named : own.Named)

include same wellNamed named

theorem emits_field (known : own.Knows access.target)
    (clear : session.isSome = true → access.isClear = true)
    (isBase : Emit.Fit session base) (fit : ∀ argument ∈ arguments, Emit.Fit session argument)
    (emitted : (field access).emit (base :: arguments) = .ok text) :
    Emits session (field access) ((base :: arguments).flatMap Text.literals) text := by
  have address := carries_fieldAddress isBase access.offset
  rw [flatMap_cons]
  by_cases isRef : access.operation = .ref
  · obtain ⟨rfl, rfl⟩ := access_ref isRef emitted
    rw [flatMap_nil, append_nil]
    by_cases shifted : access.offset = 0
    · have bare : (field access).isBare = true := by simp [isBare, isRef, shifted]
      rw [Emit.fieldAddress, if_pos shifted]
      refine ⟨(carries_operand isBase).mono fun rest leaves => leaves bare, ?_,
        lead_operand isBase, ?_⟩
      · rw [bare]
        exact nofun
      · rw [bare]
        exact nofun
    · refine .of_closed (closed_fieldAddress isBase shifted) ?_
      rw [Emit.fieldAddress, if_neg shifted]
      simp only [append_assoc]
      exact (unmarked_paren _).mono False.elim
  · exact emits_access same wellNamed named rfl known clear address isRef fit emitted

theorem emits_element {array : Target} (known : own.Knows access.target)
    (clear : session.isSome = true → access.isClear = true) {index : Text} (isBase : Emit.Fit session base)
    (isIndex : Emit.Fit session index) (fit : ∀ argument ∈ arguments, Emit.Fit session argument)
    (emitted : (element array access).emit (base :: index :: arguments) = .ok text) :
    Emits session (element array access) ((base :: index :: arguments).flatMap Text.literals) text := by
  have address := closed_elementAddress isBase isIndex array.stride access.offset
  rw [flatMap_cons, flatMap_cons, ← append_assoc]
  by_cases isRef : access.operation = .ref
  · obtain ⟨rfl, rfl⟩ := access_ref isRef emitted
    rw [flatMap_nil, append_nil]
    refine .of_closed address ?_
    unfold Emit.elementAddress
    simp only [append_assoc]
    exact (unmarked_paren _).mono False.elim
  · exact emits_access same wellNamed named rfl known clear address.carries.anywhere isRef fit emitted

theorem emits (known : ∀ access, call.access? = some access → own.Knows access.target)
    (takes : call.Takes arguments.length)
    (clear : session.isSome = true → call.access?.all Access.isClear = true)
    (fit : ∀ argument ∈ arguments, Emit.Fit session argument)
    (emitted : call.emit arguments = .ok text) :
    Emits session call (arguments.flatMap Text.literals) text := by
  match call, arguments, takes with
  | allocateArray item, [length], _ =>
    rw [flatMap_singleton]
    exact emits_allocateArray (fit length mem_cons_self) emitted
  | field access, base :: arguments, _ =>
    obtain ⟨isBase, areArguments⟩ := forall_mem_cons.1 fit
    exact emits_field same wellNamed named (known access rfl) clear isBase areArguments emitted
  | element array access, base :: index :: arguments, _ =>
    obtain ⟨isBase, others⟩ := forall_mem_cons.1 fit
    obtain ⟨isIndex, areArguments⟩ := forall_mem_cons.1 others
    exact emits_element same wellNamed named (known access rfl) clear isBase isIndex areArguments emitted

end

end Call

/-! ### Allocations -/

theorem carries_allocationText (same : ∀ other ∈ session, other = own) (wellNamed : own.WellNamed)
    {type : UserType} (isType : type ∈ own.types) (named : IsIdentifier type.name)
    (clear : session.isSome = true → type.isClass = true → type.slot? "initInstance" = none) :
    Carries session (fun _ => True) [] (allocationText type) ∧
      ∃ word, Emit.Opens (allocationText type) word := by
  have list := (@Carries.anywhere _ _ session (Detached session) (carries_number type.size)).list.concat
    (carries_number type.align).anywhere
  have allocated := closed_allocate list
  unfold allocationText
  dsimp only
  split
  · next isClass =>
    have isMember := @isWord_member _ "initInstance" named
      ⟨_, _, rfl, by decide, all_eq_true.1 (by decide)⟩
    have called := (@Carries.anywhere _ _ session (Detached session) allocated.carries).list.call isMember
      (stays_member same wellNamed isType (fun heeded => clear heeded isClass) (by decide) (by decide) _)
    have spelled : ".initInstance(".toList = '.' :: ("initInstance".toList ++ ['(']) := by decide
    rw [spelled]
    simp only [append_assoc, cons_append, nil_append] at called ⊢
    exact ⟨called.carries, _, opens_identifier named (by decide) _⟩
  · simp only [append_assoc] at allocated ⊢
    exact ⟨allocated.carries, _, opens_allocate _⟩

end Accessor

end FlatMemory
