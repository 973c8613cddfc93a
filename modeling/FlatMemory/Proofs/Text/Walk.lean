import FlatMemory.Text.Arguments
import Mathlib.Data.List.TakeWhile

/-! # Walks outside literals

The scanners of plain text all go forward alike: past a literal or comment at once, and else one
character at a time.  `Walk rest front marks ending` is such a way through `front`, with `rest`
behind it.  Brackets and commas met outside literals are its marks, in order; its ending says what
the last thing was that is not blank. -/

namespace FlatMemory

open List Text Literal

variable {text : Text} {c : Char}

namespace Text

variable {cs : Text}

theorem trimEnd_append_trailingBlank (text : Text) : text.trimEnd ++ text.trailingBlank = text := by
  rw [trimEnd, trailingBlank, ← reverse_append, takeWhile_append_dropWhile,
    reverse_reverse]

theorem isBlank_iff : text.isBlank = true ↔ ∀ c ∈ text, FlatMemory.isBlank c = true :=
  all_eq_true

theorem trimEnd_of_blank (blank : text.isBlank = true) :
    text.trimEnd = [] ∧ text.trailingBlank = text := by
  have all : ∀ c ∈ text.reverse, FlatMemory.isBlank c = true := fun c member =>
    isBlank_iff.1 blank c (mem_reverse.1 member)
  constructor
  · rw [trimEnd, dropWhile_eq_nil_iff.2 all, reverse_nil]
  · rw [trailingBlank, takeWhile_eq_self_iff.2 all, reverse_reverse]

theorem trimEnd_append_cons {start later : Text} {last : Char}
    (notBlank : FlatMemory.isBlank last = false) :
    trimEnd (start ++ last :: later) = start ++ last :: trimEnd later ∧
      trailingBlank (start ++ last :: later) = trailingBlank later := by
  have stops : ¬ FlatMemory.isBlank last = true := by simp [notBlank]
  rw [trimEnd, trailingBlank, reverse_append, reverse_cons, append_assoc,
    singleton_append]
  by_cases blank : later.isBlank = true
  · have all : ∀ c ∈ later.reverse, FlatMemory.isBlank c = true := fun c member =>
      isBlank_iff.1 blank c (mem_reverse.1 member)
    rw [dropWhile_append_of_pos all, dropWhile_cons_of_neg stops,
      takeWhile_append_of_pos all, takeWhile_cons_of_neg stops,
      (trimEnd_of_blank blank).1, (trimEnd_of_blank blank).2]
    simp
  · have some : later.reverse.dropWhile FlatMemory.isBlank ≠ [] := by
      intro none
      apply blank
      rw [isBlank_iff]
      intro c member
      exact dropWhile_eq_nil_iff.1 none c (mem_reverse.2 member)
    have cut := takeWhile_append_dropWhile (p := FlatMemory.isBlank) (l := later.reverse)
    constructor
    · rw [dropWhile_append, if_neg (by simpa using some), trimEnd]
      simp
    · rw [takeWhile_append, if_neg ?_, trailingBlank]
      intro whole
      apply some
      have lengths := congrArg List.length cut
      rw [length_append, whole] at lengths
      exact length_eq_zero_iff.1 (by omega)

theorem trimEnd_append_blank (blank : text.isBlank = true) (start : Text) :
    trimEnd (start ++ text) = trimEnd start ∧
      trailingBlank (start ++ text) = trailingBlank start ++ text := by
  have all : ∀ c ∈ text.reverse, FlatMemory.isBlank c = true := fun c member =>
    isBlank_iff.1 blank c (mem_reverse.1 member)
  rw [trimEnd, trailingBlank, reverse_append, dropWhile_append_of_pos all,
    takeWhile_append_of_pos all]
  simp [trimEnd, trailingBlank]

theorem trimEnd_append (notBlank : text.isBlank = false) (start : Text) :
    trimEnd (start ++ text) = start ++ trimEnd text ∧
      trailingBlank (start ++ text) = trailingBlank text := by
  obtain ⟨front, last, later, rfl, solid⟩ :
      ∃ front last later, text = front ++ last :: later ∧ FlatMemory.isBlank last = false := by
    obtain ⟨last, member, solid⟩ := all_eq_false.1 notBlank
    obtain ⟨front, later, rfl⟩ := append_of_mem member
    exact ⟨front, last, later, rfl, by simpa using solid⟩
  rw [← append_assoc, (trimEnd_append_cons solid).1, (trimEnd_append_cons solid).2,
    (trimEnd_append_cons solid).1, (trimEnd_append_cons solid).2, append_assoc]
  exact ⟨rfl, rfl⟩

theorem isBlank_trailingBlank (text : Text) : (trailingBlank text).isBlank = true := by
  rw [isBlank_iff]
  intro c member
  rw [trailingBlank, mem_reverse] at member
  exact mem_takeWhile_imp member

theorem head?_trimEnd (notBlank : text.isBlank = false) (later : Text) :
    (text.trimEnd ++ later).head? = text.head? := by
  have whole := trimEnd_append_trailingBlank text
  cases trimmed : text.trimEnd with
  | nil =>
    have all : text.isBlank = true := by
      rw [← whole, trimmed, nil_append, isBlank_trailingBlank]
    rw [all] at notBlank
    cases notBlank
  | cons c cs =>
    rw [trimmed] at whole
    rw [← whole]
    rfl

theorem trimStart_cons_of_blank (blank : FlatMemory.isBlank c = true) :
    trimStart (c :: cs) = trimStart cs :=
  dropWhile_cons_of_pos blank

theorem trimStart_cons_of_solid (solid : FlatMemory.isBlank c = false) :
    trimStart (c :: cs) = c :: cs :=
  dropWhile_cons_of_neg (by simp [solid])

theorem trimStart_append_cons {first : Char} (solid : FlatMemory.isBlank first = false)
    (front later : Text) :
    trimStart (front ++ first :: later) = trimStart front ++ first :: later := by
  induction front with
  | nil => exact trimStart_cons_of_solid solid
  | cons c cs ih =>
    rw [cons_append]
    by_cases blank : FlatMemory.isBlank c = true
    · rw [trimStart_cons_of_blank blank, trimStart_cons_of_blank blank, ih]
    · rw [trimStart_cons_of_solid (by simpa using blank),
        trimStart_cons_of_solid (by simpa using blank)]
      rfl

theorem isBlank_trimStart (text : Text) : (trimStart text).isBlank = text.isBlank := by
  induction text with
  | nil => rfl
  | cons c cs ih =>
    by_cases blank : FlatMemory.isBlank c = true
    · rw [trimStart_cons_of_blank blank, ih]
      simp [isBlank, blank]
    · rw [trimStart_cons_of_solid (by simpa using blank)]

theorem isBlank_trimEnd (text : Text) : (trimEnd text).isBlank = text.isBlank := by
  have whole := trimEnd_append_trailingBlank text
  have both : text.isBlank = ((trimEnd text).isBlank && (trailingBlank text).isBlank) := by
    calc text.isBlank = (trimEnd text ++ trailingBlank text).isBlank := by rw [whole]
      _ = _ := by simp [isBlank]
  rw [both, isBlank_trailingBlank, Bool.and_true]

theorem isBlank_trim (text : Text) : (trim text).isBlank = text.isBlank := by
  rw [trim, isBlank_trimEnd, isBlank_trimStart]

theorem trailingBlank_trimStart (notBlank : text.isBlank = false) :
    (trimStart text).trailingBlank = text.trailingBlank := by
  have whole := takeWhile_append_dropWhile (p := FlatMemory.isBlank) (l := text)
  have solid : (trimStart text).isBlank = false := by rw [isBlank_trimStart, notBlank]
  calc (trimStart text).trailingBlank =
        trailingBlank (text.takeWhile FlatMemory.isBlank ++ trimStart text) :=
      (trimEnd_append solid _).2.symm
    _ = text.trailingBlank := congrArg trailingBlank whole

end Text

theorem Literal.quoted_cons {quote : Char} (plain : c ≠ '\\') (cs : Text) :
    quoted quote (c :: cs) =
      if c = quote then ⟨[c], cs⟩
      else if c = '\n' then Cut.none (c :: cs)
      else (quoted quote cs).after [c] := by
  rw [quoted]
  · exact fun same _ => plain same
  · exact fun _ _ same _ => plain same

theorem Literal.template_cons (plain : c ≠ '\\') (cs : Text) :
    template (c :: cs) = if c = '\x60' then ⟨[c], cs⟩ else (template cs).after [c] := by
  rw [template]
  · exact fun same _ => plain same
  · exact fun _ _ same _ => plain same

theorem Literal.first?_eq_none_iff {cs : Text} :
    first? (c :: cs) = none ↔ c ≠ '"' ∧ c ≠ '\x27' ∧ c ≠ '\x60' ∧
      (c = '/' → cs.head? ≠ some '/' ∧ cs.head? ≠ some '*') := by
  constructor
  · intro none
    refine ⟨?_, ?_, ?_, ?_⟩
    · rintro rfl
      simp [first?] at none
    · rintro rfl
      simp [first?] at none
    · rintro rfl
      simp [first?] at none
    · rintro rfl
      cases cs with
      | nil => simp
      | cons d ds =>
        constructor
        · rintro ⟨⟩
          simp [first?] at none
        · rintro ⟨⟩
          simp [first?] at none
  · rintro ⟨notDouble, notSingle, notTick, slash⟩
    unfold first?
    split
    · next same =>
      cases same
      exact absurd rfl (slash rfl).1
    · next same =>
      cases same
      exact absurd rfl (slash rfl).2
    · next same =>
      cases same
      rw [if_neg (by simp [notDouble, notSingle]), if_neg notTick]
    · rfl

structure Literal.Sealed (literal : Text) : Prop where
  first : ∀ rest, first? (literal ++ rest) = some ⟨literal, rest⟩
  ends : ∃ start last, literal = start ++ [last] ∧ isBlank last = false

def Harmless (rest : Text) : Prop := rest.head? ≠ some '/' ∧ rest.head? ≠ some '*'

theorem harmless_nil : Harmless [] := ⟨by simp, by simp⟩

def isPlain (c : Char) : Bool := c != '"' && c != '\x27' && c != '\x60' && c != '/'

theorem Literal.first?_of_isPlain (plain : isPlain c = true) (rest : Text) :
    first? (c :: rest) = none := by
  simp only [isPlain, Bool.and_eq_true, bne_iff_ne, ne_eq] at plain
  exact first?_eq_none_iff.2
    ⟨plain.1.1.1, plain.1.1.2, plain.1.2, fun slash => absurd slash plain.2⟩

def isMark (c : Char) : Bool := isOpenBracket c || isCloseBracket c || c == ','

inductive Ending where
  | blank
  /-- A line comment, which swallows what is put behind it on its line. -/
  | comment
  | other
  deriving DecidableEq, Repr

def Ending.followedBy (first : Ending) : Ending → Ending
  | blank => first
  | later => later

def Ending.ofChar (c : Char) : Ending := if isBlank c then .blank else .other

def Ending.ofText (text : Text) : Ending := if text.isBlank then .blank else .other

inductive Walk (rest : Text) : Text → Text → Ending → Prop
  | done : Walk rest [] [] .blank
  | literal {literal front marks : Text} {ending : Ending} (closed : Literal.Sealed literal)
    (later : Walk rest front marks ending) :
    Walk rest (literal ++ front) marks (Ending.other.followedBy ending)
  | comment {comment front marks : Text} {ending : Ending} (inLine : '\n' ∉ comment)
    (later : Walk rest ('\n' :: front) marks ending) :
    Walk rest ('/' :: '/' :: (comment ++ '\n' :: front)) marks (Ending.comment.followedBy ending)
  | char {c : Char} {front marks : Text} {ending : Ending}
    (plain : Literal.first? (c :: (front ++ rest)) = none)
    (later : Walk rest front marks ending) :
    Walk rest (c :: front) (if isMark c then c :: marks else marks)
      ((Ending.ofChar c).followedBy ending)

namespace Ending

@[simp] theorem followedBy_blank (first : Ending) : first.followedBy .blank = first := rfl

@[simp] theorem followedBy_other (first : Ending) : first.followedBy .other = .other := rfl

@[simp] theorem followedBy_comment (first : Ending) : first.followedBy .comment = .comment := rfl

@[simp] theorem blank_followedBy (later : Ending) : blank.followedBy later = later := by
  cases later <;> rfl

theorem followedBy_assoc (first second third : Ending) :
    (first.followedBy second).followedBy third = first.followedBy (second.followedBy third) := by
  cases third <;> rfl

theorem followedBy_eq_blank {first later : Ending} :
    first.followedBy later = .blank ↔ first = .blank ∧ later = .blank := by
  cases later <;> simp [followedBy]

theorem ofText_cons (c : Char) (cs : Text) :
    ofText (c :: cs) = (ofChar c).followedBy (ofText cs) := by
  have all : Text.isBlank (c :: cs) = (isBlank c && Text.isBlank cs) := rfl
  unfold ofText ofChar
  rw [all]
  cases isBlank c <;> cases Text.isBlank cs <;> rfl

end Ending

namespace Walk

variable {rest front marks : Text} {ending : Ending} {other : Text}

/-- What follows matters only to a slash at the very end. -/
theorem change (walk : Walk rest front marks ending) (harmless : Harmless other) :
    Walk other front marks ending := by
  induction walk with
  | done => exact .done
  | literal closed _ ih => exact .literal closed ih
  | comment inLine _ ih => exact .comment inLine ih
  | @char c front _ _ plain _ ih =>
    refine .char ?_ ih
    rw [first?_eq_none_iff] at plain ⊢
    refine ⟨plain.1, plain.2.1, plain.2.2.1, fun slash => ?_⟩
    cases front with
    | nil => exact harmless
    | cons d ds => exact plain.2.2.2 slash

theorem of_plain (plain : ∀ c ∈ text, isPlain c = true) :
    Walk rest text (text.filter isMark) (Ending.ofText text) := by
  induction text with
  | nil => exact .done
  | cons c cs ih =>
    have step : Walk rest (c :: cs) _ _ :=
      .char (first?_of_isPlain (plain c mem_cons_self) _)
        (ih fun d member => plain d (mem_cons_of_mem _ member))
    rw [filter_cons, Ending.ofText_cons]
    exact step

theorem isPlain_of_class {inClass : Char → Bool} (inside : inClass c = true)
    (others : ['"', '\x27', '\x60', '/', '(', ')', '[', ']', '{', '}', ','].all
      (fun d => !inClass d) = true) : isPlain c = true ∧ isMark c = false := by
  have differs : ∀ d, (!inClass d) = true → c ≠ d := by
    rintro d outside rfl
    simp [inside] at outside
  have apart := fun d member => differs d (all_eq_true.1 others d member)
  simp only [forall_mem_cons] at apart
  simp [isPlain, isMark, isOpenBracket, isCloseBracket, apart]

theorem isPlain_of_isBlank (blank : isBlank c = true) : isPlain c = true ∧ isMark c = false :=
  isPlain_of_class blank (by decide)

end Walk

end FlatMemory
