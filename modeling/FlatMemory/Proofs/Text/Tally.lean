import FlatMemory.Code.Accessor
import FlatMemory.Proofs.Text.LiteralEnd
import FlatMemory.Proofs.Text.Scan

/-! # Argument counts along the parts of a text

Whether a group closes, how many arguments it has and how many of them are not blank depends only on
the parts that a scan meets.  So none of it changes if a part of the text is replaced by another that
keeps its brackets and commas to itself and is not blank. -/

namespace FlatMemory

open List Text Literal

variable {cut : Cut} {part : Part} {parts more : List Part}

/-! ### Parts and their text -/

namespace Part

def text : Part → Text
  | literal text => text
  | code c => [c]

def isOpen : Part → Bool
  | literal text => Literal.isOpen text
  | code _ => false

end Part

def solidParts (parts : List Part) : List Part := parts.filter fun part => !part.isBlank

def isSolid (parts : List Part) : Bool := parts.any fun part => !part.isBlank

def literalsIn (parts : List Part) : List Text := parts.filterMap Part.literal?

@[simp] theorem literalsIn_append (parts more : List Part) :
    literalsIn (parts ++ more) = literalsIn parts ++ literalsIn more := filterMap_append

@[simp] theorem literalsIn_nil : literalsIn [] = [] := rfl

@[simp] theorem literalsIn_code (text : Text) : literalsIn (text.map .code) = [] := by
  simp [literalsIn, Part.literal?]

@[simp] theorem literalsIn_cons_code (c : Char) (parts : List Part) :
    literalsIn (.code c :: parts) = literalsIn parts := rfl

/-- Whether what is put right behind some parts, without the blanks at their end, would become part
of a literal. -/
def endsOpen (parts : List Part) : Bool := (solidParts parts).getLast?.any Part.isOpen

theorem Literal.not_isBlank {text : Text} (found : first? text = some cut) :
    cut.taken.isBlank = false := by
  obtain ⟨whole, nonempty⟩ := whole_first? found
  obtain ⟨c, cs, taken⟩ := exists_cons_of_ne_nil nonempty
  have head : isBlank c = false := by
    cases blank : isBlank c with
    | false => rfl
    | true =>
      rw [← whole, Cut.whole, taken, cons_append,
        first?_of_isPlain (Walk.isPlain_of_isBlank blank).1] at found
      cases found
  simp [taken, Text.isBlank, head]

namespace Text

theorem spelled_parts (text : Text) : text.parts.flatMap Part.text = text := by
  fun_induction parts text with
  | case1 text cut found _ ih =>
    rw [flatMap_cons, ih]
    exact (whole_first? found).1
  | case2 => rfl
  | case3 c cs _ ih =>
    rw [flatMap_cons, ih]
    rfl

theorem isSolid_parts (text : Text) : isSolid text.parts = !text.isBlank := by
  fun_induction parts text with
  | case1 text cut found _ ih =>
    have solid := not_isBlank found
    have whole : cut.taken ++ cut.rest = text := (whole_first? found).1
    rw [← whole, isBlank, all_append, ← isBlank, solid]
    rfl
  | case2 => rfl
  | case3 c cs _ ih =>
    rw [isSolid, any_cons, ← isSolid, ih, isBlank, isBlank, all_cons, Bool.not_and]
    rfl

end Text

/-! ### Counting arguments -/

structure Tally where
  /-- Brackets open inside the group, innermost first. -/
  nesting : List Char
  /-- Arguments that lie behind. -/
  early : Nat
  /-- Those of them that are not blank. -/
  given : Nat
  /-- The argument at hand is not blank. -/
  solid : Bool

namespace Tally

def start : Tally := ⟨[], 0, 0, false⟩

def move (tally : Tally) (nesting : List Char) (solid : Bool) : Tally :=
  ⟨nesting, tally.early, tally.given, tally.solid || solid⟩

def counts (tally : Tally) : Nat × Nat := (tally.early + 1, tally.given + tally.solid.toNat)

def pass (tally : Tally) : Part → Option Tally
  | .literal _ => some (tally.move tally.nesting true)
  | .code c =>
    if isOpenBracket c then some (tally.move (c :: tally.nesting) true)
    else if isCloseBracket c then (shut c tally.nesting).map fun outer => tally.move outer true
    else if c = ',' ∧ tally.nesting = [] then some ⟨[], tally.counts.1, tally.counts.2, false⟩
    else some (tally.move tally.nesting !isBlank c)

def passAll (tally : Tally) : List Part → Option Tally
  | [] => some tally
  | part :: parts => (tally.pass part).bind fun next => next.passAll parts

def close (tally : Tally) : List Part → Option (Nat × Nat)
  | [] => none
  | part :: parts =>
    if tally.nesting = [] ∧ part = .code ')' then some tally.counts
    else (tally.pass part).bind fun next => next.close parts

@[simp] theorem move_move (tally : Tally) (first second : List Char) (one other : Bool) :
    (tally.move first one).move second other = tally.move second (one || other) := by
  simp [move, Bool.or_assoc]

@[simp] theorem move_self (tally : Tally) : tally.move tally.nesting false = tally := by simp [move]

@[simp] theorem nesting_move (tally : Tally) (nesting : List Char) (solid : Bool) :
    (tally.move nesting solid).nesting = nesting := rfl

theorem passAll_append (tally : Tally) (parts more : List Part) :
    tally.passAll (parts ++ more) = (tally.passAll parts).bind fun next => next.passAll more := by
  induction parts generalizing tally with
  | nil => rfl
  | cons part parts ih =>
    rw [cons_append, passAll, passAll]
    cases tally.pass part with
    | none => rfl
    | some next => exact ih next

theorem close_append {tally next : Tally} (passed : tally.passAll parts = some next)
    (more : List Part) : tally.close (parts ++ more) = next.close more := by
  induction parts generalizing tally with
  | nil =>
    cases passed
    rfl
  | cons part parts ih =>
    obtain ⟨middle, first, passed⟩ := Option.bind_eq_some_iff.1 passed
    rw [cons_append, close, if_neg, first]
    · exact ih passed
    · rintro ⟨top, rfl⟩
      simp [pass, top, shut, isOpenBracket, isCloseBracket] at first

end Tally

def Flush (parts : List Part) : Prop :=
  ∀ tally : Tally, tally.passAll parts = some (tally.move tally.nesting (isSolid parts))

namespace Flush

theorem nil : Flush [] := fun tally => by simp [Tally.passAll, isSolid]

theorem append {parts more : List Part} (first : Flush parts) (second : Flush more) :
    Flush (parts ++ more) := by
  intro tally
  rw [Tally.passAll_append, first, Option.bind_some, second, Tally.move_move, isSolid, isSolid,
    isSolid, any_append]
  rfl

end Flush

theorem flush_unmarked {text : Text} (unmarked : ∀ c ∈ text, isMark c = false) :
    Flush (text.map .code) := by
  induction text with
  | nil => exact Flush.nil
  | cons c cs ih =>
    obtain ⟨head, later⟩ := forall_mem_cons.1 unmarked
    simp only [isMark, Bool.or_eq_false_iff, beq_eq_false_iff_ne] at head
    have first : Flush [.code c] := by
      intro tally
      rw [Tally.passAll, Tally.pass, if_neg (by simp [head.1.1]), if_neg (by simp [head.1.2]),
        if_neg (by simp [head.2])]
      simp [Tally.passAll, isSolid, Part.isBlank]
    exact first.append (ih later)

theorem isSolid_code_of_blank {text : Text} (blank : text.isBlank = true) :
    isSolid (text.map .code) = false := by
  rw [isSolid, any_map, any_eq_false]
  intro c member
  simp [Part.isBlank, isBlank_iff.1 blank c member]

theorem Tally.passAll_blank {text : Text} (blank : text.isBlank = true) (tally : Tally) :
    tally.passAll (text.map .code) = some tally := by
  have flush : Flush (text.map .code) := flush_unmarked fun c member =>
    (Walk.isPlain_of_isBlank (isBlank_iff.1 blank c member)).2
  rw [flush, isSolid_code_of_blank blank, move_self]

/-! ### Groups and their arguments -/

/-- What closing a group says about its parts: those of the arguments, which commas part, and those
behind the group. -/
structure GroupParts (nesting : List Char) (text : Text) (cut : Cut) (first : Text)
    (others : List Text) : Prop where
  pieces : commaPieces nesting.length cut.taken = first :: others
  taken : ∃ back, cut.taken = first ++ back ∧ back.head? ≠ some '\n'
  inside : cut.taken.parts = first.parts ++ others.flatMap fun piece => .code ',' :: piece.parts
  parts : text.parts = first.parts ++
    ((others.flatMap fun piece => .code ',' :: piece.parts) ++ .code ')' :: cut.rest.parts)
  first : ∀ (outer : List Char) (tally : Tally), tally.nesting = nesting ++ outer →
    tally.passAll first.parts = some (tally.move outer (isSolid first.parts))
  others : ∀ piece ∈ others, Flush piece.parts

theorem GroupParts.join {nesting inner : List Char} {text behind front : Text} {first : Text}
    {others : List Text} (group : GroupParts inner behind cut first others)
    (textParts : text.parts = part :: behind.parts)
    (firstParts : Text.parts (front ++ first) = part :: first.parts)
    (takenParts : Text.parts (front ++ cut.taken) = part :: cut.taken.parts)
    (joined : commaPieces nesting.length (front ++ cut.taken) =
      joinFirst front (commaPieces inner.length cut.taken))
    (passes : ∀ (outer : List Char) (tally : Tally), tally.nesting = nesting ++ outer →
      tally.pass part = some (tally.move (inner ++ outer) (!part.isBlank))) :
    GroupParts nesting text (cut.after front) (front ++ first) others where
  pieces := by rw [Cut.after, joined, group.pieces, joinFirst]
  taken := by
    obtain ⟨back, taken, notFeed⟩ := group.taken
    exact ⟨back, by rw [Cut.after, taken, append_assoc], notFeed⟩
  inside := by rw [Cut.after, takenParts, group.inside, firstParts]; rfl
  parts := by rw [textParts, group.parts, firstParts]; rfl
  first := by
    intro outer tally nested
    rw [firstParts, Tally.passAll, passes outer tally nested, Option.bind_some,
      group.first outer _ rfl, Tally.move_move, isSolid, isSolid, any_cons]
  others := group.others

theorem not_isBlank_of_isMark {c : Char} (mark : isMark c = true) : isBlank c = false := by
  cases blank : isBlank c with
  | false => rfl
  | true =>
    rw [(Walk.isPlain_of_isBlank blank).2] at mark
    cases mark

theorem closeGroup_paren {nesting : List Char} {text : Text} {cut : Cut}
    (closed : closeGroup (nesting ++ ['(']) text = some cut) :
    cut.taken ++ ')' :: cut.rest = text := by
  obtain ⟨c, closer, whole⟩ := Accessor.closeGroup_whole closed (by simp)
  rw [getLast_append_singleton] at closer
  cases closer
  exact whole

theorem GroupParts.char {nesting inner : List Char} {c : Char} {cs : Text} {cut : Cut}
    {first : Text}
    {others : List Text} (group : GroupParts inner cs cut first others)
    (closed : closeGroup (inner ++ ['(']) cs = some cut) (plain : Literal.first? (c :: cs) = none)
    (joined : Literal.first? (c :: cut.taken) = none →
      commaPieces nesting.length (c :: cut.taken) = joinFirst [c] (commaPieces inner.length cut.taken))
    (passes : ∀ (outer : List Char) (tally : Tally), tally.nesting = nesting ++ outer →
      tally.pass (.code c) = some (tally.move (inner ++ outer) (!isBlank c))) :
    ∃ first others, GroupParts nesting (c :: cs) (cut.after [c]) first others := by
  have whole := closeGroup_paren closed
  obtain ⟨back, taken, _⟩ := group.taken
  have inFirst : Literal.first? (c :: first) = none := by
    rw [← whole, taken, append_assoc] at plain
    exact first?_front plain
  rw [← whole] at plain
  exact ⟨_, _, group.join (parts_cons (whole ▸ plain)) (parts_cons inFirst)
    (parts_cons (first?_front plain)) (joined (first?_front plain)) passes⟩

theorem groupParts_of_closeGroup {nesting : List Char} {text : Text} {cut : Cut}
    (closed : closeGroup (nesting ++ ['(']) text = some cut) :
    ∃ first others, GroupParts nesting text cut first others := by
  generalize same : nesting ++ ['('] = all at closed
  fun_induction closeGroup all text generalizing nesting cut with
  | case1 all text literal found _ ih =>
    obtain ⟨inner, within, rfl⟩ := Option.map_eq_some_iff.1 closed
    obtain ⟨first, others, group⟩ := ih same within
    subst same
    have whole := closeGroup_paren within
    obtain ⟨back, taken, notFeed⟩ := group.taken
    have isText : literal.taken ++ literal.rest = text := (whole_first? found).1
    rw [← isText] at found
    -- A line feed behind the literal is inside the group and inside its first argument.
    have feeds : literal.rest.head? = some '\n' → first.head? = some '\n' := by
      intro feed
      rw [← whole, taken] at feed
      cases first with
      | cons d ds => exact feed
      | nil =>
        cases back with
        | nil => cases feed
        | cons d ds => exact absurd feed notFeed
    have stays : ∀ other, (literal.rest.head? = some '\n' → other.head? = some '\n') →
        Literal.first? (literal.taken ++ other) = some ⟨literal.taken, other⟩ := by
      refine fun other feeds => first?_change found ?_
      rintro (⟨none, _⟩ | ⟨feed, _⟩)
      · rw [none] at whole
        simp at whole
      · exact .inr ⟨feed, feeds feed⟩
    have inTaken : literal.rest.head? = some '\n' → inner.taken.head? = some '\n' := by
      intro feed
      rw [taken, head?_append, feeds feed]
      rfl
    refine ⟨_, _, group.join (parts_literal (isText ▸ found))
      (parts_literal (stays first feeds)) (parts_literal (stays inner.taken inTaken))
      (commaPieces_literal (stays inner.taken inTaken) _) ?_⟩
    intro outer tally nested
    rw [← nested]
    rfl
  | case2 => cases closed
  | case3 all c cs plain opens ih =>
    obtain ⟨inner, within, rfl⟩ := Option.map_eq_some_iff.1 closed
    subst same
    obtain ⟨first, others, group⟩ := @ih (c :: nesting) inner rfl within
    refine group.char within plain (fun plain => by rw [commaPieces_cons plain, if_pos opens]; rfl) ?_
    intro outer tally nested
    rw [Tally.pass, if_pos opens, nested, not_isBlank_of_isMark (by simp [isMark, opens])]
    rfl
  | case4 => cases closed
  | case5 => cases closed
  | case6 c cs plain _ closes opener outer fits last =>
    cases closed
    obtain rfl := isEmpty_iff.1 last
    obtain ⟨rfl, rfl⟩ : nesting = [] ∧ opener = '(' := by
      cases nesting with
      | nil => exact ⟨rfl, by simpa using same.symm⟩
      | cons d ds => simp at same
    obtain rfl : ')' = c := by simpa [closingBracket?] using fits
    refine ⟨[], [], ?_, ⟨[], rfl, by simp⟩, by simp, ?_, ?_, by simp⟩
    · rw [commaPieces]
      rfl
    · rw [parts_cons plain]
      simp
    · rintro outer tally rfl
      rw [parts_nil]
      exact Flush.nil tally
  | case7 c cs plain notOpen closes opener outer fits notLast ih =>
    obtain ⟨inner, within, rfl⟩ := Option.map_eq_some_iff.1 closed
    obtain ⟨nesting, rfl, rfl⟩ : ∃ deeper, nesting = opener :: deeper ∧ outer = deeper ++ ['('] := by
      cases nesting with
      | nil =>
        rw [(List.cons.inj same).2.symm] at notLast
        simp at notLast
      | cons d ds => exact ⟨ds, by rw [(List.cons.inj same).1], (List.cons.inj same).2.symm⟩
    obtain ⟨first, others, group⟩ := ih rfl within
    refine group.char within plain
      (fun plain => by rw [commaPieces_cons plain, if_neg notOpen, if_pos closes]; rfl) ?_
    intro outer tally nested
    rw [Tally.pass, if_neg notOpen, if_pos closes, nested, cons_append, shut,
      if_pos (by simpa using fits), not_isBlank_of_isMark (by simp [isMark, closes])]
    rfl
  | case8 all c cs plain notOpen notClose ih =>
    obtain ⟨inner, within, rfl⟩ := Option.map_eq_some_iff.1 closed
    subst same
    obtain ⟨first, others, group⟩ := ih rfl within
    by_cases parts : c = ',' ∧ nesting.length = 0
    · obtain ⟨rfl, top⟩ := parts
      obtain rfl := length_eq_zero_iff.1 top
      have inTaken : Literal.first? (',' :: inner.taken) = none :=
        first?_of_isPlain (by decide) _
      refine ⟨[], first :: others, ?_, ⟨',' :: inner.taken, rfl, by simp⟩, ?_, ?_, ?_, ?_⟩
      · rw [Cut.after, singleton_append, commaPieces_cons inTaken, if_neg notOpen,
          if_neg notClose, if_pos ⟨rfl, rfl⟩]
        exact congrArg _ group.pieces
      · rw [Cut.after, singleton_append, parts_cons inTaken, group.inside, parts_nil]
        rfl
      · rw [parts_cons plain, group.parts]
        simp [Cut.after]
      · rintro outer tally rfl
        rw [parts_nil]
        exact Flush.nil tally
      · refine forall_mem_cons.2 ⟨fun tally => ?_, group.others⟩
        exact group.first tally.nesting tally rfl
    · refine group.char within plain
        (fun plain => by rw [commaPieces_cons plain, if_neg notOpen, if_neg notClose, if_neg parts]) ?_
      intro outer tally nested
      have inside : ¬ (c = ',' ∧ tally.nesting = []) := by
        rintro ⟨comma, none⟩
        rw [nested] at none
        exact parts ⟨comma, by rw [(append_eq_nil_iff.1 none).1]; rfl⟩
      rw [Tally.pass, if_neg notOpen, if_neg notClose, if_neg inside, nested]

theorem Tally.close_eq_none {tally : Tally} {text : Text}
    (unclosed : closeGroup (tally.nesting ++ ['(']) text = none) : tally.close text.parts = none := by
  generalize same : tally.nesting ++ ['('] = all at unclosed
  fun_induction closeGroup all text generalizing tally with
  | case1 all text literal found _ ih =>
    rw [parts_literal found, close, if_neg (by simp)]
    exact ih same (by simpa using unclosed)
  | case2 => simp [close]
  | case3 all c cs plain opens ih =>
    rw [parts_cons plain, close, if_neg, pass, if_pos opens]
    · exact ih (by rw [← same]; rfl) (by simpa using unclosed)
    · rintro ⟨_, closer⟩
      cases closer
      cases opens
  | case4 => simp at same
  | case5 c cs plain notOpen closes opener outer differs =>
    rw [parts_cons plain, close, pass, if_neg notOpen, if_pos closes]
    cases nested : tally.nesting with
    | nil =>
      rw [nested] at same
      obtain ⟨rfl, _⟩ := List.cons.inj same
      rw [if_neg]
      · rfl
      · rintro ⟨_, closer⟩
        cases closer
        exact differs rfl
    | cons d ds =>
      rw [nested] at same
      obtain ⟨rfl, _⟩ := List.cons.inj same
      rw [if_neg (by simp), shut, if_neg differs]
      rfl
  | case6 => cases unclosed
  | case7 c cs plain notOpen closes opener outer fits notLast ih =>
    cases nested : tally.nesting with
    | nil =>
      rw [nested] at same
      obtain ⟨_, rfl⟩ := List.cons.inj same
      simp at notLast
    | cons d ds =>
      rw [nested] at same
      obtain ⟨rfl, rfl⟩ := List.cons.inj same
      rw [parts_cons plain, close, pass, if_neg notOpen, if_pos closes, nested,
        if_neg (by simp), shut, if_pos (by simpa using fits)]
      exact ih rfl (by simpa using unclosed)
  | case8 all c cs plain notOpen notClose ih =>
    have next := fun tally same => @ih tally same (by simpa using unclosed)
    rw [parts_cons plain, close, if_neg, pass, if_neg notOpen, if_neg notClose]
    · split
      · next top => exact next _ (by rw [← same, top.2])
      · exact next _ same
    · rintro ⟨_, closer⟩
      cases closer
      exact notClose (by decide)

def parted (first : List Part) (others : List (List Part)) : List Part :=
  first ++ others.flatMap fun piece => .code ',' :: piece

theorem Tally.close_parted {tally : Tally} (top : tally.nesting = []) {first : List Part}
    {others : List (List Part)} (flush : ∀ piece ∈ first :: others, Flush piece) (rest : List Part) :
    tally.close (parted first others ++ .code ')' :: rest) =
      some (tally.early + others.length + 1,
        tally.given + (tally.solid || isSolid first).toNat + others.countP isSolid) := by
  induction others generalizing tally first with
  | nil =>
    rw [parted, flatMap_nil, append_nil, close_append (flush first mem_cons_self tally),
      close, if_pos ⟨by rw [nesting_move, top], rfl⟩]
    rfl
  | cons second others ih =>
    obtain ⟨isFirst, areOthers⟩ := forall_mem_cons.1 flush
    rw [parted, flatMap_cons, cons_append, append_assoc, close_append (isFirst tally),
      cons_append, close, if_neg (by simp), pass, if_neg (by decide), if_neg (by decide),
      if_pos ⟨rfl, by rw [nesting_move, top]⟩, Option.bind_some]
    rw [← parted, ih rfl areOthers]
    dsimp only [counts, move]
    have one : (if isSolid second = true then 1 else 0) = (isSolid second).toNat := by
      cases isSolid second <;> rfl
    rw [length_cons, countP_cons, Bool.false_or, one]
    congr 2 <;> omega

theorem Tally.passAll_parted {tally : Tally} (top : tally.nesting = []) {first : List Part}
    {others : List (List Part)} (flush : ∀ piece ∈ first :: others, Flush piece) :
    ∃ next, tally.passAll (parted first others) = some next ∧ next.nesting = [] := by
  induction others generalizing tally first with
  | nil =>
    rw [parted, flatMap_nil, append_nil]
    exact ⟨_, flush first mem_cons_self tally, top⟩
  | cons second others ih =>
    obtain ⟨isFirst, areOthers⟩ := forall_mem_cons.1 flush
    rw [parted, flatMap_cons, cons_append, passAll_append, isFirst tally, Option.bind_some,
      passAll, pass, if_neg (by decide), if_neg (by decide), if_pos ⟨rfl, by rw [nesting_move, top]⟩,
      Option.bind_some]
    exact ih rfl areOthers

def groupCounts : List Part → Option (Nat × Nat)
  | .code '(' :: parts => Tally.start.close parts
  | _ => none

theorem commaPieces_of_blank {text : Text} (blank : text.isBlank = true) (depth : Nat) :
    commaPieces depth text = [text] := by
  induction text with
  | nil =>
    rw [commaPieces]
    rfl
  | cons c cs ih =>
    have all := isBlank_iff.1 blank
    obtain ⟨plain, unmarked⟩ := Walk.isPlain_of_isBlank (all c mem_cons_self)
    simp only [isMark, Bool.or_eq_false_iff, beq_eq_false_iff_ne] at unmarked
    rw [commaPieces_cons (first?_of_isPlain plain cs), if_neg (by simp [unmarked.1.1]),
      if_neg (by simp [unmarked.1.2]), if_neg (by simp [unmarked.2]),
      ih (isBlank_iff.2 fun d member => all d (mem_cons_of_mem _ member))]
    rfl

theorem givenCount_eq_countP (offset : Nat) (pieces : List Text) :
    Accessor.givenCount (withOffsets offset pieces) = pieces.countP fun piece => !piece.isBlank := by
  have texts := texts_withOffsets offset pieces
  calc Accessor.givenCount (withOffsets offset pieces)
      = (withOffsets offset pieces).countP fun argument => !argument.text.isBlank :=
        countP_eq_length_filter.symm
    _ = ((withOffsets offset pieces).map Argument.text).countP fun piece => !piece.isBlank :=
        by rw [countP_map]; rfl
    _ = pieces.countP fun piece => !piece.isBlank := by rw [texts]

namespace GroupParts

variable {text : Text} {first : Text} {others : List Text}

section

variable (group : GroupParts [] text cut first others)

include group

theorem flush : ∀ piece ∈ first :: others, Flush piece.parts :=
  forall_mem_cons.2 ⟨fun tally => group.first tally.nesting tally rfl, group.others⟩

theorem parted :
    text.parts = parted first.parts (others.map Text.parts) ++ .code ')' :: cut.rest.parts := by
  rw [group.parts, FlatMemory.parted, flatMap_map, append_assoc]

theorem spelled (closed : closeGroup ['('] text = some cut) :
    (FlatMemory.parted first.parts (others.map Text.parts)).flatMap Part.text = cut.taken := by
  have whole := @closeGroup_paren [] text cut closed
  have spelled := spelled_parts text
  rw [group.parted, flatMap_append, flatMap_cons, spelled_parts cut.rest, ← whole] at spelled
  exact append_cancel_right spelled

theorem counts :
    Tally.start.close text.parts = some ((commaPieces 0 cut.taken).length,
      (commaPieces 0 cut.taken).countP fun piece => !piece.isBlank) := by
  have flush : ∀ parts ∈ first.parts :: others.map Text.parts, Flush parts := by
    rw [← map_cons]
    exact forall_mem_map.2 group.flush
  have solid : (isSolid ∘ Text.parts) = fun piece => !piece.isBlank := by
    funext piece
    exact isSolid_parts piece
  rw [group.parted, Tally.close_parted rfl flush, show commaPieces 0 cut.taken = _ from group.pieces,
    countP_map, solid, length_map, length_cons, countP_cons, isSolid_parts]
  cases first.isBlank <;> simp [Tally.start, Nat.add_comm]

end

end GroupParts

theorem groupCounts_paren (cs : Text) :
    groupCounts (Text.parts ('(' :: cs)) = Tally.start.close cs.parts := by
  rw [parts_cons (first?_of_isPlain (by decide) cs)]
  rfl

theorem groupCounts_eq_none {text : Text} (other : text.head? ≠ some '(') :
    groupCounts text.parts = none := by
  cases found : Literal.first? text with
  | some cut => rw [parts_literal found, groupCounts]; simp
  | none =>
    cases text with
    | nil => rw [parts_nil, groupCounts]; simp
    | cons c cs =>
      rw [parts_cons found, groupCounts]
      rintro parts same
      cases same
      exact other rfl

/-- So many arguments, none of them blank, are what the parts of a group count. -/
theorem groupCounts_eq_some_iff {text : Text} {count : Nat} (positive : 0 < count) :
    groupCounts text.parts = some (count, count) ↔ ∃ group, group? text = some group ∧
      (splitArguments group.taken).length = count ∧
        Accessor.givenCount (splitArguments group.taken) = count := by
  by_cases paren : text.head? = some '('
  · obtain ⟨cs, rfl⟩ := head?_eq_some_iff.1 paren
    rw [groupCounts_paren, group?]
    cases closed : closeGroup ['('] cs with
    | none =>
      have unclosed := @Tally.close_eq_none Tally.start cs closed
      simp [unclosed]
    | some cut =>
      obtain ⟨first, others, group⟩ := @groupParts_of_closeGroup [] cs cut closed
      rw [group.counts]
      simp only [Option.some.injEq, Prod.mk.injEq, exists_eq_left']
      unfold splitArguments
      split
      · next blank =>
        rw [commaPieces_of_blank blank]
        simp only [length_nil, countP_singleton, blank]
        simp [Nat.ne_of_lt positive]
      · rw [length_withOffsets, givenCount_eq_countP]
  · rw [groupCounts_eq_none paren, group?]
    · simp
    · rintro cs rfl
      exact paren rfl

/-! ### Parts in the place of others -/

theorem endsOpen_append (solid : isSolid more = true) :
    endsOpen (parts ++ more) = endsOpen more := by
  obtain ⟨part, member, notBlank⟩ := any_eq_true.1 solid
  have some : solidParts more ≠ [] := ne_nil_of_mem (mem_filter.2 ⟨member, notBlank⟩)
  rw [endsOpen, endsOpen, solidParts, filter_append, ← solidParts, ← solidParts,
    getLast?_append_of_ne_nil _ some]

theorem endsOpen_append_blank (blank : isSolid more = false) :
    endsOpen (parts ++ more) = endsOpen parts := by
  have none : solidParts more = [] :=
    filter_eq_nil_iff.2 fun part member => by simpa using any_eq_false.1 blank part member
  rw [endsOpen, endsOpen, solidParts, filter_append, ← solidParts, ← solidParts, none,
    append_nil]

theorem endsOpen_code (text : Text) : endsOpen (text.map .code) = false := by
  cases last : (solidParts (text.map .code)).getLast? with
  | none => rw [endsOpen, last]; rfl
  | some part =>
    obtain ⟨c, _, rfl⟩ := mem_map.1 (mem_filter.1 (mem_of_getLast? last)).1
    rw [endsOpen, last]
    rfl

/-- Parts that can stand for each other: they keep their brackets and commas to themselves, are not
blank and do not end in an open literal. -/
structure Replaceable (parts : List Part) : Prop where
  flush : Flush parts
  solid : isSolid parts = true
  shut : endsOpen parts = false

theorem Part.ends_solid (notBlank : part.isBlank = false) (shut : part.isOpen = false) :
    ∃ (start : Text) (last : Char), part.text = start ++ [last] ∧ FlatMemory.isBlank last = false := by
  cases part with
  | literal text => exact (sealed_of_not_isOpen shut).ends
  | code c => exact ⟨[], c, rfl, notBlank⟩

theorem exists_trimmed (parts : List Part) : ∃ (early : List Part) (trail : Text),
    parts = early ++ trail.map .code ∧ trail.isBlank = true ∧
      ∀ part, early.getLast? = some part → part.isBlank = false := by
  induction parts with
  | nil => exact ⟨[], [], rfl, rfl, by simp⟩
  | cons part parts ih =>
    obtain ⟨early, trail, rfl, blank, solid⟩ := ih
    cases early with
    | cons first early =>
      exact ⟨part :: first :: early, trail, rfl, blank, fun other last => solid other (by
        rwa [getLast?_cons_cons] at last)⟩
    | nil =>
      cases part with
      | literal text => exact ⟨[.literal text], trail, rfl, blank, by rintro _ ⟨⟩; rfl⟩
      | code c =>
        cases isBlank : isBlank c with
        | true =>
          refine ⟨[], c :: trail, rfl, ?_, by simp⟩
          rw [Text.isBlank, all_cons, isBlank]
          exact blank
        | false => exact ⟨[.code c], trail, rfl, blank, by rintro _ ⟨⟩; exact isBlank⟩

namespace Replaceable

variable {blank : Text}

theorem append {more : List Part} (first : Replaceable parts) (second : Replaceable more) :
    Replaceable (parts ++ more) := by
  refine ⟨first.flush.append second.flush, ?_, (endsOpen_append second.solid).trans second.shut⟩
  rw [isSolid, any_append, ← isSolid, first.solid, Bool.true_or]

theorem behind_blank (replaceable : Replaceable (blank.map .code ++ parts))
    (isBlank : blank.isBlank = true) : Replaceable parts := by
  have same : isSolid (blank.map .code ++ parts) = isSolid parts := by
    rw [isSolid, any_append, ← isSolid, ← isSolid, isSolid_code_of_blank isBlank, Bool.false_or]
  have solid : isSolid parts = true := same ▸ replaceable.solid
  refine ⟨fun tally => ?_, solid, (endsOpen_append solid).symm.trans replaceable.shut⟩
  have passed := replaceable.flush tally
  rwa [Tally.passAll_append, Tally.passAll_blank isBlank, Option.bind_some, same] at passed

theorem before_blank (replaceable : Replaceable (parts ++ blank.map .code))
    (isBlank : blank.isBlank = true) : Replaceable parts := by
  have none := isSolid_code_of_blank isBlank
  have same : isSolid (parts ++ blank.map .code) = isSolid parts := by
    rw [isSolid, any_append, ← isSolid, ← isSolid, none, Bool.or_false]
  refine ⟨fun tally => ?_, same ▸ replaceable.solid,
    (endsOpen_append_blank none).symm.trans replaceable.shut⟩
  have passed := replaceable.flush tally
  rw [Tally.passAll_append] at passed
  obtain ⟨next, first, second⟩ := Option.bind_eq_some_iff.1 passed
  rw [Tally.passAll_blank isBlank] at second
  rw [first, second, same]

end Replaceable

inductive Alike : List Part → List Part → Prop
  | nil : Alike [] []
  | same {parts others : List Part} (part : Part) (later : Alike parts others) :
    Alike (part :: parts) (part :: others)
  | replaced {form text parts others : List Part} (isForm : Replaceable form)
    (isText : Replaceable text) (starts : form.head? ≠ some (.code '('))
    (literals : literalsIn text = literalsIn form) (later : Alike parts others) :
    Alike (form ++ parts) (text ++ others)

namespace Alike

variable {others : List Part}

theorem append (alike : Alike parts others) (front : List Part) :
    Alike (front ++ parts) (front ++ others) := by
  induction front with
  | nil => exact alike
  | cons part front ih => exact .same part ih

section

variable (alike : Alike parts others)

include alike

theorem passAll (tally : Tally) : tally.passAll parts = tally.passAll others := by
  induction alike generalizing tally with
  | nil => rfl
  | same part _ ih =>
    rw [Tally.passAll, Tally.passAll]
    exact congrArg _ (funext ih)
  | replaced isForm isText _ _ _ ih =>
    rw [Tally.passAll_append, Tally.passAll_append, isForm.flush, isText.flush, isForm.solid,
      isText.solid]
    exact ih _

theorem close (tally : Tally) : tally.close parts = tally.close others := by
  induction alike generalizing tally with
  | nil => rfl
  | same part _ ih =>
    rw [Tally.close, Tally.close]
    split
    · rfl
    · exact congrArg _ (funext ih)
  | replaced isForm isText _ _ _ ih =>
    rw [Tally.close_append (isForm.flush tally), Tally.close_append (isText.flush tally), isForm.solid,
      isText.solid]
    exact ih _

theorem literals : literalsIn others = literalsIn parts := by
  induction alike with
  | nil => rfl
  | same part _ ih =>
    rw [← singleton_append, literalsIn_append, ih, ← literalsIn_append]
    rfl
  | replaced _ _ _ same _ ih => rw [literalsIn_append, literalsIn_append, same, ih]

theorem isSolid : isSolid parts = FlatMemory.isSolid others := by
  induction alike with
  | nil => rfl
  | same part _ ih =>
    rw [FlatMemory.isSolid, FlatMemory.isSolid, any_cons, any_cons]
    exact congrArg _ ih
  | replaced isForm isText =>
    have form := isForm.solid
    have text := isText.solid
    rw [FlatMemory.isSolid] at form text
    rw [FlatMemory.isSolid, FlatMemory.isSolid, any_append, any_append, form, text]
    rfl

theorem endsOpen : endsOpen parts = FlatMemory.endsOpen others := by
  induction alike with
  | nil => rfl
  | @same parts others part later ih =>
    rw [← singleton_append, ← @singleton_append _ part others]
    cases solid : FlatMemory.isSolid parts with
    | true => rw [endsOpen_append solid, endsOpen_append (later.isSolid ▸ solid), ih]
    | false => rw [endsOpen_append_blank solid, endsOpen_append_blank (later.isSolid ▸ solid)]
  | @replaced form text parts others isForm isText _ _ later ih =>
    cases solid : FlatMemory.isSolid parts with
    | true => rw [endsOpen_append solid, endsOpen_append (later.isSolid ▸ solid), ih]
    | false =>
      rw [endsOpen_append_blank solid, endsOpen_append_blank (later.isSolid ▸ solid), isForm.shut,
        isText.shut]

end

theorem replaceable (alike : Alike parts others) (replaceable : Replaceable parts) :
    Replaceable others where
  flush := fun tally => by rw [← alike.passAll, replaceable.flush, alike.isSolid]
  solid := alike.isSolid ▸ replaceable.solid
  shut := alike.endsOpen ▸ replaceable.shut

theorem behind_paren (alike : Alike (.code '(' :: parts) (.code '(' :: others)) :
    Alike parts others := by
  generalize one : Part.code '(' :: parts = first at alike
  generalize two : Part.code '(' :: others = second at alike
  cases alike with
  | nil => cases one
  | same part later =>
    obtain ⟨rfl, rfl⟩ := List.cons.inj one
    obtain ⟨_, rfl⟩ := List.cons.inj two
    exact later
  | @replaced form text _ _ isForm _ starts =>
    cases form with
    | nil => cases isForm.solid
    | cons part form =>
      obtain ⟨rfl, _⟩ := List.cons.inj one
      exact absurd rfl starts

end Alike

/-! ### Parts inside brackets -/

def Inside (parts : List Part) : Prop :=
  ∀ tally : Tally, tally.nesting ≠ [] → tally.solid = true → tally.passAll parts = some tally

theorem Tally.move_solid {tally : Tally} (filled : tally.solid = true) (solid : Bool) :
    tally.move tally.nesting solid = tally := by
  rw [move, filled, Bool.true_or, ← filled]

theorem Flush.inside {parts : List Part} (flush : Flush parts) : Inside parts := by
  intro tally _ filled
  rw [flush, Tally.move_solid filled]

namespace Inside

variable {opener closer : Char}

theorem append (first : Inside parts) (second : Inside more) : Inside (parts ++ more) := by
  intro tally nested filled
  rw [Tally.passAll_append, first tally nested filled]
  exact second tally nested filled

theorem comma : Inside [.code ','] := by
  intro tally nested filled
  rw [Tally.passAll, Tally.pass, if_neg (by decide), if_neg (by decide), if_neg (by simp [nested]),
    Tally.move_solid filled]
  rfl

theorem parted {first : List Part} {others : List (List Part)} (isFirst : Inside first)
    (areOthers : ∀ piece ∈ others, Inside piece) : Inside (parted first others) := by
  refine isFirst.append ?_
  induction others with
  | nil => exact Flush.nil.inside
  | cons second others ih =>
    obtain ⟨isSecond, areOthers⟩ := forall_mem_cons.1 areOthers
    exact comma.append (isSecond.append (ih areOthers))

theorem closes_of_closingBracket (closes : closingBracket? opener = some closer) :
    isOpenBracket closer = false ∧ isCloseBracket closer = true := by
  unfold closingBracket? at closes
  split at closes <;> cases closes <;> decide

theorem enclosed (inside : Inside parts) (opens : isOpenBracket opener = true)
    (closes : closingBracket? opener = some closer) :
    Flush (.code opener :: (parts ++ [.code closer])) := by
  have isClose := closes_of_closingBracket closes
  have solid : isSolid (.code opener :: (parts ++ [.code closer])) = true := by
    have notBlank := not_isBlank_of_isMark (c := opener) (by simp [isMark, opens])
    simp [isSolid, Part.isBlank, notBlank]
  intro tally
  rw [Tally.passAll, Tally.pass, if_pos opens, Option.bind_some, Tally.passAll_append,
    inside _ (by simp) (by simp [Tally.move]), Option.bind_some, Tally.passAll, Tally.pass,
    if_neg (by simp [isClose.1]), if_pos isClose.2, Tally.nesting_move, shut, if_pos closes, solid]
  simp [Tally.passAll]

theorem replaceable (inside : Inside parts) {opener closer : Char}
    (opens : isOpenBracket opener = true) (closes : closingBracket? opener = some closer) :
    Replaceable (.code opener :: (parts ++ [.code closer])) := by
  have first := not_isBlank_of_isMark (c := opener) (by simp [isMark, opens])
  have last := not_isBlank_of_isMark (c := closer) (by simp [isMark, closes_of_closingBracket closes])
  refine ⟨inside.enclosed opens closes, by simp [isSolid, Part.isBlank, first], ?_⟩
  rw [← cons_append, endsOpen_append (by simp [isSolid, Part.isBlank, last])]
  exact endsOpen_code [closer]

end Inside

theorem replaceable_code {text : Text} (unmarked : ∀ c ∈ text, isMark c = false)
    (solid : text.isBlank = false) : Replaceable (text.map .code) := by
  refine ⟨flush_unmarked unmarked, ?_, endsOpen_code text⟩
  obtain ⟨c, member, notBlank⟩ := all_eq_false.1 solid
  rw [isSolid, any_map, any_eq_true]
  exact ⟨c, member, by simpa [Part.isBlank] using notBlank⟩

/-- A parenthesis opened inside a group that closes behind some parts is closed by them. -/
theorem Tally.exists_close {parts : List Part} {inner outer : List Char} {tally next : Tally}
    (nested : tally.nesting = inner ++ '(' :: outer) (passed : tally.passAll parts = some next)
    (closed : next.nesting.length ≤ outer.length) {here : Tally} (isHere : here.nesting = inner) :
    ∃ counts, ∀ more, here.close (parts ++ more) = some counts := by
  induction parts generalizing inner tally here with
  | nil =>
    cases passed
    rw [nested] at closed
    simp at closed
    omega
  | cons part parts ih =>
    obtain ⟨middle, first, passed⟩ := Option.bind_eq_some_iff.1 passed
    by_cases ends : here.nesting = [] ∧ part = .code ')'
    · exact ⟨here.counts, fun more => by rw [cons_append, close, if_pos ends]⟩
    -- The outer count and the one at hand pass the part alike.
    obtain ⟨deeper, inMiddle, after, step, isAfter⟩ : ∃ deeper, middle.nesting = deeper ++ '(' :: outer ∧
        ∃ after, here.pass part = some after ∧ after.nesting = deeper := by
      cases part with
      | literal =>
        cases first
        exact ⟨inner, nested, _, rfl, isHere⟩
      | code c =>
        unfold pass at first ⊢
        dsimp only at first ⊢
        split at first
        · next opens =>
          cases first
          exact ⟨c :: inner, by rw [nesting_move, nested]; rfl, _, if_pos opens, by
            rw [nesting_move, isHere]⟩
        next notOpen =>
        rw [if_neg notOpen]
        split at first
        · next closes =>
          rw [if_pos closes, isHere]
          obtain ⟨left, shuts, rfl⟩ := Option.map_eq_some_iff.1 first
          rw [nested] at shuts
          obtain ⟨opener, same, fits⟩ := exists_of_shut shuts
          cases inner with
          | nil =>
            cases same
            cases fits
            exact absurd ⟨isHere, rfl⟩ ends
          | cons innermost inner =>
            obtain ⟨rfl, rfl⟩ := List.cons.inj same
            exact ⟨inner, rfl, here.move inner true, by rw [shut, if_pos fits]; rfl, rfl⟩
        next notClose =>
        rw [if_neg notClose]
        rw [if_neg (by simp [nested])] at first
        cases first
        refine ⟨inner, nested, ?_⟩
        split
        · next top => exact ⟨_, rfl, by rw [← isHere, top.2]⟩
        · exact ⟨_, rfl, isHere⟩
    obtain ⟨counts, closes⟩ := ih inMiddle passed isAfter
    exact ⟨counts, fun more => by rw [cons_append, close, if_neg ends, step]; exact closes more⟩

end FlatMemory
