import FlatMemory.Proofs.Code.ReferenceTokens
import Mathlib.Algebra.Ring.Nat

/-! # Expansion as an edit of the body

Expanding a body copies some of its text and swaps the rest for other text.  An edit script says
which: its source is the body, its target is what is written.  What is swapped in never breaks a line,
so the target is behind the source by the line breaks that were swapped out. -/

namespace FlatMemory

open List

inductive Edit where
  | copy (text : Text)
  | swap (source target : Text)
  deriving DecidableEq, Repr

namespace Edit

def source : Edit → Text
  | copy text => text
  | swap source _ => source

def target : Edit → Text
  | copy text => text
  | swap _ target => target

def lost : Edit → Nat
  | copy _ => 0
  | swap source _ => source.lineBreaks

def Flat : Edit → Prop
  | copy _ => True
  | swap _ target => target.lineBreaks = 0

theorem Flat.lineBreaks {edit : Edit} (flat : edit.Flat) :
    edit.target.lineBreaks + edit.lost = edit.source.lineBreaks := by
  cases edit with
  | copy text => rfl
  | swap source target =>
    have none : target.lineBreaks = 0 := flat
    rw [Edit.target, none, Nat.zero_add]
    rfl

def trimStart : Edit → List Edit
  | copy text => [swap (text.takeWhile isBlank) [], copy text.trimStart]
  | swap source target => [swap source target.trimStart]

def trimEnd : Edit → Edit
  | copy text => copy text.trimEnd
  | swap source target => swap source target.trimEnd

def trailing : Edit → Edit
  | copy text => copy text.trailingBlank
  | swap _ target => swap [] target.trailingBlank

end Edit

variable {script : List Edit}

namespace EditScript

def source (script : List Edit) : Text := script.flatMap Edit.source

def target (script : List Edit) : Text := script.flatMap Edit.target

def lost (script : List Edit) : Nat := (script.map Edit.lost).sum

def Flat (script : List Edit) : Prop := ∀ edit ∈ script, edit.Flat

@[simp] theorem source_nil : source [] = [] := rfl

@[simp] theorem source_cons (edit : Edit) (script : List Edit) :
    source (edit :: script) = edit.source ++ source script := rfl

@[simp] theorem source_append (first second : List Edit) :
    source (first ++ second) = source first ++ source second :=
  flatMap_append

@[simp] theorem target_nil : target [] = [] := rfl

@[simp] theorem target_cons (edit : Edit) (script : List Edit) :
    target (edit :: script) = edit.target ++ target script := rfl

@[simp] theorem target_append (first second : List Edit) :
    target (first ++ second) = target first ++ target second :=
  flatMap_append

theorem Flat.append {first second : List Edit} (one : Flat first) (two : Flat second) :
    Flat (first ++ second) :=
  forall_mem_append.2 ⟨one, two⟩

/-- The target has the line breaks of the source but for those that are lost. -/
theorem Flat.lineBreaks (flat : Flat script) :
    (target script).lineBreaks + lost script = (source script).lineBreaks := by
  induction script with
  | nil => rfl
  | cons edit script ih =>
    obtain ⟨here, later⟩ := forall_mem_cons.1 flat
    have one := here.lineBreaks
    have rest := ih later
    simp only [target_cons, source_cons, Text.lineBreaks_append, lost, map_cons,
      sum_cons] at rest ⊢
    omega

/-! ### Trimming -/

def trimStart : List Edit → List Edit
  | [] => []
  | edit :: script =>
    edit.trimStart ++ if edit.target.isBlank then trimStart script else script

def cutEnd : List Edit → List Edit × List Edit
  | [] => ([], [])
  | edit :: script =>
    if (target script).isBlank then
      if edit.target.isBlank then ([], edit :: script) else ([edit.trimEnd], edit.trailing :: script)
    else (edit :: (cutEnd script).1, (cutEnd script).2)

theorem lineBreaks_of_sublist {text part : Text} (isPart : part.Sublist text)
    (none : text.lineBreaks = 0) : part.lineBreaks = 0 :=
  Nat.le_zero.1 (none ▸ isPart.count_le '\n')

theorem source_trimStart (script : List Edit) : source (trimStart script) = source script := by
  induction script with
  | nil => rfl
  | cons edit script ih =>
    have here : source edit.trimStart = edit.source := by
      cases edit with
      | copy text =>
        have whole : text.takeWhile isBlank ++ text.trimStart = text :=
          takeWhile_append_dropWhile
        simpa [Edit.trimStart, Edit.source] using whole
      | swap from_ into => simp [Edit.trimStart, Edit.source]
    rw [trimStart, source_append, here, source_cons]
    split
    · rw [ih]
    · rfl

theorem target_trimStart (script : List Edit) :
    target (trimStart script) = (target script).trimStart := by
  induction script with
  | nil => rfl
  | cons edit script ih =>
    have here : target edit.trimStart = edit.target.trimStart := by
      cases edit <;> simp [Edit.trimStart, Edit.target]
    rw [trimStart, target_append, here, target_cons]
    by_cases blank : edit.target.isBlank = true
    · have all := Text.isBlank_iff.1 blank
      rw [if_pos blank, ih, Text.trimStart, dropWhile_eq_nil_iff.2 all, nil_append,
        Text.trimStart, Text.trimStart, dropWhile_append_of_pos all]
    · obtain ⟨c, member, solid⟩ := all_eq_false.1 (by simpa using blank : edit.target.isBlank = false)
      obtain ⟨front, back, split⟩ := append_of_mem member
      have notBlank : isBlank c = false := by simpa using solid
      rw [if_neg blank, split, append_assoc, cons_append,
        Text.trimStart_append_cons notBlank, Text.trimStart_append_cons notBlank, append_assoc]
      rfl

theorem flat_trimStart (flat : Flat script) : Flat (trimStart script) := by
  induction script with
  | nil => exact flat
  | cons edit script ih =>
    obtain ⟨here, later⟩ := forall_mem_cons.1 flat
    have trimmed : Flat edit.trimStart := by
      cases edit with
      | copy text => simp [Edit.trimStart, Flat, Edit.Flat, Text.lineBreaks]
      | swap from_ into =>
        have stays : into.trimStart.lineBreaks = 0 :=
          lineBreaks_of_sublist (dropWhile_sublist _) here
        simpa [Edit.trimStart, Flat, Edit.Flat] using stays
    rw [trimStart]
    refine trimmed.append ?_
    split
    · exact ih later
    · exact later

theorem source_cutEnd (script : List Edit) :
    source (cutEnd script).1 ++ source (cutEnd script).2 = source script := by
  induction script with
  | nil => rfl
  | cons edit script ih =>
    rw [cutEnd]
    split
    · split
      · rfl
      · cases edit with
        | copy text =>
          have whole := Text.trimEnd_append_trailingBlank text
          simp [Edit.trimEnd, Edit.trailing, Edit.source, ← append_assoc, whole]
        | swap from_ into => simp [Edit.trimEnd, Edit.trailing, Edit.source]
    · rw [source_cons, source_cons, append_assoc, ih]

theorem target_cutEnd (script : List Edit) :
    target (cutEnd script).1 = (target script).trimEnd ∧
      target (cutEnd script).2 = (target script).trailingBlank := by
  induction script with
  | nil => exact ⟨rfl, rfl⟩
  | cons edit script ih =>
    rw [cutEnd, target_cons]
    by_cases blank : (target script).isBlank = true
    · obtain ⟨front, back⟩ := Text.trimEnd_append_blank blank edit.target
      rw [if_pos blank, front, back]
      by_cases here : edit.target.isBlank = true
      · obtain ⟨nothing, all⟩ := Text.trimEnd_of_blank here
        rw [if_pos here, nothing, all]
        exact ⟨rfl, rfl⟩
      · rw [if_neg here]
        cases edit <;> simp [Edit.trimEnd, Edit.trailing, Edit.target]
    · obtain ⟨front, back⟩ := Text.trimEnd_append (by simpa using blank) edit.target
      rw [if_neg blank, front, back, target_cons, ih.1, ih.2]
      exact ⟨rfl, rfl⟩

theorem flat_cutEnd (flat : Flat script) :
    Flat (cutEnd script).1 ∧ Flat (cutEnd script).2 := by
  induction script with
  | nil => exact ⟨flat, flat⟩
  | cons edit script ih =>
    obtain ⟨here, later⟩ := forall_mem_cons.1 flat
    rw [cutEnd]
    split
    · split
      · exact ⟨by simp [Flat], flat⟩
      · have parts : edit.trimEnd.Flat ∧ edit.trailing.Flat := by
          cases edit with
          | copy text => exact ⟨trivial, trivial⟩
          | swap from_ into =>
            have whole := Text.trimEnd_append_trailingBlank into
            have none : into.lineBreaks = 0 := here
            rw [← whole, Text.lineBreaks_append] at none
            exact ⟨Nat.eq_zero_of_add_eq_zero_right none, Nat.eq_zero_of_add_eq_zero_left none⟩
        exact ⟨by simpa [Flat] using parts.1, forall_mem_cons.2 ⟨parts.2, later⟩⟩
    · exact ⟨forall_mem_cons.2 ⟨here, (ih later).1⟩, (ih later).2⟩

end EditScript

/-! ### References -/

namespace SelfReference

variable {reference : Reference} {after rest : List Token}

/-- The tokens behind the path of a reference: `head` leads to its value or its argument list, and
`tail` is the bracket that closes the list. -/
def Reference.Framed (reference : Reference) (after head tail rest : List Token) : Prop :=
  after = head ++ (reference.inner ++ (tail ++ rest)) ∧
    (head = [] ∧ reference.inner = [] ∧ tail = [] ∨
      ∃ skipped sign, head = skipped ++ [sign] ∧
        (∀ token ∈ skipped, token.kind.isTrivia = true) ∧
        if reference.assigns then sign.kind = .assign ∧ tail = []
        else sign.kind = .lParen ∧ ∃ closing, tail = [closing] ∧ closing.kind.isClose = true)

theorem Reference.Framed.tail_eq_nil {head tail : List Token}
    (framed : reference.Framed after head tail rest) (assigns : reference.assigns = true) :
    tail = [] := by
  rcases framed.2 with ⟨_, _, none⟩ | ⟨skipped, sign, _, _, signed⟩
  · exact none
  · rw [if_pos assigns] at signed
    exact signed.2

theorem Uses.framed {session : Session} {type : UserType} {path : List String}
    (uses : Uses session type path after reference rest) :
    ∃ head tail, reference.Framed after head tail rest := by
  have grouped : Grouped after reference.inner rest → reference.assigns = false →
      ∃ head tail, reference.Framed after head tail rest := by
    rintro ⟨skipped, opening, closing, parts, trivia, opens, closes, _⟩ calls
    refine ⟨skipped ++ [opening], [closing], by simpa using parts,
      .inr ⟨skipped, opening, rfl, trivia, ?_⟩⟩
    simpa [calls] using And.intro opens closes
  cases uses with
  | load => exact ⟨[], [], rfl, .inl ⟨rfl, rfl, rfl⟩⟩
  | @store _ _ skipped value _ operator _ _ parts trivia isAssign =>
    exact ⟨skipped ++ [operator], [], by simpa using parts,
      .inr ⟨skipped, operator, rfl, trivia, isAssign, rfl⟩⟩
  | call _ _ group => exact grouped group rfl
  | method _ group => exact grouped group rfl

/-- What a reference does to a body.  The text up to its value or its arguments is swapped for the
name that is called and `SELF`; blank text in front of the value or the arguments is dropped; blank
text behind a value moves behind the closing bracket. -/
def Reference.edits (reference : Reference) (opening : Text) (inner : List Edit) (closing : Text) :
    List Edit :=
  let given := EditScript.trimStart inner
  let cut := if reference.assigns then EditScript.cutEnd given else (given, [])
  let comma := if (EditScript.target given).isBlank then [] else ", ".toList
  .swap opening (reference.name ++ '(' :: (selfName.toList ++ comma)) ::
    (cut.1 ++ .swap closing [')'] :: cut.2)

section

variable {opening closing : Text} {inner : List Edit}

theorem Reference.source_edits (assigned : reference.assigns = true → closing = []) :
    EditScript.source (reference.edits opening inner closing) =
      opening ++ (EditScript.source inner ++ closing) := by
  have whole := EditScript.source_cutEnd (EditScript.trimStart inner)
  rw [EditScript.source_trimStart] at whole
  unfold edits
  cases assigns : reference.assigns with
  | true => simp [Edit.source, assigned assigns, whole]
  | false => simp [Edit.source, EditScript.source_trimStart]

theorem Reference.target_edits
    (assigned : reference.assigns = true → (EditScript.target inner).isBlank = false) :
    EditScript.target (reference.edits opening inner closing) =
      reference.written (EditScript.target inner) ++
        reference.trailing (EditScript.target inner) := by
  unfold edits written arguments given trailing
  dsimp only
  rw [EditScript.target_trimStart, Text.isBlank_trimStart]
  cases assigns : reference.assigns with
  | true =>
    have solid := assigned assigns
    obtain ⟨front, back⟩ := EditScript.target_cutEnd (EditScript.trimStart inner)
    rw [EditScript.target_trimStart] at front back
    rw [Text.trailingBlank_trimStart solid] at back
    rw [← Text.trim] at front
    simp [Edit.target, solid, front, back, Text.isBlank_trim]
  | false =>
    by_cases none : (EditScript.target inner).isBlank = true
    · have nothing : (EditScript.target inner).trimStart = [] :=
        dropWhile_eq_nil_iff.2 (Text.isBlank_iff.1 none)
      have empty : Text.isBlank [] = true := rfl
      simp [Edit.target, none, EditScript.target_trimStart, nothing, empty]
    · simp [Edit.target, none, EditScript.target_trimStart, Text.isBlank_trimStart]

theorem Reference.flat_edits (named : reference.Named) (flat : EditScript.Flat inner) :
    EditScript.Flat (reference.edits opening inner closing) := by
  have trimmed := EditScript.flat_trimStart flat
  have cut := EditScript.flat_cutEnd trimmed
  have name : reference.name.lineBreaks = 0 := by
    rw [Text.lineBreaks, count_eq_zero]
    intro feed
    rcases named.name.2 _ feed with part | dot
    · cases part
    · cases dot
  have call : ∀ more : Text, more.lineBreaks = 0 →
      (reference.name ++ '(' :: (selfName.toList ++ more)).lineBreaks = 0 := by
    intro more none
    have self : Text.lineBreaks ('(' :: selfName.toList) = 0 := by decide
    rw [← cons_append, Text.lineBreaks_append, Text.lineBreaks_append, name, self, none]
  have comma : ∀ blank : Bool, Text.lineBreaks (if blank then [] else ", ".toList) = 0 := by decide
  have closes : (Edit.swap closing [')']).Flat := by
    change Text.lineBreaks [')'] = 0
    decide
  unfold edits
  refine forall_mem_cons.2 ⟨call _ (comma _), ?_⟩
  cases reference.assigns with
  | true => exact cut.1.append (forall_mem_cons.2 ⟨closes, cut.2⟩)
  | false => exact trimmed.append (forall_mem_cons.2 ⟨closes, by simp⟩)

end

inductive Edits (session : Session) (type : UserType) : Bool → List Token → List Edit → Prop
  | nil (afterDot : Bool) : Edits session type afterDot [] []
  | token {afterDot : Bool} {token : Token} {tokens : List Token} {script : List Edit}
    (plain : path? afterDot token tokens = none)
    (later : Edits session type (if token.kind.isTrivia then afterDot else decide (token.kind = .dot))
      tokens script) :
    Edits session type afterDot (token :: tokens) (.copy token.text :: script)
  | reference {afterDot : Bool} {token : Token} {names after head tail rest : List Token}
    {path : List String} {reference : Reference} {inner script : List Edit}
    (found : path? afterDot token (names ++ after) = some (path, after))
    (uses : Uses session type path after reference rest)
    (framed : reference.Framed after head tail rest)
    (within : Edits session type false reference.inner inner)
    (assigned : reference.assigns = true → (EditScript.target inner).isBlank = false)
    (later : Edits session type false rest script) :
    Edits session type afterDot (token :: (names ++ after))
      (reference.edits ((token :: (names ++ head)).flatMap Token.text) inner
        (tail.flatMap Token.text) ++ script)

section

variable {session : Session} {type : UserType} {afterDot : Bool} {tokens : List Token}

theorem Edits.source (edits : Edits session type afterDot tokens script) :
    EditScript.source script = tokens.flatMap Token.text := by
  induction edits with
  | nil => rfl
  | token _ _ ih =>
    rw [EditScript.source_cons, ih]
    rfl
  | reference _ _ framed _ _ _ within later =>
    rw [EditScript.source_append, Reference.source_edits, within, later, framed.1]
    · simp
    · intro assigns
      rw [framed.tail_eq_nil assigns]
      rfl

theorem Writes.edits {text : Text} (writes : Writes session type afterDot tokens text) :
    ∃ script, Edits session type afterDot tokens script ∧ EditScript.target script = text := by
  induction writes with
  | nil afterDot => exact ⟨[], .nil afterDot, rfl⟩
  | @token _ token _ _ plain _ ih =>
    obtain ⟨script, edits, rfl⟩ := ih
    exact ⟨.copy token.text :: script, .token plain edits, rfl⟩
  | reference found uses _ assigned _ within later =>
    obtain ⟨inner, innerEdits, rfl⟩ := within
    obtain ⟨script, edits, rfl⟩ := later
    obtain ⟨_, _, names, rfl, _⟩ := path?_split found
    obtain ⟨head, tail, framed⟩ := uses.framed
    refine ⟨_, .reference found uses framed innerEdits assigned edits, ?_⟩
    rw [EditScript.target_append, Reference.target_edits assigned, append_assoc]

theorem Edits.flat (readable : session.Readable) (member : type ∈ session.types)
    (edits : Edits session type afterDot tokens script) (proper : ∀ token ∈ tokens, token.Proper) :
    EditScript.Flat script := by
  induction edits with
  | nil => simp [EditScript.Flat]
  | token _ _ ih =>
    refine forall_mem_cons.2 ⟨trivial, ih fun other isOther => ?_⟩
    exact proper other (mem_cons_of_mem _ isOther)
  | reference found uses framed _ _ _ within later =>
    have behind := (forall_mem_cons.1 proper).2
    have named := uses.named readable member (path?_identifiers found behind)
    have parts := (forall_mem_append.1 behind).2
    rw [framed.1] at parts
    refine (Reference.flat_edits named (within fun other isOther => ?_)).append
      (later fun other isOther => ?_)
    · exact parts other (by simp [isOther])
    · exact parts other (by simp [isOther])

end

end SelfReference

end FlatMemory
