import FlatMemory.Proofs.Code.Accessor
import FlatMemory.Proofs.Text.Passage
import FlatMemory.Proofs.Token.Shape
import Mathlib.Logic.Relation

/-! # Where the scanner comes by

The scanner goes on behind each form that it finds, and into the arguments of each call.  If no literal
runs over the start of a word that keeps its brackets to itself, and no name does, then the scanner
comes by the word. -/

namespace FlatMemory

open List Lexeme Warned

variable {front : Text}

/-! ### Names in front of a character that ends them -/

theorem Lexeme.not_isIdentStart {c : Char}
    (notPart : isIdentPart c = false) : isIdentStart c = false := by
  cases start : isIdentStart c with
  | false => rfl
  | true =>
    rw [isIdentPart_of_isIdentStart start] at notPart
    cases notPart

namespace DottedName

variable {stop : Char}

theorem readSegments_stop (notPart : isIdentPart stop = false) (notDot : stop ≠ '.')
    (text more : Text) :
    readSegments (text ++ stop :: more) =
      ((readSegments text).1, (readSegments text).2.followedBy (stop :: more)) := by
  have notStart := not_isIdentStart notPart
  fun_induction readSegments text with
  | case1 c cs start word shorter later cut found ih =>
    rw [found] at ih
    rw [cons_append, cons_append, readSegments, if_pos start]
    dsimp only
    rw [Cut.span_stop notPart]
    dsimp only [Cut.followedBy]
    rw [ih]
    rfl
  | case2 c cs notStart' =>
    rw [cons_append, cons_append, readSegments, if_neg notStart']
    rfl
  | case3 text other =>
    match text, other with
    | [], _ =>
      rw [nil_append, readSegments]
      · rfl
      · rintro c cs same
        exact notDot (List.cons.inj same).1
    | [d], _ =>
      by_cases dot : d = '.'
      · subst dot
        rw [singleton_append, readSegments, if_neg (by simp [notStart])]
        rfl
      · rw [singleton_append, readSegments]
        · rfl
        · rintro c cs same
          exact dot (List.cons.inj same).1
    | d :: e :: es, other =>
      rw [cons_append, cons_append, readSegments]
      · rfl
      · rintro c cs same
        exact other e es (by rw [(List.cons.inj same).1])

theorem read_stop (notPart : isIdentPart stop = false) (notDot : stop ≠ '.') (text more : Text) :
    read (text ++ stop :: more) = ((read text).1, (read text).2.followedBy (stop :: more)) := by
  unfold read
  dsimp only
  rw [Cut.span_stop notPart]
  dsimp only [Cut.followedBy]
  rw [readSegments_stop notPart notDot]
  rfl

theorem plain_read (text : Text) : ∀ c ∈ (read text).2.taken, isIdentPart c = true ∨ c = '.' := by
  have segments : ∀ text, ∀ c ∈ (readSegments text).2.taken, isIdentPart c = true ∨ c = '.' := by
    intro text
    fun_induction readSegments text with
    | case1 c cs start word shorter later cut found ih =>
      rw [found] at ih
      intro d member
      rcases mem_append.1 member with member | member
      · rcases mem_cons.1 member with rfl | member
        · exact .inr rfl
        rcases mem_cons.1 member with rfl | member
        · exact .inl (isIdentPart_of_isIdentStart start)
        · exact .inl (mem_takeWhile_imp member)
      · exact ih d member
    | case2 => simp [Cut.none]
    | case3 => simp [Cut.none]
  intro c member
  rcases mem_append.1 member with member | member
  · exact .inl (mem_takeWhile_imp member)
  · exact segments _ c member

/-- A name that starts in front of some text ends there, if the front ends in a character that ends
names. -/
theorem read_front (nonempty : front ≠ []) (apart : Accessor.startsWord front.getLast? = true)
    (more : Text) :
    ∃ later, (read (front ++ more)).2.rest = later ++ more ∧
      (read (front ++ more)).2.taken ++ later = front := by
  obtain ⟨start, stop, rfl⟩ : ∃ start stop, front = start ++ [stop] :=
    ⟨_, _, (dropLast_append_getLast nonempty).symm⟩
  rw [getLast?_concat] at apart
  simp only [Accessor.startsWord, Bool.and_eq_true, Bool.not_eq_true', bne_iff_ne, ne_eq] at apart
  rw [append_assoc, singleton_append, read_stop apart.1 apart.2]
  refine ⟨(read start).2.rest ++ [stop], by simp [Cut.followedBy], ?_⟩
  have whole : (read start).2.taken ++ (read start).2.rest = start := whole_read start
  rw [← append_assoc]
  exact congrArg (· ++ [stop]) whole

theorem inert_read (text : Text) : ∀ c ∈ (read text).2.taken, Lexeme.isInert c = true := by
  intro c member
  rcases plain_read text c member with part | rfl
  · exact inert_isIdentPart part
  · decide

theorem isPlain_read (text : Text) : ∀ c ∈ (read text).2.taken, isPlain c = true :=
  plain_of_inert (inert_read text)

end DottedName

namespace Warned

variable {α β : Type}

theorem exists_of_bind_result {first : Warned α} {next : α → Warned β} {b : β}
    (bound : (first >>= next).result = .ok b) :
    ∃ a, first.result = .ok a ∧ (next a).result = .ok b := by
  obtain ⟨warnings, result⟩ := first
  cases result with
  | error failure => cases bound
  | ok a => exact ⟨a, rfl, bound⟩

theorem bind_of_ok {first : Warned α} {a : α} (ok : first.result = .ok a) (next : α → Warned β) :
    first >>= next = ⟨first.warnings ++ (next a).warnings, (next a).result⟩ := by
  obtain ⟨warnings, result⟩ := first
  cases ok
  rfl

theorem exists_of_mapM_result {f : α → Warned β} {items : List α} {results : List β}
    (mapped : (items.mapM f).result = .ok results) :
    ∀ item ∈ items, ∃ b, (f item).result = .ok b := by
  induction items generalizing results with
  | nil => simp
  | cons item items ih =>
    rw [mapM_cons] at mapped
    obtain ⟨b, first, mapped⟩ := exists_of_bind_result mapped
    obtain ⟨_, later, _⟩ := exists_of_bind_result mapped
    intro other member
    rcases mem_cons.1 member with rfl | member
    · exact ⟨b, first⟩
    · exact ih later other member

end Warned

namespace Accessor

variable {before : Option Char} {scene : Scene} {offset : Nat} {c : Char} {cs back : Text}
  {marker : Cut}

/-! ### Places the scanner comes by -/

def argumentTexts (scene : Scene) (start : Nat) (arguments : List Argument) : Warned (List Text) :=
  arguments.mapM fun argument => expand scene none (start + argument.offset) argument.text

def replacement (scene : Scene) (offset : Nat) (found : Found) : Warned Text :=
  match found.form with
  | .copied => pure found.cut.taken
  | .refused warning => do
    Warned.warn (scene.warning offset warning)
    return found.cut.taken
  | .malformed cause => Warned.fail (.fault (.allocation cause) scene.file (scene.lineAt offset))
  | .allocation replacement => pure replacement
  | .call call start arguments => do
    let expanded ← argumentTexts scene (offset + start) arguments
    Warned.ofResult (call.emit expanded)

theorem expand_cons (scene : Scene) (before : Option Char) (offset : Nat) (c : Char) (cs : Text) :
    expand scene before offset (c :: cs) = (do
      let front ← replacement scene offset (find scene.session before c cs)
      let rest ← expand scene (find scene.session before c cs).cut.taken.getLast?
        (offset + (find scene.session before c cs).cut.taken.byteLength)
        (find scene.session before c cs).cut.rest
      return front ++ rest) := by
  rw [expand]
  dsimp only
  refine congrArg (· >>= _) ?_
  unfold replacement
  split
  · next formed => rw [formed]
  · next formed => rw [formed]
  · next formed => rw [formed]
  · next formed => rw [formed]
  · next call start arguments formed =>
    rw [formed]
    dsimp only [argumentTexts]
    rw [mapM_subtype (g := fun argument : Argument =>
        expand scene none (offset + start + argument.offset) argument.text) (fun _ _ => rfl),
      unattach_attach]

/-- Where the scanner stands: the character behind it, its offset and the text ahead. -/
structure Position where
  before : Option Char
  offset : Nat
  text : Text

inductive Step (session : Session) : Position → Position → Prop
  | onward (before : Option Char) (offset : Nat) (c : Char) (cs : Text) :
    Step session ⟨before, offset, c :: cs⟩
      ⟨(find session before c cs).cut.taken.getLast?,
        offset + (find session before c cs).cut.taken.byteLength, (find session before c cs).cut.rest⟩
  | inward {before : Option Char} {c : Char} {cs : Text} {call : Call} {start : Nat}
    {arguments : List Argument} {argument : Argument} (offset : Nat)
    (formed : (find session before c cs).form = .call call start arguments)
    (member : argument ∈ arguments) :
    Step session ⟨before, offset, c :: cs⟩ ⟨none, offset + start + argument.offset, argument.text⟩

/-- The scanner comes by the second position on its way from the first. -/
def Visits (session : Session) : Position → Position → Prop := Relation.ReflTransGen (Step session)

def Succeeds (scene : Scene) (position : Position) : Prop :=
  ∃ output, (expand scene position.before position.offset position.text).result = .ok output

theorem replacement_of_succeeds (succeeds : Succeeds scene ⟨before, offset, c :: cs⟩) :
    ∃ text, (replacement scene offset (find scene.session before c cs)).result = .ok text := by
  obtain ⟨output, expanded⟩ := succeeds
  dsimp only at expanded
  rw [expand_cons] at expanded
  obtain ⟨text, replaced, _⟩ := exists_of_bind_result expanded
  exact ⟨text, replaced⟩

theorem Succeeds.wellFormed (succeeds : Succeeds scene ⟨before, offset, c :: cs⟩)
    (cause : AllocationCause) : (find scene.session before c cs).form ≠ .malformed cause := by
  intro formed
  obtain ⟨text, replaced⟩ := replacement_of_succeeds succeeds
  rw [replacement, formed] at replaced
  cases replaced

theorem Step.succeeds {position next : Position} (step : Step scene.session position next)
    (succeeds : Succeeds scene position) : Succeeds scene next := by
  cases step with
  | onward before offset c cs =>
    obtain ⟨output, expanded⟩ := succeeds
    dsimp only at expanded
    rw [expand_cons] at expanded
    obtain ⟨_, _, expanded⟩ := exists_of_bind_result expanded
    obtain ⟨later, goesOn, _⟩ := exists_of_bind_result expanded
    exact ⟨later, goesOn⟩
  | inward offset formed member =>
    obtain ⟨text, replaced⟩ := replacement_of_succeeds succeeds
    rw [replacement, formed] at replaced
    obtain ⟨_, mapped, _⟩ := exists_of_bind_result replaced
    exact exists_of_mapM_result mapped _ member

theorem Visits.succeeds {position later : Position} (visits : Visits scene.session position later)
    (succeeds : Succeeds scene position) :
    Succeeds scene later := by
  induction visits with
  | refl => exact succeeds
  | tail _ step ih => exact step.succeeds ih

/-! ### Coming closer to a word -/

/-- Text that starts like a name and keeps its brackets and commas to itself, and that is not what an
allocation allocates. -/
structure Compact (session : Session) (word : Text) : Prop where
  starts : ∃ c cs, word = c :: cs ∧ isIdentStart c = true
  flush : ∀ back, ∃ form, Text.parts (word ++ back) = form ++ back.parts ∧ Flush form
  unallocated : ∀ marker back, ∃ cause,
    (allocation session marker (word ++ back)).form = .malformed cause
  unmarked : ∀ back marker, marker? ('@' :: (word ++ back)) = some marker →
    marker.rest.head?.any isIdentStart = false

/-- What finding a form in front of a word comes to: a failure, or a step towards the word. -/
inductive Nears (word front back : Text) (found : Found) : Prop
  | malformed {cause : AllocationCause} (formed : found.form = .malformed cause)
  | onward {later : Text} (meets : Text.Meets later (word ++ back))
    (rest : found.cut.rest = later ++ (word ++ back))
  | inward {call : Call} {start : Nat} {arguments : List Argument} {argument : Argument}
    {last tail : Text} (formed : found.form = .call call start arguments)
    (member : argument ∈ arguments) (meets : Text.Meets last (word ++ tail))
    (text : argument.text = last ++ (word ++ tail)) (suffix : last <:+ front)
    (offset : start + argument.offset + last.byteLength = front.byteLength)

variable {session : Session} {word : Text}

theorem Compact.change (compact : Compact session word) {early : List Part}
    (same : Text.parts (front ++ (word ++ back)) = early ++ Text.parts (word ++ back)) (other : Text) :
    Text.parts (front ++ (word ++ other)) = early ++ Text.parts (word ++ other) := by
  obtain ⟨c, cs, rfl, start⟩ := compact.starts
  refine Text.Meets.parts_change ?_ same _
  rintro rfl
  cases start

theorem withOffsets_append (offset : Nat) (early later : List Text) :
    withOffsets offset (early ++ later) = withOffsets offset early ++
      withOffsets (offset + Text.byteLength (early.flatMap fun piece => piece ++ [','])) later := by
  induction early generalizing offset with
  | nil => rfl
  | cons piece early ih =>
    rw [cons_append, withOffsets, withOffsets, ih, flatMap_cons, Text.byteLength_append,
      Text.byteLength_append, cons_append]
    congr 3
    simp only [Text.byteLength, show (',').utf8Size = 1 from rfl]
    omega

theorem splitArguments_word (compact : Compact session word) {tail : Text} {early : List Part}
    {next : Tally}
    (same : Text.parts (front ++ (word ++ tail)) = early ++ Text.parts (word ++ tail))
    (passed : Tally.start.passAll early = some next) :
    ∃ argument ∈ splitArguments (front ++ (word ++ tail)), ∃ before last tail',
      front = before ++ last ∧ argument.offset = before.byteLength ∧
      argument.text = last ++ (word ++ tail') ∧ Text.Meets last (word ++ tail') := by
  have notBlank : Text.isBlank (front ++ (word ++ tail)) = false := by
    obtain ⟨c, cs, rfl, start⟩ := compact.starts
    simp [Text.isBlank, not_isBlank_of_isIdentPart (isIdentPart_of_isIdentStart start)]
  obtain ⟨pieces, last, parted, spelled, middle, meets⟩ := Tally.commaPieces_passAll same passed
  obtain ⟨form, parts, flush⟩ := compact.flush tail
  have joined := (Tally.scan_passAll parts (flush next)).2 rfl
  obtain ⟨tail', others, cut⟩ := exists_cons_of_ne_nil (commaPieces_ne_nil next.nesting.length tail)
  rw [joined, Text.spelled_early parts, Tally.nesting_move, joinFirst_joinFirst, cut, joinFirst] at parted
  rw [Text.spelled_early same] at spelled
  refine ⟨⟨last ++ (word ++ tail'), Text.byteLength (pieces.flatMap fun piece => piece ++ [','])⟩, ?_,
    _, last, tail', spelled, rfl, rfl, middle, compact.change meets tail'⟩
  rw [splitArguments, if_neg (by simp [notBlank]), show commaPieces 0 _ = _ from parted,
    withOffsets_append, withOffsets]
  simp

theorem nears_call (compact : Compact session word) {later : Text} {group : Cut}
    (meets : Text.Meets later (word ++ back))
    (grouped : group? (later ++ (word ++ back)) = some group) (call : Call) (taken : Text) :
    Nears word (taken ++ later) back
      (callFound (.call call (taken.byteLength + 1) (splitArguments group.taken))
        ⟨taken, later ++ (word ++ back)⟩ group) := by
  obtain ⟨c, cs, spelled, start⟩ := compact.starts
  cases later with
  | nil =>
    rw [spelled] at grouped
    unfold group? at grouped
    split at grouped
    · next same =>
      cases same
      cases start
    · cases grouped
  | cons bracket later =>
    obtain rfl : bracket = '(' := by
      unfold group? at grouped
      split at grouped
      · next same => exact (List.cons.inj same).1
      · cases grouped
    rw [cons_append, group?] at grouped
    obtain ⟨early, same⟩ := Text.Meets.behind (@Text.parts_plain ['('] (by simp; decide) _) meets
    rcases @Tally.closeGroup_cases .start _ _ _ _ same grouped with
      ⟨next, inner, passed, closed, parts⟩ | ⟨behind, rest, meets⟩
    · -- The group closes behind the word, which is then inside an argument.
      obtain ⟨form, wordParts, flush⟩ := compact.flush back
      rw [(Tally.scan_passAll wordParts (flush next)).1, Text.spelled_early wordParts] at closed
      obtain ⟨cut, _, isInner⟩ := Option.map_eq_some_iff.1 closed
      obtain ⟨rfl, _⟩ : word ++ cut.taken = inner ∧ cut.rest = group.rest := by
        simpa [Cut.after] using isInner
      rw [parts, Text.spelled_early same]
      obtain ⟨argument, member, before, last, tail, split, offset, text, meetsLast⟩ :=
        splitArguments_word compact (compact.change same cut.taken) passed
      refine .inward rfl member meetsLast text ⟨taken ++ '(' :: before, by simp [split]⟩ ?_
      rw [offset, split]
      simp only [Text.byteLength_append, Text.byteLength, show ('(').utf8Size = 1 from rfl]
      omega
    · exact .onward meets rest

section

variable (compact : Compact session word)

include compact

theorem nears_accessor (meets : Text.Meets front (word ++ back)) (nonempty : front ≠ [])
    (apart : startsWord front.getLast? = true) :
    Nears word front back (accessor session (front ++ (word ++ back))) := by
  obtain ⟨later, rest, taken⟩ := DottedName.read_front nonempty apart (word ++ back)
  have plain := DottedName.isPlain_read (front ++ (word ++ back))
  have whole : (DottedName.read (front ++ (word ++ back))).2 =
      ⟨(DottedName.read (front ++ (word ++ back))).2.taken, later ++ (word ++ back)⟩ := by
    rw [← rest]
  have behind := Text.Meets.behind (Text.parts_plain plain _) (taken.symm ▸ meets)
  have found := accesses session (front ++ (word ++ back))
  generalize accessor session (front ++ (word ++ back)) = nearby at found ⊢
  cases found with
  | copied | refused => exact .onward behind rest
  | call _ _ _ _ grouped =>
    rw [rest] at grouped
    have nears := fun call => nears_call compact behind grouped call
      (DottedName.read (front ++ (word ++ back))).2.taken
    rw [taken, ← whole] at nears
    exact nears _

theorem nears_allocation {marker : Text} (meets : Text.Meets front (word ++ back)) (nonempty : front ≠ [])
    (apart : startsWord front.getLast? = true) :
    Nears word (marker ++ front) back (allocation session marker (front ++ (word ++ back))) := by
  obtain ⟨later, rest, taken⟩ := DottedName.read_front nonempty apart (word ++ back)
  have plain := DottedName.isPlain_read (front ++ (word ++ back))
  have behind := Text.Meets.behind (Text.parts_plain plain _) (taken.symm ▸ meets)
  have found := allocates session marker (front ++ (word ++ back))
  generalize allocation session marker (front ++ (word ++ back)) = nearby at found ⊢
  cases found with
  | malformed => exact .malformed rfl
  | alone => exact .onward behind rest
  | array grouped single =>
    rw [Cut.after, rest] at grouped
    have nears := fun call => nears_call compact behind grouped call
      (marker ++ (DottedName.read (front ++ (word ++ back))).2.taken)
    rw [append_assoc, taken, ← rest, single] at nears
    exact nears _

end

/-- The marker of an allocation in front of a name lies in front of it, but for the sign alone. -/
theorem marker?_front {more : Text} (start : isIdentStart c = true) (nonempty : front ≠ [])
    (apart : startsWord front.getLast? = true)
    (found : marker? (front ++ c :: more) = some marker) :
    front = ['@'] ∨ ∃ later, marker.rest = later ++ c :: more ∧ marker.taken ++ later = front := by
  have part := isIdentPart_of_isIdentStart start
  have solid : isAsciiBlank c = false := by
    have differs : ∀ d, isIdentPart d = false → c ≠ d := by
      rintro d notPart rfl
      rw [part] at notPart
      cases notPart
    simp [isAsciiBlank, differs ' ' (by decide), differs '\t' (by decide), differs '\n' (by decide),
      differs '\x0c' (by decide), differs '\r' (by decide)]
  unfold marker? at found
  split at found
  · next cs same =>
    -- The front ends in no letter, so it ends behind the sign or behind the whole word.
    match front, nonempty, apart, same with
    | [_], _, _, same =>
      rw [(List.cons.inj same).1]
      exact .inl rfl
    | [_, _], _, apart, same =>
      obtain ⟨_, same⟩ := List.cons.inj same
      rw [(List.cons.inj same).1] at apart
      cases apart
    | [_, _, _], _, apart, same =>
      obtain ⟨_, same⟩ := List.cons.inj same
      obtain ⟨_, same⟩ := List.cons.inj same
      rw [(List.cons.inj same).1] at apart
      cases apart
    | _ :: _ :: _ :: _ :: later, _, _, same =>
      cases same
      split at found
      · cases found
      cases found
      rw [show later.append (c :: more) = later ++ c :: more from rfl, Cut.span_stop solid]
      refine .inr ⟨(Cut.span isAsciiBlank later).rest, rfl, ?_⟩
      have whole : (Cut.span isAsciiBlank later).taken ++ (Cut.span isAsciiBlank later).rest = later :=
        Cut.whole_span isAsciiBlank later
      simp [Cut.after, Cut.followedBy, whole]
  · cases found

theorem inert_marker {text : Text} (found : marker? text = some marker) :
    ∀ c ∈ marker.taken, Lexeme.isInert c = true := by
  unfold marker? at found
  split at found
  · split at found
    · cases found
    cases found
    intro c member
    rcases mem_append.1 member with member | member
    · exact all_eq_true.1 (show ['@', 'n', 'e', 'w'].all Lexeme.isInert = true by decide) c member
    · have blank := mem_takeWhile_imp member
      simp only [isAsciiBlank, Bool.or_eq_true, beq_iff_eq] at blank
      rcases blank with (((rfl | rfl) | rfl) | rfl) | rfl <;> decide
  · cases found

theorem nears_find (compact : Compact session word) (before : Option Char) (back : Text)
    (meets : Text.Meets (c :: front) (word ++ back)) (apart : startsWord (c :: front).getLast? = true) :
    Nears word (c :: front) back (find session before c (front ++ (word ++ back))) := by
  have whole := meets
  obtain ⟨_ | ⟨part, early⟩, same⟩ := whole
  · have lengths := congrArg length (Text.parts_injective same)
    simp at lengths
    omega
  rw [cons_append, cons_append] at same
  obtain ⟨rest, later, ⟨literal, rfl, found⟩ | ⟨d, rfl, spelled, plain⟩⟩ := Text.cases_of_parts same
  · obtain ⟨text, behind⟩ := Text.Meets.of_parts later.symm
    rw [text] at found
    rw [find, found]
    exact .onward behind rfl
  · obtain ⟨rfl, rfl⟩ := List.cons.inj spelled
    have walked : Text.Meets front (word ++ back) := ⟨early, later.symm⟩
    have single : Nears word (c :: front) back ⟨.copied, ⟨[c], front ++ (word ++ back)⟩⟩ :=
      .onward walked rfl
    have seen := sees session before c (front ++ (word ++ back))
    generalize find session before c (front ++ (word ++ back)) = nearby at seen ⊢
    cases seen with
    | literal found =>
      rw [plain] at found
      cases found
    | char => exact single
    | nameless => exact .malformed rfl
    | @allocation marker _ marked isName =>
      obtain ⟨first, others, spelled, start⟩ := compact.starts
      have found := marked
      rw [spelled, cons_append, ← cons_append] at found
      rcases marker?_front start (by simp) apart found with alone | ⟨later, rest, taken⟩
      · obtain ⟨rfl, rfl⟩ := List.cons.inj alone
        rw [nil_append] at marked
        rw [compact.unmarked back marker marked] at isName
        cases isName
      · rw [← cons_append, ← spelled] at rest
        have peeled := Text.Meets.behind (Text.parts_plain (plain_of_inert (inert_marker marked)) _)
          (taken.symm ▸ meets)
        rw [rest, ← taken]
        cases later with
        | nil =>
          obtain ⟨cause, formed⟩ := compact.unallocated marker.taken back
          exact .malformed formed
        | cons d ds =>
          refine nears_allocation compact peeled (by simp) ?_
          rw [← taken, getLast?_append_cons] at apart
          exact apart
    | accessor => exact nears_accessor compact meets (by simp) apart

/-- The scanner comes by a word that no literal or name runs over. -/
theorem visits_word (compact : Compact scene.session word)
    (succeeds : Succeeds scene ⟨before, offset, front ++ (word ++ back)⟩)
    (meets : Text.Meets front (word ++ back))
    (apart : startsWord (front.getLast?.or before) = true) :
    ∃ before' tail, startsWord before' = true ∧
      Visits scene.session ⟨before, offset, front ++ (word ++ back)⟩
        ⟨before', offset + front.byteLength, word ++ tail⟩ := by
  induction size : (front ++ (word ++ back)).length using Nat.strongRecOn
    generalizing before offset front back with
  | ind size ih =>
    cases front with
    | nil => exact ⟨before, back, apart, .refl⟩
    | cons c front =>
      have ends : startsWord (c :: front).getLast? = true := by
        rwa [getLast?_cons, Option.some_or, ← getLast?_cons] at apart
      have fits := fits_find scene.session before c (front ++ (word ++ back))
      cases nears_find compact before back meets ends with
      | malformed formed => exact absurd formed (succeeds.wellFormed _)
      | @onward later walked rest =>
        have step : Step scene.session _ _ := .onward before offset c (front ++ (word ++ back))
        have shorter := Cut.rest_length_lt fits.whole fits.taken
        have taken : (find scene.session before c (front ++ (word ++ back))).cut.taken ++ later =
            c :: front := by
          have whole := fits.whole
          rw [Cut.whole, rest, ← append_assoc, ← cons_append] at whole
          exact append_cancel_right whole
        rw [rest] at step shorter
        have next : startsWord (later.getLast?.or
            (find scene.session before c (front ++ (word ++ back))).cut.taken.getLast?) = true := by
          rw [← getLast?_append, taken]
          exact ends
        obtain ⟨before', tail, starts, visits⟩ :=
          ih _ (size ▸ shorter) (step.succeeds succeeds) walked next rfl
        refine ⟨before', tail, starts, ?_⟩
        have width := congrArg Text.byteLength taken
        rw [Text.byteLength_append] at width
        rw [Nat.add_assoc, width] at visits
        exact .head step visits
      | @inward call start arguments argument last tail formed member walked text suffix width =>
        have step : Step scene.session _ _ := .inward offset formed member
        have shorter := fits.arguments call start arguments formed argument member
        rw [text] at step shorter
        have next : startsWord (last.getLast?.or none) = true := by
          obtain ⟨early, parts⟩ := suffix
          rw [← parts] at ends
          cases last with
          | nil => rfl
          | cons d ds =>
            rw [getLast?_append_cons] at ends
            rwa [Option.or_none]
        obtain ⟨before', tail, starts, visits⟩ :=
          ih _ (size ▸ shorter) (step.succeeds succeeds) walked next rfl
        refine ⟨before', tail, starts, ?_⟩
        rw [show offset + start + argument.offset + last.byteLength =
          offset + Text.byteLength (c :: front) by omega] at visits
        exact .head step visits

end Accessor

end FlatMemory
