import FlatMemory.Proofs.Code.Stability
import FlatMemory.Proofs.Token.Outline

/-! # Expansion keeps code and literals apart

A scan of expanded text meets the literals and comments of the text that was expanded, and its
brackets nest alike.  The exception is an argument that ends in a line comment: it is trimmed, and
what is emitted behind it on the same line falls into the comment. -/

namespace FlatMemory

open List Lexeme Warned Literal

variable {text : Text}

/-! ### Text without open literals -/

def Orderly (text : Text) : Prop :=
  ∀ literal ∈ text.literals, isOpen literal = true → (Part.literal literal).isLineComment = true

namespace Orderly

theorem literal {cut : Cut} (found : Literal.first? text = some cut)
    (here : isOpen cut.taken = true → (Part.literal cut.taken).isLineComment = true)
    (later : Orderly cut.rest) : Orderly text := by
  rw [Orderly, Text.literals_literal found]
  exact forall_mem_cons.2 ⟨here, later⟩

theorem cons_iff {c : Char} {cs : Text} (plain : Literal.first? (c :: cs) = none) :
    Orderly (c :: cs) ↔ Orderly cs := by
  rw [Orderly, Text.literals_cons plain]
  rfl

theorem of_sealed {literal rest : Text} (closed : Sealed literal) (later : Orderly rest) :
    Orderly (literal ++ rest) := by
  refine .literal (closed.first rest) (fun unfinished => ?_) later
  simp [isOpen, closed.first] at unfinished

theorem of_comment {comment rest : Text} (inLine : '\n' ∉ comment)
    (later : Orderly (rest.dropWhile fun c => decide (c ≠ '\n'))) :
    Orderly ('/' :: '/' :: (comment ++ rest)) := by
  refine @literal _ ((Literal.lineComment (comment ++ rest)).after ['/', '/']) rfl (fun _ => rfl) ?_
  have all : ∀ c ∈ comment, decide (c ≠ '\n') = true := fun c member => by
    simpa using fun same : c = '\n' => inLine (same ▸ member)
  rwa [Cut.after, Literal.lineComment, Cut.span, dropWhile_append_of_pos all]

theorem sub {other : Text} (orderly : Orderly text) (sub : other.literals ⊆ text.literals) :
    Orderly other :=
  fun literal member => orderly literal (sub member)

theorem shut (orderly : Orderly text) (notComment : text.endsInLineComment = false) :
    endsOpen text.parts = false := by
  rw [endsOpen, Option.any_eq_false]
  intro part last
  rw [Text.endsInLineComment, Option.any_eq_false] at notComment
  have other := notComment part last
  have member : part ∈ text.parts := (mem_filter.1 (mem_of_getLast? last)).1
  cases part with
  | code c => rfl
  | literal literal =>
    have known := orderly literal (mem_filterMap.2 ⟨_, member, rfl⟩)
    rw [Bool.eq_false_iff] at other ⊢
    exact fun unfinished => other (known unfinished)

end Orderly

theorem Walk.orderly {rest front marks : Text} {ending : Ending} (walk : Walk rest front marks ending)
    (later : Orderly rest) : Orderly (front ++ rest) := by
  induction walk with
  | done => exact later
  | literal closed _ ih =>
    rw [append_assoc]
    exact .of_sealed closed ih
  | comment inLine _ ih =>
    rw [cons_append, cons_append, append_assoc]
    exact .of_comment inLine ih
  | char plain _ ih => exact (Orderly.cons_iff plain).2 ih

theorem Token.Strung.orderly {tokens : List Token} (strung : Strung [] tokens)
    (unbroken : ∀ token ∈ tokens, ¬ token.Continues) : Orderly (tokens.flatMap Token.text) := by
  induction tokens with
  | nil => simp [Orderly]
  | cons token tokens ih =>
    obtain ⟨here, unbroken⟩ := forall_mem_cons.1 unbroken
    have later := ih (strung.suffix singleton_append.symm) unbroken
    have taken := strung [] token tokens rfl
    rw [append_nil] at taken
    rw [flatMap_cons]
    cases taken with
    | landmark closed _ =>
      rcases closed.scan fun _ => here with ⟨_, whole⟩ | ⟨c, text, found⟩
      · exact .of_sealed whole later
      · rw [show token.text = [c] from text, singleton_append]
        exact (Orderly.cons_iff (first?_of_isPlain (plain_punctuation found).1 _)).2 later
    | comment _ spelled inLine ends =>
      rw [spelled]
      refine .of_comment inLine ?_
      rcases ends with none | ⟨feed, more, rest, commented⟩
      · simp [none, Orderly]
      rw [rest] at later ⊢
      rcases commented.feeds with rfl | ⟨rfl, _⟩
      · exact (Orderly.cons_iff (first?_of_isPlain (by decide) _)).1 later
      · exact later
    | inert chars _ => exact (Walk.of_plain (plain_of_inert chars)).orderly later
    | slash spelled chars harmless _ =>
      rw [spelled, cons_append, Orderly.cons_iff]
      · exact (Walk.of_plain (plain_of_inert chars)).orderly later
      · exact first?_eq_none_iff.2 ⟨by decide, by decide, by decide, fun _ => harmless⟩

/-- Parts that count alike open and close the same brackets. -/
theorem Tally.nest_code (tally : Tally) (parts : List Part) :
    nest tally.nesting (parts.filterMap Part.code?) = (tally.passAll parts).map Tally.nesting := by
  induction parts generalizing tally with
  | nil => rfl
  | cons part parts ih =>
    cases part with
    | literal text => exact ih (tally.move tally.nesting true)
    | code c =>
      rw [show filterMap Part.code? (.code c :: parts) = c :: filterMap Part.code? parts from rfl, nest,
        Tally.passAll, Tally.pass]
      split
      · exact ih (tally.move (c :: tally.nesting) true)
      · split
        · cases shut c tally.nesting with
          | none => rfl
          | some outer => exact ih (tally.move outer true)
        · split
          · next top =>
            rw [top.2]
            exact ih ⟨[], _, _, false⟩
          · exact ih (tally.move tally.nesting !isBlank c)

namespace Accessor

variable {session : Session} {before : Option Char}

/-! ### Arguments that end in a line comment -/

/-- Whether no argument of what is found in a text ends in a line comment. -/
def tidy (session : Session) (before : Option Char) (text : Text) : Bool :=
  match text with
  | [] => true
  | c :: cs =>
    let found := find session before c cs
    have fits := fits_find session before c cs
    have := Cut.rest_length_lt fits.whole fits.taken
    let inside : Bool := match form : found.form with
      | .call call start arguments => arguments.attach.all fun ⟨argument, member⟩ =>
        have := fits.arguments call start arguments form argument member
        !argument.text.endsInLineComment && tidy session none argument.text
      | _ => true
    inside && tidy session found.cut.taken.getLast? found.cut.rest
termination_by text.length
decreasing_by
  all_goals assumption

theorem tidy_cons {c : Char} {cs : Text} (isTidy : tidy session before (c :: cs) = true) :
    tidy session (find session before c cs).cut.taken.getLast? (find session before c cs).cut.rest =
        true ∧
      ∀ call start arguments, (find session before c cs).form = .call call start arguments →
        ∀ argument ∈ arguments, argument.text.endsInLineComment = false ∧
          tidy session none argument.text = true := by
  rw [tidy] at isTidy
  obtain ⟨inside, rest⟩ := Bool.and_eq_true_iff.1 isTidy
  refine ⟨rest, fun call start arguments formed argument member => ?_⟩
  dsimp only at inside
  split at inside
  · next found =>
    rw [formed] at found
    cases found
    have both := all_eq_true.1 inside ⟨argument, member⟩ (mem_attach _ _)
    simpa using both
  · next other => exact absurd formed (other call start arguments)

theorem Finds.literals_append {found : Found} (finds : Finds session before text found)
    (wellFormed : ∀ cause, found.form ≠ .malformed cause) :
    ∃ front, text.literals = front ++ found.cut.rest.literals ∧
      ∀ call start arguments, found.form = .call call start arguments →
        (arguments.map Argument.text).flatMap Text.literals = front := by
  have split : ∀ {rest : Text} {front : List Part}, text.parts = front ++ rest.parts →
      text.literals = literalsIn front ++ rest.literals := by
    intro rest front parts
    rw [Text.literals, parts]
    exact literalsIn_append front rest.parts
  cases finds with
  | malformed => exact absurd rfl (wellFormed _)
  | literal found => exact ⟨[_], Text.literals_literal found, by rintro _ _ _ ⟨⟩⟩
  | char plain => exact ⟨[], Text.literals_cons plain, by rintro _ _ _ ⟨⟩⟩
  | word _ _ read _ formed =>
    refine ⟨_, split (Text.parts_plain (Passes.plain_name read) _), fun call start arguments formed' => ?_⟩
    rcases formed with rfl | ⟨_, rfl⟩ <;> cases formed'
  | allocation _ _ _ parts => exact ⟨_, split parts, by rintro _ _ _ ⟨⟩⟩
  | call _ _ _ parts _ _ _ literals =>
    refine ⟨_, split parts, ?_⟩
    rintro _ _ _ ⟨⟩
    exact literals.symm

theorem inherited_tidy (session : Session) :
    Inherited none session fun before text => tidy session before text = true ∧ Orderly text := by
  rintro before c cs ⟨isTidy, orderly⟩
  obtain ⟨restTidy, inside⟩ := tidy_cons isTidy
  have finds := finds_find session before c cs
  refine ⟨(fun heeded => by cases heeded), fun wellFormed => ⟨restTidy, ?_⟩,
    fun call start arguments formed argument member => ?_⟩
  · obtain ⟨front, literals, _⟩ := finds.literals_append wellFormed
    exact orderly.sub (literals ▸ subset_append_right _ _)
  · obtain ⟨front, literals, same⟩ := finds.literals_append (by simp [formed])
    obtain ⟨notComment, isTidy⟩ := inside call start arguments formed argument member
    have sub : argument.text.literals ⊆ Text.literals (c :: cs) := by
      intro literal isLiteral
      rw [literals, ← same call start arguments formed]
      exact mem_append_left _ (mem_flatMap.2 ⟨_, mem_map_of_mem member, isLiteral⟩)
    have isOrderly := orderly.sub sub
    exact ⟨isOrderly.shut notComment, isTidy, isOrderly⟩

end Accessor

/-- Expanded text has the literals and comments of the text that was expanded, and its brackets nest
alike, if no argument of an accessor ends in a line comment and no string goes on behind a CRLF
pair. -/
theorem expansion_keeps_literals {declarations : List Declaration} {session : Session}
    (accepts : Accepts declarations session) {line : Nat} {pasted : Pasted} {tokens : List Token}
    (lexed : tokenizeFrom line pasted.text = .ok tokens)
    (unbroken : ∀ token ∈ tokens, ¬ token.Continues)
    (isTidy : Accessor.tidy session none pasted.text = true) {file : String} {output : Text}
    (expanded : (session.expandAccessors file pasted).result = .ok output) :
    output.literals = pasted.text.literals ∧
      ∀ nesting, nest nesting output.code = nest nesting pasted.text.code := by
  have whole := text_of_tokenizeFrom lexed
  have orderly : Orderly pasted.text := by
    rw [whole]
    exact (strung_of_tokenizeFrom lexed).orderly unbroken
  have stable : Accessor.Stable none none pasted.text output :=
    Accessor.stable_expand (by simp) accepts.loaded.named accepts.readable.named
      (Accessor.inherited_tidy session) ⟨isTidy, orderly⟩ expanded
  refine ⟨stable.literals, fun nesting => ?_⟩
  rw [Text.code, Text.code, Tally.nest_code ⟨nesting, 0, 0, false⟩, ← stable.alike.passAll,
    ← Tally.nest_code]

def sampleTypes : Text := "@flatjs struct V\x7bx:float64;n:int32;\x7d@end
@flatjs class C\x7bv:V;\x7d@end".toList

/-- Brackets in literals and comments, line comments inside arguments and one at the end. -/
def sampleAccessors : Text := "f(V.n.add(p /* ) */, \"]\" // (
+ `\x7d`), @new C, C.v.set( (q // x
), V.Array.get(a, i / 2)))// end (".toList

def sampleExpanded : Text := "f((_mem_int32[((p /* ) */) + 8) >> 2] += \"]\" // (
+ `\x7d`), C.initInstance(FlatJS.allocOrThrow(24, 8)), V._set_impl((q // x
) + 8, V._get_impl(a + 16 * (i / 2))))// end (".toList

theorem expansion_keeps_literals_sample : ∃ declarations session tokens,
    Accepts declarations session ∧ tokenizeFrom 1 sampleAccessors = .ok tokens ∧
    (∀ token ∈ tokens, ¬ token.Continues) ∧
    Accessor.tidy session none sampleAccessors = true ∧
    (session.expandAccessors "sample" (.plain sampleAccessors)).result = .ok sampleExpanded ∧
    sampleAccessors.literals.length = 6 ∧ sampleExpanded.literals = sampleAccessors.literals ∧
    ∀ nesting, nest nesting sampleExpanded.code = nest nesting sampleAccessors.code := by
  have accepted : (do
      let document ← Document.read "sample" sampleTypes
      let session ← Session.ofDocuments [document]
      let output ← (session.expandAccessors "sample" (.plain sampleAccessors)).result
      return (Accessor.tidy session none sampleAccessors, output)) =
        Except.ok (true, sampleExpanded) := by
    decide +kernel
  have lexed : (tokenizeFrom 1 sampleAccessors).map (fun tokens =>
      decide (∀ token ∈ tokens, ¬ token.Continues)) = .ok true := by
    decide +kernel
  obtain ⟨document, read, accepted⟩ := exists_of_bind_eq_ok accepted
  obtain ⟨session, analysed, accepted⟩ := exists_of_bind_eq_ok accepted
  obtain ⟨output, expanded, answer⟩ := exists_of_bind_eq_ok accepted
  obtain ⟨isTidy, same⟩ := Prod.mk.inj (Except.ok.inj answer)
  rw [same] at expanded
  obtain ⟨tokens, lexed, unbroken⟩ := exists_of_map_eq_ok lexed
  rw [decide_eq_true_eq] at unbroken
  have accepts := Accepts.ofDocument read analysed
  have kept := expansion_keeps_literals accepts lexed unbroken isTidy expanded
  exact ⟨_, session, tokens, accepts, lexed, unbroken, isTidy, expanded, by decide +kernel, kept⟩

/-- A line comment at the end of an argument takes the brackets and the operator emitted behind
it. -/
theorem bracket_lost_in_comment : ∃ tokens,
    Accepts [] Session.empty ∧ tokenize "int32.Array(p, i // c\n) + 1".toList = .ok tokens ∧
    (∀ token ∈ tokens, ¬ token.Continues) ∧
    (Session.empty.expandAccessors "a" (.plain "int32.Array(p, i // c\n) + 1".toList)).result =
      .ok "_mem_int32[(p + 4 * (i // c)) >> 2] + 1".toList ∧
    Text.literals "int32.Array(p, i // c\n) + 1".toList = ["// c".toList] ∧
    Text.literals "_mem_int32[(p + 4 * (i // c)) >> 2] + 1".toList =
      ["// c)) >> 2] + 1".toList] ∧
    nest [] (Text.code "int32.Array(p, i // c\n) + 1".toList) = some [] ∧
    nest [] (Text.code "_mem_int32[(p + 4 * (i // c)) >> 2] + 1".toList) = some ['(', '(', '['] := by
  have lexed : (tokenize "int32.Array(p, i // c\n) + 1".toList).map (fun tokens =>
      decide (∀ token ∈ tokens, ¬ token.Continues)) = .ok true := by
    decide +kernel
  obtain ⟨tokens, lexed, unbroken⟩ := exists_of_map_eq_ok lexed
  have accepts : Accepts [] Session.empty := ⟨by simp, Session.empty, by decide, by decide⟩
  exact ⟨tokens, accepts, lexed, by simpa using unbroken, by decide +kernel, by decide +kernel,
    by decide +kernel, by decide +kernel, by decide +kernel⟩

end FlatMemory
