import FlatMemory.Proofs.Code.Edit
import FlatMemory.Proofs.Code.Spans
import FlatMemory.Proofs.Token.Scan

/-! # Expansion replaces whole forms

The expansion of a text copies it but for some spans.  Each of them starts where a form starts, as a
word of its own and outside literals and comments, and ends with the name of a type or with the
parenthesis that closes the one behind a name.  A form that is warned about stays. -/

namespace FlatMemory

open List Warned EditScript

/-- A place of a text that a scan comes to between two parts. -/
def Text.Outside (front rest : Text) : Prop := ∃ parts, Text.parts (front ++ rest) = parts ++ rest.parts

/-- A place of a text that is not inside an opaque token. -/
def Token.Between (tokens : List Token) (front : Text) : Prop :=
  ∀ early token late, tokens = early ++ token :: late → token.isOpaque = true →
    front.length ≤ (early.flatMap Token.text).length ∨
      (early.flatMap Token.text).length + token.text.length ≤ front.length

namespace Text.Outside

variable {front rest : Text}

theorem of_literal {cut : Cut} (outside : Outside front rest)
    (found : Literal.first? (front ++ rest) = some cut) :
    front = [] ∨ ∃ later, front = cut.taken ++ later ∧ later ++ rest = cut.rest ∧ Outside later rest := by
  obtain ⟨parts, same⟩ := outside
  have whole : cut.taken ++ cut.rest = front ++ rest := (Literal.whole_first? found).1
  rw [parts_literal found] at same
  cases parts with
  | nil =>
    have spelled := spelled_parts rest
    rw [← show _ = rest.parts from same, flatMap_cons, spelled_parts] at spelled
    exact .inl (append_left_eq_self.1 (whole.symm.trans spelled))
  | cons part parts =>
    obtain ⟨rfl, behind⟩ := List.cons.inj same
    have spelled := spelled_parts cut.rest
    rw [behind, append_eq, flatMap_append, spelled_parts] at spelled
    refine .inr ⟨_, ?_, spelled, parts, spelled.symm ▸ behind⟩
    rw [← spelled, ← append_assoc] at whole
    exact (append_cancel_right whole).symm

theorem of_cons {c : Char} (outside : Outside (c :: front) rest)
    (plain : Literal.first? (c :: (front ++ rest)) = none) : Outside front rest := by
  obtain ⟨parts, same⟩ := outside
  rw [cons_append, parts_cons plain] at same
  cases parts with
  | nil =>
    have lengths := congrArg (fun parts => (parts.flatMap Part.text).length) same
    simp [spelled_parts, Part.text] at lengths
    omega
  | cons part parts => exact ⟨parts, (List.cons.inj same).2⟩

theorem cons {c : Char} (outside : Outside front rest)
    (plain : Literal.first? (c :: (front ++ rest)) = none) : Outside (c :: front) rest := by
  obtain ⟨parts, same⟩ := outside
  exact ⟨.code c :: parts, by rw [cons_append, parts_cons plain, same, cons_append]⟩

theorem of_token {token : Token} {later : Text} (scanned : token.Scanned later)
    (unbroken : ¬ token.Continues) (outside : Outside front rest)
    (whole : token.text ++ later = front ++ rest) :
    (front.length ≤ token.text.length ∧ (token.isOpaque = true → front = [])) ∨
      ∃ behind, front = token.text ++ behind ∧ behind ++ rest = later ∧ Outside behind rest := by
  cases isOpaque : token.isOpaque with
  | true =>
    have found := scanned.whole isOpaque unbroken
    rw [whole] at found
    rcases outside.of_literal found with rfl | ⟨behind, rfl, isRest, onward⟩
    · exact .inl ⟨Nat.zero_le _, fun _ => rfl⟩
    refine .inr ?_
    rcases token.opaqueCut_cases later with same | ⟨more, rfl, same⟩
    · rw [same] at isRest ⊢
      exact ⟨behind, rfl, isRest, onward⟩
    · rw [same] at isRest ⊢
      refine ⟨'\r' :: behind, by simp, congrArg _ isRest, onward.cons ?_⟩
      exact Literal.first?_of_isPlain (by decide) _
  | false =>
    have opens := scanned.code isOpaque
    generalize token.text = text at opens whole
    clear scanned unbroken isOpaque
    induction text generalizing front with
    | nil => exact .inr ⟨front, rfl, whole.symm, outside⟩
    | cons c cs ih =>
      cases front with
      | nil => exact .inl ⟨Nat.zero_le _, nofun⟩
      | cons d front =>
        rw [cons_append, cons_append] at whole
        obtain ⟨rfl, same⟩ := List.cons.inj whole
        have plain := opens c cs (suffix_refl _)
        rw [same] at plain
        rcases ih (outside.of_cons plain) (fun d more isRest =>
          opens d more (isRest.trans (suffix_cons _ _))) same with ⟨inside, _⟩ | ⟨behind, rfl, isRest⟩
        · exact .inl ⟨Nat.succ_le_succ inside, nofun⟩
        · exact .inr ⟨behind, rfl, isRest⟩

theorem between {lexer after : Lexer} {tokens : List Token} (reads : Reads lexer tokens after)
    (unbroken : ∀ token ∈ tokens, ¬ token.Continues) (outside : Outside front rest)
    (whole : lexer.rest = front ++ rest) : Token.Between tokens front := by
  rintro early token late rfl isOpaque
  induction early generalizing lexer front with
  | nil =>
    rw [reads.text, nil_append, flatMap_cons, append_assoc] at whole
    rcases outside.of_token reads.scanned (unbroken token (by simp)) whole with
      ⟨_, first⟩ | ⟨behind, rfl, _⟩
    · exact .inl (by simp [first isOpaque])
    · exact .inr (by simp)
  | cons first early ih =>
    have scanned := Reads.scanned
      (show Reads lexer ([] ++ first :: (early ++ token :: late)) after from reads)
    rw [reads.text, cons_append, flatMap_cons, append_assoc] at whole
    rw [flatMap_cons, length_append]
    rcases outside.of_token scanned (unbroken first (by simp)) whole with
      ⟨inside, _⟩ | ⟨behind, rfl, isRest, outside⟩
    · exact .inl (by omega)
    cases reads with
    | token next more later =>
      have apart := ih outside (later.text.trans isRest.symm) later
        fun other member => unbroken other (mem_cons_of_mem _ member)
      rw [length_append]
      omega

end Text.Outside

structure Span where
  front : Text
  source : Text
  rest : Text

/-- The spans that a script replaces behind some text. -/
def EditScript.spans (front : Text) : List Edit → List Span
  | [] => []
  | .copy text :: script => spans (front ++ text) script
  | .swap source _ :: script =>
    ⟨front, source, EditScript.source script⟩ :: spans (front ++ source) script

theorem EditScript.byteLength_spans {front : Text} {script : List Edit} :
    ∀ span ∈ spans front script, front.byteLength ≤ span.front.byteLength := by
  induction script generalizing front with
  | nil => simp [spans]
  | cons edit script ih =>
    intro span member
    cases edit with
    | copy text =>
      have behind := ih span member
      rw [Text.byteLength_append] at behind
      omega
    | swap source target =>
      rcases mem_cons.1 member with rfl | later
      · exact Nat.le_refl _
      · have behind := ih span later
        rw [Text.byteLength_append] at behind
        omega

namespace Accessor

variable {session : Session} {scene : Scene} {before : Option Char} {c : Char} {cs : Text}
  {text front output : Text}

/-- A place where a form may start. -/
structure Starts (session : Session) (front rest : Text) : Prop where
  outside : Text.Outside front rest
  word : startsWord front.getLast? = true
  form : StartsNew rest ∨ StartsAccess session rest

/-- What a form takes: an allocation up to the end of the name of its type, or a name with the
parentheses behind it. -/
inductive IsSpan (session : Session) : Text → Text → Prop
  | allocation {blank rest : Text} {type : UserType} (isType : type ∈ session.types)
    (isBlank : ∀ c ∈ blank, isAsciiBlank c = true) (ends : rest.continuesName = false) :
    IsSpan session ("@new".toList ++ (blank ++ type.name.toList)) rest
  | group {name inner rest : Text} {inside : List Part} (first : '(' ∉ name)
    (parts : Text.parts (name ++ '(' :: (inner ++ ')' :: rest)) =
      name.map .code ++ .code '(' :: (inside ++ .code ')' :: rest.parts))
    (closed : Inside inside) : IsSpan session (name ++ '(' :: (inner ++ [')'])) rest

/-! ### Spans of forms -/

theorem Finds.outside {text : Text} {found : Found} (finds : Finds session before text found)
    (formed : ∀ cause, found.form ≠ .malformed cause) :
    ∃ parts, text.parts = parts ++ found.cut.rest.parts := by
  cases finds with
  | malformed => exact absurd rfl (formed _)
  | literal found => exact ⟨[.literal _], Text.parts_literal found⟩
  | char plain _ => exact ⟨[.code _], Text.parts_cons plain⟩
  | @word c cs rest name form _ _ read _ _ =>
    have inert := DottedName.inert_read (c :: (cs ++ rest))
    rw [read] at inert
    exact ⟨_, Text.parts_plain (Lexeme.plain_of_inert inert) rest⟩
  | allocation _ _ _ parts _ _ _ => exact ⟨_, parts⟩
  | call _ _ _ parts _ _ _ _ _ => exact ⟨_, parts⟩

theorem IsCall.isSpan {found : Found} {call : Call} {start : Nat} {arguments : List Argument}
    (isCall : IsCall found call start arguments) : IsSpan session found.cut.taken found.cut.rest := by
  obtain ⟨front, group, grouped, _, _, inert, rfl⟩ := isCall
  have whole := group?_whole grouped
  obtain ⟨inside, parts, closed, _⟩ := parts_enclosed inert grouped
  rw [← whole] at parts
  exact .group (fun member => absurd (inert '(' member) (by decide)) parts closed

/-- The scan goes on between two parts. -/
theorem outside_find (formed : ∀ cause, (find session before c cs).form ≠ .malformed cause)
    (outside : Text.Outside front (c :: cs)) :
    Text.Outside (front ++ (find session before c cs).cut.taken) (find session before c cs).cut.rest := by
  obtain ⟨done, parts⟩ := outside
  obtain ⟨taken, here⟩ := (finds_find session before c cs).outside formed
  refine ⟨done ++ taken, ?_⟩
  rw [append_assoc, show (find session before c cs).cut.taken ++ _ = c :: cs from
    (fits_find session before c cs).whole, parts, here, append_assoc]

theorem starts_find {front : Text} (outside : Text.Outside front (c :: cs))
    (formed : (find session front.getLast? c cs).form ≠ .copied) : Starts session front (c :: cs) := by
  obtain ⟨stands, word⟩ := standsAt_find session front.getLast? c cs
  refine ⟨outside, word formed, ?_⟩
  unfold Found.StandsAt at stands
  split at stands
  · next copied => exact absurd copied formed
  · exact .inr stands.1
  · exact .inl stands.1
  · exact .inl stands.1
  · exact stands.1

/-! ### Scripts of an expansion -/

structure Weaves (scene : Scene) (front text output : Text) (reports : List Diagnostic)
    (script : List Edit) : Prop where
  source : EditScript.source script = text
  target : EditScript.target script = output
  spans : ∀ span ∈ EditScript.spans front script,
    Starts scene.session span.front (span.source ++ span.rest) ∧
      IsSpan scene.session span.source span.rest
  warnings : ∀ warning ∈ reports, ∃ cause position, scene.Shows position (.refused cause) ∧
    front.byteLength ≤ position.offset ∧ warning = scene.warning position.offset cause ∧
    ∀ span ∈ EditScript.spans front script, span.front.byteLength ≠ position.offset
  plain : (∀ place rest, front ++ text = place ++ rest → ¬ Starts scene.session place rest) →
    output = text ∧ reports = []

namespace Weaves

variable {taken rest : Text} {reports new : List Diagnostic} {script : List Edit}
  (later : Weaves scene (front ++ taken) rest output reports script) (whole : taken ++ rest = text)
  (some : taken ≠ [])

include later whole some

theorem keep (reported : ∀ warning ∈ new, Starts scene.session front text ∧ ∃ cause position,
      scene.Shows position (.refused cause) ∧ position.offset = front.byteLength ∧
        warning = scene.warning front.byteLength cause) :
    Weaves scene front text (taken ++ output) (new ++ reports) (.copy taken :: script) where
  source := by rw [source_cons, later.source]; exact whole
  target := by rw [target_cons, later.target]; rfl
  spans := later.spans
  warnings := by
    have longer := Text.byteLength_pos some
    intro warning member
    rcases mem_append.1 member with early | late
    · obtain ⟨_, cause, position, shows, here, same⟩ := reported warning early
      rw [← here] at same
      refine ⟨cause, position, shows, here.ge, same, fun span isSpan isHere => ?_⟩
      have behind := @EditScript.byteLength_spans (front ++ taken) script span isSpan
      rw [isHere, here, Text.byteLength_append] at behind
      omega
    · obtain ⟨cause, position, shows, behind, same, apart⟩ := later.warnings warning late
      rw [Text.byteLength_append] at behind
      exact ⟨cause, position, shows, by omega, same, apart⟩
  plain := by
    intro none
    obtain ⟨rfl, rfl⟩ := later.plain fun place rest isWhole =>
      none place rest (by rw [← isWhole, ← whole]; simp)
    refine ⟨whole, ?_⟩
    cases new with
    | nil => rfl
    | cons warning new =>
      exact absurd (reported warning mem_cons_self).1 (none front _ rfl)

/-- A form that is replaced.  What is reported of its arguments lies behind its start. -/
theorem replace (isStart : Starts scene.session front text)
    (isSpan : IsSpan scene.session taken rest) {α : Type} {run : Warned α}
    {refusals : List (Position × AccessorWarning)}
    (located : Located scene (front.byteLength + 1) (front.byteLength + taken.byteLength) refusals run)
    (target : Text) :
    Weaves scene front text (target ++ output) (run.warnings ++ reports)
      (.swap taken target :: script) where
  source := by rw [source_cons, later.source]; exact whole
  target := by rw [target_cons, later.target]; rfl
  spans := by
    refine forall_mem_cons.2 ⟨?_, later.spans⟩
    rw [later.source]
    exact ⟨whole ▸ isStart, isSpan⟩
  warnings := by
    have longer := Text.byteLength_pos some
    have apartFrom : ∀ position : Position, front.byteLength < position.offset →
        (∀ span ∈ EditScript.spans (front ++ taken) script,
          span.front.byteLength ≠ position.offset) →
        ∀ span ∈ EditScript.spans front (.swap taken target :: script),
          span.front.byteLength ≠ position.offset :=
      fun position behind apart => forall_mem_cons.2 ⟨behind.ne, apart⟩
    intro warning member
    rcases mem_append.1 member with early | late
    · rw [located.warnings] at early
      obtain ⟨place, listed, rfl⟩ := mem_map.1 early
      obtain ⟨low, high⟩ := located.range place listed
      refine ⟨place.2, place.1, located.shown place listed, by omega, rfl,
        apartFrom place.1 low fun span isSpan here => ?_⟩
      have behind := byteLength_spans span isSpan
      rw [here, Text.byteLength_append] at behind
      omega
    · obtain ⟨cause, position, shows, behind, same, apart⟩ := later.warnings warning late
      rw [Text.byteLength_append] at behind
      exact ⟨cause, position, shows, by omega, same, apartFrom position (by omega) apart⟩
  plain := fun none => absurd isStart (none front _ rfl)

end Weaves

theorem exists_step {replaced : Text} {reports : List Diagnostic} {script : List Edit}
    (visited : Visits scene.session scene.outset ⟨front.getLast?, front.byteLength, c :: cs⟩)
    (outside : Text.Outside front (c :: cs))
    (replacing : (replacement scene front.byteLength
      (find scene.session front.getLast? c cs)).result = .ok replaced)
    (later : Weaves scene (front ++ (find scene.session front.getLast? c cs).cut.taken)
      (find scene.session front.getLast? c cs).cut.rest output reports script) :
    ∃ script, Weaves scene front (c :: cs) (replaced ++ output)
      ((replacement scene front.byteLength (find scene.session front.getLast? c cs)).warnings ++
        reports) script := by
  obtain ⟨isText, some⟩ := fits_find scene.session front.getLast? c cs
  have starts := @starts_find scene.session c cs front outside
  cases formed : (find scene.session front.getLast? c cs).form with
  | copied =>
    rw [replacement, formed] at replacing ⊢
    cases replacing
    exact ⟨_, later.keep isText some (by rintro _ ⟨⟩)⟩
  | refused warning =>
    rw [replacement, formed] at replacing ⊢
    cases replacing
    refine ⟨_, later.keep isText some fun reported member => ?_⟩
    obtain rfl := mem_singleton.1 member
    exact ⟨starts (by simp [formed]), warning, _, ⟨visited, c, cs, rfl, formed⟩, rfl, rfl⟩
  | malformed cause =>
    rw [replacement, formed] at replacing
    cases replacing
  | allocation text =>
    obtain ⟨_, ends, blank, isBlank, type, isType, taken⟩ := standsAt_form formed
    have isSpan := IsSpan.allocation isType isBlank ends
    rw [← taken] at isSpan
    rw [replacement, formed] at replacing ⊢
    exact ⟨_, later.replace isText some (starts (by simp [formed])) isSpan (Located.pure ()) replaced⟩
  | call call start arguments =>
    obtain ⟨refusals, located⟩ := located_arguments (fun _ _ _ formed _ member =>
      located_expand _ (visited.tail (.inward front.byteLength formed member))) formed
    rw [replacement, formed] at replacing ⊢
    obtain ⟨expanded, passed, emitted⟩ := exists_of_bind_result replacing
    dsimp only
    rw [bind_of_ok passed, show (Warned.ofResult (call.emit expanded)).warnings = [] from rfl,
      append_nil]
    exact ⟨_, later.replace isText some (starts (by simp [formed])) (standsAt_form formed).2.isSpan
      located replaced⟩

/-- The run of the scanner over the rest of the text. -/
theorem exists_weaves (scene : Scene) (front text : Text)
    (visited : Visits scene.session scene.outset ⟨front.getLast?, front.byteLength, text⟩)
    (outside : Text.Outside front text)
    (expanded : (expand scene front.getLast? front.byteLength text).result = .ok output) :
    ∃ script, Weaves scene front text output
      (expand scene front.getLast? front.byteLength text).warnings script := by
  induction size : text.length using Nat.strongRecOn generalizing front text output with
  | ind size ih =>
    subst size
    cases text with
    | nil =>
      rw [expand] at expanded ⊢
      cases expanded
      exact ⟨[], rfl, rfl, by simp [EditScript.spans], by simp [pure], fun _ => ⟨rfl, rfl⟩⟩
    | cons c cs =>
      have fits := fits_find scene.session front.getLast? c cs
      have shorter := Cut.rest_length_lt fits.whole fits.taken
      rw [expand_cons] at expanded ⊢
      obtain ⟨replaced, replacing, expanded⟩ := exists_of_bind_result expanded
      obtain ⟨later, onward, same⟩ := exists_of_bind_result expanded
      cases same
      rw [bind_of_ok replacing, bind_of_ok onward]
      have sound : ∀ cause, (find scene.session front.getLast? c cs).form ≠ .malformed cause := by
        intro cause formed
        rw [replacement, formed] at replacing
        cases replacing
      have next := visited.tail (.onward front.getLast? front.byteLength c cs)
      rw [← getLast?_append_of_ne_nil front fits.taken, ← Text.byteLength_append] at onward next ⊢
      obtain ⟨script, weaves⟩ := ih _ shorter _ _ next (outside_find sound outside) onward rfl
      show ∃ script, Weaves _ _ _ _ (_ ++ (_ ++ [])) script
      rw [append_nil]
      exact exists_step visited outside replacing weaves

end Accessor

/-- What is replaced starts with a form, between tokens unless a string goes on behind an escaped CRLF
pair, and ends with the form.  An accessor that is warned about is not replaced, and nothing changes
without a form. -/
theorem expansion_replaces_forms (session : Session) (file : String) (pasted : Pasted)
    (output : Text)
    (expanded : (session.expandAccessors file pasted).result = .ok output) :
    (∃ script, EditScript.source script = pasted.text ∧ EditScript.target script = output ∧
      (∀ span ∈ EditScript.spans [] script,
        Accessor.Starts session span.front (span.source ++ span.rest) ∧
          Accessor.IsSpan session span.source span.rest) ∧
      ∀ warning ∈ (session.expandAccessors file pasted).warnings, ∃ cause before place text back,
        pasted.text = place ++ (text ++ back) ∧ Accessor.startsWord before = true ∧
        Accessor.Visits session ⟨none, 0, pasted.text⟩ ⟨before, place.byteLength, text⟩ ∧
        Accessor.StartsAccess session text ∧
        (Accessor.accessor session text).form = .refused cause ∧
        warning = ⟨cause.code, .warning, cause.message, file,
          pasted.lines.lineAt pasted.text place.byteLength, none⟩ ∧
        ∀ span ∈ EditScript.spans [] script, span.front ≠ place) ∧
    ((∀ front rest, pasted.text = front ++ rest → ¬ Accessor.Starts session front rest) →
      output = pasted.text ∧ (session.expandAccessors file pasted).warnings = []) ∧
    ∀ line tokens, tokenizeFrom line pasted.text = .ok tokens →
      (∀ token ∈ tokens, ¬ token.Continues) → ∀ front rest, pasted.text = front ++ rest →
        Text.Outside front rest → Token.Between tokens front := by
  obtain ⟨script, weaves⟩ := Accessor.exists_weaves ⟨session, file, pasted⟩ [] pasted.text .refl
    ⟨[], rfl⟩ expanded
  refine ⟨⟨script, weaves.source, weaves.target, weaves.spans, ?_⟩, weaves.plain, ?_⟩
  · intro warning member
    obtain ⟨cause, position, shown, _, same, apart⟩ := weaves.warnings warning member
    obtain ⟨⟨visited, ⟨place, back, whole, offset⟩, word⟩, isStart, refused⟩ :=
      Accessor.shows_refused_iff.1 shown
    obtain ⟨before, _, text⟩ := position
    subst offset
    exact ⟨cause, before, place, text, back, whole, word, visited, isStart, refused, same,
      fun span isSpan here => apart span isSpan (congrArg Text.byteLength here)⟩
  · intro line tokens lexed unbroken front rest whole outside
    obtain ⟨after, reads, _, _⟩ := (tokenizeFrom_eq_ok_iff line pasted.text tokens).1 lexed
    exact outside.between reads unbroken whole

/-- Accessors in code, in a string and in a comment, one with a missing argument. -/
def sampleSpans : Pasted :=
  ⟨"a.int32.Array(p, 0) + int32.Array(p, 1) + 'int32.Array(p, 2)' // @new\nint32.Array(p)".toList, ⟨[]⟩⟩

theorem expansion_replaces_forms_sample : ∃ output warning script,
    (Session.empty.expandAccessors "sample" sampleSpans).result = .ok output ∧
    output = ("a.int32.Array(p, 0) + _mem_int32[(p + 4 * 1) >> 2] + " ++
      "'int32.Array(p, 2)' // @new\nint32.Array(p)").toList ∧
    (Session.empty.expandAccessors "sample" sampleSpans).warnings = [warning] ∧
    EditScript.source script = sampleSpans.text ∧ EditScript.target script = output ∧
    ∀ span ∈ EditScript.spans [] script,
      Accessor.Starts Session.empty span.front (span.source ++ span.rest) := by
  have run : (Session.empty.expandAccessors "sample" sampleSpans).result =
        .ok ("a.int32.Array(p, 0) + _mem_int32[(p + 4 * 1) >> 2] + " ++
          "'int32.Array(p, 2)' // @new\nint32.Array(p)").toList ∧
      (Session.empty.expandAccessors "sample" sampleSpans).warnings.length = 1 := by
    decide +kernel
  obtain ⟨expanded, one⟩ := run
  obtain ⟨warning, warned⟩ := List.length_eq_one_iff.1 one
  obtain ⟨⟨script, source, target, spans, _⟩, _⟩ :=
    expansion_replaces_forms Session.empty "sample" sampleSpans _ expanded
  exact ⟨_, warning, script, expanded, rfl, warned, source, target, fun span member =>
    (spans span member).1⟩

/-- A string that goes on behind an escaped CRLF pair.  An accessor in its second line is replaced. -/
theorem replaced_in_continued_string :
    tokenizeFrom 1 "'a\\\r\n int32.Array(p, 0)'".toList =
      .ok [⟨.other, "'a\\\r\n int32.Array(p, 0)'".toList, 1⟩, ⟨.lineReset, [], 2⟩] ∧
    (Session.empty.expandAccessors "sample" ⟨"'a\\\r\n int32.Array(p, 0)'".toList, ⟨[]⟩⟩).result =
      .ok "'a\\\r\n _mem_int32[(p + 4 * 0) >> 2]'".toList := by
  decide +kernel

end FlatMemory
