import FlatMemory.Proofs.Code.Edit
import FlatMemory.Proofs.Code.PastedLines

/-! # Lines of method bodies

The line map counts up from the opening brace of a body by the line breaks that are written.  Line
breaks that expansion swaps out are missing in the count: text behind a reference with a line break
in front of its `=`, its parenthesis, its value or its arguments is reported too far up, by as many
lines as were lost so far. -/

namespace FlatMemory

open List Text Snippet

variable {method : Method} {source : Text}

/-! ### Bodies in the source -/

theorem Method.Stands.located {endLine : Nat} {tokens inner : List Token}
    (stands : method.Stands endLine tokens inner) (lexed : tokenize source = .ok tokens) :
    ∃ lead trail, source = (lead ++ ['{']) ++ (method.body ++ trail) ∧
      method.line = 1 + lead.lineBreaks := by
  obtain ⟨after, reads, _⟩ := (tokenizeFrom_eq_ok_iff 1 source tokens).1 lexed
  obtain ⟨before, opening, close, rest, rfl, isOpening, line, _, body⟩ := stands.braced
  have brace : opening.text = ['{'] := by
    rcases reads.proper opening (by simp) with ⟨reset, _⟩ | spelled
    · rw [isOpening] at reset
      cases reset
    · rw [isOpening] at spelled
      exact spelled
  refine ⟨before.flatMap Token.text, (close :: rest).flatMap Token.text, ?_, ?_⟩
  · rw [text_of_tokenizeFrom lexed, body, ← brace]
    simp
  · rw [← line, reads.token_line]
    rfl

/-! ### Bodies in the pasted text -/

/-- What braces keep of a body: blank text at the end of a body of several lines is dropped. -/
def Snippet.keptBody (body : Text) : Text := if '\n' ∈ body then body.trimEnd else body

theorem Snippet.braced_eq (body : Text) :
    ∃ closing, braced body = ['{'] ++ (keptBody body ++ closing) := by
  unfold braced keptBody
  split
  · exact ⟨_, rfl⟩
  · exact ⟨_, rfl⟩

theorem Snippet.keptBody_append (body : Text) : ∃ dropped, body = keptBody body ++ dropped := by
  unfold keptBody
  split
  · exact ⟨_, (trimEnd_append_trailingBlank body).symm⟩
  · exact ⟨[], (append_nil body).symm⟩

theorem CodeLines.body {session : Session} {pasted : Pasted} {earlier : List Section}
    {declaration : Declaration} (lines : CodeLines session source pasted earlier declaration)
    (isMethod : method ∈ declaration.methods) :
    ∃ type ∈ session.types, type.declaration = declaration ∧ ∃ body before, ∃ front back : Text,
      session.expandBody type method = .ok body ∧
      front = before ++ (functionHead (Generate.definedName type method) method).toList ∧
      pasted.text = front ++ (Snippet.braced body ++ back) ∧
      ∀ position < (Snippet.braced body).byteLength,
        pasted.lines.lineAt pasted.text (front.byteLength + position) =
          method.line + (Snippet.braced body).lineBreaksBetween 0 position 0 := by
  obtain ⟨front, gap, back, type, snippet, parts, _, _, whole, found, isType, _, isText, written,
    methods, _, lined⟩ := lines
  obtain ⟨part, member, body, expanded, isPart⟩ :=
    exists_of_mem_forall₂ written ((methods method).2 isMethod)
  obtain ⟨before, after, rfl⟩ := append_of_mem (mem_filter.1 member).1
  obtain ⟨_, counts⟩ := lined before part after rfl
  subst isPart
  refine ⟨type, found, isType, body, (front ++ gap) ++ (CodePart.written before ++ ['\n']),
    (front ++ gap) ++ (CodePart.written before ++
      (CodePart.function (Generate.definedName type method) method body).head),
    [';'] ++ (CodePart.written after ++ back), expanded, by simp [CodePart.head], ?_,
    fun position inside => ?_⟩
  · rw [whole, isText, CodePart.written_append, ← singleton_append, CodePart.written_append,
      CodePart.written_singleton]
    simp [CodePart.tail]
  · have here := counts position (by simp [CodePart.tail]; omega)
    rw [CodePart.tail, lineBreaksBetween_front _ (Nat.le_of_lt inside)] at here
    rw [byteLength_append (front ++ gap), byteLength_append (CodePart.written before),
      Nat.add_assoc, Nat.add_assoc]
    exact here

/-- Text of a body that is copied: where it is pasted, the line map reports the line that it has in
the source, less the line breaks swapped out in front of it. -/
theorem lineAt_copied {body lead trail front : Text} {script : List Edit} {lineAt : Nat → Nat}
    {line : Nat} (flat : EditScript.Flat script) (isTarget : EditScript.target script = body)
    (isSource : source = lead ++ (EditScript.source script ++ trail))
    (starts : line = 1 + lead.lineBreaks)
    (counts : ∀ position < (Snippet.braced body).byteLength,
      lineAt (front.byteLength + position) =
        line + (Snippet.braced body).lineBreaksBetween 0 position 0)
    {before after : List Edit} {text : Text} (split : script = before ++ .copy text :: after)
    {i : Nat} (inside : i < text.byteLength)
    (isKept : (EditScript.target before).byteLength + i < (Snippet.keptBody body).byteLength) :
    lineAt (front.byteLength + (1 + ((EditScript.target before).byteLength + i))) +
        EditScript.lost before =
      source.lineAt ((lead ++ EditScript.source before).byteLength + i) := by
  obtain ⟨closing, isBraced⟩ := braced_eq body
  obtain ⟨dropped, isBody⟩ := keptBody_append body
  have brace : Text.byteLength ['{'] = 1 := rfl
  have within : 1 + ((EditScript.target before).byteLength + i) <
      (Snippet.braced body).byteLength := by
    rw [isBraced, byteLength_append, byteLength_append, brace]
    omega
  have written : (Snippet.braced body).lineBreaksBetween 0
      (1 + ((EditScript.target before).byteLength + i)) 0 =
        (EditScript.target before).lineBreaks + text.lineBreaksBetween 0 i 0 := by
    calc (Snippet.braced body).lineBreaksBetween 0
          (1 + ((EditScript.target before).byteLength + i)) 0
        = (Snippet.keptBody body).lineBreaksBetween 0
            ((EditScript.target before).byteLength + i) 0 := by
          rw [isBraced, ← brace, lineBreaksBetween_behind,
            lineBreaksBetween_front _ (Nat.le_of_lt isKept)]
          exact Nat.zero_add _
      _ = body.lineBreaksBetween 0 ((EditScript.target before).byteLength + i) 0 := by
          conv_rhs => rw [isBody]
          rw [lineBreaksBetween_front _ (Nat.le_of_lt isKept)]
      _ = _ := by
          rw [← isTarget, split, EditScript.target_append, EditScript.target_cons, Edit.target,
            lineBreaksBetween_behind, lineBreaksBetween_front _ (Nat.le_of_lt inside)]
  have original : source.lineAt ((lead ++ EditScript.source before).byteLength + i) =
      1 + (lead ++ EditScript.source before).lineBreaks + text.lineBreaksBetween 0 i 0 := by
    have parts : source = (lead ++ EditScript.source before) ++
        (text ++ (EditScript.source after ++ trail)) := by
      rw [isSource, split]
      simp [Edit.source]
    rw [parts, lineAt_behind, lineBreaksBetween_front _ (Nat.le_of_lt inside)]
  have lost := EditScript.Flat.lineBreaks fun edit member =>
    flat edit (split ▸ mem_append_left _ member)
  rw [counts _ within, written, original, starts, lineBreaks_append]
  omega

/-- The body of a method is pasted behind the head of its function as an edit of what stands in the
source, and the line reported for copied text falls short of its source line by the line breaks that
were swapped out in front of it. -/
def Method.ShiftsLines (method : Method) (declaration : Declaration) (session : Session)
    (source : Text) (pasted : Pasted) : Prop :=
  ∃ type ∈ session.types, type.declaration = declaration ∧
    ∃ tokens script body lead trail before, ∃ front back : Text,
      tokenizeFrom method.line method.body = .ok tokens ∧
      session.expandBody type method = .ok body ∧
      SelfReference.Edits session type false tokens script ∧
      EditScript.source script = method.body ∧ EditScript.target script = body ∧
      source = (lead ++ ['{']) ++ (method.body ++ trail) ∧
      method.line = source.lineAt lead.byteLength ∧
      front = before ++ (functionHead (Generate.definedName type method) method).toList ∧
      pasted.text = front ++ (Snippet.braced body ++ back) ∧
      ∀ done text after, script = done ++ .copy text :: after →
        ∀ i < text.byteLength,
          (EditScript.target done).byteLength + i < (Snippet.keptBody body).byteLength →
          pasted.lines.lineAt pasted.text
              (front.byteLength + (1 + ((EditScript.target done).byteLength + i))) +
              EditScript.lost done =
            source.lineAt (((lead ++ ['{']) ++ EditScript.source done).byteLength + i)

/-- The lines of a body are exact up to the first reference with a line break in front of its value or
its arguments, and behind it they are short by the line breaks lost so far. -/
theorem body_lines_shifted {declarations : List Declaration} {session : Session}
    (accepts : Accepts declarations session) {file : String} {source : Text} {document : Document}
    {pasted : Pasted} (read : Document.read file source = .ok document)
    (included : ∀ declaration ∈ document.declarations, declaration ∈ declarations)
    (pasting : session.paste document = .ok pasted) {declaration : Declaration}
    (declared : declaration ∈ document.declarations) {method : Method}
    (isMethod : method ∈ declaration.methods) :
    method.ShiftsLines declaration session source pasted := by
  obtain ⟨sourceTokens, sections, traces⟩ := accepts.loaded.traces read included pasting
  obtain ⟨inner, stands, balanced⟩ :=
    Document.stands_of_read read traces.lexed declared isMethod
  obtain ⟨after, reads, _⟩ := (tokenizeFrom_eq_ok_iff 1 source sourceTokens).1 traces.lexed
  have isBody := stands.isBody ⟨_, after, reads⟩ balanced
  obtain ⟨lead, trail, isSource, starts⟩ := stands.located traces.lexed
  have isSection := declared
  rw [traces.declared] at isSection
  obtain ⟨block, isBlock, declares⟩ := List.mem_filterMap.1 isSection
  obtain ⟨earlier, later, split⟩ := List.append_of_mem isBlock
  cases block with
  | outside token => cases declares
  | block inside other =>
    cases declares
    obtain ⟨type, found, isType, body, before, front, back, expanded, headed, isPasted, counts⟩ :=
      (traces.generated_lines split).body isMethod
    have writes : SelfReference.Writes session type false inner body := by
      unfold Session.expandBody at expanded
      rw [isBody.lexed] at expanded
      exact SelfReference.writes_of_expand expanded
    obtain ⟨script, edits, isTarget⟩ := writes.edits
    have proper : ∀ token ∈ inner, token.Proper := by
      obtain ⟨final, readsInner, _⟩ := (tokenizeFrom_eq_ok_iff _ _ _).1 isBody.lexed
      exact readsInner.proper
    have isBodyText : EditScript.source script = method.body := by
      rw [edits.source, text_of_tokenizeFrom isBody.lexed]
    have brace : method.line = source.lineAt lead.byteLength := by
      have here := lineAt_behind lead (['{'] ++ (method.body ++ trail)) 0
      rw [lineBreaksBetween_eq_zero (.inr (Nat.le_refl 0)), ← List.append_assoc, ← isSource] at here
      exact starts.trans here.symm
    refine ⟨type, found, isType, inner, script, body, lead, trail, before, front, back, isBody.lexed,
      expanded, edits, isBodyText, isTarget, isSource, brace, headed, isPasted, ?_⟩
    intro done text after split i inside isKept
    rw [← isBodyText] at isSource
    exact lineAt_copied (edits.flat accepts.readable found proper) isTarget isSource
      (starts.trans (by rw [lineBreaks_append]; rfl)) counts split inside isKept

/-- A body with a line break in front of an `=`, one behind a comment that is part of the value, and
one in front of an argument.  The word `last` stands on line 7. -/
def sampleGaps : Text := "@flatjs class T\x7bx:int32;@method m(SELF, a)\x7b
  SELF.x\n = // \u00e9\n 5 ; SELF.m(\n SELF.x\n);\n last();\n\x7d\x7d@end".toList

theorem body_lines_shifted_sample : ∃ document declarations session pasted declaration method,
    Document.read "sample" sampleGaps = .ok document ∧ Accepts declarations session ∧
    (∀ declaration ∈ document.declarations, declaration ∈ declarations) ∧
    session.paste document = .ok pasted ∧ declaration ∈ document.declarations ∧
    method ∈ declaration.methods ∧
    method.ShiftsLines declaration session sampleGaps pasted := by
  have accepted : (do
      let document ← Document.read "sample" sampleGaps
      let session ← Session.ofDocuments [document]
      let _ ← session.paste document
      return document.declarations.map fun declaration => declaration.methods.length) =
        Except.ok [1] := by
    decide +kernel
  obtain ⟨document, session, read, accepts, accepted⟩ := Accepts.exists_of_sample accepted
  obtain ⟨pasted, pasting, methods⟩ := exists_of_bind_eq_ok accepted
  obtain ⟨declaration, isOnly, one⟩ := List.map_eq_singleton_iff.1 (Except.ok.inj methods)
  obtain ⟨method, isMethod⟩ := List.length_eq_one_iff.1 one
  have declared : declaration ∈ document.declarations := by simp [isOnly]
  have isDeclared : method ∈ declaration.methods := by simp [isMethod]
  exact ⟨document, _, session, pasted, declaration, method, read, accepts, fun _ member => member,
    pasting, declared, isDeclared,
    body_lines_shifted accepts read (fun _ member => member) pasting declared isDeclared⟩

/-- The word `last` is copied, but reported two lines too far up. -/
theorem lines_lost_in_gaps : ∃ document session pasted,
    Document.read "sample" sampleGaps = .ok document ∧
    Session.ofDocuments [document] = .ok session ∧ session.paste document = .ok pasted ∧
    sampleGaps.slice? 87 91 = some "last".toList ∧ sampleGaps.lineAt 87 = 7 ∧
    pasted.text.slice? 446 450 = some "last".toList ∧ pasted.lines.lineAt pasted.text 446 = 5 := by
  have accepted : (do
      let document ← Document.read "sample" sampleGaps
      let session ← Session.ofDocuments [document]
      let pasted ← session.paste document
      return (pasted.text.slice? 446 450, pasted.lines.lineAt pasted.text 446)) =
        Except.ok (some "last".toList, 5) := by
    decide +kernel
  obtain ⟨document, read, accepted⟩ := exists_of_bind_eq_ok accepted
  obtain ⟨session, analysed, accepted⟩ := exists_of_bind_eq_ok accepted
  obtain ⟨pasted, pasting, found⟩ := exists_of_bind_eq_ok accepted
  obtain ⟨word, line⟩ := Prod.mk.inj (Except.ok.inj found)
  exact ⟨document, session, pasted, read, analysed, pasting, by decide +kernel, by decide +kernel,
    word, line⟩

end FlatMemory
