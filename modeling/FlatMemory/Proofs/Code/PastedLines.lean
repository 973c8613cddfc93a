import FlatMemory.Proofs.Code.SnippetLines
import FlatMemory.Proofs.Code.SourceLines

/-! # Lines of pasted text

Copied text has the lines of the source.  Generated code is on the line of its definition, the bodies
of declared methods apart, which count up from the line of their opening brace. -/

namespace FlatMemory

open List Text

variable {declarations : List Declaration} {sections : List Section} {session : Session}
  {document : Document} {file : String}

/-- `lineAt` answers for the bytes of pasted sections from a position on.  `lead` is the source in
front of the sections, and `adjacent` says that code has just been put in. -/
inductive Section.Traced (session : Session) (lineAt : Nat → Nat) :
    Bool → Nat → Text → List Section → Text → Prop
  | done (adjacent : Bool) (position : Nat) (lead : Text) :
    Traced session lineAt adjacent position lead [] []
  | outside {adjacent : Bool} {position : Nat} {lead : Text} {token : Token}
    {sections : List Section} {text : Text}
    (lines : ∀ i < token.text.byteLength, lineAt (position + i) =
      1 + lead.lineBreaks + token.text.lineBreaksBetween 0 i 0)
    (later : Traced session lineAt (adjacent && token.text.isEmpty)
      (position + token.text.byteLength) (lead ++ token.text) sections text) :
    Traced session lineAt adjacent position lead (.outside token :: sections) (token.text ++ text)
  | block {adjacent : Bool} {position : Nat} {lead : Text} {tokens : List Token}
    {declaration : Declaration} {sections : List Section} {type : UserType} {snippet : Snippet}
    {parts : List CodePart} {gap text : Text} (found : type ∈ session.types)
    (declared : type.declaration = declaration) (code : session.generate type = .ok snippet)
    (consists : Generate.ConsistsOf session type (Generate.writtenMethods type) snippet parts)
    (isGap : gap = if adjacent then ['\n'] else [])
    (lines : CodePart.Lined declaration.line parts fun i =>
      lineAt (position + gap.byteLength + i))
    (later : Traced session lineAt true (position + gap.byteLength + snippet.text.byteLength)
      (lead ++ tokens.flatMap Token.text) sections text) :
    Traced session lineAt adjacent position lead (.block tokens declaration :: sections)
      (gap ++ (snippet.text ++ text))

/-! ### Inserting code -/

namespace Pasted

structure GoesOn (pasted : Pasted) (line : Nat) : Prop where
  spans : pasted.lines.Spans pasted.text.byteLength
  open_ : ∀ position, pasted.text.byteLength ≤ position →
    pasted.lines.runAt position = ⟨pasted.text.byteLength, line, .source⟩

section

variable {pasted : Pasted} {line : Nat} (goesOn : pasted.GoesOn line) (more : Text)
  {snippet : Snippet} (spans : snippet.lines.Spans snippet.text.byteLength) (next : Nat)
  {position : Nat}

include goesOn spans

theorem GoesOn.runAt_insert (position : Nat) :
    ((pasted.append more).insert snippet next).lines.runAt position =
      if ((pasted.text ++ more) ++ snippet.text).byteLength ≤ position then
        ⟨((pasted.text ++ more) ++ snippet.text).byteLength, next, .source⟩
      else (pasted.lines.splice (pasted.text ++ more).byteLength snippet.lines).runAt position := by
  have toCode : pasted.lines.Spans (pasted.text ++ more).byteLength :=
    goesOn.spans.mono (by simp)
  have toEnd := toCode.splice spans
  rw [← byteLength_append] at toEnd
  exact LineMap.runAt_push toEnd position

theorem GoesOn.insert : ((pasted.append more).insert snippet next).GoesOn next := by
  have toCode : pasted.lines.Spans (pasted.text ++ more).byteLength :=
    goesOn.spans.mono (by simp)
  have toEnd := toCode.splice spans
  rw [← byteLength_append] at toEnd
  refine ⟨LineMap.Spans.push toEnd, fun position behind => ?_⟩
  rw [goesOn.runAt_insert more spans next]
  exact if_pos behind

theorem GoesOn.runAt_front (before : position < (pasted.text ++ more).byteLength) :
    ((pasted.append more).insert snippet next).lines.runAt position =
      pasted.lines.runAt position := by
  have toCode : pasted.lines.Spans (pasted.text ++ more).byteLength :=
    goesOn.spans.mono (by simp)
  rw [goesOn.runAt_insert more spans next, if_neg, LineMap.runAt_splice_of_lt toCode spans before]
  rw [byteLength_append]
  omega

theorem GoesOn.runAt_code (inside : position < snippet.text.byteLength) :
    ((pasted.append more).insert snippet next).lines.runAt
        ((pasted.text ++ more).byteLength + position) =
      (snippet.lines.runAt position).moved (pasted.text ++ more).byteLength := by
  have toCode : pasted.lines.Spans (pasted.text ++ more).byteLength :=
    goesOn.spans.mono (by simp)
  rw [goesOn.runAt_insert more spans next, if_neg, LineMap.runAt_splice_add toCode spans]
  rw [byteLength_append _ snippet.text]
  omega

end

end Pasted

/-! ### Weaving -/

theorem Pasted.exists_of_insertDefinition {pasted : Pasted} {before after : Text} {offset : Nat}
    {begun : Bool} {declaration : Declaration} {index : Nat} {type : UserType} {progress : Progress}
    (known : session.lookup declaration.name = some (.user index))
    (found : session.types[index]? = some type)
    (origin : declaration.origin = offset + before.byteLength)
    (inserted : insertDefinition session document ⟨pasted, before ++ after, offset, begun⟩
      declaration = .ok progress) :
    ∃ snippet, session.generate type = .ok snippet ∧
      progress = ⟨(pasted.append (before ++ if begun && before.isEmpty then ['\n'] else [])).insert
        snippet (document.residualLine declaration.origin), after, declaration.origin, true⟩ := by
  have cut : (before ++ after).splitAtByte? (declaration.origin - offset) =
      some (before, after) := by
    rw [origin, Nat.add_sub_cancel_left]
    exact splitAtByte?_byteLength before after
  rw [insertDefinition_eq known found (by rw [origin]; exact Nat.le_add_right _ _) cut] at inserted
  obtain ⟨snippet, code, rfl⟩ := exists_of_map_eq_ok inserted
  refine ⟨snippet, code, ?_⟩
  cases begun with
  | false => simp [append]
  | true => cases before <;> simp [append]

/-- Inserting the definitions of sections, where `before` has been passed but not yet copied. -/
theorem Loaded.traced_weave {declarations : List Declaration} {session : Session}
    (loaded : Loaded declarations session) {document : Document} {pieces : List Piece}
    {sections : List Section} (matched : List.Forall₂ Piece.From pieces sections)
    {offset : Nat} {before : Text}
    (declared : Piece.declarations (offset + before.byteLength) pieces =
      sections.filterMap Section.declaration?)
    (included : ∀ declaration ∈ sections.filterMap Section.declaration?,
      declaration ∈ declarations ∧ declaration.WellFormed)
    {pasted : Pasted} {begun : Bool} {progress : Pasted.Progress}
    (woven : (Piece.declarations (offset + before.byteLength) pieces).foldlM
      (Pasted.insertDefinition session document)
      ⟨pasted, before ++ pieces.flatMap Piece.text, offset, begun⟩ = .ok progress)
    (goesOn : pasted.GoesOn (document.residualLine offset)) {lead : Text}
    (counts : before ≠ [] →
      document.residualLine offset + before.lineBreaks = 1 + lead.lineBreaks)
    (ahead : ∀ earlier token later, sections = earlier ++ .outside token :: later →
      token.text ≠ [] →
      document.residualLine (offset + (before ++ Section.kept earlier).byteLength) =
        1 + (lead ++ Section.source earlier).lineBreaks) :
    ∃ text, progress.pasted.text ++ progress.rest = pasted.text ++ (before ++ text) ∧
      (∀ position < (pasted.text ++ before).byteLength,
        progress.pasted.lines.runAt position = pasted.lines.runAt position) ∧
      Section.Traced session (progress.pasted.lines.lineAt (pasted.text ++ (before ++ text)))
        (begun && before.isEmpty) (pasted.text ++ before).byteLength lead sections text := by
  induction matched generalizing offset before pasted begun lead with
  | nil =>
    cases woven
    exact ⟨[], by simp, fun _ _ => rfl, .done _ _ _⟩
  | @cons piece first pieces sections from_ matched ih =>
    cases from_ with
    | copied token =>
      have base : before ≠ [] ∨ token.text ≠ [] →
          document.residualLine offset + before.lineBreaks = 1 + lead.lineBreaks := by
        intro some
        by_cases none : before = []
        · have here := ahead [] token sections rfl (some.resolve_left (absurd none))
          subst none
          simpa [Section.kept, Section.source, Text.byteLength, Text.lineBreaks] using here
        · exact counts none
      have next : offset + before.byteLength + token.text.byteLength =
          offset + (before ++ token.text).byteLength := by
        rw [byteLength_append, Nat.add_assoc]
      rw [Piece.declarations, next] at woven declared
      rw [flatMap_cons, ← append_assoc] at woven
      have goesOnCounting : before ++ token.text ≠ [] → document.residualLine offset +
          (before ++ token.text).lineBreaks = 1 + (lead ++ token.text).lineBreaks := by
        intro some
        rw [lineBreaks_append, lineBreaks_append, ← Nat.add_assoc, ← Nat.add_assoc,
          base (by simpa [← not_and_or] using some)]
      obtain ⟨text, whole, frame, traced⟩ := ih declared included woven goesOn goesOnCounting
        fun earlier other later split hasText => by
          have there := ahead (.outside token :: earlier) other later (by rw [split]; rfl) hasText
          rw [append_assoc, append_assoc]
          exact there
      have place : (pasted.text ++ (before ++ token.text)).byteLength =
          (pasted.text ++ before).byteLength + token.text.byteLength := by
        rw [← append_assoc, byteLength_append]
      rw [place] at frame traced
      rw [append_assoc] at whole traced
      refine ⟨token.text ++ text, whole, fun position inside => frame position (by omega), ?_⟩
      refine .outside (fun i inside => ?_) ?_
      · have hasText : token.text ≠ [] := by
          intro none
          rw [none] at inside
          cases inside
        rw [LineMap.lineAt, frame _ (by omega), goesOn.open_ _ (by simp [Nat.add_assoc]),
          byteLength_append, Nat.add_assoc, Run.lineAt_source, lineBreaksBetween_behind,
          lineBreaksBetween_front _ (Nat.le_of_lt inside), ← Nat.add_assoc,
          base (.inr hasText)]
      · have stays : (begun && (before ++ token.text).isEmpty) =
            ((begun && before.isEmpty) && token.text.isEmpty) := by
          cases before <;> simp
        rw [← stays]
        exact traced
    | block tokens declaration origin =>
      obtain ⟨sameHead, declared⟩ := List.cons.inj declared
      obtain ⟨⟨isDeclared, wellFormed⟩, included⟩ := forall_mem_cons.1 included
      obtain ⟨index, type, found, isType⟩ := loaded.exists_type isDeclared
      rw [Piece.declarations, foldlM_cons, sameHead] at woven
      obtain ⟨reached, inserted, woven⟩ := exists_of_bind_eq_ok woven
      have isOrigin : origin = offset + before.byteLength :=
        (congrArg Declaration.origin sameHead).symm
      obtain ⟨gap, isGap⟩ : ∃ gap : Text, gap = if begun && before.isEmpty then ['\n'] else [] :=
        ⟨_, rfl⟩
      have known : session.lookup ({ declaration with origin := origin } : Declaration).name =
          some (.user index) := by
        have := loaded.lookup found
        rwa [UserType.name, isType] at this
      obtain ⟨snippet, code, rfl⟩ :=
        Pasted.exists_of_insertDefinition known found isOrigin inserted
      rw [← isGap] at woven
      obtain ⟨parts, consists⟩ := (Generate.builds_generate (isType ▸ wellFormed) code).consists
      have spans := consists.1.spans
      have goesOnBehind := goesOn.insert (before ++ gap) spans (document.residualLine origin)
      obtain ⟨text, whole, frame, traced⟩ := @ih origin [] (by rw [isOrigin]; exact declared) included
        _ true (by rw [isOrigin] at woven ⊢; exact woven) goesOnBehind
        (lead ++ tokens.flatMap Token.text) (fun some => absurd rfl some)
        fun earlier other later split hasText => by
          have there := ahead (.block tokens _ :: earlier) other later (by rw [split]; rfl) hasText
          rw [byteLength_append, ← Nat.add_assoc, ← isOrigin] at there
          rw [append_assoc]
          exact there
      have joined : pasted.text ++ (before ++ (gap ++ (snippet.text ++ text))) =
          (pasted.text ++ (before ++ gap)) ++ (snippet.text ++ text) := by
        simp only [append_assoc]
      have isWhole : ((pasted.append (before ++ gap)).insert snippet
          (document.residualLine origin)).text ++ ([] ++ text) =
            (pasted.text ++ (before ++ gap)) ++ (snippet.text ++ text) :=
        append_assoc _ snippet.text text
      have isPlace : (((pasted.append (before ++ gap)).insert snippet
          (document.residualLine origin)).text ++ []).byteLength =
            (pasted.text ++ (before ++ gap)).byteLength + snippet.text.byteLength := by
        rw [append_nil]
        exact byteLength_append _ snippet.text
      have toCode : (pasted.text ++ (before ++ gap)).byteLength =
          (pasted.text ++ before).byteLength + gap.byteLength := by
        rw [← append_assoc, byteLength_append]
      rw [isPlace] at frame
      rw [isWhole, isPlace, toCode] at traced
      rw [isWhole] at whole
      refine ⟨gap ++ (snippet.text ++ text), by rw [joined]; exact whole,
        fun position inside => ?_, ?_⟩
      · rw [frame position (by omega), goesOn.runAt_front _ spans _ (by omega)]
      · rw [joined]
        refine .block (mem_of_getElem? found) isType code consists isGap ?_ traced
        have lined := consists.1.lined
        rw [consists.2.1, isType] at lined
        refine lined.congr fun position inside => ?_
        rw [← consists.1.text] at inside
        rw [LineMap.lineAt, ← toCode, frame _ (by omega), goesOn.runAt_code _ spans _ inside]
        exact Run.lineAt_moved _ _ text (Nat.le_of_lt inside)

namespace Section.Traced

variable {lineAt : Nat → Nat} {adjacent : Bool} {position : Nat} {lead : Text}

theorem split {earlier later : List Section} {text : Text}
    (traced : Traced session lineAt adjacent position lead (earlier ++ later) text) :
    ∃ front back between, text = front ++ back ∧
      Traced session lineAt adjacent position lead earlier front ∧
      Traced session lineAt between (position + front.byteLength) (lead ++ source earlier)
        later back := by
  induction earlier generalizing adjacent position lead text with
  | nil =>
    refine ⟨[], text, adjacent, rfl, .done _ _ _, ?_⟩
    rwa [source, flatMap_nil, append_nil]
  | cons first earlier ih =>
    cases traced with
    | @outside _ _ _ token _ _ lines goesOn =>
      obtain ⟨front, back, between, rfl, before, behind⟩ := ih goesOn
      refine ⟨token.text ++ front, back, between, (append_assoc ..).symm,
        .outside lines before, ?_⟩
      rw [byteLength_append, ← Nat.add_assoc]
      rw [append_assoc] at behind
      exact behind
    | @block _ _ _ tokens _ _ type snippet parts gap _ found declared code consists isGap lines goesOn =>
      obtain ⟨front, back, between, rfl, before, behind⟩ := ih goesOn
      refine ⟨gap ++ (snippet.text ++ front), back, between, by simp only [append_assoc],
        .block found declared code consists isGap lines before, ?_⟩
      rw [byteLength_append, byteLength_append, ← Nat.add_assoc, ← Nat.add_assoc]
      rw [append_assoc] at behind
      exact behind

theorem pasted (loaded : Loaded declarations session) {text : Text}
    (traced : Traced session lineAt adjacent position lead sections text)
    (included : ∀ declaration ∈ sections.filterMap declaration?, declaration ∈ declarations) :
    Section.pasted session adjacent sections = some text := by
  induction traced with
  | done => rfl
  | outside _ _ ih =>
    rw [Section.pasted, ih included]
    rfl
  | block found declared code _ isGap _ _ ih =>
    obtain ⟨isDeclared, included⟩ := forall_mem_cons.1 included
    obtain ⟨index, isThere⟩ := mem_iff_getElem?.1 found
    have here := loaded.codeOf_eq isDeclared isThere (congrArg Declaration.name declared) code
    rw [Section.pasted, here, ih included, isGap]
    rfl

end Section.Traced

theorem Section.exists_of_kept_eq {front back : Text} {c : Char}
    (split : kept sections = front ++ c :: back) :
    ∃ earlier token later first rest, sections = earlier ++ .outside token :: later ∧
      token.text = first ++ c :: rest ∧ front = kept earlier ++ first := by
  induction sections generalizing front with
  | nil => simp [kept] at split
  | cons first sections ih =>
    rw [kept, flatMap_cons] at split
    rcases append_eq_append_iff.1 split with ⟨more, rfl, goesOn⟩ | ⟨more, isFirst, isRest⟩
    · obtain ⟨earlier, token, later, start, rest, rfl, isText, rfl⟩ := ih goesOn
      exact ⟨first :: earlier, token, later, start, rest, rfl, isText, by simp [kept]⟩
    · cases more with
      | nil =>
        obtain ⟨earlier, token, later, start, rest, rfl, isText, none⟩ := @ih [] isRest.symm
        refine ⟨first :: earlier, token, later, start, rest, rfl, isText, ?_⟩
        rw [kept, flatMap_cons, append_assoc, isFirst, append_nil]
        exact (append_nil front).symm.trans (congrArg (front ++ ·) none)
      | cons d more =>
        obtain ⟨rfl, _⟩ := List.cons.inj isRest
        cases first with
        | outside token => exact ⟨[], token, sections, front, more, rfl, isFirst, rfl⟩
        | block tokens declaration => simp [residual] at isFirst

def CopiesLines (session : Session) (source : Text) (pasted : Pasted) (earlier : List Section)
    (token : Token) : Prop :=
  ∃ front back, Section.pasted session false earlier = some front ∧
    pasted.text = front ++ (token.text ++ back) ∧
    ∀ i < token.text.byteLength, pasted.lines.lineAt pasted.text (front.byteLength + i) =
      source.lineAt ((Section.source earlier).byteLength + i)

/-- The code of a definition behind some sections.  It is on the line of the definition's marker,
except for the bodies of declared methods, which are parts of their own. -/
def CodeLines (session : Session) (source : Text) (pasted : Pasted) (earlier : List Section)
    (declaration : Declaration) : Prop :=
  ∃ front gap back type snippet parts, Section.pasted session false earlier = some front ∧
    (gap = [] ∨ gap = ['\n']) ∧ pasted.text = (front ++ gap) ++ (snippet.text ++ back) ∧
    type ∈ session.types ∧ type.declaration = declaration ∧
    session.generate type = .ok snippet ∧ snippet.text = CodePart.written parts ∧
    List.Forall₂ (Generate.Writes session type) (Generate.writtenMethods type)
      (parts.filter CodePart.isFunction) ∧
    (∀ method, method ∈ Generate.writtenMethods type ↔ method ∈ declaration.methods) ∧
    declaration.line = source.lineAt (Section.source earlier).byteLength ∧
    CodePart.Lined declaration.line parts fun i =>
      pasted.lines.lineAt pasted.text ((front ++ gap).byteLength + i)

/-- The lines of a pasted text and of the residual text it was made from. -/
structure LinesExact (session : Session) (document : Document) (source : Text)
    (sections : List Section) (pasted : Pasted) : Prop where
  copied : ∀ earlier token later, sections = earlier ++ .outside token :: later →
    CopiesLines session source pasted earlier token
  generated : ∀ earlier tokens declaration later,
    sections = earlier ++ .block tokens declaration :: later →
    CodeLines session source pasted earlier declaration
  /-- A residual byte that starts a character has its source line. -/
  residual : ∀ front c back, document.residual = front ++ c :: back →
    ∃ earlier token later first rest, sections = earlier ++ .outside token :: later ∧
      token.text = first ++ c :: rest ∧ front = Section.kept earlier ++ first ∧
      document.residualLine front.byteLength =
        source.lineAt (Section.source earlier ++ first).byteLength

/-- The pasted text of a document follows its sections. -/
theorem Loaded.traced_paste (loaded : Loaded declarations session) {pieces : List Piece}
    (matched : List.Forall₂ Piece.From pieces sections)
    (declared : Piece.declarations 0 pieces = sections.filterMap Section.declaration?)
    (included : ∀ declaration ∈ sections.filterMap Section.declaration?,
      declaration ∈ declarations ∧ declaration.WellFormed)
    (lined : Section.Lined 1 sections) {pasted : Pasted}
    (pasting : session.paste (.ofPieces file pieces) = .ok pasted) :
    Section.Traced session (pasted.lines.lineAt pasted.text) false 0 [] sections pasted.text := by
  obtain ⟨progress, woven, rfl⟩ := exists_of_map_eq_ok pasting
  have start : Pasted.GoesOn ⟨[], LineMap.plain.sourceFrom 0
      ((Document.ofPieces file pieces).residualLine 0)⟩
      ((Document.ofPieces file pieces).residualLine 0) := by
    refine ⟨⟨rfl, pairwise_singleton _ _, ?_⟩, fun position _ => ?_⟩
    · intro run member
      rw [mem_singleton.1 member]
      exact Nat.le_refl 0
    · simp [LineMap.sourceFrom, LineMap.push, LineMap.plain, LineMap.pushRun, LineMap.runAt,
        Run.initial, Text.byteLength]
  obtain ⟨text, whole, _, traced⟩ := @Loaded.traced_weave declarations session loaded
    (.ofPieces file pieces) pieces sections matched 0 [] declared included _ false progress woven
    start [] (fun some => absurd rfl some) fun earlier token later split hasText => by
      subst split
      have exact_ := @Document.residualLine_eq file pieces earlier later token matched lined []
        token.text rfl hasText
      rw [append_nil, append_nil] at exact_
      rw [Nat.zero_add]
      exact exact_
  have isText : progress.pasted.text ++ progress.rest = text := whole
  rw [Pasted.append, isText]
  exact traced

/-- A document that was read and pasted, with the sections of its source. -/
structure Traces (session : Session) (file : String) (source : Text) (document : Document)
    (pasted : Pasted) (tokens : List Token) (sections : List Section) : Prop where
  lexed : tokenize source = .ok tokens
  sectioned : Sectioned file (Document.endLine tokens) [] tokens sections
  source_eq : source = Section.source sections
  kept_eq : document.residual = Section.kept sections
  declared : document.declarations = sections.filterMap Section.declaration?
  wellFormed : ∀ declaration ∈ document.declarations, declaration.WellFormed
  lined : Section.Lined 1 sections
  resumed : ∀ earlier token later first rest, sections = earlier ++ .outside token :: later →
    token.text = first ++ rest → rest ≠ [] →
    document.residualLine (Section.kept earlier ++ first).byteLength =
      1 + (Section.source earlier ++ first).lineBreaks
  traced : Section.Traced session (pasted.lines.lineAt pasted.text) false 0 [] sections pasted.text
  pasted_eq : ∀ part text, part <+: sections →
    Section.Traced session (pasted.lines.lineAt pasted.text) false 0 [] part text →
    Section.pasted session false part = some text

theorem Loaded.traces (loaded : Loaded declarations session) {source : Text} {pasted : Pasted}
    (read : Document.read file source = .ok document)
    (included : ∀ declaration ∈ document.declarations, declaration ∈ declarations)
    (pasting : session.paste document = .ok pasted) :
    ∃ tokens sections, Traces session file source document pasted tokens sections := by
  obtain ⟨tokens, pieces, sections, lexed, rfl, sectioned, matched, declared⟩ :=
    Document.sections_of_read read
  obtain ⟨after, reads, _⟩ := (tokenizeFrom_eq_ok_iff 1 source tokens).1 lexed
  have lined : Section.Lined 1 sections := sectioned.lined reads
  have wellFormed : ∀ declaration ∈ (Document.ofPieces file pieces).declarations,
      declaration.WellFormed := fun declaration member =>
    Declaration.Parsed.wellFormed ⟨file, source, _, read, member⟩
  have known : ∀ declaration ∈ sections.filterMap Section.declaration?,
      declaration ∈ declarations ∧ declaration.WellFormed := by
    intro declaration member
    rw [← declared] at member
    exact ⟨included declaration member, wellFormed declaration member⟩
  refine ⟨tokens, sections, lexed, sectioned, ?_, Piece.residual_of_from matched, declared,
    wellFormed, lined, ?_, loaded.traced_paste matched declared known lined pasting, ?_⟩
  · rw [text_of_tokenizeFrom lexed, sectioned.text]
    rfl
  · rintro earlier token later first rest rfl split some
    exact Document.residualLine_eq matched lined split some
  · rintro part text ⟨rest, rfl⟩ tracedPart
    refine tracedPart.pasted loaded fun declaration member => (known declaration ?_).1
    rw [filterMap_append]
    exact mem_append_left _ member

namespace Traces

variable {source : Text} {pasted : Pasted} {tokens : List Token} {earlier later : List Section}

section

variable (traces : Traces session file source document pasted tokens sections)

include traces

theorem copied_lines {token : Token} (split : sections = earlier ++ .outside token :: later) :
    CopiesLines session source pasted earlier token := by
  have traced := traces.traced
  rw [split] at traced
  obtain ⟨front, back, between, whole, before, behind⟩ := traced.split
  cases behind with
  | @outside _ _ _ _ _ back lines _ =>
    refine ⟨front, back, traces.pasted_eq _ _ ⟨_, split.symm⟩ before, whole, fun i inside => ?_⟩
    rw [← Nat.zero_add front.byteLength, lines i inside, traces.source_eq, split,
      Section.source_around, lineAt_behind, Section.text,
      lineBreaksBetween_front _ (Nat.le_of_lt inside)]
    rfl

theorem generated_lines {inside : List Token} {declaration : Declaration}
    (split : sections = earlier ++ .block inside declaration :: later) :
    CodeLines session source pasted earlier declaration := by
  have traced := traces.traced
  have lined := traces.lined
  have isDeclared : declaration ∈ document.declarations := by
    rw [traces.declared, split]
    simp [Section.declaration?]
  rw [split] at traced lined
  obtain ⟨front, back, between, whole, before, behind⟩ := traced.split
  have marker : declaration.line = source.lineAt (Section.source earlier).byteLength := by
    rw [lined.behind.block_line, traces.source_eq, split, Section.source_around,
      lineAt_byteLength]
  cases behind with
  | @block _ _ _ _ _ _ type snippet parts gap back found isType code consists isGap lines _ =>
    refine ⟨front, gap, back, type, snippet, parts, traces.pasted_eq _ _ ⟨_, split.symm⟩ before, ?_,
      by rw [whole, append_assoc], found, isType, code, consists.1.text, consists.2.2,
      fun method => ?_, marker, ?_⟩
    · rw [isGap]
      cases between with
      | false => exact .inl rfl
      | true => exact .inr rfl
    · rw [Generate.mem_writtenMethods (by rw [isType]; exact traces.wellFormed _ isDeclared), isType]
    · rw [Nat.zero_add, ← byteLength_append] at lines
      exact lines

theorem residual_lines {front back : Text} {c : Char}
    (split : document.residual = front ++ c :: back) :
    ∃ earlier token later first rest, sections = earlier ++ .outside token :: later ∧
      token.text = first ++ c :: rest ∧ front = Section.kept earlier ++ first ∧
      document.residualLine front.byteLength =
        source.lineAt (Section.source earlier ++ first).byteLength := by
  obtain ⟨earlier, token, later, first, rest, isSections, isText, rfl⟩ :=
    Section.exists_of_kept_eq (traces.kept_eq.symm.trans split)
  refine ⟨earlier, token, later, first, rest, isSections, isText, rfl, ?_⟩
  have place : source = (Section.source earlier ++ first) ++ (c :: rest ++ Section.source later) := by
    rw [traces.source_eq, isSections, Section.source_around, Section.text, isText]
    simp only [append_assoc]
  rw [traces.resumed _ _ _ _ _ isSections isText (cons_ne_nil c rest), place,
    lineAt_byteLength]

end

end Traces

/-- Every byte of a pasted text that is copied, and every byte of generated code outside the bodies of
declared methods, has its source line, and so has every character of the residual text. -/
theorem pasted_lines_exact {declarations : List Declaration} {session : Session}
    (loaded : Loaded declarations session) {file : String} {source : Text} {document : Document}
    {pasted : Pasted} (read : Document.read file source = .ok document)
    (included : ∀ declaration ∈ document.declarations, declaration ∈ declarations)
    (pasting : session.paste document = .ok pasted) :
    ∃ tokens sections, tokenize source = .ok tokens ∧
      Sectioned file (Document.endLine tokens) [] tokens sections ∧
      source = Section.source sections ∧ document.residual = Section.kept sections ∧
      Section.pasted session false sections = some pasted.text ∧
      LinesExact session document source sections pasted := by
  obtain ⟨tokens, sections, traces⟩ := loaded.traces read included pasting
  refine ⟨tokens, sections, traces.lexed, traces.sectioned, traces.source_eq, traces.kept_eq,
    traces.pasted_eq _ _ (List.prefix_refl _) traces.traced, ?_, ?_, ?_⟩
  · intro earlier token later split
    exact traces.copied_lines split
  · intro earlier inside declaration later split
    exact traces.generated_lines split
  · intro front c back split
    exact traces.residual_lines split

/-- Lines of both kinds of break, a definition with a body of several lines, one right behind it, and
a text over two lines. -/
def sampleLines : Text := "// \u00e9\r\n@flatjs class C \x7b\n  x : int32;\n  @method m(SELF) \x7b
    SELF.x = 1;\n  \x7d\n\x7d\n@end@flatjs struct S \x7b v : float64; \x7d @end\nvar t = `a
b`;\r\n\u00e9".toList

theorem pasted_lines_exact_sample : ∃ document declarations session pasted tokens sections,
    Document.read "sample" sampleLines = .ok document ∧ Loaded declarations session ∧
    (∀ declaration ∈ document.declarations, declaration ∈ declarations) ∧
    session.paste document = .ok pasted ∧
    document.declarations.map Declaration.line = [2, 8] ∧
    pasted.lines.lineAt pasted.text (pasted.text.byteLength - 1) = 11 ∧
    tokenize sampleLines = .ok tokens ∧
    Sectioned "sample" (Document.endLine tokens) [] tokens sections ∧
    sampleLines = Section.source sections ∧ document.residual = Section.kept sections ∧
    Section.pasted session false sections = some pasted.text ∧
    LinesExact session document sampleLines sections pasted := by
  have accepted : (do
      let document ← Document.read "sample" sampleLines
      let session ← Session.ofDocuments [document]
      let pasted ← session.paste document
      return (document.declarations.map Declaration.line,
        pasted.lines.lineAt pasted.text (pasted.text.byteLength - 1))) =
          Except.ok ([2, 8], 11) := by
    decide +kernel
  obtain ⟨document, read, accepted⟩ := exists_of_bind_eq_ok accepted
  obtain ⟨session, analysed, accepted⟩ := exists_of_bind_eq_ok accepted
  obtain ⟨pasted, pasting, lines⟩ := exists_of_bind_eq_ok accepted
  obtain ⟨definitions, last⟩ := Prod.mk.inj (Except.ok.inj lines)
  have loaded := (Accepts.ofDocument read analysed).loaded
  obtain ⟨tokens, sections, exact_⟩ :=
    pasted_lines_exact loaded read (fun _ member => member) pasting
  exact ⟨document, _, session, pasted, tokens, sections, read, loaded, fun _ member => member,
    pasting, definitions, last, exact_⟩

end FlatMemory
