import FlatMemory.Proofs.Code.Generated
import FlatMemory.Proofs.Code.Recognition
import FlatMemory.Proofs.Code.Section

/-! # References from source to memory operation

A reference to a field in the body of a method is checked and written as a call.  The call is pasted
with the code of its type, and the scanner that goes through the pasted text comes by it, reads it as
the access that was checked and puts the memory operation in its place. -/

namespace FlatMemory

open List Option

variable {declaration : Declaration} {session : Session} {tokens : List Token} {method : Method}
  {endLine : Nat} {file : String} {code before front back : Text}

/-! ### Bodies -/

/-- The tokens of a body up to its closing brace, none of them a string that goes on behind a CRLF
pair. -/
structure Method.Scans (method : Method) (tokens : List Token) (after : Text) : Prop where
  lexed : tokenizeFrom method.line method.body = .ok tokens
  run : Token.Run after tokens
  unbroken : ∀ token ∈ tokens, ¬ token.Continues
  balanced : Balanced [] tokens

theorem Method.Stands.mem_source {source inner : List Token}
    (stands : method.Stands endLine source inner) : ∀ token ∈ inner, token ∈ source := by
  obtain ⟨lead, opening, close, trail, rfl, _⟩ := stands.braced
  intro token member
  simp [member]

theorem Document.scans_bodies {source : Text} {document : Document}
    (read : Document.read file source = .ok document) (lexed : tokenize source = .ok tokens)
    (unbroken : ∀ token ∈ tokens, ¬ token.Continues)
    (declared : declaration ∈ document.declarations) (isMethod : method ∈ declaration.methods) :
    ∃ inner after, method.Scans inner after := by
  obtain ⟨after, reads, _⟩ := (tokenizeFrom_eq_ok_iff 1 source tokens).1 lexed
  have streamed : Streamed tokens := ⟨_, after, reads⟩
  obtain ⟨inner, stands, balanced⟩ := Document.stands_of_read read lexed declared isMethod
  have isBody := stands.isBody streamed balanced
  obtain ⟨lexer, behind, more, readsInner, brace⟩ := isBody.braced
  have strung := readsInner.strung
  rw [brace] at strung
  exact ⟨inner, _, isBody.lexed, ⟨readsInner.proper, strung, '}', more, rfl, by decide⟩,
    fun token member => unbroken token (stands.mem_source token member), balanced⟩

section

variable {type : UserType} {after body : Text}

theorem Method.Scans.writes (scans : method.Scans tokens after)
    (expanded : session.expandBody type method = .ok body) :
    SelfReference.Writes session type false tokens body := by
  unfold Session.expandBody at expanded
  rw [scans.lexed] at expanded
  exact SelfReference.writes_of_expand expanded

theorem Method.Scans.passable (scans : method.Scans tokens after) (readable : session.Readable)
    (member : type ∈ session.types) (expanded : session.expandBody type method = .ok body) :
    Passable (Snippet.braced body) := by
  obtain ⟨marks, outline, sketches⟩ := (scans.writes expanded).outline readable member scans.run
  exact passable_braced outline (Token.unbroken_of_literals sketches.literals fun token isToken _ =>
    scans.unbroken token isToken)

end

/-! ### The code of a declaration -/

theorem Session.codeOf_eq_some (isCode : session.codeOf declaration = some code) :
    ∃ (index : Nat) (type : UserType) (snippet : Snippet), session.types[index]? = some type ∧
      type.declaration = declaration ∧ session.generate type = .ok snippet ∧
      code = snippet.text := by
  unfold codeOf at isCode
  split at isCode
  · next type found =>
    obtain ⟨snippet, generated, rfl⟩ := map_eq_some_iff.1 isCode
    obtain ⟨index, isThere⟩ := mem_iff_getElem?.1 (mem_of_find?_eq_some found)
    refine ⟨index, type, snippet, isThere, by simpa using find?_some found, ?_, rfl⟩
    cases result : session.generate type with
    | error failure =>
      rw [result] at generated
      cases generated
    | ok other =>
      rw [result] at generated
      cases generated
      rfl
  · cases isCode

def Session.CarriesCode (session : Session) (declaration : Declaration) (code : Text) : Prop :=
  ∃ (index : Nat) (type : UserType), session.types[index]? = some type ∧
    type.declaration = declaration ∧
    Generate.CarriesAll session type declaration.methods code

theorem Accepts.carriesCode {declarations : List Declaration}
    (accepts : Accepts declarations session)
    (scans : ∀ method ∈ declaration.methods, ∃ tokens after, method.Scans tokens after)
    (isCode : session.codeOf declaration = some code) : session.CarriesCode declaration code := by
  obtain ⟨index, type, snippet, found, rfl, generated, rfl⟩ := Session.codeOf_eq_some isCode
  have member := mem_of_getElem? found
  refine ⟨index, type, found, rfl, Generate.carries_generate (accepts.spelling found) ?_
    (accepts.readable type member) generated⟩
  intro method isMethod body expanded
  obtain ⟨tokens, after, isScanned⟩ := scans method isMethod
  exact isScanned.passable accepts.readable member expanded

theorem Session.CarriesCode.starts (carries : session.CarriesCode declaration code) :
    code.head? = some 'f' ∧ Passable code := by
  obtain ⟨_, _, _, _, _, carried, _⟩ := carries
  exact ⟨carried.starts, carried.passable⟩

/-! ### Pasted sections -/

/-- A scanner gets through a text that is pasted for the first of some tokens.  Up to the first block
the text is that of the tokens. -/
structure Leads (tokens : List Token) (front : Text) : Prop where
  meets : ∀ back, Harmless back → Text.Meets front back
  copied : ∃ copied more rest, tokens.flatMap Token.text = copied ++ '@' :: more ∧
    front = copied ++ rest ∧ Harmless rest

namespace Leads

variable {token : Token}

theorem outside (leads : Leads tokens front) (taken : token.Taken (tokens.flatMap Token.text))
    (unbroken : ¬ token.Continues) : Leads (token :: tokens) (token.text ++ front) := by
  obtain ⟨meets, copied, more, rest, same, rfl, harmless⟩ := leads
  rw [same] at taken
  refine ⟨fun back harmlessBack => taken.meets (by simp) unbroken (meets back harmlessBack) ?_ ?_,
    token.text ++ copied, more, rest, ?_, ?_, harmless⟩
  · intro slash
    have safe := taken.harmless slash
    cases copied with
    | cons c cs => exact safe
    | nil =>
      cases rest with
      | nil => exact harmlessBack
      | cons c cs => exact harmless
  · intro body feed inLine here
    exact (inLine.feed_front (by decide) (by decide) here).trans (prefix_append _ _)
  · rw [flatMap_cons, same, append_assoc]
  · rw [append_assoc]

theorem marker (proper : token.Proper) (isMarker : token.kind = .defnStart)
    (meets : ∀ back, Harmless back → Text.Meets front back) (harmless : Harmless front) :
    Leads (token :: tokens) front := by
  have spelled := proper.spelled (by simp [isMarker])
  rw [isMarker] at spelled
  obtain ⟨name, spelled⟩ := spelled
  exact ⟨meets, [], name ++ tokens.flatMap Token.text, front,
    by rw [flatMap_cons, spelled]; rfl, rfl, harmless⟩

end Leads

theorem Sectioned.leads {sections : List Section}
    (sectioned : Sectioned file endLine before tokens sections) (strung : Token.Strung [] tokens)
    (proper : ∀ token ∈ tokens, token.Proper) (unbroken : ∀ token ∈ tokens, ¬ token.Continues)
    {adjacent : Bool} {text : Text} (pasted : Section.pasted session adjacent sections = some text)
    (carries : ∀ declaration ∈ sections.filterMap Section.declaration?, ∀ code,
      session.codeOf declaration = some code → session.CarriesCode declaration code) :
    ∀ declaration ∈ sections.filterMap Section.declaration?, ∃ front code back,
      text = front ++ (code ++ back) ∧ session.codeOf declaration = some code ∧
      Leads tokens front := by
  induction sectioned generalizing adjacent text with
  | done => simp
  | @outside before token tokens sections notMarker later ih =>
    obtain ⟨here, unbroken⟩ := forall_mem_cons.1 unbroken
    have taken := strung [] token tokens rfl
    rw [append_nil] at taken
    obtain ⟨rest, pastedLater, same⟩ := bind_eq_some_iff.1 pasted
    cases same
    intro declaration declared
    obtain ⟨front, code, back, rfl, isCode, leads⟩ :=
      ih (strung.suffix singleton_append.symm) (forall_mem_cons.1 proper).2 unbroken pastedLater carries
        declaration declared
    exact ⟨token.text ++ front, code, back, by rw [append_assoc], isCode,
      leads.outside taken here⟩
  | @block before marker mark word inner rest found sections isMarker isMark isWord isEnd read later
      ih =>
    have whole : marker :: (inner ++ mark :: word :: rest) =
        (marker :: (inner ++ [mark, word])) ++ rest := by
      simp
    have strungRest := strung.suffix whole
    rw [whole] at proper unbroken
    obtain ⟨properFront, properRest⟩ := forall_mem_append.1 proper
    have isProper := properFront marker mem_cons_self
    obtain ⟨code, isCode, pasted⟩ := bind_eq_some_iff.1 pasted
    obtain ⟨text, pastedLater, same⟩ := bind_eq_some_iff.1 pasted
    cases same
    obtain ⟨starts, passable⟩ := (carries _ mem_cons_self code isCode).starts
    have gap : Passable (if adjacent then ['\n'] else []) := by
      split
      · exact .of_plain (by simp; decide)
      · exact .nil
    have harmless : ∀ more, Harmless ((if adjacent then ['\n'] else []) ++ (code ++ more)) := by
      intro more
      split
      · exact ⟨by simp, by simp⟩
      · rw [nil_append, Harmless, head?_append, starts]
        exact ⟨by simp, by simp⟩
    intro declaration declared
    rcases mem_cons.1 declared with rfl | declared
    · refine ⟨_, code, text, rfl, isCode, .marker isProper isMarker (fun back _ => gap back) ?_⟩
      split
      · exact ⟨by simp, by simp⟩
      · exact harmless_nil
    · obtain ⟨front, other, back, rfl, isOther, leads⟩ := ih strungRest properRest
        (forall_mem_append.1 unbroken).2 pastedLater
        (fun other isOther => carries other (mem_cons_of_mem _ isOther)) declaration declared
      refine ⟨(if adjacent then ['\n'] else []) ++ (code ++ front), other, back, by simp, isOther,
        .marker isProper isMarker (fun back harmlessBack => ?_) (harmless front)⟩
      rw [← append_assoc]
      exact ((gap.append passable) _).append (leads.meets back harmlessBack)

/-! ### The place of a reference -/

theorem Snippet.braced_written {reference : SelfReference.Reference} (named : reference.Named)
    (front inner back : Text) :
    ∃ behind, Snippet.braced (front ++ (reference.written inner ++ back)) =
      '{' :: (front ++ (reference.written inner ++ behind)) := by
  obtain ⟨c, cs, written, _⟩ := named.written inner
  have trimmed : Text.trimEnd (front ++ (reference.written inner ++ back)) =
      front ++ (reference.written inner ++ back.trimEnd) := by
    have last : Text.trimEnd ((front ++ c :: cs) ++ ')' :: back) =
        (front ++ c :: cs) ++ ')' :: back.trimEnd := (Text.trimEnd_append_cons (by decide)).1
    rw [written]
    simpa using last
  unfold Snippet.braced
  split
  · rw [trimmed]
    exact ⟨back.trimEnd ++ ['\n', '}'], by simp⟩
  · exact ⟨back ++ ['}'], by simp⟩

theorem Session.CarriesCode.body (carries : session.CarriesCode declaration code)
    (isMethod : method ∈ declaration.methods) (leads : Leads tokens front) :
    ∃ (index : Nat) (type : UserType) (body before after : Text),
      session.types[index]? = some type ∧ type.declaration = declaration ∧
      session.expandBody type method = .ok body ∧
      code = before ++ ((Snippet.functionHead (Generate.definedName type method) method).toList ++
        (Snippet.braced body ++ after)) ∧
      Passable (front ++ (before ++
        (Snippet.functionHead (Generate.definedName type method) method).toList)) := by
  obtain ⟨index, type, found, same, functions, carried, all⟩ := carries
  obtain ⟨body, expanded, isFunction⟩ := all method isMethod
  obtain ⟨before, after, whole, passable⟩ := carried.holds _ body isFunction
  refine ⟨index, type, body, before, after, found, same, expanded, whole, fun rest =>
    (leads.meets _ ?_).append (passable rest)⟩
  have starts := carried.starts
  rw [whole, ← append_assoc] at starts
  have some : before ++ (Snippet.functionHead (Generate.definedName type method) method).toList ≠ [] := by
    simp [Snippet.functionHead]
  obtain ⟨c, cs, spelled⟩ := exists_cons_of_ne_nil some
  rw [spelled] at starts ⊢
  obtain rfl : c = 'f' := by simpa using starts
  exact ⟨by simp, by simp⟩

theorem SelfReference.Refers.recognised {scene : Accessor.Scene} {type : UserType} {index : Nat}
    {reference : Reference} {access : Access} {context inner after : Text}
    (refers : Refers scene.session type false tokens front reference inner back)
    (scans : method.Scans tokens context) (accesses : reference.access = some access)
    (legible : Legible scene.session type reference access front inner)
    (readable : scene.session.Readable)
    (known : scene.session.lookup type.name = some (.user index))
    (found : scene.session.types[index]? = some type)
    (text : scene.pasted.text =
      before ++ (Snippet.braced (front ++ (reference.written inner ++ back)) ++ after))
    (passable : Passable before)
    (succeeds : Accessor.Succeeds scene ⟨none, 0, scene.pasted.text⟩) :
    Accessor.Recognised scene (before.byteLength + 1 + front.byteLength) (reference.written inner)
      access := by
  have member := mem_of_getElem? found
  obtain ⟨occurs, sub⟩ := refers.occurs readable member scans.run scans.balanced
  obtain ⟨behind, braced⟩ := Snippet.braced_written occurs.named front inner back
  have inside := refers.meets readable member scans.run scans.unbroken (behind ++ after)
  have brace : Passable ['{'] := .of_plain (by simp; decide)
  have opened := (passable _).append ((brace _).append inside)
  have apart : Accessor.startsWord (before ++ (['{'] ++ front)).getLast? = true := by
    rcases front.eq_nil_or_concat' with rfl | ⟨start, last, rfl⟩
    · rw [append_nil, getLast?_concat]
      decide
    · have apart := legible.apart
      rw [getLast?_concat] at apart
      rw [← append_assoc, ← append_assoc, getLast?_concat]
      exact apart
  have place : (before ++ (['{'] ++ front)).byteLength =
      before.byteLength + 1 + front.byteLength := by
    rw [Text.byteLength_append, Text.byteLength_append, ← Nat.add_assoc]
    rfl
  have whole : scene.pasted.text =
      (before ++ (['{'] ++ front)) ++ (reference.written inner ++ (behind ++ after)) := by
    rw [text, braced]
    simp
  rw [← place]
  exact occurs.recognised legible accesses readable known found
    (fun token isInner => scans.unbroken token (sub isInner)) whole opened apart succeeds

/-- Every reference to a field in the body of a method that is legible where it is written is
recognised in the pasted text, in the function of the method and at its place in the body, as the
access that it was checked for.  No string of the source may go on behind a CRLF pair. -/
theorem references_recognised {declarations : List Declaration} {session : Session}
    (accepts : Accepts declarations session) {file : String} {source : Text} {document : Document}
    {tokens : List Token} (read : Document.read file source = .ok document)
    (included : ∀ declaration ∈ document.declarations, declaration ∈ declarations)
    (lexed : tokenize source = .ok tokens) (unbroken : ∀ token ∈ tokens, ¬ token.Continues)
    {pasted : Pasted} (pasting : session.paste document = .ok pasted) {output : Text}
    (expanding : (session.expandAccessors file pasted).result = .ok output)
    {declaration : Declaration} (declared : declaration ∈ document.declarations)
    {method : Method} (isMethod : method ∈ declaration.methods) :
    ∃ type head body inner before after, type ∈ session.types ∧ type.declaration = declaration ∧
      head = Snippet.functionHead (Generate.definedName type method) method ∧
      session.expandBody type method = .ok body ∧
      tokenizeFrom method.line method.body = .ok inner ∧
      pasted.text = before ++ (head.toList ++ (Snippet.braced body ++ after)) ∧
      ∀ front reference passed back,
        SelfReference.Refers session type false inner front reference passed back →
        body = front ++ (reference.written passed ++ back) ∧
        ∀ access, reference.access = some access →
          SelfReference.Legible session type reference access front passed →
          Accessor.Recognised ⟨session, file, pasted⟩
            ((before ++ head.toList).byteLength + 1 + front.byteLength) (reference.written passed)
            access := by
  have scans : ∀ declaration ∈ document.declarations, ∀ method ∈ declaration.methods,
      ∃ inner after, method.Scans inner after := fun _ declared _ isMethod =>
    Document.scans_bodies read lexed unbroken declared isMethod
  obtain ⟨_, pieces, sections, sameTokens, rfl, sectioned, matched, isDeclared⟩ :=
    Document.sections_of_read read
  obtain rfl := Except.ok.inj (lexed.symm.trans sameTokens)
  have strung := strung_of_tokenizeFrom lexed
  obtain ⟨_, reads, _⟩ := (tokenizeFrom_eq_ok_iff 1 source tokens).1 lexed
  have carries : ∀ other ∈ sections.filterMap Section.declaration?, ∀ code,
      session.codeOf other = some code → session.CarriesCode other code := by
    intro other isOther code isCode
    rw [← isDeclared] at isOther
    exact accepts.carriesCode (scans other isOther) isCode
  have listed := declared
  rw [isDeclared] at listed
  obtain ⟨front, code, back, text, isCode, leads⟩ := sectioned.leads strung reads.proper unbroken
    (accepts.loaded.pasted_sections matched isDeclared included pasting) carries declaration listed
  obtain ⟨index, type, body, before, behind, found, same, expanded, rfl, passable⟩ :=
    (carries declaration listed code isCode).body isMethod leads
  obtain ⟨inner, context, isScanned⟩ := scans declaration declared method isMethod
  have member := List.mem_of_getElem? found
  generalize isHead : Snippet.functionHead (Generate.definedName type method) method = head
    at text passable isCode
  have whole : pasted.text =
      ((front ++ before) ++ head.toList) ++ (Snippet.braced body ++ (behind ++ back)) := by
    rw [text]
    simp
  rw [← List.append_assoc] at passable
  refine ⟨type, head, body, inner, front ++ before, behind ++ back, member, same, isHead.symm,
    expanded, isScanned.lexed, by rw [whole, List.append_assoc], ?_⟩
  intro start reference passed rest refers
  have writes := (refers.writes accepts.readable member isScanned.run.proper).2
  obtain rfl := (isScanned.writes expanded).unique writes
  refine ⟨rfl, fun access accesses legible => ?_⟩
  exact SelfReference.Refers.recognised refers isScanned accesses legible accepts.readable
    (accepts.loaded.lookup found) found whole passable ⟨output, expanding⟩

/-- A field of a nested struct, read inside the argument of an operation on another field. -/
def sampleReferences : Text := "// \x27\n@flatjs struct V\x7ba:int8;x:int32;\x7d@end f(\x27@\x27);
@flatjs class T\x7bn:int32.atomic;v:V;
@method m(SELF)\x7breturn SELF.n.add(1/* ( */+SELF.v.x);\x7d\x7d@end".toList

def sampleArgument : List Token := [⟨.other, ['1'], 4⟩, ⟨.comment, "/* ( */".toList, 4⟩,
  ⟨.other, ['+'], 4⟩, ⟨.ident, "SELF".toList, 4⟩, ⟨.dot, ['.'], 4⟩, ⟨.ident, ['v'], 4⟩,
  ⟨.dot, ['.'], 4⟩, ⟨.ident, ['x'], 4⟩]

def sampleOperation : List Token := [⟨.dot, ['.'], 4⟩, ⟨.ident, ['n'], 4⟩, ⟨.dot, ['.'], 4⟩,
  ⟨.ident, "add".toList, 4⟩, ⟨.lParen, ['('], 4⟩] ++
  (sampleArgument ++ [⟨.rParen, [')'], 4⟩, ⟨.semicolon, [';'], 4⟩])

def sampleInner : List Token := [⟨.ident, "return".toList, 4⟩, ⟨.whitespace, [' '], 4⟩,
  ⟨.ident, "SELF".toList, 4⟩] ++ sampleOperation

def sampleLoad : Access := ⟨.primitive (.scalar (.int .int32)), 12, .get, false⟩

def sampleAdd : Access := ⟨.primitive (.atomic .int32), 4, .add, true⟩

namespace SelfReference

theorem sample_refers {type : UserType} (named : type.name = "T")
    (loads : session.resolveInType? type ["v", "x"] = some sampleLoad)
    (adds : session.resolveInType? type ["n", "add"] = some sampleAdd) :
    Refers session type false sampleInner "return T.n.add(SELF, 1/* ( */+".toList
      ⟨"T", ["v", "x"], some sampleLoad, false, []⟩ [] ");".toList := by
  have load : Refers session type false sampleArgument "1/* ( */+".toList
      ⟨type.name, ["v", "x"], some sampleLoad, false, []⟩ [] [] :=
    .behindToken rfl (.behindToken rfl (.behindToken rfl
      (.here rfl (.load loads rfl rfl (by simp)) (.nil _) (by simp) (.nil _))))
  have grouped : Grouped (sampleOperation.drop 4) sampleArgument [⟨.semicolon, [';'], 4⟩] :=
    ⟨[], ⟨.lParen, ['('], 4⟩, ⟨.rParen, [')'], 4⟩, rfl, by simp, rfl, rfl, rfl⟩
  have semicolon : Writes session type false [⟨.semicolon, [';'], 4⟩] [';'] := .token rfl (.nil _)
  have path : path? false ⟨.ident, "SELF".toList, 4⟩ sampleOperation =
      some (["n", "add"], sampleOperation.drop 4) := by decide
  have add := Refers.inside path (.call adds rfl grouped rfl (by decide)) load semicolon
  rw [named] at add
  exact .behindToken rfl (.behindToken rfl add)

end SelfReference

theorem references_recognised_sample : ∃ document declarations session tokens pasted output
    declaration method type inner before front back, ∃ reference : SelfReference.Reference,
    Accepts declarations session ∧ Document.read "sample" sampleReferences = .ok document ∧
    (∀ declaration ∈ document.declarations, declaration ∈ declarations) ∧
    tokenize sampleReferences = .ok tokens ∧ (∀ token ∈ tokens, ¬ token.Continues) ∧
    session.paste document = .ok pasted ∧
    (session.expandAccessors "sample" pasted).result = .ok output ∧
    declaration ∈ document.declarations ∧ method ∈ declaration.methods ∧
    tokenizeFrom method.line method.body = .ok inner ∧
    SelfReference.Refers session type false inner front reference [] back ∧
    reference.access = some sampleLoad ∧
    SelfReference.Legible session type reference sampleLoad front [] ∧
    reference.written [] = "T.v.x(SELF)".toList ∧
    Accessor.Recognised ⟨session, "sample", pasted⟩
      (Text.byteLength (before ++ "T.m = function (SELF) ".toList) + 1 + front.byteLength)
      (reference.written []) sampleLoad := by
  have accepted : (do
      let document ← Document.read "sample" sampleReferences
      let session ← Session.ofDocuments [document]
      let pasted ← session.paste document
      let output ← (session.expandAccessors "sample" pasted).result
      return decide (∃ declaration ∈ document.declarations, ∃ method ∈ declaration.methods,
        tokenizeFrom method.line method.body = .ok sampleInner ∧
        ∀ type ∈ session.types, type.declaration = declaration → type.name = "T" ∧
          Snippet.functionHead (Generate.definedName type method) method =
            "T.m = function (SELF) " ∧
          session.resolveInType? type ["v", "x"] = some sampleLoad ∧
          session.resolveInType? type ["n", "add"] = some sampleAdd)) = Except.ok true := by
    decide +kernel
  have lexed : (tokenize sampleReferences).map (fun tokens =>
      decide (∀ token ∈ tokens, ¬ token.Continues)) = .ok true := by
    decide +kernel
  obtain ⟨document, read, accepted⟩ := exists_of_bind_eq_ok accepted
  obtain ⟨session, analysed, accepted⟩ := exists_of_bind_eq_ok accepted
  obtain ⟨pasted, pasting, accepted⟩ := exists_of_bind_eq_ok accepted
  obtain ⟨output, expanding, facts⟩ := exists_of_bind_eq_ok accepted
  obtain ⟨declaration, declared, method, isMethod, lexedInner, facts⟩ :=
    of_decide_eq_true (Except.ok.inj facts)
  obtain ⟨tokens, lexed, unbroken⟩ := exists_of_map_eq_ok lexed
  rw [decide_eq_true_eq] at unbroken
  have accepts := Accepts.ofDocument read analysed
  obtain ⟨type, head, body, inner, before, after, member, same, isHead, _, lexedBody, _, each⟩ :=
    references_recognised accepts read (fun _ member => member) lexed unbroken pasting expanding
      declared isMethod
  obtain rfl := Except.ok.inj (lexedInner.symm.trans lexedBody)
  obtain ⟨named, headed, loads, adds⟩ := facts type member same
  rw [headed] at isHead
  subst isHead
  have refers := SelfReference.sample_refers named loads adds
  have none : SelfReference.Tidy session type false [] := by
    intro front reference inner back inside
    cases inside
  have legible : SelfReference.Legible session type
      ⟨"T", ["v", "x"], some sampleLoad, false, []⟩ sampleLoad
      "return T.n.add(SELF, 1/* ( */+".toList [] :=
    ⟨by decide, by decide, by simp, by simp [SelfReference.Reference.Settled], none, fun _ => rfl⟩
  exact ⟨document, _, session, tokens, pasted, output, declaration, method, type, sampleInner,
    before, _, _, _, accepts, read, fun _ member => member, lexed, unbroken, pasting, expanding,
    declared, isMethod, lexedInner, refers, rfl, legible, by decide,
    (each _ _ _ _ refers).2 sampleLoad rfl legible⟩

def sampleSpread : Text :=
  "@flatjs class T\x7bx:int32;@method m(SELF)\x7breturn f(...SELF.x);\x7d\x7d@end".toList

/-- Behind an ellipsis a call is not taken for the start of a word, and is left as it was written. -/
theorem spread_reference_left : ∃ document session pasted output type method,
    Document.read "a" sampleSpread = .ok document ∧ Session.ofDocuments [document] = .ok session ∧
    type ∈ session.types ∧ method ∈ type.declaration.methods ∧
    session.expandBody type method = .ok "return f(...T.x(SELF));".toList ∧
    session.resolveInType? type ["x"] = some ⟨.primitive (.scalar (.int .int32)), 4, .get, false⟩ ∧
    session.paste document = .ok pasted ∧
    (session.expandAccessors "a" pasted).result = .ok output ∧
    "f(...T.x(SELF))".toList <:+: output := by
  have accepted : (do
      let document ← Document.read "a" sampleSpread
      let session ← Session.ofDocuments [document]
      let pasted ← session.paste document
      let output ← (session.expandAccessors "a" pasted).result
      return decide ((∃ type ∈ session.types, ∃ method ∈ type.declaration.methods,
        session.expandBody type method = .ok "return f(...T.x(SELF));".toList ∧
        session.resolveInType? type ["x"] =
          some ⟨.primitive (.scalar (.int .int32)), 4, .get, false⟩) ∧
        "f(...T.x(SELF))".toList <:+: output)) = Except.ok true := by
    decide +kernel
  obtain ⟨document, read, accepted⟩ := exists_of_bind_eq_ok accepted
  obtain ⟨session, analysed, accepted⟩ := exists_of_bind_eq_ok accepted
  obtain ⟨pasted, pasting, accepted⟩ := exists_of_bind_eq_ok accepted
  obtain ⟨output, expanding, facts⟩ := exists_of_bind_eq_ok accepted
  obtain ⟨⟨type, isType, method, isMethod, expanded, resolved⟩, left⟩ :=
    of_decide_eq_true (Except.ok.inj facts)
  exact ⟨document, session, pasted, output, type, method, read, analysed, isType, isMethod, expanded,
    resolved, pasting, expanding, left⟩

end FlatMemory
