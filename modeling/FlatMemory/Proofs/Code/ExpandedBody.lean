import FlatMemory.Proofs.Code.BodyOutline
import FlatMemory.Proofs.Program

/-! # The tokens of an expanded body

What is written for the tokens of a body has an outline, so it can be lexed again.  Literals stay as
they are.  Brackets close, and no comment comes about, exactly if no assigned value ends in a line
comment: there the bracket that is written behind the value gets lost in the comment. -/

namespace FlatMemory

open List

/-- The expanded body of a method can be lexed from any line, and has the string and template
literals of the body.  Its brackets close exactly if no assigned value in the body, however deep
inside, ends in a line comment; then its comments are comments of the body, in their order. -/
theorem expanded_body_tokens {session : Session} (readable : session.Readable) {type : UserType}
    (member : type ∈ session.types) {method : Method}
    (isMethod : method ∈ type.declaration.methods) {text : Text}
    (expanded : session.expandBody type method = .ok text) :
    ∃ tokens, tokenizeFrom method.line method.body = .ok tokens ∧
      ∀ line, ∃ result, tokenizeFrom line text = .ok result ∧
        Token.literals result = Token.literals tokens ∧
        (Balanced [] result ↔ SelfReference.Tidy session type false tokens) ∧
        (SelfReference.Tidy session type false tokens →
          (Token.comments result).Sublist (Token.comments tokens)) := by
  obtain ⟨tokens, isBody⟩ := ((readable type member).captured method isMethod).body
  obtain ⟨lexer, after, more, reads, brace⟩ := isBody.braced
  have strung := reads.strung
  rw [brace] at strung
  have writes : SelfReference.Writes session type false tokens text := by
    unfold Session.expandBody at expanded
    rw [isBody.lexed] at expanded
    exact SelfReference.writes_of_expand expanded
  obtain ⟨marks, outline, sketches⟩ :=
    writes.outline readable member ⟨reads.proper, strung, '}', more, rfl, by decide⟩
  refine ⟨tokens, isBody.lexed, fun line => ?_⟩
  obtain ⟨result, lexed, rfl⟩ := outline.tokenizeFrom line
  refine ⟨result, lexed, ?_, ⟨fun balanced => ?_, fun tidy => ?_⟩, fun tidy => ?_⟩
  · rw [← Token.literals_landmarks, sketches.literals]
  · obtain ⟨lost, surplus, tidy⟩ := sketches.lost [] isBody.balanced
    rw [Token.surplus_landmarks, balanced.surplus] at surplus
    exact tidy (by simpa using surplus.symm)
  · exact balanced_landmarks.1 (sketches.closed tidy [] isBody.balanced).1
  · rw [← Token.comments_landmarks]
    exact sketches.comments tidy

/-- Comments in front of an operator and behind a value, a string that looks like code, and one that
goes on behind a CRLF pair. -/
def sampleExpandedBody : Text := "@flatjs class T\x7bx:int32;@method m(SELF)\x7bif (SELF.x) \x7b
  SELF.x // old (\n = f('SELF.x = 1 // )', [SELF.x], 'a\\\r\nb') /* ] */; \x7d\x7d\x7d@end".toList

def sampleExpandedText : Text := "if (T.x(SELF)) \x7b
  T.x.set(SELF, f('SELF.x = 1 // )', [T.x(SELF)], 'a\\\r\nb') /* ] */); \x7d".toList

theorem expanded_body_tokens_sample : ∃ session type method tokens result,
    Session.Readable session ∧ type ∈ session.types ∧ method ∈ type.declaration.methods ∧
    session.expandBody type method = .ok sampleExpandedText ∧
    tokenizeFrom method.line method.body = .ok tokens ∧
    tokenizeFrom 1 sampleExpandedText = .ok result ∧
    Token.literals result = Token.literals tokens ∧ (Token.literals result).length = 2 ∧
    Balanced [] result ∧ SelfReference.Tidy session type false tokens ∧
    (Token.comments result).Sublist (Token.comments tokens) ∧
    Token.comments result = ["/* ] */".toList] := by
  have accepted : (do
      let document ← Document.read "sample" sampleExpandedBody
      let session ← Session.ofDocuments [document]
      return decide (∃ type ∈ session.types, ∃ method ∈ type.declaration.methods,
        session.expandBody type method = .ok sampleExpandedText)) = Except.ok true := by
    decide +kernel
  have again : (tokenizeFrom 1 sampleExpandedText).map (fun result =>
      (decide (Balanced [] result), (Token.literals result).length, Token.comments result)) =
        .ok (true, 2, ["/* ] */".toList]) := by
    decide +kernel
  obtain ⟨document, read, accepted⟩ := exists_of_bind_eq_ok accepted
  obtain ⟨session, analysed, facts⟩ := exists_of_bind_eq_ok accepted
  obtain ⟨type, member, method, isMethod, expanded⟩ := of_decide_eq_true (Except.ok.inj facts)
  obtain ⟨known, relexed, same⟩ := exists_of_map_eq_ok again
  simp only [Prod.mk.injEq, decide_eq_true_eq] at same
  obtain ⟨balanced, count, comments⟩ := same
  have readable := (Accepts.ofDocument read analysed).readable
  obtain ⟨tokens, lexed, each⟩ := expanded_body_tokens readable member isMethod expanded
  obtain ⟨result, lexedText, literals, closes, fewer⟩ := each 1
  obtain rfl := Except.ok.inj (relexed.symm.trans lexedText)
  have tidy := closes.1 balanced
  exact ⟨session, type, method, tokens, known, readable, member, isMethod, expanded, lexed, relexed,
    literals, count, balanced, tidy, fewer tidy, comments⟩

def sampleSwallowed : Text :=
  "@flatjs class T\x7bx:int32;@method m(SELF)\x7bSELF.x = 1 // c\n;\x7d\x7d@end".toList

/-- Behind a value that ends in a line comment the closing bracket becomes part of the comment. -/
theorem bracket_in_comment : ∃ document session type method result,
    Document.read "a" sampleSwallowed = .ok document ∧ Session.ofDocuments [document] = .ok session ∧
    type ∈ session.types ∧ method ∈ type.declaration.methods ∧
    method.body = "SELF.x = 1 // c\n;".toList ∧
    session.expandBody type method = .ok "T.x.set(SELF, 1 // c)\n;".toList ∧
    tokenize "T.x.set(SELF, 1 // c)\n;".toList = .ok result ∧ ¬ Balanced [] result ∧
    Token.comments result = ["// c)".toList] := by
  have accepted : (do
      let document ← Document.read "a" sampleSwallowed
      let session ← Session.ofDocuments [document]
      return decide (∃ type ∈ session.types, ∃ method ∈ type.declaration.methods,
        method.body = "SELF.x = 1 // c\n;".toList ∧
        session.expandBody type method = .ok "T.x.set(SELF, 1 // c)\n;".toList)) =
          Except.ok true := by
    decide +kernel
  have again : (tokenize "T.x.set(SELF, 1 // c)\n;".toList).map (fun result =>
      (decide (Balanced [] result), Token.comments result)) = .ok (false, ["// c)".toList]) := by
    decide +kernel
  obtain ⟨document, read, accepted⟩ := exists_of_bind_eq_ok accepted
  obtain ⟨session, analysed, facts⟩ := exists_of_bind_eq_ok accepted
  obtain ⟨type, member, method, isMethod, body, expanded⟩ :=
    of_decide_eq_true (Except.ok.inj facts)
  obtain ⟨result, relexed, same⟩ := exists_of_map_eq_ok again
  simp only [Prod.mk.injEq, decide_eq_false_iff_not] at same
  exact ⟨document, session, type, method, result, read, analysed, member, isMethod, body, expanded,
    relexed, same.1, same.2⟩

end FlatMemory
