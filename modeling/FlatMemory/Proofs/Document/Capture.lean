import FlatMemory.Proofs.Document.Acceptance

/-! # Captured bodies

A method keeps the text of its body and the line of its opening brace.  Where the body stood, the
token stream of the source has a name, a signature, a pair of braces, and between the braces the
very tokens that the text gives when it is lexed on its own from that line. -/

namespace FlatMemory

open List

variable {tokens : List Token} {declaration : Declaration} {endLine : Nat} {file : String}

def Enclosed (line : Nat) (inner tokens : List Token) : Prop :=
  ∃ skipped opening close rest, tokens = skipped ++ opening :: (inner ++ close :: rest) ∧
    (∀ token ∈ skipped, token.kind.isTrivia = true) ∧ opening.kind = .lBrace ∧
    opening.line = line ∧ close.kind = .rBrace

namespace Method

variable {method : Method} {source inner : List Token}

def heading (method : Method) : String :=
  match method.kind with
  | .get => "get"
  | .set => "set"
  | .virtual | .nonVirtual => method.name

/-- Where a method stands in a source: behind its heading and its parameters, `inner` is what the
braces of its body enclose. -/
def Stands (method : Method) (endLine : Nat) (source inner : List Token) : Prop :=
  ∃ front word signature behind, source = front ++ word :: signature ∧ word.kind = .ident ∧
    word.word = method.heading ∧
    (∃ what, Block.signature endLine what signature = .ok (method.parameters, behind)) ∧
    Enclosed method.line inner behind ∧ method.body = inner.flatMap Token.text

theorem Stands.mono (stands : method.Stands endLine tokens inner) (isRest : tokens <:+ source) :
    method.Stands endLine source inner := by
  obtain ⟨before, rfl⟩ := isRest
  obtain ⟨front, word, signature, behind, rfl, others⟩ := stands
  exact ⟨before ++ front, word, signature, behind, (append_assoc ..).symm, others⟩

/-- A method that stands in a source stands there between braces. -/
theorem Stands.braced (stands : method.Stands endLine source inner) :
    ∃ lead opening close trail, source = lead ++ opening :: (inner ++ close :: trail) ∧
      opening.kind = .lBrace ∧ opening.line = method.line ∧ close.kind = .rBrace ∧
      method.body = inner.flatMap Token.text := by
  obtain ⟨front, word, signature, behind, rfl, _, _, ⟨what, signed⟩, enclosed, body⟩ := stands
  obtain ⟨skipped, opening, close, rest, rfl, _, isOpening, line, isClose⟩ := enclosed
  obtain ⟨spelled, rfl, _⟩ := Grammar.signed_of_signature signed
  exact ⟨front ++ word :: (spelled ++ skipped), opening, close, rest, by simp, isOpening, line,
    isClose, body⟩

/-- Lexed on its own, the body of a method gives back what stood between its braces. -/
theorem Stands.isBody (stands : method.Stands endLine source inner) (streamed : Streamed source)
    (balanced : Balanced [] inner) : IsBody method.line method.body inner := by
  obtain ⟨lead, opening, close, trail, rfl, isOpening, line, isClose, body⟩ := stands.braced
  rw [body, ← line]
  exact Block.isBody_between streamed.append.2 isOpening isClose balanced

end Method

namespace Grammar

variable {pieces : List Piece} {block named signed body listed : List Token} {line : Nat}
  {name : Token} {isClass : Bool} {item : Item} {items : List Item} {method : Method}
  {first : List Token} {parameters : List String}

/-! ### Where methods stand -/

theorem Body.enclosed {text : Text} (isBody : Body text line body) (rest : List Token) :
    ∃ inner, Enclosed line inner (body ++ rest) ∧ text = inner.flatMap Token.text ∧
      Balanced [] inner := by
  cases isBody with
  | @mk opening closing spaced inner isOpening isSpaced closed isClosing =>
    obtain ⟨trivia, rfl, isTrivia⟩ := isSpaced
    exact ⟨inner, ⟨trivia, opening, closing, rest, by simp, isTrivia, isOpening, rfl, isClosing⟩,
      rfl, balanced_iff_closed.2 closed⟩

theorem Member.stands (isMember : Member isClass item first) (declares : item.method? = some method)
    (endLine : Nat) (rest : List Token) :
    ∃ inner, method.Stands endLine (first ++ rest) inner ∧ Balanced [] inner := by
  cases isMember with
  | field isName isTail => cases declares
  | @method kind _ name _ _ _ mark named signed body spelled isMark isName isSigned isBody =>
    cases declares
    obtain ⟨ident, trivia, rfl, _⟩ := isName
    obtain ⟨inner, enclosed, isText, balanced⟩ := isBody.enclosed rest
    refine ⟨inner, ⟨mark ++ trivia, name, signed ++ (body ++ rest), body ++ rest, by simp, ident, ?_,
      ⟨name.word, isSigned.signature _⟩, enclosed, isText⟩, balanced⟩
    cases spelled with
    | nonVirtual => rfl
    | virtual => rfl
  | @accessor kind _ _ _ _ mark signed body spelled isMark isSigned isBody =>
    cases declares
    obtain ⟨mark, word, front, _, isWord, _, rfl⟩ := isMark
    obtain ⟨ident, isWord⟩ := Token.isIdent_iff.1 isWord
    obtain ⟨inner, enclosed, isText, balanced⟩ := isBody.enclosed rest
    refine ⟨inner, ⟨front, word, signed ++ (body ++ rest), body ++ rest, by simp, ident, ?_,
      ⟨word.word, isSigned.signature _⟩, enclosed, isText⟩, balanced⟩
    cases spelled with
    | get => exact isWord
    | set value => exact isWord

theorem Members.stands (isMembers : Members isClass items listed) (member : item ∈ items)
    (declares : item.method? = some method) (endLine : Nat) (rest : List Token) :
    ∃ inner, method.Stands endLine (listed ++ rest) inner ∧ Balanced [] inner := by
  induction isMembers with
  | nil => cases member
  | @cons _ _ first listed isFirst more ih =>
    rw [append_assoc]
    rcases mem_cons.1 member with rfl | member
    · exact isFirst.stands declares endLine (listed ++ rest)
    · obtain ⟨inner, stands, balanced⟩ := ih member
      exact ⟨inner, stands.mono (suffix_append _ _), balanced⟩

theorem Definition.stands (isBlock : Definition file line declaration block)
    (isMethod : method ∈ declaration.methods) (endLine : Nat) (rest : List Token) :
    ∃ inner, method.Stands endLine (block ++ rest) inner ∧ Balanced [] inner := by
  cases isBlock with
  | @mk _ _ items header opening listed closing ending _ _ isMembers _ _ _ _ =>
    obtain ⟨item, member, declares⟩ := mem_filterMap.1 isMethod
    obtain ⟨inner, stands, balanced⟩ :=
      isMembers.stands member declares endLine (closing ++ (ending ++ rest))
    exact ⟨inner, stands.mono ⟨header ++ opening, by simp⟩, balanced⟩

theorem Derives.stands (derives : Derives file pieces tokens)
    (found : Piece.block declaration ∈ pieces) (isMethod : method ∈ declaration.methods) :
    ∃ inner, method.Stands endLine tokens inner ∧ Balanced [] inner := by
  induction derives with
  | nil => cases found
  | copied _ _ ih =>
    obtain ⟨inner, stands, balanced⟩ := ih (by simpa using found)
    exact ⟨inner, stands.mono (suffix_cons _ _), balanced⟩
  | @block start first pieces block tokens _ isBlock _ ih =>
    have toTokens : tokens <:+ start :: (block ++ tokens) := ⟨start :: block, rfl⟩
    rcases mem_cons.1 found with same | found
    · cases same
      obtain ⟨inner, stands, balanced⟩ := isBlock.stands isMethod endLine tokens
      exact ⟨inner, stands.mono (suffix_cons _ _), balanced⟩
    · obtain ⟨inner, stands, balanced⟩ := ih found
      exact ⟨inner, stands.mono toTokens, balanced⟩

/-! ### Derived declarations are well formed -/

theorem Name.identifier (isName : Name name named) (streamed : Streamed named) :
    IsIdentifier name.word := by
  obtain ⟨ident, trivia, rfl, _⟩ := isName
  exact (streamed.proper (by simp)).identifier ident

theorem Parameters.identifiers (isListed : Parameters parameters listed)
    (streamed : Streamed listed) : ∀ parameter ∈ parameters, IsIdentifier parameter := by
  induction isListed with
  | nil => simp
  | cons isComma isName notSelf more ih =>
    have behind := streamed.append.2.append
    exact forall_mem_cons.2 ⟨isName.identifier behind.1, ih behind.2⟩

theorem Signature.identifiers (isSigned : Signature parameters signed) (streamed : Streamed signed) :
    ∀ parameter ∈ parameters, IsIdentifier parameter := by
  cases isSigned with
  | mk _ _ isListed _ => exact isListed.identifiers streamed.append.2.append.2.append.1

theorem Member.identifier (isMember : Member isClass item first) (streamed : Streamed first) :
    ∀ name, item.name? = some name → IsIdentifier name := by
  intro name named
  cases isMember with
  | field isName isTail =>
    cases isTail
    cases named
    exact isName.identifier streamed.append.1
  | method spelled isMark isName isSigned isBody =>
    simp only [Item.name?, spelled.isNamed, if_true, Option.some.injEq] at named
    exact named ▸ isName.identifier streamed.append.2.append.1
  | accessor spelled isMark isSigned isBody =>
    simp [Item.name?, spelled.isNamed] at named

theorem Member.kind (isMember : Member isClass item first) (declares : item.method? = some method) :
    method.kind.isNamed = isClass := by
  cases isMember with
  | field isName isTail => cases declares
  | method spelled isMark isName isSigned isBody =>
    cases declares
    exact spelled.isNamed
  | accessor spelled isMark isSigned isBody =>
    cases declares
    exact spelled.isNamed

theorem Members.exists_member (isMembers : Members isClass items listed) (member : item ∈ items) :
    ∃ first, Member isClass item first ∧ (Streamed listed → Streamed first) := by
  induction isMembers with
  | nil => cases member
  | cons isFirst more ih =>
    rcases mem_cons.1 member with rfl | member
    · exact ⟨_, isFirst, fun streamed => streamed.append.1⟩
    · obtain ⟨first, isMember, streams⟩ := ih member
      exact ⟨first, isMember, fun streamed => streams streamed.append.2⟩

theorem Header.identifier {form : Form} {name : String} {header : List Token}
    (isHeader : Header form name header) (streamed : Streamed header) : IsIdentifier name := by
  cases isHeader with
  | struct isKeyword isName => exact isName.identifier streamed.append.2
  | root isKeyword isName => exact isName.identifier streamed.append.2
  | derived isKeyword isName isMarked isBase =>
    exact isName.identifier streamed.append.2.append.1

theorem perm_names (items : List Item) :
    ((items.filterMap Item.field?).map Field.name ++
      ((items.filterMap Item.method?).filter fun method => method.kind.isNamed).map Method.name).Perm
      (items.filterMap Item.name?) := by
  induction items with
  | nil => exact .nil
  | cons item items ih =>
    cases item with
    | field declared => simpa [Item.field?, Item.method?, Item.name?, filterMap_cons] using ih
    | method declared =>
      by_cases named : declared.kind.isNamed = true
      · simpa [Item.field?, Item.method?, Item.name?, filterMap_cons, named] using
          perm_middle.trans (ih.cons declared.name)
      · simpa [Item.field?, Item.method?, Item.name?, filterMap_cons, named] using ih

theorem find?_accessor (single : (items.filterMap Item.accessor?).Nodup)
    (member : method ∈ items.filterMap Item.method?) (unnamed : method.kind.isNamed = false) :
    (items.filterMap Item.method?).find? (fun other => other.kind = method.kind) = some method := by
  induction items with
  | nil => cases member
  | cons item items ih =>
    cases item with
    | field declared => exact ih single member
    | method declared =>
      rw [filterMap_cons_some (f := Item.method?) rfl] at member ⊢
      by_cases same : declared.kind = method.kind
      · rw [find?_cons_of_pos (by simpa using same)]
        rcases mem_cons.1 member with rfl | member
        · rfl
        have later : method.kind ∈ items.filterMap Item.accessor? := by
          obtain ⟨item, isItem, declares⟩ := mem_filterMap.1 member
          refine mem_filterMap.2 ⟨item, isItem, ?_⟩
          cases item with
          | field declared => cases declares
          | method other =>
            cases declares
            simp [Item.accessor?, unnamed]
        have here : (Item.method declared).accessor? = some method.kind := by
          simp [Item.accessor?, same, unnamed]
        rw [filterMap_cons_some here] at single
        exact absurd later (nodup_cons.1 single).1
      · rw [find?_cons_of_neg (by simpa using same)]
        refine ih (single.sublist ((sublist_cons_self _ _).filterMap _)) ?_
        exact (mem_cons.1 member).resolve_left fun here => same (by rw [here])

theorem Definition.wellFormed (isBlock : Definition file line declaration block)
    (streamed : Streamed block) : declaration.WellFormed := by
  have captured : ∀ method ∈ declaration.methods, method.Captured := by
    intro method isMethod
    obtain ⟨inner, stands, balanced⟩ := isBlock.stands isMethod 0 []
    rw [append_nil] at stands
    refine ⟨⟨inner, stands.isBody streamed balanced⟩, ?_⟩
    obtain ⟨front, word, signature, behind, rfl, _, _, ⟨what, signed⟩, _⟩ := stands
    obtain ⟨spelled, rfl, isSigned⟩ := signed_of_signature signed
    rw [← singleton_append] at streamed
    exact isSigned.identifiers streamed.append.2.append.2.append.1
  cases isBlock with
  | @mk form name items header opening listed closing ending isHeader isOpening isMembers isClosing
      isEnding distinct single =>
    have streams := streamed.append.2.append.2.append.1
    refine ⟨isHeader.identifier streamed.append.1, (perm_names items).nodup_iff.2 distinct, ?_, ?_,
      captured, fun method member unnamed => find?_accessor single member unnamed⟩
    · intro name member
      obtain ⟨item, isItem, named⟩ := mem_filterMap.1 ((perm_names items).mem_iff.1 member)
      obtain ⟨first, isMember, streamsFirst⟩ := isMembers.exists_member isItem
      exact isMember.identifier (streamsFirst streams) name named
    · intro method member
      obtain ⟨item, isItem, declares⟩ := mem_filterMap.1 member
      obtain ⟨first, isMember, _⟩ := isMembers.exists_member isItem
      rw [isMember.kind declares, ← isClass_emptyDeclaration file line form name]
      rfl

theorem Derives.exists_definition (derives : Derives file pieces tokens)
    (found : Piece.block declaration ∈ pieces) :
    ∃ line block, Definition file line declaration block ∧ (Streamed tokens → Streamed block) := by
  induction derives with
  | nil => cases found
  | @copied token _ tokens _ _ ih =>
    obtain ⟨line, block, isBlock, streams⟩ := ih (by simpa using found)
    exact ⟨line, block, isBlock, fun streamed => streams (@Streamed.append [token] tokens streamed).2⟩
  | @block start first pieces block tokens _ isBlock _ ih =>
    have behind := fun streamed => (@Streamed.append [start] (block ++ tokens) streamed).2.append
    rcases mem_cons.1 found with same | found
    · cases same
      exact ⟨_, block, isBlock, fun streamed => (behind streamed).1⟩
    · obtain ⟨line, block, isBlock, streams⟩ := ih found
      exact ⟨line, block, isBlock, fun streamed => streams (behind streamed).2⟩

theorem Derives.wellFormed (derives : Derives file pieces tokens) (streamed : Streamed tokens)
    (found : Piece.block declaration ∈ pieces) : declaration.WellFormed := by
  obtain ⟨_, _, isBlock, streams⟩ := derives.exists_definition found
  exact isBlock.wellFormed (streams streamed)

theorem worded_of_streamed (streamed : Streamed tokens) : Worded tokens :=
  fun _ member ident => ((streamed.proper member).identifier ident).ne_empty

end Grammar

theorem Piece.captures_ofTokens {pieces : List Piece} (streamed : Streamed tokens)
    (read : ofTokens file endLine tokens = .ok pieces) :
    ∀ declaration, block declaration ∈ pieces → ∀ method ∈ declaration.methods,
      ∃ inner, method.Stands endLine tokens inner ∧ Balanced [] inner :=
  fun _ found _ isMethod => (Grammar.derives_of_ofTokens (Grammar.worded_of_streamed streamed)
    read).stands found isMethod

theorem Declaration.Parsed.wellFormed (parsed : declaration.Parsed) :
    declaration.WellFormed := by
  obtain ⟨file, source, document, read, member⟩ := parsed
  obtain ⟨tokens, pieces, lexed, derives, rfl⟩ := Document.read_eq_ok_iff.1 read
  obtain ⟨after, reads, _⟩ := (tokenizeFrom_eq_ok_iff 1 source tokens).1 lexed
  obtain ⟨original, origin, found, rfl⟩ := Piece.mem_declarations 0 member
  have wellFormed := derives.wellFormed ⟨_, after, reads⟩ found
  exact ⟨wellFormed.named, wellFormed.distinct, wellFormed.identifiers, wellFormed.kinds,
    wellFormed.captured, wellFormed.single⟩

/-- Every method of a document stands in the token stream of its source. -/
theorem Document.stands_of_read {source : Text} {document : Document}
    (read : Document.read file source = .ok document) (lexed : tokenize source = .ok tokens)
    (declared : declaration ∈ document.declarations) {method : Method}
    (isMethod : method ∈ declaration.methods) :
    ∃ inner, method.Stands (Document.endLine tokens) tokens inner ∧ Balanced [] inner := by
  obtain ⟨_, pieces, sameTokens, split, rfl⟩ := Document.read_ok read
  obtain rfl := Except.ok.inj (lexed.symm.trans sameTokens)
  obtain ⟨after, reads, _⟩ := (tokenizeFrom_eq_ok_iff 1 source tokens).1 lexed
  obtain ⟨original, origin, found, rfl⟩ := Piece.mem_declarations 0 declared
  exact Piece.captures_ofTokens ⟨_, after, reads⟩ split original found method isMethod

/-- Every body of a source, lexed on its own from the line of its opening brace, gives the tokens
that stand between its braces in the source, and their brackets balance. -/
theorem body_tokens_captured {file : String} {source : Text} {document : Document}
    (read : Document.read file source = .ok document) :
    ∃ tokens, tokenize source = .ok tokens ∧
      ∀ declaration ∈ document.declarations, ∀ method ∈ declaration.methods,
        ∃ inner, method.Stands (Document.endLine tokens) tokens inner ∧
          tokenizeFrom method.line method.body = .ok inner ∧ Balanced [] inner := by
  obtain ⟨tokens, pieces, lexed, split, rfl⟩ := Document.read_ok read
  obtain ⟨after, reads, _⟩ := (tokenizeFrom_eq_ok_iff 1 source tokens).1 lexed
  have streamed : Streamed tokens := ⟨_, after, reads⟩
  refine ⟨tokens, lexed, fun declaration member method isMethod => ?_⟩
  obtain ⟨original, origin, found, rfl⟩ := Piece.mem_declarations 0 member
  obtain ⟨inner, stands, balanced⟩ :=
    Piece.captures_ofTokens streamed split original found method isMethod
  exact ⟨inner, stands, (stands.isBody streamed balanced).lexed, balanced⟩

/-- Brackets in strings and comments, a text over two lines, and a number right before the brace. -/
def sampleBody : Text := "var a;\r\n@flatjs class C\x7b
  @method f(SELF, v) /* \x7b */ \x7b if (a[0]) \x7b g(\"\x7d\", `x\r\ny`); \x7d // \x7d\r\n return 1.\x7d
  @virtual g(SELF)\x7b/* \n */\x7d\x7d@end".toList

theorem body_tokens_captured_sample : ∃ document tokens,
    Document.read "sample" sampleBody = .ok document ∧ tokenize sampleBody = .ok tokens ∧
    (document.declarations.flatMap Declaration.methods).length = 2 ∧
    ∀ declaration ∈ document.declarations, ∀ method ∈ declaration.methods,
      ∃ inner, method.Stands (Document.endLine tokens) tokens inner ∧
        tokenizeFrom method.line method.body = .ok inner ∧ Balanced [] inner := by
  have accepted : (Document.read "sample" sampleBody).map (fun document =>
      (document.declarations.flatMap Declaration.methods).length) = .ok 2 := by
    decide +kernel
  obtain ⟨document, read, count⟩ := exists_of_map_eq_ok accepted
  obtain ⟨tokens, lexed, captured⟩ := body_tokens_captured read
  exact ⟨document, tokens, read, lexed, count, captured⟩

end FlatMemory
