import FlatMemory.Proofs.Document.Derivation

/-! # Accepted documents

A document is read exactly if it is derivable, and as what its derivation denotes. -/

namespace FlatMemory

open List Token

variable {pieces : List Piece} {file : String} {tokens : List Token} {source : Text}

namespace Grammar

variable {declaration : Declaration} {items : List Item} {isClass : Bool} {item : Item}
  {front listed closing spelled opening afterKeyword afterName block : List Token}
  {name start : Token} {base : Option String} {line : Nat}

/-! ### Runs of members -/

namespace Item

variable {kind : MethodKind}

def Regular (item : Item) : Prop :=
  ∀ declared, item.method? = some declared → (declared.kind.isNamed = true ↔ declared.name ≠ "")

theorem hasMember_addTo (regular : item.Regular) (name : String) :
    (item.addTo declaration).hasMember name = false ↔
      declaration.hasMember name = false ∧ item.name? ≠ some name := by
  cases item with
  | field declared => simp [addTo, Declaration.hasMember, name?]; tauto
  | method declared =>
    have isNamed := regular declared rfl
    by_cases named : declared.kind.isNamed = true
    · have filled := isNamed.1 named
      simp [addTo, Declaration.hasMember, name?, named, filled]
      tauto
    · have empty : declared.name = "" := not_not.1 (mt isNamed.2 named)
      simp [addTo, Declaration.hasMember, name?, named, empty]

theorem methodOfKind?_addTo (unnamed : kind.isNamed = false) :
    (item.addTo declaration).methodOfKind? kind = none ↔
      declaration.methodOfKind? kind = none ∧ item.accessor? ≠ some kind := by
  cases item with
  | field declared => simp [addTo, Declaration.methodOfKind?, accessor?]
  | method declared =>
    simp only [addTo, Declaration.methodOfKind?, accessor?, find?_append]
    by_cases same : declared.kind = kind
    · simp [same, unnamed]
    · simp [same]

theorem unnamed_of_accessor (found : item.accessor? = some kind) : kind.isNamed = false := by
  cases item with
  | field declared => cases found
  | method declared =>
    simp only [accessor?] at found
    split at found
    · cases found
    · cases found
      simp_all

end Item

def Separate {κ : Type} (key : Item → Option κ) (free : κ → Prop) (items : List Item) : Prop :=
  (items.filterMap key).Nodup ∧ ∀ k ∈ items.filterMap key, free k

theorem separate_cons {κ : Type} {key : Item → Option κ} {free freeAfter : κ → Prop}
    (step : ∀ k ∈ items.filterMap key, freeAfter k ↔ free k ∧ key item ≠ some k) :
    Separate key free (item :: items) ↔
      (∀ k, key item = some k → free k) ∧ Separate key freeAfter items := by
  unfold Separate
  cases found : key item with
  | none =>
    simp only [filterMap_cons_none found]
    grind
  | some k =>
    simp only [filterMap_cons_some found, nodup_cons]
    grind

def Fresh : Declaration → List Item → Prop
  | _, [] => True
  | declaration, item :: items => item.Allowed declaration ∧ Fresh (item.addTo declaration) items

theorem fresh_iff (regular : ∀ item ∈ items, item.Regular) (declaration : Declaration) :
    Fresh declaration items ↔
      Separate Item.name? (fun name => declaration.hasMember name = false) items ∧
      Separate Item.accessor? (fun kind => declaration.methodOfKind? kind = none) items := by
  induction items generalizing declaration with
  | nil => simp [Fresh, Separate]
  | cons item items ih =>
    have isRegular := regular item mem_cons_self
    have names : Separate Item.name? (fun name => declaration.hasMember name = false)
        (item :: items) ↔ _ :=
      separate_cons fun name _ => Item.hasMember_addTo isRegular name
    have accessors : Separate Item.accessor? (fun kind => declaration.methodOfKind? kind = none)
        (item :: items) ↔ _ :=
      separate_cons fun kind member => by
        obtain ⟨other, _, found⟩ := mem_filterMap.1 member
        exact Item.methodOfKind?_addTo (Item.unnamed_of_accessor found)
    rw [Fresh, ih (fun other member => regular other (mem_cons_of_mem _ member)), names,
      accessors]
    constructor
    · rintro ⟨allowed, laterNames, laterAccessors⟩
      exact ⟨⟨allowed.name, laterNames⟩, allowed.accessor, laterAccessors⟩
    · rintro ⟨⟨name, laterNames⟩, accessor, laterAccessors⟩
      exact ⟨⟨name, accessor⟩, laterNames, laterAccessors⟩

theorem foldl_addTo (items : List Item) (declaration : Declaration) :
    items.foldl Item.addTo declaration =
      { declaration with
        fields := declaration.fields ++ items.filterMap Item.field?
        methods := declaration.methods ++ items.filterMap Item.method? } := by
  induction items generalizing declaration with
  | nil => simp
  | cons item items ih =>
    rw [foldl_cons, ih]
    cases item with
    | field declared => simp [Item.addTo, Item.field?, Item.method?, filterMap_cons]
    | method declared => simp [Item.addTo, Item.field?, Item.method?, filterMap_cons]

def Worded (tokens : List Token) : Prop :=
  ∀ token ∈ tokens, token.kind = .ident → token.word ≠ ""

theorem worded_append {rest : List Token} :
    Worded (front ++ rest) ↔ Worded front ∧ Worded rest := by
  simp only [Worded, mem_append]
  grind

theorem Worded.tail {token : Token} {tokens : List Token} (worded : Worded (token :: tokens)) :
    Worded tokens :=
  fun other member => worded other (mem_cons_of_mem _ member)

theorem Name.word_ne_empty {named : List Token} (isName : Name name named) (worded : Worded named) :
    name.word ≠ "" := by
  obtain ⟨ident, trivia, rfl, _⟩ := isName
  exact worded name (by simp) ident

theorem Member.regular {first : List Token} (isMember : Member isClass item first)
    (worded : Worded first) : item.Regular := by
  intro declared found
  cases isMember with
  | field isName isTail => cases found
  | method spelled isMark isName isSigned isBody =>
    cases found
    simp only [worded_append] at worded
    simp [spelled.isNamed, isName.word_ne_empty worded.2.1]
  | accessor spelled isMark isSigned isBody =>
    cases found
    simp [spelled.isNamed]

theorem Members.regular (isMembers : Members isClass items listed) (worded : Worded listed) :
    ∀ item ∈ items, item.Regular := by
  induction isMembers with
  | nil => simp
  | cons isFirst more ih =>
    obtain ⟨wordedFirst, wordedRest⟩ := worded_append.1 worded
    intro item member
    rcases mem_cons.1 member with rfl | member
    · exact isFirst.regular wordedFirst
    · exact ih wordedRest item member

variable {endLine : Nat} {rest : List Token}

theorem Members.members (isMembers : Members isClass items listed)
    (isClosing : Sign .rBrace closing) (rest : List Token) :
    ∀ declaration : Declaration, declaration.isClass = isClass →
      Fresh declaration items →
      Block.members endLine declaration (listed ++ (closing ++ rest)) =
        .ok (items.foldl Item.addTo declaration, rest) := by
  induction isMembers with
  | nil =>
    intro declaration _ _
    obtain ⟨token, isBrace, bumped⟩ := isClosing.bump rfl endLine rest
    exact members_closing bumped isBrace
  | @cons item items first listed isFirst more ih =>
    intro declaration sameForm fresh
    rw [append_assoc, isFirst.members sameForm fresh.1]
    exact ih _ ((Item.isClass_addTo _ _).trans sameForm) fresh.2

/-- By the recursion of the reader: each member it takes starts the derivation of the others. -/
theorem items_of_members {found : Declaration}
    (read : Block.members endLine declaration tokens = .ok (found, rest)) :
    ∃ items listed closing, tokens = listed ++ (closing ++ rest) ∧
      Members declaration.isClass items listed ∧ Fresh declaration items ∧ Sign .rBrace closing ∧
      found = items.foldl Item.addTo declaration := by
  fun_induction Block.members endLine declaration tokens with
  | case1 declaration tokens token after isBrace =>
    obtain ⟨same, behind⟩ := Prod.mk.inj (Except.ok.inj read)
    obtain ⟨closing, whole, spaced⟩ := spaced_of_bump (by rw [isBrace]; simp)
    refine ⟨[], [], closing, ?_, .nil, trivial, ⟨_, isBrace, spaced⟩, same.symm⟩
    rw [← behind]
    exact whole
  | case2 => cases read
  | case3 => cases read
  | case4 declaration tokens token after notBrace ident declared later readField shorter unique ih =>
    obtain ⟨items, listed, closing, rfl, isMembers, fresh, isClosing, rfl⟩ := ih read
    obtain ⟨named, whole, spaced⟩ := spaced_of_bump (by rw [ident]; simp)
    obtain ⟨tail, behind, isTail⟩ := tail_of_field readField
    refine ⟨.field declared :: items, (named ++ tail) ++ listed, closing, ?_,
      .cons (.field ⟨ident, spaced⟩ isTail) isMembers, ⟨⟨?_, ?_⟩, fresh⟩, isClosing, rfl⟩
    · rw [whole]
      simp only [append_assoc]
      rw [← behind]
    · intro name found
      cases found
      exact Block.checkUnique_ok unique
    · intro kind found
      cases found
  | case5 => cases read
  | case6 declaration tokens token after notBrace notIdent mark extended later readMark shorter ih =>
    obtain ⟨items, listed, closing, rfl, isMembers, fresh, isClosing, rfl⟩ := ih read
    obtain ⟨spaced, whole, isSpaced⟩ :=
      spaced_of_bump (by rw [Block.kind_of_isAt mark]; simp)
    obtain ⟨item, first, split, isMember, allowed, rfl⟩ :=
      member_of_annotated mark isSpaced readMark
    rw [Item.isClass_addTo] at isMembers
    refine ⟨item :: items, first ++ listed, closing, ?_, .cons isMember isMembers,
      ⟨allowed, fresh⟩, isClosing, rfl⟩
    rw [whole, split, append_assoc]
  | case7 => cases read
  | case8 => cases read

/-! ### Blocks -/

theorem Word.keyword_struct (isWord : Word "struct" spelled) (rest : List Token) :
    Block.keyword endLine (spelled ++ rest) = .ok (false, rest) := by
  obtain ⟨word, isStruct, bumped⟩ := isWord.bump endLine rest
  rw [Block.keyword, bumped]
  exact if_pos isStruct

theorem Word.keyword_class (isWord : Word "class" spelled) (rest : List Token) :
    Block.keyword endLine (spelled ++ rest) = .ok (true, rest) := by
  obtain ⟨word, isClass, bumped⟩ := isWord.bump endLine rest
  have notStruct : ¬ word.isIdent "struct" = true := by
    simp [Token.isIdent, (isIdent_iff.1 isClass).2]
  rw [Block.keyword, bumped]
  dsimp only
  rw [if_neg notStruct, if_pos isClass]

theorem word_of_keyword (read : Block.keyword endLine tokens = .ok (isClass, rest)) :
    ∃ spelled, tokens = spelled ++ rest ∧
      Word (if isClass = true then "class" else "struct") spelled := by
  have spells : ∀ {word : String}, (Block.bump endLine tokens).1.isIdent word = true →
      ∃ spelled, tokens = spelled ++ (Block.bump endLine tokens).2 ∧ Word word spelled := by
    intro word isWord
    obtain ⟨spelled, whole, spaced⟩ :=
      spaced_of_bump (by rw [(isIdent_iff.1 isWord).1]; simp)
    exact ⟨spelled, whole, _, isWord, spaced⟩
  unfold Block.keyword at read
  dsimp only at read
  split at read
  · next isStruct =>
    cases read
    exact spells isStruct
  split at read
  · next isClass =>
    cases read
    exact spells isClass
  · cases read

theorem Sign.extends?_none (isOpening : Sign .lBrace opening) (isClass : Bool) (type : String)
    (rest : List Token) :
    Block.extends? endLine isClass type (opening ++ rest) = .ok (none, opening ++ rest) := by
  obtain ⟨token, isBrace, bumped⟩ := isOpening.bump rfl endLine rest
  rw [Block.extends?, bumped]
  exact if_neg (by simp [Token.isIdent, isBrace])

theorem Word.extends?_some {base : Token} {marked based : List Token}
    (isMarked : Word "extends" marked) (isBase : Name base based) (type : String)
    (rest : List Token) : Block.extends? endLine true type (marked ++ (based ++ rest)) =
      .ok (some base.word, rest) := by
  obtain ⟨word, isWord, bumped⟩ := isMarked.bump endLine (based ++ rest)
  rw [Block.extends?, bumped]
  dsimp only
  rw [if_pos isWord, if_pos rfl, isBase.expectName]
  rfl

theorem header_of_read (readKeyword : Block.keyword endLine tokens = .ok (isClass, afterKeyword))
    (readName : Block.expectName endLine "type name" afterKeyword = .ok (name, afterName))
    (readBase : Block.extends? endLine isClass name.word afterName = .ok (base, rest)) :
    ∃ header, tokens = header ++ rest ∧
      Header (if isClass = true then .classForm base else .structForm) name.word header := by
  obtain ⟨keyword, rfl, isKeyword⟩ := word_of_keyword readKeyword
  obtain ⟨named, rfl, isName⟩ := name_of_expectName readName
  unfold Block.extends? at readBase
  dsimp only at readBase
  split at readBase
  · next isExtends =>
    split at readBase
    swap
    · cases readBase
    next isTrue =>
    subst isTrue
    obtain ⟨⟨baseName, _⟩, readBaseName, same⟩ := exists_of_map_eq_ok readBase
    cases same
    obtain ⟨marked, whole, spaced⟩ :=
      spaced_of_bump (by rw [(isIdent_iff.1 isExtends).1]; simp)
    obtain ⟨based, behind, isBase⟩ := name_of_expectName readBaseName
    refine ⟨keyword ++ (named ++ (marked ++ based)), ?_,
      .derived isKeyword isName ⟨_, isExtends, spaced⟩ isBase⟩
    simp only [append_assoc]
    rw [← behind, ← whole]
  · cases readBase
    refine ⟨keyword ++ named, (append_assoc ..).symm, ?_⟩
    cases isClass with
    | true => exact .root isKeyword isName
    | false => exact .struct isKeyword isName

theorem Mark.ending {ending : List Token} (isEnding : Mark "end" ending) (type : String)
    (rest : List Token) : Block.ending endLine type (ending ++ rest) = .ok rest := by
  obtain ⟨mark, word, isAt, isWord, bumped⟩ := isEnding.bump endLine rest
  rw [Block.ending, bumped]
  simp only [isAt, annotation?_word isWord]
  exact if_pos (isIdent_iff.1 isWord).2

theorem mark_of_ending {type : String} (read : Block.ending endLine type tokens = .ok rest) :
    ∃ ending, tokens = ending ++ rest ∧ Mark "end" ending := by
  unfold Block.ending at read
  dsimp only at read
  split at read
  swap
  · cases read
  next word after isAt annotation =>
  split at read
  swap
  · cases read
  next isEnd =>
  cases read
  obtain ⟨behind, ident⟩ := Block.annotation?_split annotation
  obtain ⟨spaced, whole, isSpaced⟩ := spaced_of_bump (by rw [Block.kind_of_isAt isAt]; simp)
  refine ⟨spaced ++ [word], ?_, _, word, spaced, isAt, isIdent_iff.2 ⟨ident, isEnd⟩, isSpaced,
    rfl⟩
  rw [whole, behind, append_assoc]
  rfl

def emptyDeclaration (file : String) (line : Nat) (form : Form) (name : String) : Declaration :=
  ⟨name, file, line, form, [], [], 0⟩

theorem isClass_emptyDeclaration (file : String) (line : Nat) (form : Form) (name : String) :
    (emptyDeclaration file line form name).isClass = (form != .structForm) := by
  cases form with
  | structForm => rfl
  | classForm base => rfl

theorem fresh_empty_iff (regular : ∀ item ∈ items, item.Regular) (file : String) (line : Nat)
    (form : Form) (name : String) :
    Fresh (emptyDeclaration file line form name) items ↔
      (items.filterMap Item.name?).Nodup ∧ (items.filterMap Item.accessor?).Nodup := by
  rw [fresh_iff regular]
  simp [Separate, emptyDeclaration, Declaration.hasMember, Declaration.methodOfKind?]

theorem foldl_addTo_empty (items : List Item) (file : String) (line : Nat) (form : Form)
    (name : String) : items.foldl Item.addTo (emptyDeclaration file line form name) =
      ⟨name, file, line, form, items.filterMap Item.field?, items.filterMap Item.method?, 0⟩ := by
  rw [foldl_addTo]
  rfl

theorem definition_of_header {ending : List Token}
    (readKeyword : Block.keyword endLine block = .ok (isClass, afterKeyword))
    (readName : Block.expectName endLine "type name" afterKeyword = .ok (name, afterName))
    (readBase : Block.extends? endLine isClass name.word afterName =
      .ok (base, opening ++ (listed ++ (closing ++ (ending ++ rest)))))
    (isOpening : Sign .lBrace opening) (isMembers : Members isClass items listed)
    (isClosing : Sign .rBrace closing) (isEnding : Mark "end" ending)
    (fresh : Fresh (emptyDeclaration file line
      (if isClass = true then .classForm base else .structForm) name.word) items) :
    Block.definition file endLine line block =
      .ok (⟨name.word, file, line, if isClass = true then .classForm base else .structForm,
        items.filterMap Item.field?, items.filterMap Item.method?, 0⟩, rest) := by
  obtain ⟨brace, isBrace, spaced⟩ := isOpening
  have sameForm : (emptyDeclaration file line
      (if isClass = true then .classForm base else .structForm) name.word).isClass = isClass := by
    cases isClass with
    | true => rfl
    | false => rfl
  have read : Block.members endLine _ (listed ++ (closing ++ (ending ++ rest))) = _ :=
    isMembers.members isClosing (ending ++ rest) _ sameForm fresh
  rw [foldl_addTo_empty] at read
  unfold emptyDeclaration at read
  unfold Block.definition
  rw [readKeyword]
  simp only [bind, Except.bind, readName, readBase, expect_spaced isBrace spaced rfl, read,
    isEnding.ending]
  rfl

theorem Definition.definition (isBlock : Definition file line declaration block)
    (worded : Worded block) (rest : List Token) :
    Block.definition file endLine line (block ++ rest) = .ok (declaration, rest) := by
  cases isBlock with
  | @mk form name items header opening listed closing ending isHeader isOpening isMembers isClosing
      isEnding distinct single =>
    simp only [worded_append] at worded
    have fresh := (fresh_empty_iff (isMembers.regular worded.2.2.1) file line form name).2
      ⟨distinct, single⟩
    cases isHeader with
    | struct isKeyword isName =>
      simp only [append_assoc]
      exact definition_of_header (isKeyword.keyword_struct _) (isName.expectName _ _)
        (isOpening.extends?_none _ _ _) isOpening isMembers isClosing isEnding fresh
    | root isKeyword isName =>
      simp only [append_assoc]
      exact definition_of_header (isKeyword.keyword_class _) (isName.expectName _ _)
        (isOpening.extends?_none _ _ _) isOpening isMembers isClosing isEnding fresh
    | derived isKeyword isName isMarked isBase =>
      simp only [append_assoc]
      exact definition_of_header (isKeyword.keyword_class _) (isName.expectName _ _)
        (isMarked.extends?_some isBase _ _) isOpening isMembers isClosing isEnding fresh

theorem block_of_definition (worded : Worded tokens)
    (read : Block.definition file endLine line tokens = .ok (declaration, rest)) :
    ∃ block, tokens = block ++ rest ∧ Definition file line declaration block := by
  unfold Block.definition at read
  obtain ⟨⟨isClass, _⟩, readKeyword, read⟩ := exists_of_bind_eq_ok read
  obtain ⟨⟨name, _⟩, readName, read⟩ := exists_of_bind_eq_ok read
  obtain ⟨⟨base, _⟩, readBase, read⟩ := exists_of_bind_eq_ok read
  obtain ⟨⟨brace, _⟩, readBrace, read⟩ := exists_of_bind_eq_ok read
  obtain ⟨⟨found, _⟩, readMembers, read⟩ := exists_of_bind_eq_ok read
  obtain ⟨_, readEnding, read⟩ := exists_of_bind_eq_ok read
  cases read
  obtain ⟨header, rfl, isHeader⟩ := header_of_read readKeyword readName readBase
  obtain ⟨opening, rfl, isOpening⟩ := sign_of_expect (by simp) readBrace
  obtain ⟨items, listed, closing, rfl, isMembers, fresh, isClosing, rfl⟩ :=
    items_of_members readMembers
  obtain ⟨ending, rfl, isEnding⟩ := mark_of_ending readEnding
  simp only [worded_append] at worded
  have isMembersOf := isMembers
  rw [← emptyDeclaration, isClass_emptyDeclaration] at isMembersOf
  obtain ⟨distinct, single⟩ :=
    (fresh_empty_iff (isMembers.regular worded.2.2.1) _ _ _ _).1 fresh
  rw [← emptyDeclaration, foldl_addTo_empty]
  exact ⟨header ++ (opening ++ (listed ++ (closing ++ ending))), by simp,
    .mk isHeader isOpening isMembersOf isClosing isEnding distinct single⟩

/-! ### Documents -/

theorem Derives.append {pieces later : List Piece} {front : List Token}
    (derives : Derives file pieces front) (more : Derives file later rest) :
    Derives file (pieces ++ later) (front ++ rest) := by
  induction derives with
  | nil => exact more
  | copied stays _ ih => exact .copied stays ih
  | block starts isBlock _ ih =>
    rw [cons_append, cons_append, append_assoc]
    exact .block starts isBlock ih

theorem ofTokens_block (starts : start.kind = .defnStart)
    (isBlock : Definition file start.line declaration block) (worded : Worded block)
    (rest : List Token) :
    Piece.ofTokens file endLine (start :: (block ++ rest)) =
      (Piece.ofTokens file endLine rest).map (.block declaration :: ·) := by
  rw [Piece.ofTokens, if_pos starts]
  split
  · next failed =>
    rw [isBlock.definition worded] at failed
    cases failed
  · next found later read =>
    rw [isBlock.definition worded] at read
    cases read
    rfl

theorem Derives.ofTokens_append (derives : Derives file pieces front) (worded : Worded front)
    (rest : List Token) :
    Piece.ofTokens file endLine (front ++ rest) =
      (Piece.ofTokens file endLine rest).map (pieces ++ ·) := by
  induction derives with
  | nil =>
    rw [nil_append]
    cases Piece.ofTokens file endLine rest <;> rfl
  | @copied token pieces tokens stays _ ih =>
    rw [cons_append, Piece.ofTokens, if_neg stays, ih worded.tail]
    cases Piece.ofTokens file endLine rest <;> rfl
  | @block start declaration pieces block tokens starts isBlock _ ih =>
    obtain ⟨wordedBlock, wordedRest⟩ := worded_append.1 worded.tail
    rw [cons_append, append_assoc, ofTokens_block starts isBlock wordedBlock,
      ih wordedRest]
    cases Piece.ofTokens file endLine rest <;> rfl

theorem Derives.ofTokens (derives : Derives file pieces tokens) (worded : Worded tokens)
    (endLine : Nat) :
    Piece.ofTokens file endLine tokens = .ok pieces := by
  rw [← append_nil tokens, derives.ofTokens_append worded, Piece.ofTokens, Except.map,
    append_nil]

theorem derives_of_ofTokens (worded : Worded tokens)
    (read : Piece.ofTokens file endLine tokens = .ok pieces) : Derives file pieces tokens := by
  fun_induction Piece.ofTokens file endLine tokens generalizing pieces with
  | case1 =>
    cases read
    exact .nil
  | case2 => cases read
  | case3 start tokens starts declaration rest readBlock shorter ih =>
    obtain ⟨later, readLater, rfl⟩ := exists_of_map_eq_ok read
    obtain ⟨block, rfl, isBlock⟩ := block_of_definition worded.tail readBlock
    exact .block starts isBlock (ih (worded_append.1 worded.tail).2 readLater)
  | case4 token tokens stays ih =>
    obtain ⟨later, readLater, rfl⟩ := exists_of_map_eq_ok read
    exact .copied stays (ih worded.tail readLater)

def Opens (file : String) (tokens : List Token) (start : Token) (rest : List Token) : Prop :=
  start.kind = .defnStart ∧
    ∃ front pieces, tokens = front ++ start :: rest ∧ Derives file pieces front

/-- By induction on what is left: the tokens in front are derived already. -/
theorem exists_derives
    (blocks : ∀ start rest, Opens file tokens start rest → ∃ declaration block later,
      rest = block ++ later ∧ Definition file start.line declaration block) :
    ∃ pieces, Derives file pieces tokens := by
  have run : ∀ front rest pieces, tokens = front ++ rest → Derives file pieces front →
      ∃ later, Derives file later rest := by
    intro front rest
    induction size : rest.length using Nat.strong_induction_on generalizing front rest with
    | _ size ih =>
    subst size
    intro pieces whole derives
    cases rest with
    | nil => exact ⟨[], .nil⟩
    | cons token rest =>
      by_cases starts : token.kind = .defnStart
      · obtain ⟨declaration, block, later, rfl, isBlock⟩ :=
          blocks token rest ⟨starts, front, pieces, whole, derives⟩
        have next := derives.append (.block starts isBlock .nil)
        have shorter : later.length < (token :: (block ++ later)).length := by
          rw [length_cons, length_append]
          omega
        obtain ⟨found, more⟩ := ih later.length shorter _ later rfl _ (by rw [whole]; simp) next
        exact ⟨_, .block starts isBlock more⟩
      · have next := derives.append (.copied starts .nil)
        obtain ⟨found, more⟩ := ih rest.length (by simp) _ rest rfl _ (by rw [whole]; simp) next
        exact ⟨_, .copied starts more⟩
  exact run [] tokens [] rfl .nil

theorem Derives.block_of_opens (derives : Derives file pieces tokens) (worded : Worded tokens)
    (opens : Opens file tokens start rest) :
    ∃ declaration block later, rest = block ++ later ∧
      Definition file start.line declaration block := by
  obtain ⟨starts, front, before, rfl, derivesFront⟩ := opens
  obtain ⟨wordedFront, wordedBehind⟩ := worded_append.1 worded
  have read := derives.ofTokens worded 0
  rw [derivesFront.ofTokens_append wordedFront] at read
  obtain ⟨behind, readBehind, _⟩ := exists_of_map_eq_ok read
  cases derives_of_ofTokens wordedBehind readBehind with
  | copied stays _ => exact absurd starts stays
  | @block _ declaration _ block later _ isBlock _ => exact ⟨declaration, block, later, rfl, isBlock⟩

end Grammar

def Piece.declaration? : Piece → Option Declaration
  | copied _ => none
  | block declaration => some declaration

/-- Where a block stands in the residual text is no part of what it denotes. -/
theorem Grammar.Derives.declarations (derives : Grammar.Derives file pieces tokens) (offset : Nat) :
    (Piece.declarations offset pieces).map (fun declaration => { declaration with origin := 0 }) =
      pieces.filterMap Piece.declaration? := by
  induction derives generalizing offset with
  | nil => rfl
  | copied stays _ ih => exact ih _
  | block starts isBlock _ ih =>
    cases isBlock
    rw [Piece.declarations, map_cons, ih]
    rfl

theorem worded_of_tokenize (lexed : tokenize source = .ok tokens) : Grammar.Worded tokens := by
  obtain ⟨after, reads, _⟩ := (tokenizeFrom_eq_ok_iff 1 source tokens).1 lexed
  exact fun token member ident => ((reads.proper token member).identifier ident).ne_empty

theorem Document.read_eq_ok_iff {document : Document} :
    Document.read file source = .ok document ↔
      ∃ tokens pieces, tokenize source = .ok tokens ∧ Grammar.Derives file pieces tokens ∧
        document = ofPieces file pieces := by
  constructor
  · intro read
    obtain ⟨tokens, pieces, lexed, split, same⟩ := Document.read_ok read
    exact ⟨tokens, pieces, lexed, Grammar.derives_of_ofTokens (worded_of_tokenize lexed) split, same⟩
  · rintro ⟨tokens, pieces, lexed, derives, rfl⟩
    rw [Document.read, lexed]
    simp only [Document.ofTokens, derives.ofTokens (worded_of_tokenize lexed)]
    rfl

/-- A document is read exactly if each marker outside the blocks in front of it starts a block of
the grammar, and as what its derivation denotes. -/
theorem read_iff_derivable (file : String) (source : Text) :
    ((∃ document, Document.read file source = .ok document) ↔
      ∃ tokens, tokenize source = .ok tokens ∧
        ∀ start rest, Grammar.Opens file tokens start rest → ∃ declaration block later,
          rest = block ++ later ∧ Grammar.Definition file start.line declaration block) ∧
    ∀ document, Document.read file source = .ok document ↔
      ∃ tokens pieces, tokenize source = .ok tokens ∧ Grammar.Derives file pieces tokens ∧
        document = Document.ofPieces file pieces ∧
        document.declarations.map (fun declaration => { declaration with origin := 0 }) =
          pieces.filterMap Piece.declaration? := by
  refine ⟨⟨?_, ?_⟩, fun document => ⟨?_, ?_⟩⟩
  · rintro ⟨document, read⟩
    obtain ⟨tokens, pieces, lexed, derives, _⟩ := Document.read_eq_ok_iff.1 read
    exact ⟨tokens, lexed, fun start rest opens =>
      derives.block_of_opens (worded_of_tokenize lexed) opens⟩
  · rintro ⟨tokens, lexed, blocks⟩
    obtain ⟨pieces, derives⟩ := Grammar.exists_derives blocks
    exact ⟨_, Document.read_eq_ok_iff.2 ⟨tokens, pieces, lexed, derives, rfl⟩⟩
  · intro read
    obtain ⟨tokens, pieces, lexed, derives, rfl⟩ := Document.read_eq_ok_iff.1 read
    exact ⟨tokens, pieces, lexed, derives, rfl, derives.declarations 0⟩
  · rintro ⟨tokens, pieces, lexed, derives, same, _⟩
    exact Document.read_eq_ok_iff.2 ⟨tokens, pieces, lexed, derives, same⟩

/-- A comment between tokens, a qualified array, a getter with a setter, and a derived class. -/
def sampleSyntax : Text := "@flatjs struct P\x7bx/*:*/:int32.atomic
.Array;@get(SELF)\x7b\x7d@set(SELF,v)
\x7bf([v])\x7d\x7d@end;@flatjs class C extends B\x7b@virtual m(SELF)\x7b@flatjs\x7d\x7d@end".toList

def sampleDeclarations : List Declaration :=
  [⟨"P", "sample", 1, .structForm, [⟨"x", "int32", .atomic, true, 1⟩],
    [⟨.get, "", [], [], 2⟩, ⟨.set, "", ["v"], "f([v])".toList, 3⟩], 0⟩,
  ⟨"C", "sample", 3, .classForm (some "B"), [], [⟨.virtual, "m", [], "@flatjs".toList, 3⟩], 0⟩]

theorem read_iff_derivable_sample : ∃ tokens pieces, tokenize sampleSyntax = .ok tokens ∧
    Grammar.Derives "sample" pieces tokens ∧
    pieces.filterMap Piece.declaration? = sampleDeclarations := by
  have accepted : (Document.read "sample" sampleSyntax).map (fun document =>
      document.declarations.map fun declaration => { declaration with origin := 0 }) =
      .ok sampleDeclarations := by
    decide +kernel
  obtain ⟨document, read, declared⟩ := exists_of_map_eq_ok accepted
  obtain ⟨tokens, pieces, lexed, derives, _, same⟩ :=
    ((read_iff_derivable "sample" sampleSyntax).2 document).1 read
  exact ⟨tokens, pieces, lexed, derives, same.symm.trans declared⟩

def markedBody : Text :=
  "@flatjs class T \x7b@method m(SELF)\x7b @flatjs \x7d\x7d @end\n".toList

/-- A marker inside a body is text of the body: it starts no block, and the document is read. -/
theorem marker_inside_body : ∃ document tokens front start rest,
    Document.read "test.flat_js" markedBody = .ok document ∧
    tokenize markedBody = .ok tokens ∧ tokens = front ++ start :: rest ∧
    start.kind = .defnStart ∧
    ¬ ∃ declaration block later, rest = block ++ later ∧
      Grammar.Definition "test.flat_js" start.line declaration block := by
  have accepted : (Document.read "test.flat_js" markedBody).map Document.residual =
      .ok "\n".toList := by
    decide +kernel
  have marked : (tokenize markedBody).map (fun tokens =>
      (tokens[16]?.map Token.kind, (Block.keyword 1 (tokens.drop 17)).toBool)) =
      .ok (some .defnStart, false) := by
    decide +kernel
  obtain ⟨document, read, _⟩ := exists_of_map_eq_ok accepted
  obtain ⟨tokens, lexed, facts⟩ := exists_of_map_eq_ok marked
  obtain ⟨isMarker, noKeyword⟩ := Prod.mk.inj facts
  obtain ⟨start, found, starts⟩ := Option.map_eq_some_iff.1 isMarker
  obtain ⟨inside, isStart⟩ := List.getElem?_eq_some_iff.1 found
  have whole : tokens = tokens.take 16 ++ start :: tokens.drop 17 := by
    rw [← isStart, ← List.drop_eq_getElem_cons inside, List.take_append_drop]
  refine ⟨document, tokens, _, start, _, read, lexed, whole, starts, ?_⟩
  rintro ⟨declaration, block, later, behind, isBlock⟩
  have worded : Grammar.Worded block := by
    have all := worded_of_tokenize lexed
    rw [whole, behind] at all
    exact (Grammar.worded_append.1 (Grammar.worded_append.1 all).2.tail).1
  have isRead : Block.definition "test.flat_js" 1 start.line (block ++ later) = _ :=
    isBlock.definition worded later
  obtain ⟨_, isKeyword, _⟩ := exists_of_bind_eq_ok isRead
  rw [behind, isKeyword] at noKeyword
  cases noKeyword

end FlatMemory
