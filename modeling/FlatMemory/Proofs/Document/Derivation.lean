import FlatMemory.Proofs.Document.Grammar

/-! # Readers and derivations

What a reader takes off the front of its tokens is derivable and denotes its result, and a reader
takes what is derivable off any tokens that go on with something else. -/

namespace FlatMemory

open List Token Block

theorem Token.isIdent_iff {token : Token} {word : String} :
    token.isIdent word = true ↔ token.kind = .ident ∧ token.word = word := by
  simp [Token.isIdent]

namespace Grammar

variable {endLine : Nat} {tokens rest : List Token} {token closing : Token}
  {spaced named : List Token} {word what : String} {line : Nat}
variable {nesting : List TokenKind} {kind : MethodKind} {found : List String}
  {inner spelled : List Token} {name : Token} {declaration : Declaration}

/-! ### Terminals -/

theorem bump_spaced (isSpaced : Spaced token spaced) (solid : token.kind.isTrivia = false)
    (rest : List Token) : Block.bump endLine (spaced ++ rest) = (token, rest) := by
  obtain ⟨trivia, rfl, all⟩ := isSpaced
  have dropped : (trivia ++ [token] ++ rest).dropWhile (fun token => token.kind.isTrivia) =
      token :: rest := by
    rw [append_assoc, dropWhile_append_of_pos all]
    simp [solid]
  unfold Block.bump
  rw [dropped]

theorem spaced_of_bump (found : (Block.bump endLine tokens).1.kind ≠ .eof) :
    ∃ spaced, tokens = spaced ++ (Block.bump endLine tokens).2 ∧
      Spaced (Block.bump endLine tokens).1 spaced := by
  unfold Block.bump at found ⊢
  have whole := takeWhile_append_dropWhile (p := fun token => token.kind.isTrivia) (l := tokens)
  split at found
  · exact absurd rfl found
  · next token rest dropped =>
    rw [dropped] at whole
    refine ⟨tokens.takeWhile (fun token => token.kind.isTrivia) ++ [token], ?_, _, rfl,
      fun other member => ?_⟩
    · rw [append_assoc]
      exact whole.symm
    · exact mem_takeWhile_imp (p := fun token : Token => token.kind.isTrivia) member

theorem Name.bump (isName : Name name named) (rest : List Token) :
    Block.bump endLine (named ++ rest) = (name, rest) :=
  bump_spaced isName.2 (by rw [isName.1]; rfl) rest

theorem Sign.bump {kind : TokenKind} {sign : List Token} (isSign : Sign kind sign)
    (solid : kind.isTrivia = false) (endLine : Nat) (rest : List Token) :
    ∃ token : Token, token.kind = kind ∧ Block.bump endLine (sign ++ rest) = (token, rest) := by
  obtain ⟨token, isKind, spaced⟩ := isSign
  exact ⟨token, isKind, bump_spaced spaced (by rw [isKind]; exact solid) rest⟩

theorem Word.bump (isWord : Word word spelled) (endLine : Nat) (rest : List Token) :
    ∃ token, Token.isIdent token word = true ∧
      Block.bump endLine (spelled ++ rest) = (token, rest) := by
  obtain ⟨token, isToken, spaced⟩ := isWord
  exact ⟨token, isToken, bump_spaced spaced (by rw [(isIdent_iff.1 isToken).1]; rfl) rest⟩

theorem expect_spaced {kind : TokenKind} (isKind : token.kind = kind)
    (isSpaced : Spaced token spaced) (solid : kind.isTrivia = false) (what : String)
    (rest : List Token) : Block.expect endLine kind what (spaced ++ rest) = .ok (token, rest) := by
  rw [Block.expect, bump_spaced isSpaced (by rw [isKind]; exact solid)]
  exact if_pos isKind

theorem Name.expectName (isName : Name name named) (what : String) (rest : List Token) :
    Block.expectName endLine what (named ++ rest) = .ok (name, rest) := by
  rw [Block.expectName, isName.bump]
  exact if_pos isName.1

theorem spaced_of_expect {kind : TokenKind} (notEnd : kind ≠ .eof)
    (read : Block.expect endLine kind what tokens = .ok (token, rest)) :
    token.kind = kind ∧ ∃ spaced, tokens = spaced ++ rest ∧ Spaced token spaced := by
  unfold Block.expect at read
  dsimp only at read
  split at read
  · next same =>
    cases read
    exact ⟨same, spaced_of_bump (by rw [same]; exact notEnd)⟩
  · cases read

theorem sign_of_expect {kind : TokenKind} (notEnd : kind ≠ .eof)
    (read : Block.expect endLine kind what tokens = .ok (token, rest)) :
    ∃ sign, tokens = sign ++ rest ∧ Sign kind sign := by
  obtain ⟨isKind, spaced, whole, isSpaced⟩ := spaced_of_expect notEnd read
  exact ⟨spaced, whole, token, isKind, isSpaced⟩

theorem name_of_expectName (read : Block.expectName endLine what tokens = .ok (token, rest)) :
    ∃ named, tokens = named ++ rest ∧ Name token named := by
  unfold Block.expectName at read
  dsimp only at read
  split at read
  · next ident =>
    cases read
    obtain ⟨spaced, whole, isSpaced⟩ := spaced_of_bump (by rw [ident]; simp)
    exact ⟨spaced, whole, ident, isSpaced⟩
  · cases read

/-! ### Fields -/

section Suffixes

variable {field : String} {qualifier : Qualifier} {isArray : Bool} {dot arrayed : List Token}
variable {found : Qualifier × Bool}

theorem suffixes_stop (notDot : (Block.bump endLine tokens).1.kind ≠ .dot) :
    Block.suffixes endLine field qualifier isArray tokens = .ok ((qualifier, isArray), tokens) := by
  rw [Block.suffixes, dif_neg notDot]

theorem suffixes_qualifier {read : Qualifier} (isDot : Sign .dot dot) (isWord : Word word spelled)
    (known : Qualifier.ofKeyword? word = some read) (rest : List Token) :
    Block.suffixes endLine field .plain false (dot ++ (spelled ++ rest)) =
      Block.suffixes endLine field read false rest := by
  obtain ⟨point, isPoint, bumped⟩ := isDot.bump rfl endLine (spelled ++ rest)
  obtain ⟨token, isToken, further⟩ := isWord.bump endLine rest
  obtain ⟨ident, same⟩ := isIdent_iff.1 isToken
  rw [Block.suffixes]
  simp [bumped, isPoint, further, ident, same, known]

theorem suffixes_array (isDot : Sign .dot dot) (isWord : Word "Array" spelled) (rest : List Token) :
    Block.suffixes endLine field qualifier false (dot ++ (spelled ++ rest)) =
      Block.suffixes endLine field qualifier true rest := by
  obtain ⟨point, isPoint, bumped⟩ := isDot.bump rfl endLine (spelled ++ rest)
  obtain ⟨token, isToken, further⟩ := isWord.bump endLine rest
  obtain ⟨ident, same⟩ := isIdent_iff.1 isToken
  have unknown : Qualifier.ofKeyword? "Array" = none := by decide
  rw [Block.suffixes]
  simp [bumped, isPoint, further, ident, same, unknown]

theorem ArrayPart.suffixes (isArrayed : ArrayPart isArray arrayed)
    (notDot : (Block.bump endLine rest).1.kind ≠ .dot) :
    Block.suffixes endLine field qualifier false (arrayed ++ rest) =
      .ok ((qualifier, isArray), rest) := by
  cases isArrayed with
  | none => exact suffixes_stop notDot
  | array isDot isWord => rw [append_assoc, suffixes_array isDot isWord, suffixes_stop notDot]

theorem QualifierPart.suffixes {qualified : List Token}
    (isQualifier : QualifierPart qualifier qualified) (isArrayed : ArrayPart isArray arrayed)
    (notDot : (Block.bump endLine rest).1.kind ≠ .dot) :
    Block.suffixes endLine field .plain false (qualified ++ (arrayed ++ rest)) =
      .ok ((qualifier, isArray), rest) := by
  cases isQualifier with
  | none => exact isArrayed.suffixes notDot
  | atomic isDot isWord =>
    have known : Qualifier.ofKeyword? "atomic" = some .atomic := by decide
    rw [append_assoc, suffixes_qualifier isDot isWord known, isArrayed.suffixes notDot]
  | synchronic isDot isWord =>
    have known : Qualifier.ofKeyword? "synchronic" = some .synchronic := by decide
    rw [append_assoc, suffixes_qualifier isDot isWord known, isArrayed.suffixes notDot]

/-- What the reader of suffixes does: it stops, or it reads one and goes on. -/
theorem suffixes_cases
    (read : Block.suffixes endLine field qualifier isArray tokens = .ok (found, rest)) :
    (found = (qualifier, isArray) ∧ rest = tokens) ∨
    ∃ (word : String) (dot spelled later : List Token), tokens = dot ++ (spelled ++ later) ∧
      Sign .dot dot ∧ Word word spelled ∧ isArray = false ∧
      ((∃ known, Qualifier.ofKeyword? word = some known ∧ qualifier = .plain ∧
          Block.suffixes endLine field known false later = .ok (found, rest)) ∨
        word = "Array" ∧ Block.suffixes endLine field qualifier true later = .ok (found, rest)) := by
  rw [Block.suffixes] at read
  split at read
  swap
  · cases read
    exact .inl ⟨rfl, rfl⟩
  next isDot =>
  obtain ⟨dot, split, spacedDot⟩ := spaced_of_bump (by rw [isDot]; simp)
  dsimp only at read
  split at read
  · cases read
  next notName =>
  have ident : (Block.bump endLine (Block.bump endLine tokens).2).1.kind = .ident := by
    simpa using notName
  obtain ⟨spelled, further, spacedWord⟩ := spaced_of_bump (by rw [ident]; simp)
  refine .inr ⟨_, dot, spelled, _, split.trans (by rw [← further]), ⟨_, isDot, spacedDot⟩,
    ⟨_, isIdent_iff.2 ⟨ident, rfl⟩, spacedWord⟩, ?_⟩
  split at read
  · next known isKnown =>
    split at read
    · next both =>
      obtain ⟨rfl, rfl⟩ := both
      exact ⟨rfl, .inl ⟨known, isKnown, rfl, read⟩⟩
    · cases read
  · split at read
    · next both =>
      obtain ⟨isWord, rfl⟩ := both
      exact ⟨rfl, .inr ⟨isWord, read⟩⟩
    · cases read

theorem done_of_suffixes
    (read : Block.suffixes endLine field qualifier true tokens = .ok (found, rest)) :
    found = (qualifier, true) ∧ rest = tokens := by
  rcases suffixes_cases read with done | ⟨_, _, _, _, _, _, _, again, _⟩
  · exact done
  · cases again

theorem arrayPart_of_suffixes (qualified : qualifier ≠ .plain)
    (read : Block.suffixes endLine field qualifier false tokens = .ok (found, rest)) :
    found.1 = qualifier ∧ ∃ arrayed, tokens = arrayed ++ rest ∧ ArrayPart found.2 arrayed := by
  rcases suffixes_cases read with
    ⟨rfl, rfl⟩ | ⟨word, dot, spelled, later, rfl, isDot, isWord, _, further⟩
  · exact ⟨rfl, [], rfl, .none⟩
  · rcases further with ⟨_, _, plain, _⟩ | ⟨rfl, further⟩
    · exact absurd plain qualified
    · obtain ⟨rfl, rfl⟩ := done_of_suffixes further
      exact ⟨rfl, dot ++ spelled, (append_assoc ..).symm, .array isDot isWord⟩

theorem parts_of_suffixes
    (read : Block.suffixes endLine field .plain false tokens = .ok (found, rest)) :
    ∃ qualified arrayed, tokens = qualified ++ (arrayed ++ rest) ∧
      QualifierPart found.1 qualified ∧ ArrayPart found.2 arrayed := by
  rcases suffixes_cases read with
    ⟨rfl, rfl⟩ | ⟨word, dot, spelled, later, rfl, isDot, isWord, _, further⟩
  · exact ⟨[], [], rfl, .none, .none⟩
  · rcases further with ⟨known, isKnown, _, further⟩ | ⟨rfl, further⟩
    · unfold Qualifier.ofKeyword? at isKnown
      split at isKnown
      · next isAtomic =>
        cases isKnown
        obtain ⟨same, arrayed, rfl, isArrayed⟩ := arrayPart_of_suffixes (by decide) further
        refine ⟨dot ++ spelled, arrayed, (append_assoc ..).symm, ?_, isArrayed⟩
        rw [same]
        exact .atomic isDot (isAtomic ▸ isWord)
      split at isKnown
      · next isSynchronic =>
        cases isKnown
        obtain ⟨same, arrayed, rfl, isArrayed⟩ := arrayPart_of_suffixes (by decide) further
        refine ⟨dot ++ spelled, arrayed, (append_assoc ..).symm, ?_, isArrayed⟩
        rw [same]
        exact .synchronic isDot (isSynchronic ▸ isWord)
      · cases isKnown
    · obtain ⟨rfl, rfl⟩ := done_of_suffixes further
      exact ⟨[], dot ++ spelled, (append_assoc ..).symm, .none, .array isDot isWord⟩

end Suffixes

theorem FieldTail.field {name : Token} {declared : Field} {tail : List Token}
    (isTail : FieldTail name declared tail) (rest : List Token) :
    Block.field endLine name (tail ++ rest) = .ok (declared, rest) := by
  cases isTail with
  | @mk type qualifier isArray colon typed qualified arrayed semicolon isColon isType isQualifier
      isArrayed isSemicolon =>
    obtain ⟨end', isEnd, ends⟩ := isSemicolon.bump rfl endLine rest
    have notDot : (Block.bump endLine (semicolon ++ rest)).1.kind ≠ .dot := by
      rw [ends, isEnd]
      simp
    obtain ⟨sign, isSign, begins⟩ :=
      isColon.bump rfl endLine (typed ++ (qualified ++ (arrayed ++ (semicolon ++ rest))))
    unfold Block.field
    simp only [append_assoc, begins, isSign, isType.bump, isType.1,
      isQualifier.suffixes isArrayed notDot, ends, isEnd]
    simp

theorem tail_of_field {declared : Field}
    (read : Block.field endLine name tokens = .ok (declared, rest)) :
    ∃ tail, tokens = tail ++ rest ∧ FieldTail name declared tail := by
  unfold Block.field at read
  dsimp only at read
  split at read
  · cases read
  next isColon =>
  split at read
  · cases read
  next isType =>
  split at read
  · cases read
  next qualifier isArray after suffixed =>
  split at read
  · cases read
  next isSemicolon =>
  cases read
  rw [not_not] at isColon isType isSemicolon
  obtain ⟨colon, first, spacedColon⟩ := spaced_of_bump (by rw [isColon]; simp)
  obtain ⟨typed, second, spacedType⟩ := spaced_of_bump (by rw [isType]; simp)
  obtain ⟨qualified, arrayed, third, isQualifier, isArrayed⟩ := parts_of_suffixes suffixed
  obtain ⟨semicolon, fourth, spacedSemicolon⟩ := spaced_of_bump (by rw [isSemicolon]; simp)
  refine ⟨colon ++ (typed ++ (qualified ++ (arrayed ++ semicolon))), ?_,
    .mk ⟨_, isColon, spacedColon⟩ ⟨isType, spacedType⟩ isQualifier isArrayed
      ⟨_, isSemicolon, spacedSemicolon⟩⟩
  simp only [append_assoc]
  rw [← fourth, ← third, ← second, ← first]

/-! ### Methods -/

theorem Parameters.parameters {method : String} {listed closing : List Token}
    (isListed : Parameters found listed) (isClosing : Sign .rParen closing) (rest : List Token) :
    Block.parameters endLine method (listed ++ (closing ++ rest)) = .ok (found, rest) := by
  induction isListed with
  | nil =>
    obtain ⟨token, isToken, bumped⟩ := isClosing.bump rfl endLine rest
    rw [nil_append, Block.parameters]
    simp [bumped, isToken]
  | @cons parameter later comma named others isComma isName notSelf _ ih =>
    obtain ⟨token, isToken, bumped⟩ :=
      isComma.bump rfl endLine (named ++ (others ++ (closing ++ rest)))
    rw [append_assoc, append_assoc, Block.parameters]
    simp [bumped, isToken, isName.bump, isName.1, notSelf, ih, Except.map]

theorem listed_of_parameters {method : String}
    (read : Block.parameters endLine method tokens = .ok (found, rest)) :
    ∃ listed closing, tokens = listed ++ (closing ++ rest) ∧ Parameters found listed ∧
      Sign .rParen closing := by
  fun_induction Block.parameters endLine method tokens generalizing found with
  | case1 tokens =>
    rename_i isClosing
    cases read
    obtain ⟨closing, split, spaced⟩ := spaced_of_bump (by rw [isClosing]; simp)
    exact ⟨[], closing, split, .nil, _, isClosing, spaced⟩
  | case2 => cases read
  | case3 tokens =>
    rename_i isComma _ parameter _ _ isParameter ih
    obtain ⟨⟨others, _⟩, inner, same⟩ := exists_of_map_eq_ok read
    cases same
    rw [not_or, not_not] at isParameter
    obtain ⟨comma, first, spacedComma⟩ := spaced_of_bump (by rw [isComma]; simp)
    obtain ⟨named, second, spacedName⟩ := spaced_of_bump (by rw [isParameter.1]; simp)
    obtain ⟨listed, closing, third, isListed, isClosing⟩ := ih inner
    refine ⟨comma ++ (named ++ listed), closing, ?_,
      .cons ⟨_, isComma, spacedComma⟩ ⟨isParameter.1, spacedName⟩ isParameter.2 isListed, isClosing⟩
    simp only [append_assoc]
    rw [← third, ← second, ← first]
  | case4 => cases read
  | case5 => cases read

theorem Signature.signature {method : String} {signed : List Token}
    (isSigned : Signature found signed) (rest : List Token) :
    Block.signature endLine method (signed ++ rest) = .ok (found, rest) := by
  cases isSigned with
  | @mk opening self listed closing isOpening isSelf isListed isClosing =>
    obtain ⟨token, isKind, spaced⟩ := isOpening
    obtain ⟨first, isFirst, bumped⟩ := isSelf.bump endLine (listed ++ (closing ++ rest))
    unfold Block.signature
    simp only [append_assoc, expect_spaced isKind spaced rfl, bumped, isFirst, if_true]
    exact isListed.parameters isClosing rest

theorem signed_of_signature {method : String}
    (read : Block.signature endLine method tokens = .ok (found, rest)) :
    ∃ signed, tokens = signed ++ rest ∧ Signature found signed := by
  unfold Block.signature at read
  split at read
  · cases read
  next token after opened =>
  dsimp only at read
  split at read
  swap
  · cases read
  next isSelf =>
  have ident := (isIdent_iff.1 isSelf).1
  obtain ⟨opening, first, isOpening⟩ := sign_of_expect (by simp) opened
  obtain ⟨self, second, spaced⟩ := spaced_of_bump (by rw [ident]; simp)
  obtain ⟨listed, closing, third, isListed, isClosing⟩ := listed_of_parameters read
  refine ⟨opening ++ (self ++ (listed ++ closing)), ?_,
    .mk isOpening ⟨_, isSelf, spaced⟩ isListed isClosing⟩
  simp only [append_assoc]
  rw [← third, ← second, ← first]

/-! ### Bodies -/

theorem kinds_of_closer {opening closing : TokenKind} (matching : opening.closer? = some closing) :
    opening.isOpen = true ∧ closing.isOpen = false ∧ closing.isClose = true := by
  cases opening <;> cases matching <;> decide

theorem Closed.balanced_append (closed : Closed inner) (nesting : List TokenKind)
    (later : List Token) :
    Balanced nesting (inner ++ later) ↔ Balanced nesting later := by
  induction closed generalizing nesting later with
  | nil => rfl
  | plain notOpen notClose _ ih =>
    rw [cons_append, balanced_plain (by simp [notOpen]) (by simp [notClose]), ih]
  | group matching _ _ ihInner ihLater =>
    obtain ⟨opens, notOpen, closes⟩ := kinds_of_closer matching
    rw [cons_append, append_assoc, cons_append, balanced_open opens, ihInner,
      balanced_close (by simp [notOpen]) closes, ihLater, and_iff_right matching]

def Unwinds : List TokenKind → List Token → Prop
  | [], tokens => Closed tokens
  | opener :: outer, tokens => ∃ inner closing later, tokens = inner ++ closing :: later ∧
    Closed inner ∧ opener.closer? = some closing.kind ∧ Balanced outer later

theorem Unwinds.plain {token : Token} {later : List Token} (notOpen : token.kind.isOpen = false)
    (notClose : token.kind.isClose = false) (unwinds : Unwinds nesting later) :
    Unwinds nesting (token :: later) := by
  cases nesting with
  | nil => exact Closed.plain notOpen notClose unwinds
  | cons opener outer =>
    obtain ⟨inner, closing, behind, rfl, closed, matching, balanced⟩ := unwinds
    exact ⟨token :: inner, closing, behind, rfl, .plain notOpen notClose closed, matching, balanced⟩

theorem Unwinds.group {opening : Token} {later : List Token}
    (matching : opening.kind.closer? = some closing.kind) (inside : Closed inner)
    (unwinds : Unwinds nesting later) :
    Unwinds nesting (opening :: (inner ++ closing :: later)) := by
  cases nesting with
  | nil => exact Closed.group matching inside unwinds
  | cons opener outer =>
    obtain ⟨middle, outerClosing, behind, rfl, closed, outerMatching, balanced⟩ := unwinds
    refine ⟨opening :: (inner ++ closing :: middle), outerClosing, behind, ?_,
      .group matching inside closed, outerMatching, balanced⟩
    simp

/-- By induction on the length: behind a group the rest is shorter, but no tail of the tokens. -/
theorem unwinds_of_balanced (balanced : Balanced nesting tokens) : Unwinds nesting tokens := by
  induction size : tokens.length using Nat.strong_induction_on generalizing nesting tokens with
  | _ size ih =>
  subst size
  cases tokens with
  | nil =>
    cases (show nesting = [] from balanced)
    exact Closed.nil
  | cons token tokens =>
    by_cases opens : token.kind.isOpen = true
    · obtain ⟨inner, closing, later, rfl, closed, matching, behind⟩ :=
        ih _ (by simp) ((balanced_open opens).1 balanced) rfl
      exact (ih _ (by simp; omega) behind rfl).group matching closed
    by_cases closes : token.kind.isClose = true
    · cases nesting with
      | nil => exact absurd balanced (not_balanced_close opens closes)
      | cons opener outer =>
        obtain ⟨matching, behind⟩ := (balanced_close opens closes).1 balanced
        exact ⟨[], token, tokens, rfl, .nil, matching, behind⟩
    · exact (ih _ (by simp) ((balanced_plain opens closes).1 balanced) rfl).plain (by simpa using opens)
        (by simpa using closes)

theorem balanced_iff_closed : Balanced [] inner ↔ Closed inner := by
  constructor
  · exact unwinds_of_balanced
  · intro closed
    rw [← append_nil inner, closed.balanced_append]
    rfl

theorem bodyTokens_of_balanced {method : String} {openingLine : Nat}
    (balanced : Balanced nesting inner) (isClosing : closing.kind = .rBrace) (rest : List Token) :
    Block.bodyTokens method openingLine nesting (inner ++ closing :: rest) = .ok (inner, rest) := by
  induction inner generalizing nesting with
  | nil =>
    cases (show nesting = [] from balanced)
    simp [Block.bodyTokens, isClosing, TokenKind.isOpen, TokenKind.isClose]
  | cons token inner ih =>
    rw [cons_append, Block.bodyTokens.eq_def]
    dsimp only
    by_cases opens : token.kind.isOpen = true
    · rw [if_pos opens, ih ((balanced_open opens).1 balanced)]
      rfl
    rw [if_neg opens]
    by_cases closes : token.kind.isClose = true
    · rw [if_pos closes]
      cases nesting with
      | nil => exact absurd balanced (not_balanced_close opens closes)
      | cons opener outer =>
        obtain ⟨matching, behind⟩ := (balanced_close opens closes).1 balanced
        dsimp only
        rw [if_pos matching, ih behind]
        rfl
    · rw [if_neg closes, ih ((balanced_plain opens closes).1 balanced)]
      rfl

theorem Body.body {method : String} {text : Text} {braced : List Token}
    (isBody : Body text line braced) (rest : List Token) :
    Block.body endLine method (braced ++ rest) = .ok ((text, line), rest) := by
  cases isBody with
  | mk isOpening isSpaced closed isClosing =>
    unfold Block.body
    simp only [append_assoc, singleton_append, expect_spaced isOpening isSpaced rfl,
      bodyTokens_of_balanced (balanced_iff_closed.2 closed) isClosing]
    rfl

theorem braced_of_body {method : String} {found : Text × Nat}
    (read : Block.body endLine method tokens = .ok (found, rest)) :
    ∃ braced, tokens = braced ++ rest ∧ Body found.1 found.2 braced := by
  unfold Block.body at read
  split at read
  · cases read
  · next opening after opened =>
    obtain ⟨isOpening, spaced, rfl, isSpaced⟩ := spaced_of_expect (by simp) opened
    obtain ⟨⟨inner, _⟩, result, same⟩ := exists_of_map_eq_ok read
    cases same
    obtain ⟨balanced, closing, isClosing, rfl⟩ := bodyTokens_spec result
    exact ⟨spaced ++ (inner ++ [closing]), by simp,
      .mk isOpening isSpaced (balanced_iff_closed.1 balanced) isClosing⟩

/-! ### Members -/

namespace Item

def addTo (declaration : Declaration) : Item → Declaration
  | field declared => { declaration with fields := declaration.fields ++ [declared] }
  | method declared => { declaration with methods := declaration.methods ++ [declared] }

@[simp] theorem isClass_addTo (declaration : Declaration) (item : Item) :
    (item.addTo declaration).isClass = declaration.isClass := by
  cases item <;> rfl

structure Allowed (declaration : Declaration) (item : Item) : Prop where
  name : ∀ name, item.name? = some name → declaration.hasMember name = false
  accessor : ∀ kind, item.accessor? = some kind → declaration.methodOfKind? kind = none

end Item

theorem checkUnique_of_free {name : String} (free : declaration.hasMember name = false) :
    Block.checkUnique declaration name line = .ok () := by
  rw [Block.checkUnique, if_neg (by simp [free])]

theorem Mark.bump {marked : List Token} (isMarked : Mark word marked) (endLine : Nat)
    (rest : List Token) :
    ∃ mark name, Block.isAt mark = true ∧ Token.isIdent name word = true ∧
      Block.bump endLine (marked ++ rest) = (mark, name :: rest) := by
  obtain ⟨mark, name, front, isMark, isName, isSpaced, rfl⟩ := isMarked
  refine ⟨mark, name, isMark, isName, ?_⟩
  rw [append_assoc]
  exact bump_spaced isSpaced (by rw [kind_of_isAt isMark]; rfl) _

theorem annotation?_word (isName : name.isIdent word = true) (rest : List Token) :
    Block.annotation? (name :: rest) = some (name, rest) :=
  if_pos (isIdent_iff.1 isName).1

section Named

variable {parameters : List String} {text : Text} {signed body : List Token}

theorem namedMethod_of_derived (kind : MethodKind) (isName : Name name named)
    (isSigned : Signature parameters signed) (isBody : Body text line body)
    (free : declaration.hasMember name.word = false) (rest : List Token) :
    Block.namedMethod endLine declaration kind (named ++ (signed ++ (body ++ rest))) =
      .ok (Item.addTo declaration (.method ⟨kind, name.word, parameters, text, line⟩), rest) := by
  unfold Block.namedMethod Block.signatureAndBody
  rw [isName.expectName]
  simp only [bind, Except.bind, isSigned.signature, isBody.body, Except.map,
    checkUnique_of_free free]
  rfl

theorem accessor_of_derived {arity : Nat} {expected : String} {word : Token}
    (notClass : declaration.isClass = false) (first : declaration.methodOfKind? kind = none)
    (isSigned : Signature parameters signed) (hasArity : parameters.length = arity)
    (isBody : Body text line body) (rest : List Token) :
    Block.accessor endLine declaration kind arity expected word (signed ++ (body ++ rest)) =
      .ok (Item.addTo declaration (.method ⟨kind, "", parameters, text, line⟩), rest) := by
  unfold Block.accessor
  rw [if_neg (by simp [notClass]), if_neg (by simp [first])]
  simp only [bind, Except.bind, isSigned.signature, isBody.body]
  rw [if_neg (not_not.2 hasArity)]
  rfl

end Named

section Step

variable {after : List Token}

section

variable (bumped : Block.bump endLine tokens = (token, after))

include bumped

theorem members_closing (closes : token.kind = .rBrace) :
    Block.members endLine declaration tokens = .ok (declaration, after) := by
  rw [Block.members]
  simp [bumped, closes]

theorem members_field {declared : Field} (ident : token.kind = .ident)
    (read : Block.field endLine token after = .ok (declared, rest))
    (free : declaration.hasMember declared.name = false) :
    Block.members endLine declaration tokens =
      Block.members endLine (Item.addTo declaration (.field declared)) rest := by
  rw [Block.members]
  simp only [bumped, ident, reduceCtorEq, if_false, dif_pos]
  split
  · next failed => rw [bumped, read] at failed; cases failed
  · next other later found =>
    rw [bumped, read] at found
    cases found
    rw [checkUnique_of_free free]
    rfl

theorem members_mark {extended : Declaration} (isMark : Block.isAt token = true)
    (read : Block.annotated endLine declaration token after = .ok (extended, rest)) :
    Block.members endLine declaration tokens = Block.members endLine extended rest := by
  have other := kind_of_isAt isMark
  rw [Block.members]
  simp only [bumped, other, isMark, reduceCtorEq, if_false, dif_pos, dif_neg, not_false_eq_true]
  split
  · next failed => rw [bumped, read] at failed; cases failed
  · next found later same =>
    rw [bumped, read] at same
    cases same
    rfl

end

end Step

theorem MethodMark.annotated (spelled : MethodMark kind word) {mark : Token}
    (isName : name.isIdent word = true) (isClass : declaration.isClass = true)
    (after : List Token) :
    Block.annotated endLine declaration mark (name :: after) =
      Block.namedMethod endLine declaration kind after := by
  unfold Block.annotated
  rw [annotation?_word isName]
  cases spelled with
  | nonVirtual => simp [(isIdent_iff.1 isName).2, isClass]
  | virtual => simp [(isIdent_iff.1 isName).2, isClass]

theorem AccessorMark.annotated {parameters : List String}
    (spelled : AccessorMark kind word parameters) (endLine : Nat) (declaration : Declaration)
    (mark : Token) (isName : name.isIdent word = true) (after : List Token) :
    ∃ expected, Block.annotated endLine declaration mark (name :: after) =
      Block.accessor endLine declaration kind parameters.length expected name after := by
  unfold Block.annotated
  rw [annotation?_word isName]
  cases spelled with
  | get => exact ⟨"(SELF)", by simp [(isIdent_iff.1 isName).2]⟩
  | set value => exact ⟨"(SELF, value)", by simp [(isIdent_iff.1 isName).2]⟩

theorem MethodMark.isNamed (spelled : MethodMark kind word) : kind.isNamed = true := by
  cases spelled <;> rfl

theorem AccessorMark.isNamed {parameters : List String}
    (spelled : AccessorMark kind word parameters) : kind.isNamed = false := by
  cases spelled <;> rfl

theorem Member.members {isClass : Bool} {item : Item} {first : List Token}
    (isMember : Member isClass item first) (sameForm : declaration.isClass = isClass)
    (allowed : item.Allowed declaration) (rest : List Token) :
    Block.members endLine declaration (first ++ rest) =
      Block.members endLine (item.addTo declaration) rest := by
  cases isMember with
  | @field _ name declared named tail isName isTail =>
    rw [append_assoc]
    refine members_field (isName.bump _) isName.1 (isTail.field rest) ?_
    exact allowed.name _ rfl
  | @method kind word name _ _ _ marked named signed body spelled isMark isName isSigned isBody =>
    obtain ⟨mark, word, isAt, isWord, bumped⟩ :=
      isMark.bump endLine (named ++ (signed ++ (body ++ rest)))
    simp only [append_assoc]
    refine members_mark bumped isAt ?_
    rw [spelled.annotated isWord sameForm]
    have free := allowed.name name.word (if_pos spelled.isNamed)
    exact namedMethod_of_derived _ isName isSigned isBody free rest
  | @accessor kind word _ _ _ marked signed body spelled isMark isSigned isBody =>
    obtain ⟨mark, word, isAt, isWord, bumped⟩ := isMark.bump endLine (signed ++ (body ++ rest))
    simp only [append_assoc]
    refine members_mark bumped isAt ?_
    obtain ⟨expected, dispatched⟩ :=
      spelled.annotated endLine declaration mark isWord (signed ++ (body ++ rest))
    rw [dispatched]
    have first := allowed.accessor kind (if_neg (by simp [spelled.isNamed]))
    exact accessor_of_derived sameForm first isSigned rfl isBody rest

section Sound

variable {found : Declaration} {marked : List Token}

theorem member_of_namedMethod (spelled : MethodMark kind word) (isMark : Mark word marked)
    (isClass : declaration.isClass = true)
    (read : Block.namedMethod endLine declaration kind tokens = .ok (found, rest)) :
    ∃ item first, marked ++ tokens = first ++ rest ∧ Member declaration.isClass item first ∧
      item.Allowed declaration ∧ found = item.addTo declaration := by
  unfold Block.namedMethod at read
  obtain ⟨⟨name, _⟩, readName, read⟩ := exists_of_bind_eq_ok read
  obtain ⟨⟨⟨parameters, text, line⟩, _⟩, readRest, read⟩ := exists_of_bind_eq_ok read
  obtain ⟨_, unique, read⟩ := exists_of_bind_eq_ok read
  cases read
  unfold Block.signatureAndBody at readRest
  split at readRest
  · cases readRest
  next readSignature =>
  obtain ⟨⟨⟨text, line⟩, _⟩, readBody, same⟩ := exists_of_map_eq_ok readRest
  cases same
  obtain ⟨named, rfl, isName⟩ := name_of_expectName readName
  obtain ⟨signed, rfl, isSigned⟩ := signed_of_signature readSignature
  obtain ⟨body, rfl, isBody⟩ := braced_of_body readBody
  refine ⟨.method ⟨kind, name.word, _, text, line⟩, marked ++ (named ++ (signed ++ body)),
    by simp, ?_, ⟨?_, ?_⟩, rfl⟩
  · rw [isClass]
    exact .method spelled isMark isName isSigned isBody
  · intro other same
    rw [Item.name?, if_pos spelled.isNamed] at same
    cases same
    exact checkUnique_ok unique
  · intro other same
    rw [Item.accessor?, if_pos spelled.isNamed] at same
    cases same

theorem member_of_accessor {arity : Nat} {expected : String}
    (spelled : ∀ {parameters : List String}, parameters.length = arity →
      AccessorMark kind word parameters) (isMark : Mark word marked)
    (read : Block.accessor endLine declaration kind arity expected name tokens =
      .ok (found, rest)) :
    ∃ item first, marked ++ tokens = first ++ rest ∧ Member declaration.isClass item first ∧
      item.Allowed declaration ∧ found = item.addTo declaration := by
  unfold Block.accessor at read
  split at read
  · cases read
  next notClass =>
  split at read
  · cases read
  next first =>
  obtain ⟨⟨parameters, _⟩, readSignature, read⟩ := exists_of_bind_eq_ok read
  dsimp only at read
  split at read
  · cases read
  next hasArity =>
  obtain ⟨⟨⟨text, line⟩, _⟩, readBody, read⟩ := exists_of_bind_eq_ok read
  cases read
  obtain ⟨signed, rfl, isSigned⟩ := signed_of_signature readSignature
  obtain ⟨body, rfl, isBody⟩ := braced_of_body readBody
  have isSpelled := spelled (not_not.1 hasArity)
  refine ⟨.method ⟨kind, "", parameters, text, line⟩, marked ++ (signed ++ body), by simp, ?_,
    ⟨?_, ?_⟩, rfl⟩
  · rw [Bool.not_eq_true] at notClass
    rw [notClass]
    exact .accessor isSpelled isMark isSigned isBody
  · intro other same
    rw [Item.name?, if_neg (by simp [isSpelled.isNamed])] at same
    cases same
  · intro other same
    rw [Item.accessor?, if_neg (by simp [isSpelled.isNamed])] at same
    cases same
    simpa using first

theorem member_of_annotated {mark : Token} (isAt : Block.isAt mark = true)
    (isSpaced : Spaced mark spaced)
    (read : Block.annotated endLine declaration mark tokens = .ok (found, rest)) :
    ∃ item first, spaced ++ tokens = first ++ rest ∧ Member declaration.isClass item first ∧
      item.Allowed declaration ∧ found = item.addTo declaration := by
  unfold Block.annotated at read
  split at read
  · cases read
  next name after annotation =>
  obtain ⟨rfl, ident⟩ := annotation?_split annotation
  have marks : ∀ {word : String}, name.word = word → Mark word (spaced ++ [name]) := by
    intro word same
    exact ⟨mark, name, spaced, isAt, isIdent_iff.2 ⟨ident, same⟩, isSpaced, rfl⟩
  rw [← singleton_append, ← append_assoc]
  split at read
  · next isMethod =>
    split at read
    · next isClass => exact member_of_namedMethod .nonVirtual (marks isMethod) isClass read
    · cases read
  split at read
  · next isVirtual =>
    split at read
    · next isClass => exact member_of_namedMethod .virtual (marks isVirtual) isClass read
    · cases read
  split at read
  · next isGet =>
    refine member_of_accessor (fun none => ?_) (marks isGet) read
    rw [length_eq_zero_iff.1 none]
    exact .get
  split at read
  · next isSet =>
    refine member_of_accessor (fun one => ?_) (marks isSet) read
    obtain ⟨value, rfl⟩ := length_eq_one_iff.1 one
    exact .set value
  · cases read

end Sound

end Grammar

end FlatMemory
