import FlatMemory.Proofs.Code.SelfReference
import FlatMemory.Proofs.Program

/-! # Pasting the documents of a program

The declarations of a document stand where its pieces say, so each is found at or after the end of
the one before, and each names a type of the session.  `Woven` says what the pasted text is. -/

namespace FlatMemory

open List

variable {pieces : List Piece} {session : Session} {type : UserType}

/-! ### Generated code -/

theorem answers_foldlM {α β : Type} {step : β → α → Except Failure β} {items : List α}
    (each : ∀ item ∈ items, ∀ reached, Answers (step reached item) fun _ => True) (start : β) :
    Answers (items.foldlM step start) fun _ => True := by
  induction items generalizing start with
  | nil => trivial
  | cons item items ih =>
    rw [foldlM_cons, answers_bind]
    refine (each item mem_cons_self start).mono fun next _ => ?_
    exact ih (fun other member => each other (mem_cons_of_mem _ member)) next

theorem Generate.answers_structAccessor (session : Session) {kind : MethodKind} {target : String}
    {lines : List String} {snippet : Snippet}
    (captured : ∀ method ∈ type.declaration.methods, method.Captured) :
    Answers (structAccessor session type kind target lines snippet) fun _ => True := by
  unfold structAccessor
  split
  · next method found =>
    rw [answers_map]
    exact session.answers_expandBody type (captured method (mem_of_find?_eq_some found))
  · trivial

theorem Session.answers_generate (session : Session)
    (captured : ∀ method ∈ type.declaration.methods, method.Captured)
    (based : ∀ base, type.base? = some base → base < session.types.length) :
    Answers (session.generate type) fun _ => True := by
  unfold generate
  split
  · have methods : ∀ start, Answers (do
        let withMethods ← type.declaration.methods.foldlM (Generate.addMethod session type) start
        return withMethods.addLines (type.dispatchers.flatMap (Generate.dispatcher type.name)))
        fun _ => True := by
      intro start
      rw [answers_bind]
      refine (answers_foldlM (fun method member snippet => ?_) start).mono fun _ _ => trivial
      unfold Generate.addMethod
      rw [answers_map]
      exact session.answers_expandBody type (captured method member)
    unfold Generate.classCode
    dsimp only
    split
    · exact methods _
    · next index isBase =>
      rw [answers_bind, answers_map, userAt, getElem?_eq_getElem (based index isBase)]
      exact methods _
  · unfold Generate.structCode
    rw [answers_bind]
    refine (Generate.answers_structAccessor session captured).mono fun _ _ => ?_
    exact Generate.answers_structAccessor session captured

theorem Accepts.answers_generate {declarations : List Declaration}
    (accepts : Accepts declarations session) {index : Nat}
    (found : session.types[index]? = some type) :
    Answers (session.generate type) fun _ => True := by
  apply session.answers_generate
  · exact (accepts.readable type (mem_of_getElem? found)).captured
  · intro base isBase
    exact accepts.sound.wellformed.resolved.baseAt_lt (by rw [Session.baseAt, found]; exact isBase)

/-! ### Weaving pieces -/

/-- The text of a document with generated code for its blocks.  `gap` says that code has just been
put in, so code that follows is parted from it by a line break. -/
inductive Woven (session : Session) : Bool → List Piece → Text → Prop where
  | done (gap : Bool) : Woven session gap [] []
  | copied {gap : Bool} {token : Token} {pieces : List Piece} {text : Text}
      (later : Woven session (gap && token.text.isEmpty) pieces text) :
      Woven session gap (.copied token :: pieces) (token.text ++ text)
  | block {gap : Bool} {declaration : Declaration} {pieces : List Piece} {index : Nat}
      {type : UserType} {snippet : Snippet} {text : Text}
      (found : session.types[index]? = some type) (named : type.name = declaration.name)
      (code : session.generate type = .ok snippet) (later : Woven session true pieces text) :
      Woven session gap (.block declaration :: pieces)
        ((if gap then ['\n'] else []) ++ (snippet.text ++ text))

namespace Pasted

theorem insertDefinition_eq {document : Document} {progress : Progress} {declaration : Declaration}
    {index : Nat} {before after : Text}
    (known : session.lookup declaration.name = some (.user index))
    (found : session.types[index]? = some type) (ahead : progress.offset ≤ declaration.origin)
    (cut : progress.rest.splitAtByte? (declaration.origin - progress.offset) =
      some (before, after)) :
    insertDefinition session document progress declaration =
      (session.generate type).map fun snippet =>
        ⟨(if progress.begun ∧ before = [] then (progress.pasted.append before).append ['\n']
          else progress.pasted.append before).insert snippet
            (document.residualLine declaration.origin), after, declaration.origin, true⟩ := by
  unfold insertDefinition
  simp only [known, Session.user, Session.userAt, found, if_pos ahead, cut]
  change (session.generate type >>= _) = _
  cases session.generate type <;> rfl

/-- Inserting the definitions of pieces, where `before` has been passed but not yet copied.  It
fails only over a type whose code cannot be generated. -/
theorem weave_cases {declarations : List Declaration} (loaded : Loaded declarations session)
    (document : Document) (known : ∀ declaration, .block declaration ∈ pieces →
      ∃ (index : Nat) (type : UserType), session.types[index]? = some type ∧
        type.name = declaration.name) (pasted : Pasted) (before : Text) (offset : Nat)
    (begun : Bool) :
    (∃ progress text, (Piece.declarations (offset + before.byteLength) pieces).foldlM
        (insertDefinition session document)
        ⟨pasted, before ++ pieces.flatMap Piece.text, offset, begun⟩ = .ok progress ∧
      Woven session (begun && before.isEmpty) pieces text ∧
      progress.pasted.text ++ progress.rest = pasted.text ++ (before ++ text)) ∨
    ∃ (failure : Failure) (index : Nat) (type : UserType),
      (Piece.declarations (offset + before.byteLength) pieces).foldlM
        (insertDefinition session document)
        ⟨pasted, before ++ pieces.flatMap Piece.text, offset, begun⟩ = .error failure ∧
      session.types[index]? = some type ∧ session.generate type = .error failure := by
  induction pieces generalizing pasted before offset begun with
  | nil => exact .inl ⟨_, [], rfl, .done _, by simp⟩
  | cons piece pieces ih =>
    have later := fun declaration member =>
      known declaration (mem_cons_of_mem piece member)
    cases piece with
    | copied token =>
      have passed := ih later pasted (before ++ token.text) offset begun
      rw [Text.byteLength_append, ← Nat.add_assoc, append_assoc] at passed
      rcases passed with ⟨progress, text, result, woven, same⟩ | failed
      · refine .inl ⟨progress, token.text ++ text, result, .copied ?_,
          by rw [same, append_assoc]⟩
        cases before with
        | nil => simpa using woven
        | cons c cs => simpa using woven
      · exact .inr failed
    | block declaration =>
      obtain ⟨index, type, found, named⟩ := known declaration mem_cons_self
      have cut : (before ++ pieces.flatMap Piece.text).splitAtByte?
          (offset + before.byteLength - offset) = some (before, pieces.flatMap Piece.text) := by
        rw [Nat.add_sub_cancel_left]
        exact Text.splitAtByte?_byteLength before _
      rw [Piece.declarations, foldlM_cons,
        insertDefinition_eq (by rw [← named]; exact loaded.lookup found) found
          (Nat.le_add_right _ _) cut]
      cases code : session.generate type with
      | error failure => exact .inr ⟨failure, index, type, rfl, found, code⟩
      | ok snippet =>
        have rest := ih later
          (((if begun ∧ before = [] then (pasted.append before).append ['\n']
            else pasted.append before)).insert snippet
              (document.residualLine (offset + before.byteLength))) []
          (offset + before.byteLength) true
        rcases rest with ⟨progress, text, result, woven, same⟩ | failed
        · refine .inl ⟨progress, _, result, .block found named code woven, ?_⟩
          rw [same]
          by_cases parted : begun = true ∧ before = []
          · obtain ⟨rfl, rfl⟩ := parted
            simp [insert, append]
          · have apart : (begun && before.isEmpty) = false := by
              cases begun with
              | false => rfl
              | true =>
                have some : before ≠ [] := fun none => parted ⟨rfl, none⟩
                simpa using some
            rw [if_neg parted, apart]
            simp [insert, append]
        · exact .inr failed

end Pasted

theorem Piece.exists_origin {declaration : Declaration} (member : .block declaration ∈ pieces) :
    ∀ offset, ∃ origin, { declaration with origin := origin } ∈ declarations offset pieces := by
  induction pieces with
  | nil => cases member
  | cons piece pieces ih =>
    intro offset
    cases piece with
    | copied token =>
      rcases mem_cons.1 member with same | member
      · cases same
      · exact ih member _
    | block first =>
      rcases mem_cons.1 member with same | member
      · cases same
        exact ⟨offset, mem_cons_self⟩
      · obtain ⟨origin, found⟩ := ih member offset
        exact ⟨origin, mem_cons_of_mem _ found⟩

/-- A document with declarations of the session is pasted as its pieces are woven, unless the code
of a type cannot be generated. -/
theorem Loaded.paste_cases {declarations : List Declaration} (loaded : Loaded declarations session)
    (file : String)
    (included : ∀ declaration ∈ Piece.declarations 0 pieces, declaration ∈ declarations) :
    (∃ pasted, session.paste (Document.ofPieces file pieces) = .ok pasted ∧
      Woven session false pieces pasted.text) ∨
    ∃ (failure : Failure) (index : Nat) (type : UserType),
      session.paste (Document.ofPieces file pieces) = .error failure ∧
      session.types[index]? = some type ∧ session.generate type = .error failure := by
  have known : ∀ declaration, .block declaration ∈ pieces →
      ∃ (index : Nat) (type : UserType), session.types[index]? = some type ∧
        type.name = declaration.name := by
    intro declaration member
    obtain ⟨origin, listed⟩ := Piece.exists_origin member 0
    obtain ⟨index, type, found, same⟩ := loaded.exists_type (included _ listed)
    exact ⟨index, type, found, by rw [UserType.name, same]⟩
  have weaves := fun start => Pasted.weave_cases loaded (Document.ofPieces file pieces) known
    start [] 0 false
  unfold Session.paste
  dsimp only
  rcases weaves ⟨[], LineMap.plain.sourceFrom 0 ((Document.ofPieces file pieces).residualLine 0)⟩
    with ⟨progress, text, result, woven, same⟩ | ⟨failure, index, type, result, fails⟩
  · refine .inl ⟨progress.pasted.append progress.rest, ?_, ?_⟩
    · exact congrArg (· >>= _) result
    · change Woven session false pieces (progress.pasted.text ++ progress.rest)
      rw [same]
      exact woven
  · exact .inr ⟨failure, index, type, congrArg (· >>= _) result, fails⟩

/-- A document of an accepted program is pasted, or one of its bodies has a fault. -/
theorem Accepts.answers_paste {declarations : List Declaration}
    (accepts : Accepts declarations session) {file : String}
    (included : ∀ declaration ∈ Piece.declarations 0 pieces, declaration ∈ declarations) :
    Answers (session.paste (Document.ofPieces file pieces)) fun pasted =>
      Woven session false pieces pasted.text := by
  rcases accepts.loaded.paste_cases file included with
    ⟨pasted, result, woven⟩ | ⟨failure, index, type, result, found, fails⟩
  · rw [result]
    exact woven
  · rw [result]
    exact (accepts.answers_generate found).isFault fails

end FlatMemory
