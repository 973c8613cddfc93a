import FlatMemory.Code.SelfReference
import FlatMemory.Proofs.Session.Steps
import FlatMemory.Proofs.Types.Declaration

/-! # References in balanced bodies

The brackets of a captured body close.  So do those of every part of it that is expanded on its
own, a value or an argument list, and no group is left open. -/

namespace FlatMemory

open List

/-! ### Results without broken promises -/

def Answers {α : Type} (result : Except Failure α) (well : α → Prop) : Prop :=
  match result with
  | .ok answer => well answer
  | .error failure => failure.IsFault

section Answers

variable {α β : Type} {well : β → Prop}
variable {result : Except Failure α}

@[simp] theorem answers_bind {next : α → Except Failure β} :
    Answers (result >>= next) well ↔ Answers result fun answer => Answers (next answer) well := by
  cases result <;> rfl

@[simp] theorem answers_map {f : α → β} :
    Answers (result.map f) well ↔ Answers result fun answer => well (f answer) := by
  cases result <;> rfl

theorem Answers.mono {well well' : α → Prop} (answers : Answers result well)
    (better : ∀ answer, well answer → well' answer) :
    Answers result well' := by
  cases result with
  | ok answer => exact better answer answers
  | error failure => exact answers

theorem Answers.isFault {well : α → Prop} {failure : Failure} (answers : Answers result well)
    (failed : result = .error failure) : failure.IsFault := by
  rw [failed] at answers
  exact answers

end Answers

namespace SelfReference

variable {path : List String} {nesting : List TokenKind} {tokens : List Token} {afterDot : Bool}

/-! ### Parts of a balanced body -/

theorem splitValue_balanced :
    ∀ {opened : List TokenKind}, Balanced (opened ++ nesting) tokens →
      Balanced opened (splitValue opened.length tokens).1 ∧
        Balanced nesting (splitValue opened.length tokens).2 := by
  induction tokens with
  | nil =>
    intro opened balanced
    obtain ⟨rfl, rfl⟩ := append_eq_nil_iff.1 (show opened ++ nesting = [] from balanced)
    exact ⟨rfl, rfl⟩
  | cons token tokens ih =>
    intro opened balanced
    unfold splitValue
    dsimp only
    by_cases opens : token.kind.isOpen = true
    · rw [balanced_open opens] at balanced
      obtain ⟨value, rest⟩ := ih (show Balanced ((token.kind :: opened) ++ nesting) tokens
        from balanced)
      rw [if_pos opens]
      exact ⟨(balanced_open opens).2 value, rest⟩
    by_cases closes : token.kind.isClose = true
    · rw [if_neg opens, if_pos closes]
      cases opened with
      | nil => exact ⟨rfl, balanced⟩
      | cons opener outer =>
        obtain ⟨fits, balanced⟩ := (balanced_close opens closes).1 balanced
        obtain ⟨value, rest⟩ := ih balanced
        exact ⟨(balanced_close opens closes).2 ⟨fits, value⟩, rest⟩
    · rw [if_neg opens, if_neg closes]
      split
      · next stop =>
        have none : opened = [] := length_eq_zero_iff.1 stop.2
        subst none
        exact ⟨rfl, balanced⟩
      · obtain ⟨value, rest⟩ := ih ((balanced_plain opens closes).1 balanced)
        exact ⟨(balanced_plain opens closes).2 value, rest⟩

theorem splitGroup_balanced {opener : TokenKind} :
    ∀ {opened : List TokenKind}, Balanced (opened ++ opener :: nesting) tokens →
      ∃ inner rest, splitGroup opened.length tokens = some (inner, rest) ∧
        Balanced opened inner ∧ Balanced nesting rest := by
  induction tokens with
  | nil =>
    intro opened balanced
    cases (append_eq_nil_iff.1 (show opened ++ opener :: nesting = [] from balanced)).2
  | cons token tokens ih =>
    intro opened balanced
    unfold splitGroup
    dsimp only
    by_cases opens : token.kind.isOpen = true
    · rw [balanced_open opens] at balanced
      obtain ⟨inner, rest, split, closed, later⟩ :=
        ih (show Balanced ((token.kind :: opened) ++ opener :: nesting) tokens from balanced)
      rw [if_pos opens, show opened.length + 1 = (token.kind :: opened).length from rfl, split]
      exact ⟨token :: inner, rest, rfl, (balanced_open opens).2 closed, later⟩
    by_cases closes : token.kind.isClose = true
    · rw [if_neg opens, if_pos closes]
      cases opened with
      | nil => exact ⟨[], tokens, rfl, rfl, ((balanced_close opens closes).1 balanced).2⟩
      | cons innermost outer =>
        obtain ⟨fits, balanced⟩ := (balanced_close opens closes).1 balanced
        obtain ⟨inner, rest, split, closed, later⟩ := ih balanced
        simp only [length_cons]
        rw [split]
        exact ⟨token :: inner, rest, rfl, (balanced_close opens closes).2 ⟨fits, closed⟩, later⟩
    · obtain ⟨inner, rest, split, closed, later⟩ :=
        ih ((balanced_plain opens closes).1 balanced)
      rw [if_neg opens, if_neg closes, split]
      exact ⟨token :: inner, rest, rfl, (balanced_plain opens closes).2 closed, later⟩

theorem balanced_dropWhile (balanced : Balanced nesting tokens) :
    Balanced nesting (tokens.dropWhile fun token => token.kind.isTrivia) := by
  induction tokens with
  | nil => exact balanced
  | cons token tokens ih =>
    rw [dropWhile_cons]
    split
    · next trivia =>
      have plain : token.kind.isOpen ≠ true ∧ token.kind.isClose ≠ true := by
        cases kind : token.kind <;> simp_all [TokenKind.isTrivia, TokenKind.isOpen,
          TokenKind.isClose]
      exact ih ((balanced_plain plain.1 plain.2).1 balanced)
    · exact balanced

theorem balanced_segments (balanced : Balanced nesting tokens) :
    Balanced nesting (segments tokens).2 := by
  fun_induction segments tokens with
  | case1 dot name tokens kinds later rest found ih =>
    rw [found] at ih
    apply ih
    rw [balanced_plain (by simp [kinds.1, TokenKind.isOpen])
      (by simp [kinds.1, TokenKind.isClose])] at balanced
    rwa [balanced_plain (by simp [kinds.2, TokenKind.isOpen])
      (by simp [kinds.2, TokenKind.isClose])] at balanced
  | case2 => exact balanced
  | case3 => exact balanced

theorem balanced_path? {token : Token} {rest : List Token}
    (found : path? afterDot token tokens = some (path, rest)) (balanced : Balanced nesting tokens) :
    Balanced nesting rest := by
  have behind := balanced_segments balanced
  unfold path? at found
  split at found
  · split at found
    · cases found
    · rw [Option.some.inj found] at behind
      exact behind
  · cases found

def Use.Closed (nesting : List TokenKind) : Use → Prop
  | load _ rest => Balanced nesting rest
  | store _ missing value rest => missing.IsFault ∧ Balanced [] value ∧ Balanced nesting rest
  | call _ _ arguments rest => Balanced [] arguments ∧ Balanced nesting rest

section

variable {session : Session} {type : UserType} {line : Nat} {access : Access}

theorem answers_callGroup {missing : Failure} (isFault : missing.IsFault)
    (balanced : Balanced nesting tokens) :
    Answers (callGroup missing tokens) fun (inner, rest) =>
      Balanced [] inner ∧ Balanced nesting rest := by
  cases tokens with
  | nil => exact isFault
  | cons token tokens =>
    rw [callGroup]
    split
    · next opening =>
      rw [balanced_open (by simp [opening, TokenKind.isOpen])] at balanced
      obtain ⟨inner, rest, split, closed⟩ :=
        splitGroup_balanced (show Balanced ([] ++ token.kind :: nesting) tokens from balanced)
      rw [show splitGroup 0 tokens = _ from split]
      exact closed
    · exact isFault

theorem answers_checkSupport {operation : Operation} :
    Answers (checkSupport type line path access operation) fun _ =>
      access.target.supports operation = true := by
  unfold checkSupport
  split
  · next supported => exact supported
  · trivial

theorem answers_assignment {operator : Token} (balanced : Balanced nesting tokens) :
    Answers (assignment type line path access operator tokens) (Use.Closed nesting) := by
  unfold assignment
  split
  · trivial
  split
  · trivial
  · rw [answers_bind]
    refine answers_checkSupport.mono fun _ _ => ?_
    exact ⟨trivial, splitValue_balanced (show Balanced ([] ++ nesting) tokens from balanced)⟩

theorem answers_operationCall (balanced : Balanced nesting tokens) :
    Answers (operationCall type line path access tokens) (Use.Closed nesting) := by
  unfold operationCall
  simp only [answers_bind]
  refine answers_checkSupport.mono fun _ _ => ?_
  refine (answers_callGroup (by trivial) balanced).mono ?_
  rintro ⟨inner, rest⟩ closed
  exact closed

theorem answers_methodCall {name : String} {owner : UserType} {method : Method}
    (balanced : Balanced nesting tokens) :
    Answers (methodCall type line name owner method tokens) (Use.Closed nesting) := by
  unfold methodCall
  simp only [answers_bind]
  refine (answers_callGroup (by trivial) balanced).mono ?_
  rintro ⟨inner, rest⟩ closed
  exact closed

theorem unknown_isFault : (unknown type line path).IsFault := by
  unfold unknown
  split <;> trivial

theorem answers_use (balanced : Balanced nesting tokens) :
    Answers (use session type line path tokens) (Use.Closed nesting) := by
  have next := balanced_dropWhile balanced
  have load : ∀ access : Access, Answers (do
      checkSupport type line path access .get
      return .load (accessor type path) tokens) (Use.Closed nesting) := by
    intro access
    rw [answers_bind]
    exact answers_checkSupport.mono fun _ _ => balanced
  unfold use
  dsimp only
  split
  · next access _ =>
    split
    · next operator after here =>
      split
      · next assigns =>
        rw [here, balanced_plain (by simp [assigns, TokenKind.isOpen])
          (by simp [assigns, TokenKind.isClose])] at next
        exact answers_assignment next
      split
      · exact answers_operationCall next
      · exact load access
    · split
      · exact answers_operationCall next
      · exact load access
  · split
    · split
      · exact answers_methodCall next
      · exact unknown_isFault
    · exact unknown_isFault

theorem answers_checkCount {required : Option Nat} {found : Nat} :
    Answers (checkCount type line path required found) fun _ =>
      ∀ expected, required = some expected → found = expected := by
  unfold checkCount
  split
  · intro expected none
    cases none
  · split
    · next same =>
      intro expected given
      rw [← Option.some.inj given]
      exact same
    · trivial

end

/-! ### Expansion, token by token -/

section

variable (session : Session) (type : UserType) {token : Token}

theorem expand_plain (plain : path? afterDot token tokens = none) :
    expand session type afterDot (token :: tokens) = (do
      let still := if token.kind.isTrivia then afterDot else decide (token.kind = .dot)
      let rest ← expand session type still tokens
      return token.text ++ rest) := by
  rw [expand]
  split
  · rfl
  · next found => rw [plain] at found; cases found

def expandUse (line : Nat) (path : List String) : Use → Except Failure Text
  | .load accessor rest => do
    let text ← expand session type false rest
    return accessor.toList ++ "(".toList ++ selfName.toList ++ ")".toList ++ text
  | .store accessor missing value rest => do
    let value ← expand session type false value
    if value.isBlank then .error missing
    else
      let text ← expand session type false rest
      return storeText accessor value ++ text
  | .call callee required arguments rest => do
    let given ← expand session type false arguments
    checkCount type line path required (argumentCount arguments)
    let text ← expand session type false rest
    return callText callee given ++ text

theorem expand_found {after : List Token}
    (found : path? afterDot token tokens = some (path, after)) :
    expand session type afterDot (token :: tokens) =
      use session type token.line path after >>= expandUse session type token.line path := by
  rw [expand]
  split
  · next missing => rw [found] at missing; cases missing
  · next path' after' same =>
    rw [found] at same
    cases same
    dsimp only
    split <;> next used => rw [used]; rfl

/-- A balanced body is expanded or has a fault. -/
theorem answers_expand (balanced : Balanced nesting tokens) :
    Answers (expand session type afterDot tokens) fun _ => True := by
  -- Values and arguments are expanded on their own, so the induction is on the number of tokens.
  induction count : tokens.length using Nat.strongRecOn generalizing nesting afterDot tokens with
  | ind size ih =>
    cases tokens with
    | nil => rw [expand]; trivial
    | cons token tokens =>
      have shorter : ∀ {nesting afterDot} {part : List Token}, part.length ≤ tokens.length →
          Balanced nesting part → Answers (expand session type afterDot part) fun _ => True := by
        intro nesting afterDot part within closed
        exact ih part.length (by simp only [length_cons] at count; omega) closed rfl
      obtain ⟨outer, behind⟩ := balanced.tail
      cases found : path? afterDot token tokens with
      | none =>
        rw [expand_plain session type found]
        simp only [answers_bind]
        exact (shorter (Nat.le_refl _) behind).mono fun _ _ => trivial
      | some reference =>
        obtain ⟨path, after⟩ := reference
        have fewer := path?_length_lt found
        rw [expand_found session type found, answers_bind]
        have closed : Answers (use session type token.line path after) (Use.Closed outer) :=
          answers_use (balanced_path? found behind)
        cases used : use session type token.line path after with
        | error failure => exact closed.isFault used
        | ok known =>
          rw [used] at closed
          have within := use_within used
          change Answers (expandUse session type token.line path known) _
          cases known with
          | load accessor rest =>
            have within : rest.length ≤ after.length := within
            unfold expandUse
            rw [answers_bind]
            exact (shorter (by omega) closed).mono fun _ _ => trivial
          | store accessor missing value rest =>
            have within : value.length ≤ after.length ∧ rest.length ≤ after.length := within
            unfold expandUse
            rw [answers_bind]
            refine (shorter (by omega) closed.2.1).mono fun text _ => ?_
            split
            · exact closed.1
            · rw [answers_bind]
              exact (shorter (by omega) closed.2.2).mono fun _ _ => trivial
          | call callee required arguments rest =>
            have within : arguments.length ≤ after.length ∧ rest.length ≤ after.length := within
            unfold expandUse
            simp only [answers_bind]
            refine (shorter (by omega) closed.1).mono fun _ _ => ?_
            refine answers_checkCount.mono fun _ _ => ?_
            exact (shorter (by omega) closed.2).mono fun _ _ => trivial

end

end SelfReference

theorem Session.answers_expandBody (session : Session) (type : UserType) {method : Method}
    (captured : method.Captured) :
    Answers (session.expandBody type method) fun _ => True := by
  obtain ⟨tokens, lexed, balanced, _⟩ := captured.body
  unfold expandBody
  rw [lexed]
  exact SelfReference.answers_expand session type balanced

end FlatMemory
