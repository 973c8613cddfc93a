import FlatMemory.Proofs.Code.SelfReference
import FlatMemory.Proofs.Session.Dispatch
import FlatMemory.Proofs.Text.Walk

/-! # What is written for references

Expansion as a relation.  `Writes` says which text stands for the tokens of a body.  `Refers` points
at one reference in that text: what is written in front of it, what is written for it and what comes
after it. -/

namespace FlatMemory

open List

namespace SelfReference

variable {tokens rest : List Token} {text : Text} {type : UserType} {path : List String}
  {session : Session}

/-! ### Groups and values -/

theorem splitGroup_append {depth : Nat} {inner : List Token}
    (closed : splitGroup depth tokens = some (inner, rest)) :
    ∃ closing, closing.kind.isClose = true ∧ tokens = inner ++ closing :: rest := by
  induction tokens generalizing depth inner with
  | nil => cases closed
  | cons token tokens ih =>
    have step : ∀ {depth inner},
        (splitGroup depth tokens).map (fun found => (token :: found.1, found.2)) =
          some (inner, rest) →
        ∃ closing, closing.kind.isClose = true ∧ token :: tokens = inner ++ closing :: rest := by
      intro depth inner mapped
      obtain ⟨⟨later, _⟩, found, same⟩ := Option.map_eq_some_iff.1 mapped
      cases same
      obtain ⟨closing, closes, whole⟩ := ih found
      exact ⟨closing, closes, by rw [whole]; rfl⟩
    unfold splitGroup at closed
    dsimp only at closed
    split at closed
    · exact step closed
    split at closed
    · next closes =>
      split at closed
      · cases closed
        exact ⟨token, closes, rfl⟩
      · exact step closed
    · exact step closed

def endsValue (kind : TokenKind) : Bool := kind.isClose || kind = .semicolon || kind = .comma

theorem splitValue_append (depth : Nat) (tokens : List Token) :
    (splitValue depth tokens).1 ++ (splitValue depth tokens).2 = tokens ∧
      ∀ stop later, (splitValue depth tokens).2 = stop :: later → endsValue stop.kind = true := by
  induction tokens generalizing depth with
  | nil => exact ⟨rfl, by simp [splitValue]⟩
  | cons token tokens ih =>
    have step : ∀ depth, token :: (splitValue depth tokens).1 ++ (splitValue depth tokens).2 =
        token :: tokens := by
      intro depth
      rw [cons_append, (ih depth).1]
    have ends : endsValue token.kind = true → ∀ stop later, token :: tokens = stop :: later →
        endsValue stop.kind = true := by
      intro here stop later same
      rw [← (List.cons.inj same).1]
      exact here
    unfold splitValue
    dsimp only
    split
    · exact ⟨step _, (ih _).2⟩
    split
    · next closes =>
      split
      · exact ⟨rfl, ends (by simp [endsValue, closes])⟩
      · exact ⟨step _, (ih _).2⟩
    split
    · next stops =>
      refine ⟨rfl, ends ?_⟩
      rcases stops.1 with here | here <;> simp [endsValue, here]
    · exact ⟨step _, (ih _).2⟩

def Grouped (tokens arguments rest : List Token) : Prop :=
  ∃ skipped opening closing, tokens = skipped ++ opening :: (arguments ++ closing :: rest) ∧
    (∀ token ∈ skipped, token.kind.isTrivia = true) ∧ opening.kind = .lParen ∧
    closing.kind.isClose = true ∧
    splitGroup 0 (arguments ++ closing :: rest) = some (arguments, rest)

theorem takeWhile_trivia (tokens : List Token) :
    ∀ token ∈ tokens.takeWhile fun token => token.kind.isTrivia, token.kind.isTrivia = true := by
  intro token member
  have trivia := mem_takeWhile_imp member
  exact trivia

theorem grouped_of_callGroup {missing : Failure} {arguments : List Token}
    (found : callGroup missing (tokens.dropWhile fun token => token.kind.isTrivia) =
      .ok (arguments, rest)) : Grouped tokens arguments rest := by
  have whole := takeWhile_append_dropWhile (p := fun token => token.kind.isTrivia)
    (l := tokens)
  unfold callGroup at found
  split at found
  · cases found
  · next opening later dropped =>
    rw [dropped] at whole
    split at found
    · next opens =>
      split at found
      · next grouped =>
        cases found
        obtain ⟨closing, closes, rfl⟩ := splitGroup_append grouped
        exact ⟨_, opening, closing, whole.symm, takeWhile_trivia tokens, opens, closes, grouped⟩
      · cases found
    · cases found

/-! ### References -/

/-- A reference as it is written out: the name that is called, what is accessed if that is a field,
and the tokens of its value or its arguments. -/
structure Reference where
  owner : String
  segments : List String
  access : Option Access
  /-- The inner tokens are a value that is assigned. -/
  assigns : Bool
  inner : List Token

namespace Reference

def name (reference : Reference) : Text :=
  reference.owner.toList ++ reference.segments.flatMap fun segment => '.' :: segment.toList

def given (reference : Reference) (text : Text) : Text :=
  if reference.assigns then text.trim else text.trimStart

def trailing (reference : Reference) (text : Text) : Text :=
  if reference.assigns then text.trailingBlank else []

def arguments (reference : Reference) (text : Text) : Text :=
  selfName.toList ++ if (reference.given text).isBlank then [] else ", ".toList ++ reference.given text

def written (reference : Reference) (text : Text) : Text :=
  reference.name ++ '(' :: (reference.arguments text ++ [')'])

end Reference

section

variable (session : Session) (type : UserType)

inductive Uses (path : List String) (after : List Token) : Reference → List Token → Prop
  | load {access : Access} (resolved : session.resolveInType? type path = some access)
    (implied : access.explicit = false) (supported : access.target.supports .get = true)
    (read : ∀ next later, after.dropWhile (fun token => token.kind.isTrivia) = next :: later →
      next.kind ≠ .assign) :
    Uses path after ⟨type.name, path, some access, false, []⟩ after
  | store {access : Access} {operation : Operation} {skipped value rest : List Token}
    {operator : Token} (resolved : session.resolveInType? type path = some access)
    (implied : access.explicit = false)
    (parts : after = skipped ++ operator :: (value ++ rest))
    (trivia : ∀ token ∈ skipped, token.kind.isTrivia = true) (isAssign : operator.kind = .assign)
    (named : Operation.ofAssignment? operator.word = some operation)
    (supported : access.target.supports operation = true)
    (split : splitValue 0 (value ++ rest) = (value, rest)) :
    Uses path after
      ⟨type.name, path ++ [operation.name], some ⟨access.target, access.offset, operation, true⟩,
        true, value⟩ rest
  | call {access : Access} {arguments rest : List Token}
    (resolved : session.resolveInType? type path = some access) (written : access.explicit = true)
    (grouped : Grouped after arguments rest)
    (supported : access.target.supports access.operation = true)
    (count : argumentCount arguments = access.operation.operands) :
    Uses path after ⟨type.name, path, some access, false, arguments⟩ rest
  | method {name : String} {declarer owner : UserType} {method : Method}
    {arguments rest : List Token} (known : owner = type ∨ owner ∈ session.types)
    (grouped : Grouped after arguments rest) (isPath : path = [name])
    (unresolved : session.resolveInType? type path = none)
    (declared : methodOwner? session type name = some (declarer, method))
    (target : owner = if method.kind = .virtual then type else declarer) :
    Uses path after ⟨owner.name, path, none, false, arguments⟩ rest

inductive Writes : Bool → List Token → Text → Prop
  | nil (afterDot : Bool) : Writes afterDot [] []
  | token {afterDot : Bool} {token : Token} {tokens : List Token} {text : Text}
    (plain : path? afterDot token tokens = none)
    (later : Writes (if token.kind.isTrivia then afterDot else decide (token.kind = .dot)) tokens
      text) :
    Writes afterDot (token :: tokens) (token.text ++ text)
  | reference {afterDot : Bool} {token : Token} {tokens after rest : List Token}
    {path : List String} {reference : Reference} {inner text : Text}
    (found : path? afterDot token tokens = some (path, after))
    (uses : Uses session type path after reference rest)
    (within : Writes false reference.inner inner)
    (assigned : reference.assigns = true → inner.isBlank = false)
    (later : Writes false rest text) :
    Writes afterDot (token :: tokens)
      (reference.written inner ++ (reference.trailing inner ++ text))

/-- `Refers afterDot tokens front reference inner back`: the text for the tokens is `front`, what is
written for the reference with the text `inner` of its own tokens, and `back`. -/
inductive Refers : Bool → List Token → Text → Reference → Text → Text → Prop
  | here {afterDot : Bool} {token : Token} {tokens after rest : List Token} {path : List String}
    {reference : Reference} {inner text : Text}
    (found : path? afterDot token tokens = some (path, after))
    (uses : Uses session type path after reference rest)
    (within : Writes session type false reference.inner inner)
    (assigned : reference.assigns = true → inner.isBlank = false)
    (later : Writes session type false rest text) :
    Refers afterDot (token :: tokens) [] reference inner (reference.trailing inner ++ text)
  | behindToken {afterDot : Bool} {token : Token} {tokens : List Token} {front inner back : Text}
    {reference : Reference} (plain : path? afterDot token tokens = none)
    (later : Refers (if token.kind.isTrivia then afterDot else decide (token.kind = .dot)) tokens
      front reference inner back) :
    Refers afterDot (token :: tokens) (token.text ++ front) reference inner back
  | behind {afterDot : Bool} {token : Token} {tokens after rest : List Token} {path : List String}
    {first reference : Reference} {passed front inner back : Text}
    (found : path? afterDot token tokens = some (path, after))
    (uses : Uses session type path after first rest)
    (within : Writes session type false first.inner passed)
    (assigned : first.assigns = true → passed.isBlank = false)
    (later : Refers false rest front reference inner back) :
    Refers afterDot (token :: tokens) (first.written passed ++ (first.trailing passed ++ front))
      reference inner back
  | inside {afterDot : Bool} {token : Token} {tokens after rest : List Token} {path : List String}
    {outer reference : Reference} {front inner back text : Text}
    (found : path? afterDot token tokens = some (path, after))
    (uses : Uses session type path after outer rest)
    (within : Refers false outer.inner front reference inner back)
    (later : Writes session type false rest text) :
    Refers afterDot (token :: tokens)
      (outer.name ++ '(' :: (selfName.toList ++ (", ".toList ++ front.trimStart))) reference inner
      ((if outer.assigns then back.trimEnd else back) ++
        ')' :: ((if outer.assigns then back.trailingBlank else []) ++ text))

end

/-! ### A body is written in one way -/

section

variable {other : List Token}

theorem dropWhile_trivia {skipped : List Token} {token : Token}
    (trivia : ∀ token ∈ skipped, token.kind.isTrivia = true) (solid : token.kind.isTrivia = false) :
    (skipped ++ token :: tokens).dropWhile (fun token => token.kind.isTrivia) = token :: tokens := by
  rw [dropWhile_append_of_pos trivia, dropWhile_cons_of_neg (by simp [solid])]

theorem Grouped.unique {first second : List Token} (one : Grouped tokens first rest)
    (two : Grouped tokens second other) : first = second ∧ rest = other := by
  obtain ⟨skipped, opening, closing, rfl, trivia, opens, _, closed⟩ := one
  obtain ⟨skipped', opening', closing', same, trivia', opens', _, closed'⟩ := two
  have dropped := congrArg (List.dropWhile fun token => token.kind.isTrivia) same
  rw [dropWhile_trivia trivia (by rw [opens]; rfl),
    dropWhile_trivia trivia' (by rw [opens']; rfl)] at dropped
  rw [← (List.cons.inj dropped).2, closed] at closed'
  exact Prod.mk.inj (Option.some.inj closed')

theorem Uses.unique {after : List Token} {first second : Reference}
    (one : Uses session type path after first rest)
    (two : Uses session type path after second other) : first = second ∧ rest = other := by
  have assigned : ∀ {skipped value rest : List Token} {operator : Token},
      after = skipped ++ operator :: (value ++ rest) →
      (∀ token ∈ skipped, token.kind.isTrivia = true) → operator.kind = .assign →
      after.dropWhile (fun token => token.kind.isTrivia) = operator :: (value ++ rest) := by
    intro skipped value rest operator parts trivia isAssign
    rw [parts, dropWhile_trivia trivia (by rw [isAssign]; rfl)]
  cases one with
  | load resolved implied _ read =>
    cases two with
    | load resolved' =>
      cases resolved.symm.trans resolved'
      exact ⟨rfl, rfl⟩
    | store _ _ parts trivia isAssign =>
      exact absurd isAssign (read _ _ (assigned parts trivia isAssign))
    | call resolved' written =>
      cases resolved.symm.trans resolved'
      rw [implied] at written
      cases written
    | method _ _ _ unresolved =>
      rw [resolved] at unresolved
      cases unresolved
  | store resolved implied parts trivia isAssign named _ split =>
    cases two with
    | load _ _ _ read => exact absurd isAssign (read _ _ (assigned parts trivia isAssign))
    | store resolved' _ parts' trivia' isAssign' named' _ split' =>
      cases resolved.symm.trans resolved'
      obtain ⟨rfl, same⟩ := List.cons.inj
        ((assigned parts trivia isAssign).symm.trans (assigned parts' trivia' isAssign'))
      cases named.symm.trans named'
      rw [← same, split] at split'
      obtain ⟨rfl, rfl⟩ := Prod.mk.inj split'
      exact ⟨rfl, rfl⟩
    | call resolved' written =>
      cases resolved.symm.trans resolved'
      rw [implied] at written
      cases written
    | method _ _ _ unresolved =>
      rw [resolved] at unresolved
      cases unresolved
  | call resolved written grouped =>
    cases two with
    | load resolved' implied =>
      cases resolved.symm.trans resolved'
      rw [implied] at written
      cases written
    | store resolved' implied =>
      cases resolved.symm.trans resolved'
      rw [implied] at written
      cases written
    | call resolved' _ grouped' =>
      cases resolved.symm.trans resolved'
      obtain ⟨rfl, rfl⟩ := grouped.unique grouped'
      exact ⟨rfl, rfl⟩
    | method _ _ _ unresolved =>
      rw [resolved] at unresolved
      cases unresolved
  | method _ grouped isPath unresolved declared target =>
    cases two with
    | load resolved =>
      rw [resolved] at unresolved
      cases unresolved
    | store resolved =>
      rw [resolved] at unresolved
      cases unresolved
    | call resolved =>
      rw [resolved] at unresolved
      cases unresolved
    | method _ grouped' isPath' _ declared' target' =>
      subst isPath
      cases isPath'
      cases declared.symm.trans declared'
      obtain ⟨rfl, rfl⟩ := grouped.unique grouped'
      rw [target, target']
      exact ⟨rfl, rfl⟩

theorem Writes.unique {afterDot : Bool} {first second : Text}
    (one : Writes session type afterDot tokens first)
    (two : Writes session type afterDot tokens second) : first = second := by
  induction one generalizing second with
  | nil =>
    cases two
    rfl
  | token plain _ ih =>
    cases two with
    | token _ later => rw [ih later]
    | reference found =>
      rw [plain] at found
      cases found
  | reference found uses _ _ _ within later =>
    cases two with
    | token plain =>
      rw [found] at plain
      cases plain
    | reference found' uses' inner _ rest =>
      cases found.symm.trans found'
      obtain ⟨rfl, rfl⟩ := uses.unique uses'
      rw [within inner, later rest]

end

/-! ### Expansion writes what the relation says -/

theorem dotted_toList {first : String} {segments : List String} :
    (dotted (first :: segments)).toList =
      first.toList ++ segments.flatMap fun segment => '.' :: segment.toList := by
  induction segments generalizing first with
  | nil => simp [dotted]
  | cons second segments ih =>
    rw [dotted, String.intercalate_cons_cons, String.toList_append, String.toList_append]
    rw [show ((".".intercalate (second :: segments)).toList = _) from ih]
    simp

theorem accessor_toList (some : path ≠ []) :
    (accessor type path).toList =
      type.name.toList ++ path.flatMap fun segment => '.' :: segment.toList := by
  cases path with
  | nil => exact absurd rfl some
  | cons first path =>
    rw [accessor, String.toList_append, String.toList_append, dotted_toList]
    simp

section

variable {line : Nat} {after : List Token}
variable {access : Access}

theorem checkSupport_ok {operation : Operation}
    (checked : checkSupport type line path access operation = .ok ()) :
    access.target.supports operation = true := by
  unfold checkSupport at checked
  split at checked
  · next supported => exact supported
  · cases checked

def Expands (session : Session) (type : UserType) (path : List String) (after : List Token)
    (text : Text) : Prop :=
  ∃ reference rest inner later, Uses session type path after reference rest ∧
    expand session type false reference.inner = .ok inner ∧
    (reference.assigns = true → inner.isBlank = false) ∧
    expand session type false rest = .ok later ∧
    text = reference.written inner ++ (reference.trailing inner ++ later)

theorem expand_nil (session : Session) (type : UserType) (afterDot : Bool) :
    expand session type afterDot [] = .ok [] := by
  rw [expand]

section

variable (nonempty : path ≠ []) (resolved : session.resolveInType? type path = some access)

include nonempty resolved

theorem expands_load (implied : access.explicit = false)
    (read : ∀ next later, after.dropWhile (fun token => token.kind.isTrivia) = next :: later →
      next.kind ≠ .assign) (expanded : (do
      checkSupport type line path access .get
      return .load (accessor type path) after) >>= expandUse session type line path = .ok text) :
    Expands session type path after text := by
  obtain ⟨known, loaded, expanded⟩ := exists_of_bind_eq_ok expanded
  obtain ⟨_, checked, loaded⟩ := exists_of_bind_eq_ok loaded
  cases loaded
  obtain ⟨later, goesOn, same⟩ := exists_of_bind_eq_ok expanded
  cases same
  refine ⟨_, after, [], later, .load resolved implied (checkSupport_ok checked) read,
    expand_nil session type false, by simp, goesOn, ?_⟩
  rw [accessor_toList nonempty]
  simp [Reference.written, Reference.name, Reference.arguments, Reference.given,
    Reference.trailing, Text.trimStart, Text.isBlank]

theorem expands_store {skipped : List Token} {operator : Token}
    (parts : after = skipped ++ operator :: tokens)
    (trivia : ∀ token ∈ skipped, token.kind.isTrivia = true) (isAssign : operator.kind = .assign)
    (expanded : assignment type line path access operator tokens >>= expandUse session type line path
      = .ok text) : Expands session type path after text := by
  obtain ⟨known, assigned, expanded⟩ := exists_of_bind_eq_ok expanded
  unfold assignment at assigned
  split at assigned
  · cases assigned
  next implied =>
  split at assigned
  · cases assigned
  next operation named =>
  obtain ⟨_, checked, assigned⟩ := exists_of_bind_eq_ok assigned
  cases assigned
  obtain ⟨inner, within, expanded⟩ := exists_of_bind_eq_ok expanded
  split at expanded
  · cases expanded
  next solid =>
  obtain ⟨later, goesOn, same⟩ := exists_of_bind_eq_ok expanded
  cases same
  obtain ⟨whole, _⟩ := splitValue_append 0 tokens
  have split : splitValue 0 ((splitValue 0 tokens).1 ++ (splitValue 0 tokens).2) =
      ((splitValue 0 tokens).1, (splitValue 0 tokens).2) := by rw [whole]
  refine ⟨_, _, inner, later, .store resolved (by simpa using implied) (by rw [whole]; exact parts)
    trivia isAssign named (checkSupport_ok checked) split, within, fun _ => by simpa using solid,
    goesOn, ?_⟩
  have written : (Text.trim inner).isBlank = false := by
    rw [Text.isBlank_trim]
    simpa using solid
  rw [storeText, String.toList_append, String.toList_append, accessor_toList nonempty]
  simp [Reference.written, Reference.name, Reference.arguments, Reference.given,
    Reference.trailing, written]

omit nonempty resolved in
theorem callText_eq (reference : Reference) (text : Text) (call : reference.assigns = false)
    {callee : String} (named : callee.toList = reference.name) :
    callText callee text = reference.written text ++ reference.trailing text := by
  simp [callText, named, Reference.written, Reference.arguments, Reference.given,
    Reference.trailing, call]

theorem expands_operationCall (written : access.explicit = true)
    (expanded : operationCall type line path access
        (after.dropWhile fun token => token.kind.isTrivia) >>= expandUse session type line path
      = .ok text) : Expands session type path after text := by
  obtain ⟨known, called, expanded⟩ := exists_of_bind_eq_ok expanded
  unfold operationCall at called
  obtain ⟨_, checked, called⟩ := exists_of_bind_eq_ok called
  obtain ⟨⟨arguments, rest⟩, grouped, called⟩ := exists_of_bind_eq_ok called
  cases called
  obtain ⟨inner, within, expanded⟩ := exists_of_bind_eq_ok expanded
  obtain ⟨_, counted, expanded⟩ := exists_of_bind_eq_ok expanded
  obtain ⟨later, goesOn, same⟩ := exists_of_bind_eq_ok expanded
  cases same
  have count : argumentCount arguments = access.operation.operands := by
    unfold checkCount at counted
    dsimp only at counted
    split at counted
    · next same => exact same
    · cases counted
  refine ⟨_, rest, inner, later, .call resolved written (grouped_of_callGroup grouped)
    (checkSupport_ok checked) count, within, by simp, goesOn, ?_⟩
  rw [callText_eq ⟨type.name, path, some access, false, arguments⟩ inner rfl
    (accessor_toList nonempty), append_assoc]

end

theorem expands_methodCall {name : String} {owner : UserType} {method : Method}
    (known : owner = type ∨ owner ∈ session.types)
    (unresolved : session.resolveInType? type [name] = none)
    (declared : methodOwner? session type name = some (owner, method))
    (expanded : methodCall type line name owner method
        (after.dropWhile fun token => token.kind.isTrivia) >>= expandUse session type line [name]
      = .ok text) : Expands session type [name] after text := by
  obtain ⟨use, called, expanded⟩ := exists_of_bind_eq_ok expanded
  unfold methodCall at called
  obtain ⟨⟨arguments, rest⟩, grouped, called⟩ := exists_of_bind_eq_ok called
  cases called
  obtain ⟨inner, within, expanded⟩ := exists_of_bind_eq_ok expanded
  obtain ⟨_, _, expanded⟩ := exists_of_bind_eq_ok expanded
  obtain ⟨later, goesOn, same⟩ := exists_of_bind_eq_ok expanded
  cases same
  -- A virtual method is called on the type itself, any other on the one that declares it.
  obtain ⟨target, isTarget, same, named⟩ : ∃ target : UserType,
      (target = type ∨ target ∈ session.types) ∧
      target = (if method.kind = .virtual then type else owner) ∧
      (if method.kind = .virtual then type.name else owner.name) = target.name := by
    split
    · exact ⟨type, .inl rfl, rfl, rfl⟩
    · exact ⟨owner, known, rfl, rfl⟩
  refine ⟨_, rest, inner, later, .method isTarget (grouped_of_callGroup grouped) rfl unresolved
    declared same, within, by simp, goesOn, ?_⟩
  rw [callText_eq ⟨target.name, [name], none, false, arguments⟩ inner rfl
    (by simp [Reference.name, named]), append_assoc]

theorem expands_of_use (nonempty : path ≠ [])
    (expanded : use session type line path after >>= expandUse session type line path = .ok text) :
    Expands session type path after text := by
  have whole := takeWhile_append_dropWhile (p := fun token : Token => token.kind.isTrivia)
    (l := after)
  have trivia := takeWhile_trivia after
  unfold use at expanded
  dsimp only at expanded
  split at expanded
  · next access resolved =>
    split at expanded
    · next operator later dropped =>
      split at expanded
      · next isAssign =>
        rw [dropped] at whole
        exact expands_store nonempty resolved whole.symm trivia isAssign expanded
      next notAssign =>
      split at expanded
      · next written => exact expands_operationCall nonempty resolved written expanded
      · next implied =>
        refine expands_load nonempty resolved (by simpa using implied) ?_ expanded
        intro next others same
        rw [dropped] at same
        exact (List.cons.inj same).1 ▸ notAssign
    · next dropped =>
      split at expanded
      · next written => exact expands_operationCall nonempty resolved written expanded
      · next implied =>
        refine expands_load nonempty resolved (by simpa using implied) ?_ expanded
        intro next others same
        rw [dropped] at same
        cases same
  · next unresolved =>
    split at expanded
    · next name =>
      split at expanded
      · next owner method found =>
        refine expands_methodCall ?_ unresolved found expanded
        obtain ⟨first, member, declares⟩ := exists_of_findSome?_eq_some found
        obtain ⟨_, _, same⟩ := Option.map_eq_some_iff.1 declares
        cases same
        rcases mem_cons.1 member with same | member
        · exact .inl same
        · obtain ⟨index, _, isAt⟩ := mem_filterMap.1 member
          exact .inr (mem_of_getElem? isAt)
      · cases expanded
    · cases expanded

theorem path?_split {afterDot : Bool} {token : Token}
    (found : path? afterDot token tokens = some (path, after)) :
    token.isIdent selfName = true ∧ path ≠ [] ∧ ∃ names, tokens = names ++ after ∧
      (∀ name ∈ names, name.kind = .dot ∨ name.kind = .ident) ∧
      ∀ segment ∈ path, ∃ name ∈ names, name.kind = .ident ∧ name.word = segment := by
  have behind : ∀ tokens, ∃ names, tokens = names ++ (segments tokens).2 ∧
      (∀ name ∈ names, name.kind = .dot ∨ name.kind = .ident) ∧
      ∀ segment ∈ (segments tokens).1, ∃ name ∈ names, name.kind = .ident ∧ name.word = segment := by
    intro tokens
    fun_induction segments tokens with
    | case1 dot name tokens kinds later rest found ih =>
      rw [found] at ih
      obtain ⟨names, whole, isName, spelled⟩ := ih
      refine ⟨dot :: name :: names, by rw [whole]; rfl, ?_, ?_⟩
      · intro other member
        rcases mem_cons.1 member with rfl | member
        · exact .inl kinds.1
        rcases mem_cons.1 member with rfl | member
        · exact .inr kinds.2
        · exact isName other member
      · intro segment member
        rcases mem_cons.1 member with rfl | member
        · exact ⟨name, by simp, kinds.2, rfl⟩
        · obtain ⟨other, isOther, spelling⟩ := spelled segment member
          exact ⟨other, by simp [isOther], spelling⟩
    | case2 => exact ⟨[], rfl, by simp, by simp⟩
    | case3 => exact ⟨[], rfl, by simp, by simp⟩
  unfold path? at found
  split at found
  · next isSelf =>
    split at found
    · cases found
    · next other =>
      have same := Option.some.inj found
      obtain ⟨names, whole, isName, spelled⟩ := behind tokens
      rw [same] at whole spelled
      refine ⟨isSelf.1, ?_, names, whole, isName, spelled⟩
      rintro rfl
      exact other after same
  · cases found

end

theorem Uses.length_le {after : List Token} {reference : Reference}
    (uses : Uses session type path after reference rest) :
    reference.inner.length ≤ after.length ∧ rest.length ≤ after.length := by
  have grouped : ∀ {arguments}, Grouped after arguments rest →
      arguments.length ≤ after.length ∧ rest.length ≤ after.length := by
    intro arguments group
    obtain ⟨skipped, opening, closing, rfl, _⟩ := group
    simp only [length_append, length_cons]
    omega
  cases uses with
  | load => exact ⟨Nat.zero_le _, Nat.le_refl _⟩
  | store _ _ parts =>
    rw [parts]
    simp only [length_append, length_cons]
    omega
  | call _ _ group => exact grouped group
  | method _ group => exact grouped group

/-- Expansion writes text for the tokens, reference by reference. -/
theorem writes_of_expand {afterDot : Bool}
    (expanded : expand session type afterDot tokens = .ok text) :
    Writes session type afterDot tokens text := by
  induction count : tokens.length using Nat.strongRecOn generalizing afterDot tokens text with
  | ind size ih =>
    cases tokens with
    | nil =>
      rw [expand_nil] at expanded
      cases expanded
      exact .nil afterDot
    | cons token tokens =>
      have shorter : ∀ {afterDot part text}, part.length ≤ tokens.length →
          expand session type afterDot part = .ok text → Writes session type afterDot part text := by
        intro afterDot part text within expanded
        exact ih part.length (by simp only [length_cons] at count; omega) expanded rfl
      cases found : path? afterDot token tokens with
      | none =>
        rw [expand_plain session type found] at expanded
        obtain ⟨later, goesOn, same⟩ := exists_of_bind_eq_ok expanded
        cases same
        exact .token found (shorter (Nat.le_refl _) goesOn)
      | some known =>
        obtain ⟨path, after⟩ := known
        have fewer := path?_length_lt found
        rw [expand_found session type found] at expanded
        obtain ⟨reference, rest, inner, later, uses, within, assigned, goesOn, rfl⟩ :=
          expands_of_use (path?_split found).2.1 expanded
        have bound := uses.length_le
        exact .reference found uses (shorter (by omega) within) assigned (shorter (by omega) goesOn)

end SelfReference

end FlatMemory
