import FlatMemory.Access.Target
import FlatMemory.Result
import FlatMemory.Text.Blank
import FlatMemory.Token.Stream

/-! # References to `SELF` in method bodies

In the body of a method of a type `T`, references to `SELF` are written out:

    SELF.x                  T.x(SELF)
    SELF.x = v              T.x.set(SELF, v)          and += -= &= |= ^=
    SELF.pos.y.add(1)       T.pos.y.add(SELF, 1)
    SELF.area(k)            T.area(SELF, k)           virtual: the dispatcher of T
    SELF.init(k)            Base.init(SELF, k)        otherwise: the declaring class
    SELF.get()              T.get(SELF)               structs

Bodies are read as tokens, so strings and comments stay untouched.  Arguments and assigned values
are expanded in turn. -/

namespace FlatMemory

namespace SelfReference

/-- Names behind `SELF`, each right behind its dot, and the tokens after them. -/
def segments : List Token → List String × List Token
  | dot :: name :: tokens =>
    if dot.kind = .dot ∧ name.kind = .ident then
      let (later, rest) := segments tokens
      (name.word :: later, rest)
    else ([], dot :: name :: tokens)
  | tokens => ([], tokens)

/-- A path behind `SELF`, unless `SELF` is itself a member. -/
def path? (afterDot : Bool) (token : Token) (tokens : List Token) :
    Option (List String × List Token) :=
  if token.isIdent selfName ∧ afterDot = false then
    match segments tokens with
    | ([], _) => none
    | found => some found
  else none

/-- The value of an assignment: up to the first `;` or `,` outside brackets, or a closing bracket
that the value does not open. -/
def splitValue : Nat → List Token → List Token × List Token
  | _, [] => ([], [])
  | depth, token :: tokens =>
    let goOn := fun depth =>
      let (value, rest) := splitValue depth tokens
      (token :: value, rest)
    if token.kind.isOpen then goOn (depth + 1)
    else if token.kind.isClose then
      match depth with
      | 0 => ([], token :: tokens)
      | outer + 1 => goOn outer
    else if (token.kind = .semicolon ∨ token.kind = .comma) ∧ depth = 0 then ([], token :: tokens)
    else goOn depth

/-- The tokens up to the bracket that closes `depth + 1` open ones, which is dropped. -/
def splitGroup : Nat → List Token → Option (List Token × List Token)
  | _, [] => none
  | depth, token :: tokens =>
    let goOn := fun depth =>
      (splitGroup depth tokens).map fun (inner, rest) => (token :: inner, rest)
    if token.kind.isOpen then goOn (depth + 1)
    else if token.kind.isClose then
      match depth with
      | 0 => some ([], tokens)
      | outer + 1 => goOn outer
    else goOn depth

def topLevelCommas : Nat → List Token → Nat
  | _, [] => 0
  | depth, token :: tokens =>
    if token.kind.isOpen then topLevelCommas (depth + 1) tokens
    else if token.kind.isClose then topLevelCommas (depth - 1) tokens
    else if token.kind = .comma ∧ depth = 0 then topLevelCommas 0 tokens + 1
    else topLevelCommas depth tokens

def argumentCount (tokens : List Token) : Nat :=
  if tokens.all fun token => token.kind.isTrivia then 0 else topLevelCommas 0 tokens + 1

/-- What a reference does, with the tokens that it goes on to use up. -/
inductive Use where
  | load (accessor : String) (rest : List Token)
  /-- Assign to a field.  `missing` is the failure to report if no value follows. -/
  | store (accessor : String) (missing : Failure) (value rest : List Token)
  /-- Call a method or an operation, which requires a number of arguments. -/
  | call (callee : String) (required : Option Nat) (arguments rest : List Token)
  deriving DecidableEq, Repr

/-- The group in parentheses that an argument list must be. -/
def callGroup (missing : Failure) : List Token → Except Failure (List Token × List Token)
  | [] => .error missing
  | token :: tokens =>
    if token.kind = .lParen then
      match splitGroup 0 tokens with
      | some found => .ok found
      | none => .error (.bug .unbalancedBody)
    else .error missing

/-- The type at or above a type that declares a named method. -/
def methodOwner? (session : Session) (type : UserType) (name : String) :
    Option (UserType × Method) :=
  let above := (type.base?.map session.ancestry).getD []
  (type :: session.typesAt above).findSome? fun owner =>
    (owner.declaration.method? name).map fun method => (owner, method)

section

variable (session : Session) (type : UserType)

def fault (line : Nat) (cause : ReferenceCause) : Failure :=
  .fault (.reference cause) type.declaration.file line

def written (path : List String) : String := selfName ++ "." ++ dotted path

def accessor (path : List String) : String := type.name ++ "." ++ dotted path

def checkSupport (line : Nat) (path : List String) (access : Access) (operation : Operation) :
    Except Failure Unit :=
  if access.target.supports operation then .ok ()
  else .error (fault type line
    (.inapplicable operation.name (written path) access.target.describe))

/-- An assignment to what a path names.  `operator` is the assignment token. -/
def assignment (line : Nat) (path : List String) (access : Access) (operator : Token)
    (tokens : List Token) : Except Failure Use :=
  if access.explicit then
    .error (fault type operator.line (.assignedOperation (written path)))
  else match Operation.ofAssignment? operator.word with
    | none =>
      .error (fault type operator.line (.unsupportedAssignment operator.word (written path)))
    | some operation => do
      checkSupport type line path access operation
      let (value, rest) := splitValue 0 tokens
      let missing := fault type operator.line (.missingValue (written path) operator.word)
      return .store (accessor type path ++ "." ++ operation.name) missing value rest

def operationCall (line : Nat) (path : List String) (access : Access) (tokens : List Token) :
    Except Failure Use := do
  checkSupport type line path access access.operation
  let missing := fault type line (.operationNotCalled (written path))
  let (arguments, rest) ← callGroup missing tokens
  return .call (accessor type path) (some access.operation.operands) arguments rest

/-- A call of a method.  A virtual one goes through the dispatcher of the type itself. -/
def methodCall (line : Nat) (name : String) (owner : UserType) (method : Method)
    (tokens : List Token) : Except Failure Use := do
  let missing := fault type line (.methodNotCalled (written [name]))
  let (arguments, rest) ← callGroup missing tokens
  let target := if method.kind = .virtual then type.name else owner.name
  return .call (target ++ "." ++ name) none arguments rest

def unknown (line : Nat) (path : List String) : Failure :=
  match type.longestField? path with
  | some (count, _) =>
    fault type line (.notAnOperation (dotted (path.drop count)) (written (path.take count)))
  | none => fault type line (.unknownMember (written path) type.name)

/-- The use of a path on `line`, given the tokens behind it. -/
def use (line : Nat) (path : List String) (tokens : List Token) : Except Failure Use :=
  let next := tokens.dropWhile fun token => token.kind.isTrivia
  match session.resolveInType? type path with
  | some access =>
    match next with
    | operator :: after =>
      if operator.kind = .assign then assignment type line path access operator after
      else if access.explicit then operationCall type line path access next
      else do
        checkSupport type line path access .get
        return .load (accessor type path) tokens
    | [] =>
      if access.explicit then operationCall type line path access next
      else do
        checkSupport type line path access .get
        return .load (accessor type path) tokens
  | none =>
    match path with
    | [name] =>
      match methodOwner? session type name with
      | some (owner, method) => methodCall type line name owner method next
      | none => .error (unknown type line path)
    | _ => .error (unknown type line path)

def checkCount (line : Nat) (path : List String) (required : Option Nat) (found : Nat) :
    Except Failure Unit :=
  match required with
  | none => .ok ()
  | some expected =>
    if found = expected then .ok ()
    else .error (fault type line (.argumentCount (written path) expected found))

end

def callText (callee : String) (arguments : Text) : Text :=
  let given := arguments.trimStart
  let list := if given.isBlank then [] else ", ".toList ++ given
  callee.toList ++ "(".toList ++ selfName.toList ++ list ++ ")".toList

/-- An assignment as a call; the blank text behind the value stays behind the call. -/
def storeText (accessor : String) (value : Text) : Text :=
  accessor.toList ++ "(".toList ++ selfName.toList ++ ", ".toList ++ value.trim ++ ")".toList
    ++ value.trailingBlank

/-! ### References only use tokens up -/

theorem segments_length_le (tokens : List Token) :
    (segments tokens).2.length + 2 * (segments tokens).1.length = tokens.length := by
  fun_induction segments tokens with
  | case1 dot name tokens kinds later rest found ih =>
    rw [found] at ih
    simp only [List.length_cons] at ih ⊢
    omega
  | case2 => simp
  | case3 => simp

variable {rest inner : List Token} {path : List String} {type : UserType} {line bound : Nat}
  {access : Access}

variable {tokens : List Token} {found : Use}

theorem path?_length_lt {afterDot : Bool} {token : Token}
    (found : path? afterDot token tokens = some (path, rest)) : rest.length < tokens.length := by
  have total := segments_length_le tokens
  unfold path? at found
  split at found
  · split at found
    · simp at found
    · next other =>
      simp only [Option.some.injEq] at found
      rw [found] at total
      cases path with
      | nil => exact absurd found (other rest)
      | cons first later =>
        simp only [List.length_cons] at total
        omega
  · simp at found

theorem splitValue_length (depth : Nat) (tokens : List Token) :
    (splitValue depth tokens).1.length + (splitValue depth tokens).2.length = tokens.length := by
  induction tokens generalizing depth with
  | nil => rfl
  | cons token tokens ih =>
    unfold splitValue
    dsimp only
    repeat' split
    all_goals simp only [List.length_cons, List.length_nil]
    all_goals first
      | omega
      | (have h := ih (depth + 1); omega)
      | (have h := ih depth; omega)
      | (next outer => have := ih outer; omega)

theorem splitGroup_length_le {depth : Nat} (closed : splitGroup depth tokens = some (inner, rest)) :
    inner.length + rest.length ≤ tokens.length := by
  induction tokens generalizing depth inner with
  | nil => simp [splitGroup] at closed
  | cons token tokens ih =>
    have step : ∀ {depth inner},
        (splitGroup depth tokens).map (fun (inner, rest) => (token :: inner, rest))
          = some (inner, rest) →
        inner.length + rest.length ≤ (token :: tokens).length := by
      intro depth inner mapped
      obtain ⟨⟨_, _⟩, found, same⟩ := Option.map_eq_some_iff.1 mapped
      cases same
      have := ih found
      simp only [List.length_cons]
      omega
    unfold splitGroup at closed
    dsimp only at closed
    split at closed
    · exact step closed
    split at closed
    · split at closed
      · simp only [Option.some.injEq, Prod.mk.injEq] at closed
        simp [← closed.1, ← closed.2]
      · exact step closed
    · exact step closed

theorem callGroup_length_le {missing : Failure}
    (found : callGroup missing tokens = .ok (inner, rest)) :
    inner.length + rest.length ≤ tokens.length := by
  unfold callGroup at found
  split at found
  · simp at found
  · split at found
    · split at found
      · next grouped =>
        cases found
        have := splitGroup_length_le grouped
        simp only [List.length_cons]
        omega
      · simp at found
    · simp at found

/-- The tokens a use goes on to expand are at most so many. -/
def Use.Within (bound : Nat) : Use → Prop
  | load _ rest => rest.length ≤ bound
  | store _ _ value rest => value.length ≤ bound ∧ rest.length ≤ bound
  | call _ _ arguments rest => arguments.length ≤ bound ∧ rest.length ≤ bound

theorem assignment_within {operator : Token}
    (read : assignment type line path access operator tokens = .ok found)
    (fits : tokens.length ≤ bound) : found.Within bound := by
  have total := splitValue_length 0 tokens
  unfold assignment at read
  split at read
  · simp at read
  split at read
  · simp at read
  · obtain ⟨_, _, read⟩ := exists_of_bind_eq_ok read
    cases read
    exact ⟨by omega, by omega⟩

theorem operationCall_within (read : operationCall type line path access tokens = .ok found)
    (fits : tokens.length ≤ bound) : found.Within bound := by
  unfold operationCall at read
  obtain ⟨_, _, read⟩ := exists_of_bind_eq_ok read
  obtain ⟨⟨_, _⟩, grouped, read⟩ := exists_of_bind_eq_ok read
  have := callGroup_length_le grouped
  cases read
  exact ⟨by omega, by omega⟩

theorem methodCall_within {owner : UserType} {name : String} {method : Method}
    (read : methodCall type line name owner method tokens = .ok found)
    (fits : tokens.length ≤ bound) : found.Within bound := by
  unfold methodCall at read
  obtain ⟨⟨_, _⟩, grouped, read⟩ := exists_of_bind_eq_ok read
  have := callGroup_length_le grouped
  cases read
  exact ⟨by omega, by omega⟩

theorem load_within (read : (do
      checkSupport type line path access .get
      return .load (accessor type path) tokens : Except Failure Use) = .ok found) :
    found.Within tokens.length := by
  obtain ⟨_, _, read⟩ := exists_of_bind_eq_ok read
  cases read
  exact Nat.le_refl _

theorem use_within {session : Session} (read : use session type line path tokens = .ok found) :
    found.Within tokens.length := by
  have shorter := (List.dropWhile_suffix (l := tokens) fun token => token.kind.isTrivia).length_le
  unfold use at read
  dsimp only at read
  split at read
  · split at read
    · next eq =>
      rw [eq] at shorter
      simp only [List.length_cons] at shorter
      split at read
      · exact assignment_within read (by omega)
      split at read
      · exact operationCall_within read (by rw [eq]; simpa using shorter)
      · exact load_within read
    · split at read
      · exact operationCall_within read shorter
      · exact load_within read
  · split at read
    · split at read
      · exact methodCall_within read shorter
      · simp at read
    · simp at read

/-- The text of a body with its references written out.  `afterDot` says whether the last token that
counts before these is a dot. -/
def expand (session : Session) (type : UserType) (afterDot : Bool) (tokens : List Token) :
    Except Failure Text :=
  match tokens with
  | [] => .ok []
  | token :: tokens =>
    match found : path? afterDot token tokens with
    | none => do
      let still := if token.kind.isTrivia then afterDot else token.kind = .dot
      let rest ← expand session type still tokens
      return token.text ++ rest
    | some (path, after) =>
      have := path?_length_lt found
      match used : use session type token.line path after with
      | .error failure => .error failure
      | .ok (.load accessor rest) =>
        have : rest.length ≤ after.length := use_within used
        do
          let text ← expand session type false rest
          return accessor.toList ++ "(".toList ++ selfName.toList ++ ")".toList ++ text
      | .ok (.store accessor missing value rest) =>
        have : value.length ≤ after.length ∧ rest.length ≤ after.length := use_within used
        do
          let value ← expand session type false value
          if value.isBlank then .error missing
          else
            let text ← expand session type false rest
            return storeText accessor value ++ text
      | .ok (.call callee required arguments rest) =>
        have : arguments.length ≤ after.length ∧ rest.length ≤ after.length :=
          use_within used
        do
          let given ← expand session type false arguments
          checkCount type token.line path required (argumentCount arguments)
          let text ← expand session type false rest
          return callText callee given ++ text
termination_by tokens.length

end SelfReference

def Session.expandBody (session : Session) (type : UserType) (method : Method) :
    Except Failure Text :=
  match tokenizeFrom method.line method.body with
  | .error error => .error (.fault (.lexical error.kind) type.declaration.file error.line)
  | .ok tokens => SelfReference.expand session type false tokens

end FlatMemory
