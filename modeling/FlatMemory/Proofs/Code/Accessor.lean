import FlatMemory.Code.Accessor
import FlatMemory.Proofs.Code.SelfReference

/-! # Accessors are emitted with the arguments they take

Whatever the text is, a form is recognised only with the number of arguments its operation takes
and on a target that supports the operation.  So emission never fails. -/

namespace FlatMemory

namespace Warned

variable {α β : Type}

instance : LawfulMonad Warned := by
  refine LawfulMonad.mk' Warned ?_ ?_ ?_
  · rintro α ⟨warnings, result⟩
    cases result <;> simp [Functor.map, Warned.bind]
  · intro α β a next
    simp [Bind.bind, Pure.pure, Warned.bind]
  · rintro α β γ ⟨warnings, result⟩ second third
    cases result with
    | error failure => rfl
    | ok a => cases later : (second a).result <;> simp [Bind.bind, Warned.bind, later]

@[simp] theorem answers_bind {first : Warned α} {next : α → Warned β} {well : β → Prop} :
    Answers (first >>= next).result well ↔
      Answers first.result fun answer => Answers (next answer).result well := by
  obtain ⟨warnings, result⟩ := first
  cases result <;> rfl

theorem answers_mapM {f : α → Warned β} {items : List α}
    (each : ∀ item ∈ items, Answers (f item).result fun _ => True) :
    Answers (items.mapM f).result fun results => results.length = items.length := by
  induction items with
  | nil => exact rfl
  | cons item items ih =>
    rw [List.mapM_cons]
    simp only [answers_bind]
    refine (each item List.mem_cons_self).mono fun _ _ => ?_
    refine (ih fun other member => each other (List.mem_cons_of_mem _ member)).mono ?_
    intro results sameLength
    exact congrArg (· + 1) sameLength

end Warned

namespace Emit

theorem access_ok {target : Target} {operation : Operation} {arguments : List Text}
    (address : Text) (count : arguments.length = operation.operands)
    (supported : target.supports operation = true) :
    ∃ text, access target address operation arguments = .ok text := by
  unfold access
  rw [if_neg (by simp [count, supported])]
  split
  · exact ⟨_, rfl⟩
  rcases target with type | _ | type
  · exact ⟨_, rfl⟩
  · exact ⟨_, rfl⟩
  · -- What a struct supports takes at most one argument.
    have few : arguments.length ≤ 1 := by
      rw [count]
      cases operation <;> first | decide | simp [Target.supports, Target.isBasic] at supported
    match arguments, few with
    | [], _ => exact ⟨_, rfl⟩
    | [value], _ => exact ⟨_, rfl⟩

end Emit

namespace Accessor

variable {arguments : List Argument} {session : Session} {call : Call} {text : Text} {start : Nat}

def Call.Takes : Call → Nat → Prop
  | allocateArray _, count => count = 1
  | field access, count =>
    count = access.operation.operands + 1 ∧ access.target.supports access.operation = true
  | element _ access, count =>
    count = access.operation.operands + 2 ∧ access.target.supports access.operation = true

theorem Call.emit_ok {arguments : List Text} (takes : call.Takes arguments.length) :
    ∃ text, call.emit arguments = .ok text := by
  match call, arguments, takes with
  | allocateArray item, [length], _ => exact ⟨_, rfl⟩
  | field access, base :: arguments, takes =>
    exact Emit.access_ok _ (Nat.succ.inj takes.1) takes.2
  | element array access, base :: index :: arguments, takes =>
    exact Emit.access_ok _ (Nat.succ.inj (Nat.succ.inj takes.1)) takes.2
  | field access, [], takes => cases takes.1
  | element array access, [], takes => cases takes.1
  | element array access, [base], takes => cases Nat.succ.inj takes.1

/-! ### What the scanner finds -/

/-- A dotted name that is an accessor: the call and the access that it stands for, and how many
arguments tell the place. -/
inductive StandsFor (session : Session) (name : DottedName) (type : TypeRef) :
    Call → Access → Nat → Prop
  | field {user : UserType} {access : Access} (arrayless : arrayPath? name.segments = none)
    (isUser : session.user type = .ok user)
    (resolved : session.resolveInType? user name.segments = some access) :
    StandsFor session name type (.field access) access 1
  | element {item : TypeRef} {qualifier : Qualifier} {path : List String} {access : Access}
    (isArray : arrayPath? name.segments = some (qualifier, path))
    (resolved : session.resolveInElement? (Target.ofType session item) path = some access) :
    StandsFor session name type (.element (Target.ofType session item) access) access 2

theorem standsFor_of_call? {name : DottedName} {type : TypeRef} {access : Access} {places : Nat}
    (found : call? session name type = .ok (some (call, access, places))) :
    StandsFor session name type call access places := by
  unfold call? at found
  split at found
  · next isArray =>
    dsimp only at found
    split at found
    · cases found
    · split at found
      · cases found
      · next resolved =>
        cases found
        exact .element isArray resolved
  · next arrayless =>
    split at found
    · cases found
    · next isUser =>
      obtain ⟨_, resolved, same⟩ := Option.map_eq_some_iff.1 (Except.ok.inj found)
      cases same
      exact .field arrayless isUser resolved

inductive Accesses (session : Session) (name : DottedName) (front : Cut) : Found → Prop
  | copied : Accesses session name front ⟨.copied, front⟩
  | refused (warning : AccessorWarning) (known : (session.lookup name.head).isSome = true)
    (qualified : name.segments ≠ []) (opens : front.rest.head? = some '(') :
    Accesses session name front ⟨.refused warning, front⟩
  | call {type : TypeRef} {call : Call} {access : Access} {places : Nat} {group : Cut}
    (known : session.lookup name.head = some type) (qualified : name.segments ≠ [])
    (called : call? session name type = .ok (some (call, access, places)))
    (supported : access.target.supports access.operation = true)
    (grouped : group? front.rest = some group)
    (length : (splitArguments group.taken).length = access.operation.operands + places)
    (given : givenCount (splitArguments group.taken) = access.operation.operands + places) :
    Accesses session name front (callFound
      (.call call (front.taken.byteLength + 1) (splitArguments group.taken)) front group)

theorem accesses (session : Session) (text : Text) :
    Accesses session (DottedName.read text).1 (DottedName.read text).2 (accessor session text) := by
  unfold accessor
  dsimp only
  split
  · exact .copied
  next type known =>
  have isKnown := Option.isSome_of_eq_some known
  split
  · exact .copied
  next called =>
  obtain ⟨qualified, opens⟩ := not_or.1 called
  replace opens := not_not.1 opens
  split
  · exact .refused _ isKnown qualified opens
  · exact .copied
  next isCall =>
  split
  · exact .refused _ isKnown qualified opens
  next grouped =>
  split
  · exact .refused _ isKnown qualified opens
  next counted =>
  split
  · exact .refused _ isKnown qualified opens
  next supported =>
  obtain ⟨length, given⟩ := not_or.1 counted
  exact .call known qualified isCall (by simpa using supported) grouped (not_not.1 length)
    (not_not.1 given)

inductive Allocates (session : Session) (name : DottedName) (front : Cut) : Found → Prop
  | malformed (cause : AllocationCause) : Allocates session name front ⟨.malformed cause, front⟩
  | alone {type : TypeRef} {user : UserType} (known : session.lookup name.head = some type)
    (bare : name.segments = []) (isUser : session.user type = .ok user) :
    Allocates session name front ⟨.allocation (allocationText user), front⟩
  | array {item : Target} {group : Cut} {length : Argument} (grouped : group? front.rest = some group)
    (single : splitArguments group.taken = [length]) :
    Allocates session name front (callFound
      (.call (.allocateArray item) (front.taken.byteLength + 1) [length]) front group)

theorem allocates (session : Session) (marker text : Text) :
    Allocates session (DottedName.read text).1 ((DottedName.read text).2.after marker)
      (allocation session marker text) := by
  unfold allocation
  dsimp only
  repeat' split
  all_goals first
    | exact .malformed _
    | exact .alone ‹_› ‹_› ‹_›
    | exact .array ‹_› ‹_›

inductive Sees (session : Session) (before : Option Char) (c : Char) (cs : Text) : Found → Prop
  | literal {cut : Cut} (found : Literal.first? (c :: cs) = some cut) :
    Sees session before c cs ⟨.copied, cut⟩
  | char (plain : Literal.first? (c :: cs) = none)
    (alone : startsWord before = true → isIdentStart c = false ∧ marker? (c :: cs) = none) :
    Sees session before c cs ⟨.copied, [c], cs⟩
  | nameless {marker : Cut} (starts : startsWord before = true)
    (marked : marker? (c :: cs) = some marker)
    (noName : ¬ marker.rest.head?.any isIdentStart = true) :
    Sees session before c cs ⟨.malformed .missingName, marker⟩
  | allocation {marker : Cut} (starts : startsWord before = true)
    (marked : marker? (c :: cs) = some marker)
    (isName : marker.rest.head?.any isIdentStart = true) :
    Sees session before c cs (allocation session marker.taken marker.rest)
  | accessor (starts : startsWord before = true) (isName : isIdentStart c = true) :
    Sees session before c cs (accessor session (c :: cs))

theorem sees (session : Session) (before : Option Char) (c : Char) (cs : Text) :
    Sees session before c cs (find session before c cs) := by
  unfold find
  split
  · next found => exact .literal found
  next plain =>
  split
  · next starts =>
    split
    · next marked =>
      split
      · next isName => exact .allocation starts marked isName
      · next noName => exact .nameless starts marked noName
    · next unmarked =>
      split
      · next isName => exact .accessor starts isName
      · next noName => exact .char plain fun _ => ⟨by simpa using noName, unmarked⟩
  · next inWord => exact .char plain fun starts => absurd starts inWord

theorem find_takes {before : Option Char} {c : Char} {cs : Text}
    (formed : (find session before c cs).form = .call call start arguments) :
    call.Takes arguments.length := by
  have seen := sees session before c cs
  generalize find session before c cs = found at seen formed
  cases seen with
  | literal | char | nameless => cases formed
  | @allocation marker =>
    have found := allocates session marker.taken marker.rest
    generalize Accessor.allocation session marker.taken marker.rest = whole at found formed
    cases found <;> cases formed
    rfl
  | accessor =>
    have found := accesses session (c :: cs)
    generalize Accessor.accessor session (c :: cs) = whole at found formed
    cases found with
    | copied | refused => cases formed
    | call _ _ called supported _ length _ =>
      cases formed
      cases standsFor_of_call? called with
      | field | element => exact ⟨length, supported⟩

theorem answers_expand (scene : Scene) (before : Option Char) (offset : Nat) (text : Text) :
    Answers (expand scene before offset text).result fun _ => True := by
  induction count : text.length using Nat.strongRecOn generalizing before offset text with
  | ind size ih =>
    cases text with
    | nil => rw [expand]; trivial
    | cons c cs =>
      have fits := fits_find scene.session before c cs
      rw [expand]
      dsimp only
      rw [Warned.answers_bind]
      refine Answers.mono ?_ fun front (_ : True) => ?_
      · split
        · trivial
        · trivial
        · trivial
        · trivial
        · next call start arguments formed =>
          rw [Warned.answers_bind]
          refine (Warned.answers_mapM ?_).mono ?_
          · rintro ⟨argument, member⟩ _
            have shorter := fits.arguments call start arguments formed argument member
            rw [count] at shorter
            exact ih _ shorter _ _ _ rfl
          · intro expanded sameLength
            rw [List.length_attach] at sameLength
            have takes := find_takes formed
            rw [← sameLength] at takes
            obtain ⟨text, emitted⟩ := Call.emit_ok takes
            rw [emitted]
            trivial
      · have shorter := Cut.rest_length_lt fits.whole fits.taken
        rw [Warned.answers_bind]
        exact (ih _ (by omega) _ _ _ rfl).mono fun _ _ => trivial

end Accessor

end FlatMemory
