import FlatMemory.Access.Emit
import FlatMemory.Code.Paste
import FlatMemory.Diagnostic.Warned

/-! # Accessors in pasted text

Three forms are replaced by memory operations:

    @new T                      @new T.Array(n)
    T[.qualifier].Array[.path][.op](base, index, args...)
    T.path[.op](self, args...)

Arguments are expanded first, and what replaces a form is not looked at again.  Near misses, such as
a wrong number of arguments, are left as they stand with a warning.  Only a malformed allocation is
an error. -/

namespace FlatMemory

/-- A dotted name: type name and path, each segment right behind its dot. -/
structure DottedName where
  head : String
  segments : List String
  deriving DecidableEq, Repr

namespace DottedName

def written (name : DottedName) : String := dotted (name.head :: name.segments)

/-- Segments behind a name, with the text they take. -/
def readSegments (text : Text) : List String × Cut :=
  match text with
  | '.' :: c :: cs =>
    if isIdentStart c then
      let word := Cut.span isIdentPart cs
      have := Cut.rest_length_le (Cut.whole_span isIdentPart cs)
      let (later, cut) := readSegments word.rest
      (String.ofList (c :: word.taken) :: later, cut.after ('.' :: c :: word.taken))
    else ([], Cut.none text)
  | text => ([], Cut.none text)
termination_by text.length

def read (text : Text) : DottedName × Cut :=
  let head := Cut.span isIdentPart text
  let (segments, cut) := readSegments head.rest
  (⟨String.ofList head.taken, segments⟩, cut.after head.taken)

theorem whole_readSegments (text : Text) : (readSegments text).2.whole = text := by
  fun_induction readSegments text with
  | case1 c cs _ word _ later cut found ih =>
    rw [found] at ih
    have whole := Cut.whole_span isIdentPart cs
    rw [Cut.whole_after, ih]
    exact congrArg (fun rest => '.' :: c :: rest) whole
  | case2 => rfl
  | case3 => rfl

theorem whole_read (text : Text) : (read text).2.whole = text := by
  have whole := Cut.whole_span isIdentPart text
  unfold read
  dsimp only
  rw [Cut.whole_after, whole_readSegments]
  exact whole

theorem taken_read_ne_nil {c : Char} {cs : Text} (start : isIdentStart c = true) :
    (read (c :: cs)).2.taken ≠ [] := by
  simp [read, Cut.after, Cut.span, isIdentPart_of_isIdentStart start]

end DottedName

namespace Accessor

/-- The operation a call stands for. -/
inductive Call where
  | allocateArray (item : Target)
  | field (access : Access)
  | element (array : Target) (access : Access)
  deriving DecidableEq, Repr

/-- Text of the operation, given the expanded arguments. -/
def Call.emit : Call → List Text → Except Failure Text
  | allocateArray item, length :: _ =>
    .ok ("FlatJS.allocOrThrow(".toList ++ Emit.number item.stride ++ " * ".toList
      ++ Emit.operand length ++ ", ".toList ++ Emit.number item.align ++ ")".toList)
  | field access, base :: arguments =>
    Emit.access access.target (Emit.fieldAddress base access.offset) access.operation arguments
  | element array access, base :: index :: arguments =>
    Emit.access access.target (Emit.elementAddress base index array.stride access.offset)
      access.operation arguments
  | _, arguments => .error (.bug (.malformedAccess "call" arguments.length "an accessor"))

/-- What a text starts with. -/
inductive Form where
  | copied
  /-- An accessor that is left as it stands. -/
  | refused (warning : AccessorWarning)
  | malformed (cause : AllocationCause)
  | allocation (replacement : Text)
  /-- A call with its arguments, which start at a byte offset in the text. -/
  | call (call : Call) (start : Nat) (arguments : List Argument)
  deriving DecidableEq, Repr

structure Found where
  form : Form
  cut : Cut
  deriving DecidableEq, Repr

def allocationText (type : UserType) : Text :=
  let allocated := "FlatJS.allocOrThrow(".toList ++ Emit.number type.size ++ ", ".toList
    ++ Emit.number type.align ++ ")".toList
  if type.isClass then type.name.toList ++ ".initInstance(".toList ++ allocated ++ ")".toList
  else allocated

/-- A call whose argument list, without the parentheses, is `group`; `front` stands before it. -/
def callFound (form : Form) (front : Cut) (group : Cut) : Found :=
  ⟨form, ⟨front.taken ++ '(' :: (group.taken ++ [')']), group.rest⟩⟩

/-- An allocation, given the text from its marker to the type name and the text from there on. -/
def allocation (session : Session) (marker text : Text) : Found :=
  let (name, read) := DottedName.read text
  let front := read.after marker
  let failed := fun cause => (⟨.malformed cause, front⟩ : Found)
  match session.lookup name.head with
  | none => failed (.unknownType name.head)
  | some type =>
    match name.segments with
    | [] =>
      match session.user type with
      | .error _ => failed (.primitive name.head)
      | .ok user => ⟨.allocation (allocationText user), front⟩
    | ["Array"] =>
      match group? front.rest with
      | none => failed (.missingLength name.head)
      | some group =>
        match splitArguments group.taken with
        | [length] =>
          callFound (.call (.allocateArray (Target.ofType session type))
            (front.taken.byteLength + 1) [length]) front group
        | arguments => failed (.lengthCount name.head arguments.length)
    | [qualifier, "Array"] =>
      if (Qualifier.ofKeyword? qualifier).isSome then failed (.qualifiedArray name.head qualifier)
      else failed (.malformed name.head (dotted name.segments))
    | _ => failed (.malformed name.head (dotted name.segments))

def arrayPath? : List String → Option (Qualifier × List String)
  | "Array" :: path => some (.plain, path)
  | qualifier :: "Array" :: path =>
    (Qualifier.ofKeyword? qualifier).map fun qualifier => (qualifier, path)
  | _ => none

/-- The call that a dotted name stands for, if it is an accessor. -/
def call? (session : Session) (name : DottedName) (type : TypeRef) :
    Except AccessorWarning (Option (Call × Access × Nat)) :=
  match arrayPath? name.segments with
  | some (qualifier, path) =>
    let qualified := if qualifier = .plain then some type else session.qualified? type qualifier
    match qualified with
    | none => .error (.notQualifiable name.written name.head qualifier.keyword)
    | some elementType =>
      let element := Target.ofType session elementType
      match session.resolveInElement? element path with
      | none => .error (.notArrayAccess name.written)
      | some access => .ok (some (.element element access, access, 2))
  | none =>
    match session.user type with
    | .error _ => .ok none
    | .ok user =>
      .ok ((session.resolveInType? user name.segments).map fun access =>
        (.field access, access, 1))

/-- Arguments that are there: a blank one is not. -/
def givenCount (arguments : List Argument) : Nat :=
  (arguments.filter fun argument => !argument.text.isBlank).length

def accessor (session : Session) (text : Text) : Found :=
  let (name, front) := DottedName.read text
  let refused := fun warning => (⟨.refused warning, front⟩ : Found)
  match session.lookup name.head with
  | none => ⟨.copied, front⟩
  | some type =>
    if name.segments = [] ∨ front.rest.head? ≠ some '(' then ⟨.copied, front⟩
    else match call? session name type with
      | .error warning => refused warning
      | .ok none => ⟨.copied, front⟩
      | .ok (some (call, access, places)) =>
        match group? front.rest with
        | none => refused (.unterminated name.written)
        | some group =>
          let arguments := splitArguments group.taken
          let expected := access.operation.operands + places
          let given := givenCount arguments
          if arguments.length ≠ expected ∨ given ≠ expected then
            refused (.argumentCount name.written expected given)
          else if access.target.supports access.operation = false then
            refused (.inapplicable access.operation.name name.written access.target.describe)
          else callFound (.call call (front.taken.byteLength + 1) arguments) front group

/-- Whether a name may start behind a character. -/
def startsWord : Option Char → Bool
  | none => true
  | some c => !isIdentPart c && c != '.'

/-- The allocation marker as a whole word, with the blank text behind it. -/
def marker? (text : Text) : Option Cut :=
  match text with
  | '@' :: 'n' :: 'e' :: 'w' :: cs =>
    if cs.head?.any isIdentPart then none
    else some ((Cut.span isAsciiBlank cs).after ['@', 'n', 'e', 'w'])
  | _ => none

/-- What the text `c :: cs` starts with, behind the character `before`. -/
def find (session : Session) (before : Option Char) (c : Char) (cs : Text) : Found :=
  match Literal.first? (c :: cs) with
  | some cut => ⟨.copied, cut⟩
  | none =>
    if startsWord before then
      match marker? (c :: cs) with
      | some marker =>
        if marker.rest.head?.any isIdentStart then
          allocation session marker.taken marker.rest
        else ⟨.malformed .missingName, marker⟩
      | none =>
        if isIdentStart c then accessor session (c :: cs) else ⟨.copied, ⟨[c], cs⟩⟩
    else ⟨.copied, ⟨[c], cs⟩⟩

/-! ### Forms are part of the text -/

/-- What a found form has to do: take at least one character, keep the rest, and have arguments
that are shorter than the text. -/
structure Fits (text : Text) (found : Found) : Prop where
  whole : found.cut.whole = text
  taken : found.cut.taken ≠ []
  arguments : ∀ call start arguments, found.form = .call call start arguments →
    ∀ argument ∈ arguments, argument.text.length < text.length

variable {text : Text} {cut : Cut}

theorem closeGroup_whole {nesting : List Char} (closed : closeGroup nesting text = some cut)
    (some : nesting ≠ []) :
    ∃ c, closingBracket? (nesting.getLast some) = Option.some c ∧
      cut.taken ++ c :: cut.rest = text := by
  fun_induction closeGroup nesting text generalizing cut with
  | case1 nesting text found literal _ ih =>
    obtain ⟨inner, closedInner, rfl⟩ := Option.map_eq_some_iff.1 closed
    obtain ⟨c, closes, whole⟩ := ih closedInner some
    refine ⟨c, closes, ?_⟩
    have literalWhole := (Literal.whole_first? literal).1
    simp only [Cut.after, List.append_assoc]
    rw [whole]
    exact literalWhole
  | case2 => simp at closed
  | case3 nesting c cs _ _ ih =>
    obtain ⟨inner, closedInner, rfl⟩ := Option.map_eq_some_iff.1 closed
    obtain ⟨closer, closes, whole⟩ := ih closedInner (by simp)
    refine ⟨closer, ?_, by simp [Cut.after, whole]⟩
    rwa [List.getLast_cons some] at closes
  | case4 => simp at closed
  | case5 => simp at closed
  | case6 c cs _ _ _ opener outer mismatch last =>
    simp only [Option.some.injEq] at closed
    subst closed
    have alone : outer = [] := List.isEmpty_iff.1 last
    subst alone
    exact ⟨c, by simpa using mismatch, rfl⟩
  | case7 c cs _ _ _ opener outer _ notLast ih =>
    obtain ⟨inner, closedInner, rfl⟩ := Option.map_eq_some_iff.1 closed
    have more : outer ≠ [] := fun none => notLast (by simp [none])
    obtain ⟨closer, closes, whole⟩ := ih closedInner more
    refine ⟨closer, ?_, by simp [Cut.after, whole]⟩
    rwa [List.getLast_cons more]
  | case8 nesting c cs _ _ _ ih =>
    obtain ⟨inner, closedInner, rfl⟩ := Option.map_eq_some_iff.1 closed
    obtain ⟨closer, closes, whole⟩ := ih closedInner some
    exact ⟨closer, closes, by simp [Cut.after, whole]⟩

theorem group?_whole (grouped : group? text = some cut) :
    '(' :: (cut.taken ++ ')' :: cut.rest) = text := by
  unfold group? at grouped
  split at grouped
  · obtain ⟨c, closes, whole⟩ := closeGroup_whole grouped (by simp)
    simp only [List.getLast_singleton, closingBracket?, Option.some.injEq] at closes
    rw [closes, whole]
  · simp at grouped

/-- A call that takes a name and the group behind it. -/
theorem fits_callFound {call : Call} {start : Nat} {arguments : List Argument} {front group : Cut}
    (whole : front.whole = text) (grouped : group? front.rest = some group)
    (within : ∀ argument ∈ arguments, argument.text.length ≤ group.taken.length) :
    Fits text (callFound (.call call start arguments) front group) where
  whole := by
    have := group?_whole grouped
    simp only [callFound, Cut.whole, List.append_assoc, List.cons_append, List.nil_append]
    rw [this]
    exact whole
  taken := by simp [callFound]
  arguments := by
    intro call' start' arguments' same argument member
    simp only [callFound, Form.call.injEq] at same
    obtain ⟨_, _, rfl⟩ := same
    have first := within argument member
    have second := group?_length_lt grouped
    have third := Cut.rest_length_le whole
    omega

/-- A form without arguments that takes a non-empty cut. -/
theorem fits_cut {form : Form} (whole : cut.whole = text) (taken : cut.taken ≠ [])
    (plain : ∀ call start arguments, form ≠ .call call start arguments) : Fits text ⟨form, cut⟩ :=
  ⟨whole, taken, fun call start arguments same => absurd same (plain call start arguments)⟩

theorem fits_allocation (session : Session) {marker : Text} (some : marker ≠ []) :
    Fits (marker ++ text) (allocation session marker text) := by
  have whole : ((DottedName.read text).2.after marker).whole = marker ++ text := by
    rw [Cut.whole_after, DottedName.whole_read]
  have taken : ((DottedName.read text).2.after marker).taken ≠ [] := by
    simp [Cut.after, some]
  unfold allocation
  dsimp only
  repeat' split
  all_goals first
    | exact fits_cut whole taken (by simp)
    | exact fits_callFound whole ‹_› fun argument member =>
        length_le_of_mem_splitArguments (by rw [‹splitArguments _ = _›]; exact member)

theorem fits_accessor (session : Session) {c : Char} {cs : Text} (start : isIdentStart c = true) :
    Fits (c :: cs) (accessor session (c :: cs)) := by
  have whole := DottedName.whole_read (c :: cs)
  have taken := @DottedName.taken_read_ne_nil c cs start
  unfold accessor
  dsimp only
  repeat' split
  all_goals first
    | exact fits_cut whole taken (by simp)
    | exact fits_callFound whole ‹_› fun argument member =>
        length_le_of_mem_splitArguments member

theorem marker?_whole {marker : Cut} (found : marker? text = some marker) :
    marker.whole = text ∧ marker.taken ≠ [] := by
  unfold marker? at found
  split at found
  · split at found
    · simp at found
    · cases found
      exact ⟨by simp, by simp [Cut.after]⟩
  · simp at found

theorem fits_find (session : Session) (before : Option Char) (c : Char) (cs : Text) :
    Fits (c :: cs) (find session before c cs) := by
  have single : Fits (c :: cs) ⟨.copied, ⟨[c], cs⟩⟩ := fits_cut rfl (by simp) (by simp)
  unfold find
  split
  · next literal =>
    have found := Literal.whole_first? literal
    exact fits_cut found.1 found.2 (by simp)
  split
  · split
    · next marker marked =>
      have found := marker?_whole marked
      split
      · exact found.1 ▸ fits_allocation session found.2
      · exact fits_cut found.1 found.2 (by simp)
    · split
      · next start => exact fits_accessor session start
      · exact single
  · exact single

/-! ### Expansion -/

/-- Where expansion takes place: the session, the name and the whole of the text. -/
structure Scene where
  session : Session
  file : String
  pasted : Pasted

def Scene.lineAt (scene : Scene) (offset : Nat) : Nat :=
  scene.pasted.lines.lineAt scene.pasted.text offset

def Scene.warning (scene : Scene) (offset : Nat) (cause : AccessorWarning) : Diagnostic :=
  ⟨cause.code, .warning, cause.message, scene.file, scene.lineAt offset, none⟩

/-- Replace the forms in a part of the text, which starts at a byte offset of the whole and behind
the character `before`. -/
def expand (scene : Scene) (before : Option Char) (offset : Nat) (text : Text) : Warned Text :=
  match text with
  | [] => pure []
  | c :: cs =>
    let found := find scene.session before c cs
    have fits := fits_find scene.session before c cs
    have := Cut.rest_length_lt fits.whole fits.taken
    let replaced : Warned Text := match form : found.form with
      | .copied => pure found.cut.taken
      | .refused warning => do
        Warned.warn (scene.warning offset warning)
        return found.cut.taken
      | .malformed cause =>
        Warned.fail (.fault (.allocation cause) scene.file (scene.lineAt offset))
      | .allocation replacement => pure replacement
      | .call call start arguments => do
        let expanded ← arguments.attach.mapM fun ⟨argument, member⟩ =>
          have := fits.arguments call start arguments form argument member
          expand scene none (offset + start + argument.offset) argument.text
        Warned.ofResult (call.emit expanded)
    do
      let front ← replaced
      let rest ← expand scene found.cut.taken.getLast?
        (offset + found.cut.taken.byteLength) found.cut.rest
      return front ++ rest
termination_by text.length
decreasing_by
  all_goals assumption

end Accessor

/-- Replace every accessor and allocation in pasted text.  Diagnostics are reported under `file`, on
the source lines of the text. -/
def Session.expandAccessors (session : Session) (file : String) (pasted : Pasted) : Warned Text :=
  Accessor.expand ⟨session, file, pasted⟩ none 0 pasted.text

def Session.expandDocument (session : Session) (document : Document) : Warned Text := do
  let pasted ← Warned.ofResult (session.paste document)
  session.expandAccessors document.file pasted

end FlatMemory
