import FlatMemory.Proofs.Code.BodyOutline
import FlatMemory.Proofs.Code.Paste

/-! # Scanning generated code

The lines that are generated quote a word now and then and are plain text otherwise, so a scan gets
through them whatever follows, and so it does through the bodies of methods in their braces.  The body
of each declared method stands behind text that a scan gets through. -/

namespace FlatMemory

open List Session Option

variable {snippet : Snippet} {methods : List Method} {text : Text}

def Passable (text : Text) : Prop := ∀ rest, Text.Meets text rest

namespace Passable

theorem nil : Passable [] := Text.Meets.nil

theorem append {first second : Text} (passable : Passable first) (goesOn : Passable second) :
    Passable (first ++ second) :=
  fun rest => (passable _).append (goesOn rest)

theorem of_plain (plain : ∀ c ∈ text, isPlain c = true) : Passable text := Text.Meets.of_plain plain

end Passable

/-! ### Quoting -/

/-- Whether a text ends inside quotes, given whether it starts there.  Quotes hold no escapes and no
line breaks, and nothing else opens a literal. -/
def quoting : Bool → Text → Option Bool
  | inside, [] => some inside
  | inside, c :: cs =>
    if c = '"' then quoting (!inside) cs
    else if inside then if c = '\\' ∨ c = '\n' then none else quoting true cs
    else if isPlain c then quoting false cs else none

theorem quoting_append (inside : Bool) (first second : Text) :
    quoting inside (first ++ second) = (quoting inside first).bind (quoting · second) := by
  induction first generalizing inside with
  | nil => rfl
  | cons c cs ih =>
    rw [cons_append, quoting, quoting]
    split
    · exact ih _
    split
    · split
      · rfl
      · exact ih _
    · split
      · exact ih _
      · rfl

theorem quoting_closed {inside : Bool} (ends : quoting true text = some inside) :
    inside = true ∨ ∃ word later, text = word ++ '"' :: later ∧
      (∀ c ∈ word, c ≠ '"' ∧ c ≠ '\\' ∧ c ≠ '\n') ∧ quoting false later = some inside := by
  induction text with
  | nil => exact .inl (Option.some.inj ends).symm
  | cons c cs ih =>
    rw [quoting] at ends
    split at ends
    · next quote => exact .inr ⟨[], cs, by rw [quote]; rfl, by simp, ends⟩
    next notQuote =>
    rw [if_pos rfl] at ends
    split at ends
    · cases ends
    next solid =>
    rcases ih ends with stays | ⟨word, later, rfl, plain, closes⟩
    · exact .inl stays
    · refine .inr ⟨c :: word, later, rfl, forall_mem_cons.2 ⟨?_, plain⟩, closes⟩
      exact ⟨notQuote, fun same => solid (.inl same), fun same => solid (.inr same)⟩

theorem sealed_word {word : Text} (plain : ∀ c ∈ word, c ≠ '"' ∧ c ≠ '\\' ∧ c ≠ '\n') :
    Literal.Sealed ('"' :: (word ++ ['"'])) := by
  have closes : ∀ rest, Literal.quoted '"' (word ++ '"' :: rest) = ⟨word ++ ['"'], rest⟩ := by
    intro rest
    induction word with
    | nil => simp [Literal.quoted]
    | cons c cs ih =>
      obtain ⟨⟨notQuote, notEscape, notFeed⟩, later⟩ := forall_mem_cons.1 plain
      rw [cons_append, Literal.quoted, if_neg notQuote, if_neg notFeed, ih later]
      · rfl
      · rintro same _
        exact notEscape same
      · rintro d ds same _
        exact notEscape same
  refine ⟨fun rest => ?_, '"' :: word, '"', rfl, by decide⟩
  simp [Literal.first?, closes, Cut.after]

theorem passable_of_quoting (ends : quoting false text = some false) : Passable text := by
  induction count : text.length using Nat.strongRecOn generalizing text with
  | ind size ih =>
    cases text with
    | nil => exact .nil
    | cons c cs =>
      rw [quoting] at ends
      split at ends
      · next quote =>
        rcases quoting_closed ends with stays | ⟨word, later, rfl, plain, closes⟩
        · cases stays
        · have word : Passable _ := Text.Meets.of_sealed (sealed_word plain)
          have whole := word.append (ih later.length
            (by rw [← count]; simp only [length_cons, length_append]; omega) closes rfl)
          rw [quote]
          simpa using whole
      · rw [if_neg (by simp)] at ends
        split at ends
        · next plain =>
          have single : Passable [c] := .of_plain (by simpa using plain)
          exact single.append (ih cs.length (by rw [← count]; simp) ends rfl)
        · cases ends

def Neutral (text : Text) : Prop := ∀ inside, quoting inside text = some inside

theorem Neutral.append {first second : Text} (one : Neutral first) (two : Neutral second) :
    Neutral (first ++ second) := by
  intro inside
  rw [quoting_append, one]
  exact two inside

theorem neutral_of_parts (parts : ∀ c ∈ text, isIdentPart c = true ∨ c = '.') : Neutral text := by
  intro inside
  induction text with
  | nil => rfl
  | cons c cs ih =>
    obtain ⟨part, later⟩ := forall_mem_cons.1 parts
    have plain : isPlain c = true ∧ c ≠ '"' ∧ c ≠ '\\' ∧ c ≠ '\n' := by
      rcases part with part | rfl
      · refine ⟨(Lexeme.isInert_iff.1 (Lexeme.inert_isIdentPart part)).1, ?_, ?_, ?_⟩
        all_goals
          rintro rfl
          cases part
      · decide
    rw [quoting, if_neg plain.2.1]
    cases inside with
    | false => rw [if_neg (by simp), if_pos plain.1, ih later]
    | true => rw [if_pos rfl, if_neg (by simp [plain.2.2]), ih later]

theorem IsIdentifier.neutral {name : String} (identifier : IsIdentifier name) :
    Neutral name.toList :=
  neutral_of_parts fun c member => .inl (identifier.parts c member)

theorem neutral_number (n : Nat) : Neutral (toString n).toList := by
  refine neutral_of_parts fun c member => .inl ?_
  rw [show (toString n).toList = Nat.toDigits 10 n from Nat.toList_repr] at member
  exact Lexeme.isIdentPart_of_isDigit (Nat.isDigit_of_mem_toDigits (by decide) (by decide) member)

/-! ### Generated lines -/

def Clean (line : String) : Prop := quoting false line.toList = some false

theorem Clean.passable {line : String} (clean : Clean line) : Passable line.toList :=
  passable_of_quoting clean

structure Spelling (session : Session) (type : UserType) : Prop where
  name : Neutral type.name.toList
  fields : ∀ field ∈ type.declaration.fields, Neutral field.name.toList
  methods : type.isClass = true → ∀ method ∈ type.declaration.methods, Neutral method.name.toList
  parameters : ∀ method ∈ type.declaration.methods, ∀ parameter ∈ method.parameters,
    Neutral parameter.toList
  base : ∀ index base, type.base? = some index → session.types[index]? = some base →
    Neutral base.name.toList
  dispatchers : type.isClass = true → ∀ entry ∈ type.dispatchers, Neutral entry.name.toList ∧
    (∀ parameter ∈ entry.parameters, Neutral parameter.toList) ∧
    (∀ entryCase ∈ entry.cases, Neutral entryCase.implementation.toList) ∧
    ∀ implementation, entry.fallback = some implementation → Neutral implementation.toList

theorem neutral_implementationName {type method : String} (isType : IsIdentifier type)
    (isMethod : IsIdentifier method) : Neutral (implementationName type method).toList := by
  refine neutral_of_parts fun c member => ?_
  simp only [implementationName, String.toList_append, mem_append] at member
  rcases member with ((member | member) | member) | member
  · exact .inl (isType.parts c member)
  · exact .inr (by simpa using member)
  · exact .inl (isMethod.parts c member)
  · exact .inl (all_eq_true.1 (show "_impl".toList.all isIdentPart = true by decide) c member)

namespace Session

variable {session : Session} {name : String} {entry : DispatchCase} {method : Method}

theorem mem_of_implementor? {start : Nat} {stop : Option Nat} {owner : UserType}
    (found : session.implementor? start name stop = some owner) : owner ∈ session.types := by
  obtain ⟨index, _, isThere⟩ := mem_filterMap.1 (mem_of_find?_eq_some found)
  exact mem_of_getElem? isThere

theorem mem_addCase {cases : List DispatchCase} {implementation : String} {id : Nat}
    (member : entry ∈ addCase cases implementation id) :
    entry.implementation = implementation ∨
      ∃ earlier ∈ cases, entry.implementation = earlier.implementation := by
  induction cases with
  | nil => exact .inl (by rw [mem_singleton.1 member])
  | cons first later ih =>
    unfold addCase at member
    split at member
    · rcases mem_cons.1 member with rfl | member
      · exact .inr ⟨first, mem_cons_self, rfl⟩
      · exact .inr ⟨entry, mem_cons_of_mem _ member, rfl⟩
    · rcases mem_cons.1 member with rfl | member
      · exact .inr ⟨entry, mem_cons_self, rfl⟩
      · rcases ih member with same | ⟨earlier, isEarlier, same⟩
        · exact .inl same
        · exact .inr ⟨earlier, mem_cons_of_mem _ isEarlier, same⟩

theorem mem_dispatchCases {subtree : List Nat} {base : Option Nat}
    (member : entry ∈ session.dispatchCases subtree name base) :
    ∃ index owner, session.implementor? index name base = some owner ∧
      entry.implementation = implementationName owner.name name := by
  unfold dispatchCases at member
  induction subtree using List.reverseRecOn generalizing entry with
  | nil => cases member
  | append_singleton subtree index ih =>
    rw [foldl_append, foldl_cons, foldl_nil] at member
    split at member
    · next implementor _ isImplementor _ =>
      rcases mem_addCase member with same | ⟨earlier, isEarlier, same⟩
      · exact ⟨index, implementor, isImplementor, same⟩
      · rw [same]
        exact ih isEarlier
    · exact ih member

theorem mem_of_mem_firstOfEachName (member : method ∈ firstOfEachName methods) :
    method ∈ methods := by
  unfold firstOfEachName at member
  induction methods using List.reverseRecOn with
  | nil => cases member
  | append_singleton methods last ih =>
    rw [foldl_append, foldl_cons, foldl_nil] at member
    rw [mem_append]
    split at member
    · exact .inl (ih member)
    · exact (mem_append.1 member).imp_left ih

theorem mem_visibleVirtuals {index : Nat} (member : method ∈ session.visibleVirtuals index) :
    ∃ owner ∈ session.types, method ∈ owner.declaration.methods ∧ method.kind = .virtual := by
  obtain ⟨owner, isOwner, isMethod⟩ := mem_flatMap.1 (mem_of_mem_firstOfEachName member)
  obtain ⟨place, _, isThere⟩ := mem_filterMap.1 isOwner
  obtain ⟨isMethod, isVirtual⟩ := mem_filter.1 isMethod
  exact ⟨owner, mem_of_getElem? isThere, isMethod, by simpa using isVirtual⟩

end Session

theorem Accepts.spelling {declarations : List Declaration} {session : Session}
    (accepts : Accepts declarations session) {index : Nat} {type : UserType}
    (found : session.types[index]? = some type) : Spelling session type := by
  have wellFormed : ∀ other ∈ session.types, other.declaration.WellFormed := accepts.readable
  have here := wellFormed type (mem_of_getElem? found)
  have methodNamed : ∀ other ∈ session.types, ∀ method ∈ other.declaration.methods,
      method.kind.isNamed = true → IsIdentifier method.name := by
    intro other isOther method isMethod isNamed
    refine (wellFormed other isOther).identifiers _ (mem_append_right _ ?_)
    exact mem_map_of_mem (mem_filter.2 ⟨isMethod, isNamed⟩)
  refine ⟨here.named.neutral, ?_, ?_, ?_, ?_, ?_⟩
  · intro field isField
    exact (here.identifiers _ (mem_append_left _ (mem_map_of_mem isField))).neutral
  · intro isClass method isMethod
    refine (methodNamed type (mem_of_getElem? found) method isMethod ?_).neutral
    rw [here.kinds method isMethod]
    exact isClass
  · intro method isMethod parameter isParameter
    exact ((here.captured method isMethod).parameters parameter isParameter).neutral
  · intro _ base _ isBase
    exact (wellFormed base (mem_of_getElem? isBase)).named.neutral
  · intro isClass entry isEntry
    rw [accepts.sound.dispatched index type found isClass] at isEntry
    obtain ⟨method, isVisible, rfl⟩ := mem_map.1 isEntry
    obtain ⟨owner, isOwner, isMethod, isVirtual⟩ := mem_visibleVirtuals isVisible
    have named := methodNamed owner isOwner method isMethod (by rw [isVirtual]; rfl)
    have implemented : ∀ other ∈ session.types,
        Neutral (implementationName other.name method.name).toList := fun other isOther =>
      neutral_implementationName (wellFormed other isOther).named named
    refine ⟨named.neutral, ?_, ?_, ?_⟩
    · intro parameter isParameter
      exact (((wellFormed owner isOwner).captured method isMethod).parameters parameter
        isParameter).neutral
    · intro entryCase isCase
      obtain ⟨_, other, isOther, same⟩ := mem_dispatchCases isCase
      rw [same]
      exact implemented other (mem_of_implementor? isOther)
    · intro implementation isFallback
      dsimp only [Session.fallback] at isFallback
      split at isFallback
      · cases isFallback
      · split at isFallback
        · cases isFallback
        · obtain ⟨other, isOther, rfl⟩ := map_eq_some_iff.1 isFallback
          exact implemented other (mem_of_implementor? isOther)

theorem neutral_parameterList {parameters : List String}
    (neutral : ∀ parameter ∈ parameters, Neutral parameter.toList) :
    Neutral (Snippet.parameterList parameters).toList := by
  have comma : Neutral ", ".toList := by
    intro inside
    cases inside <;> decide
  have self : Neutral selfName.toList := by
    intro inside
    cases inside <;> decide
  unfold Snippet.parameterList
  generalize selfName = first at self
  induction parameters generalizing first with
  | nil => simpa using self
  | cons second parameters ih =>
    obtain ⟨isSecond, others⟩ := forall_mem_cons.1 neutral
    rw [String.intercalate_cons_cons, String.toList_append, String.toList_append]
    exact (self.append comma).append (ih others second isSecond)

namespace Generate

variable {session : Session} {type : UserType}

section

variable (spelling : Spelling session type)

include spelling

theorem clean_metadata : ∀ line ∈ metadata type, Clean line := by
  have size := neutral_number type.size
  have align := neutral_number type.align
  simp only [metadata, forall_mem_cons, not_mem_nil, false_imp_iff, implies_true, and_true,
    Clean, String.toList_append, quoting_append, spelling.name _, size _, align _, bind_some]
  decide

theorem clean_defaultGetter : ∀ line ∈ defaultGetter type, Clean line := by
  have fields : ∀ line ∈ type.declaration.fields.map (fun field =>
      "  v." ++ field.name ++ " = " ++ type.name ++ "." ++ field.name ++ "(SELF);"), Clean line := by
    intro line member
    obtain ⟨field, isField, rfl⟩ := mem_map.1 member
    simp only [Clean, String.toList_append, quoting_append, spelling.name _,
      spelling.fields field isField _]
    decide
  simp only [defaultGetter, mem_append, or_imp, forall_and, forall_mem_cons,
    not_mem_nil, false_imp_iff, implies_true, and_true]
  refine ⟨⟨?_, fields⟩, ?_⟩
  · simp only [Clean, String.toList_append, quoting_append, spelling.name _, bind_some]
    decide
  · simp only [Clean]
    decide

theorem clean_defaultSetter : ∀ line ∈ defaultSetter type, Clean line := by
  have fields : ∀ line ∈ type.declaration.fields.map (fun field =>
      "  " ++ type.name ++ "." ++ field.name ++ ".set(SELF, v." ++ field.name ++ ");"),
      Clean line := by
    intro line member
    obtain ⟨field, isField, rfl⟩ := mem_map.1 member
    simp only [Clean, String.toList_append, quoting_append, spelling.name _,
      spelling.fields field isField _]
    decide
  simp only [defaultSetter, mem_append, or_imp, forall_and, forall_mem_cons,
    not_mem_nil, false_imp_iff, implies_true, and_true]
  refine ⟨⟨?_, fields⟩, ?_⟩
  · simp only [Clean, String.toList_append, quoting_append, spelling.name _, bind_some]
    decide
  · simp only [Clean]
    decide

theorem clean_classHead {base : Option String}
    (known : ∀ name, base = some name → Neutral name.toList) :
    ∀ line ∈ classHead type base, Clean line := by
  have id := neutral_number type.classId
  have baseName : Neutral (base.getD "null").toList := by
    cases base with
    | none =>
      intro inside
      cases inside <;> decide
    | some name => exact known name rfl
  unfold classHead
  simp only [mem_append, or_imp, forall_and, forall_mem_cons,
    not_mem_nil, false_imp_iff, implies_true, and_true]
  refine ⟨⟨⟨?_, ?_⟩, clean_metadata spelling⟩, ?_⟩
  · cases base with
    | none => simp
    | some name =>
      simp only [forall_mem_cons, not_mem_nil, false_imp_iff, implies_true, and_true,
        Clean, String.toList_append, quoting_append, spelling.name _, known name rfl _,
        bind_some]
      decide
  · simp only [Clean, String.toList_append, quoting_append, spelling.name _]
    decide
  · simp only [Clean, String.toList_append, quoting_append, spelling.name _, id _, baseName _,
      bind_some]
    decide

theorem clean_dispatcher (isClass : type.isClass = true) {entry : Dispatcher}
    (member : entry ∈ type.dispatchers) : ∀ line ∈ dispatcher type.name entry, Clean line := by
  obtain ⟨named, parameters, implementations, fallback⟩ :=
    spelling.dispatchers isClass entry member
  have list := neutral_parameterList parameters
  have cases : ∀ line ∈ entry.cases.flatMap (fun dispatchCase =>
      dispatchCase.ids.map (fun id => "    case " ++ toString id ++ ":") ++
        ["      return " ++ dispatchCase.implementation ++ "(" ++
          Snippet.parameterList entry.parameters ++ ");"]), Clean line := by
    intro line isLine
    obtain ⟨entryCase, isCase, isLine⟩ := mem_flatMap.1 isLine
    rcases mem_append.1 isLine with isLine | isLine
    · obtain ⟨id, _, rfl⟩ := mem_map.1 isLine
      simp only [Clean, String.toList_append, quoting_append, neutral_number id _]
      decide
    · rw [mem_singleton] at isLine
      subst isLine
      simp only [Clean, String.toList_append, quoting_append, implementations entryCase isCase _,
        list _]
      decide
  unfold dispatcher
  simp only [mem_append, or_imp, forall_and, forall_mem_cons,
    not_mem_nil, false_imp_iff, implies_true, and_true]
  refine ⟨⟨?_, cases⟩, ?_, ?_, ?_⟩
  · simp only [Clean, String.toList_append, quoting_append, spelling.name _, named _, list _,
      bind_some]
    decide
  · simp only [Clean]
    decide
  · cases known : entry.fallback with
    | none =>
      exact show quoting false "      throw FlatJS._badType(SELF);".toList = some false by decide
    | some implementation =>
      simp only [Clean, String.toList_append, quoting_append, fallback implementation known _, list _]
      decide
  · simp only [Clean]
    decide

theorem clean_structStart : Clean ("function " ++ type.name ++ "() \x7b\x7d") := by
  simp only [Clean, String.toList_append, quoting_append, spelling.name _]
  decide

theorem neutral_accessor {suffix : String} (neutral : Neutral suffix.toList) :
    Neutral (type.name ++ suffix).toList := by
  rw [String.toList_append]
  exact spelling.name.append neutral

end

end Generate

/-! ### Bodies in braces -/

theorem passable_braced {body : Text} {marks : List Token} {ending : Ending}
    (outline : Outline [] body marks ending)
    (unbroken : ∀ mark ∈ marks, mark.isLiteral = true → ¬ mark.Continues) :
    Passable (Snippet.braced body) := by
  have opening : Passable ['{'] := .of_plain (by simp; decide)
  have closing : Passable ['}'] := .of_plain (by simp; decide)
  have feed : Passable ['\n'] := .of_plain (by simp; decide)
  have scanned : ∀ {text : Text} {marks : List Token} {ending : Ending} {rest : Text},
      Outline rest text marks ending →
      (∀ mark ∈ marks, mark.isLiteral = true → ¬ mark.Continues) → Text.Meets text rest := by
    intro text marks ending rest outline unbroken
    obtain ⟨early, same, _⟩ := outline.scan unbroken
    exact ⟨early, same⟩
  unfold Snippet.braced
  split
  · refine opening.append ?_
    by_cases comment : ending = .comment
    · subst comment
      obtain ⟨changed, trimmed, literals⟩ := outline.trimEnd_comment
      have inside : Passable (body.trimEnd ++ ['\n']) := fun rest =>
        scanned (trimmed rest) (Token.unbroken_of_literals literals unbroken)
      simpa using inside.append closing
    · exact fun rest => (scanned (outline.trimEnd comment ⟨by simp, by simp⟩) unbroken).append
        ((feed.append closing) rest)
  · exact opening.append fun rest =>
      (scanned (outline.change ⟨by simp, by simp⟩) unbroken).append (closing rest)

/-! ### Snippets -/

def Snippet.functionHead (target : String) (method : Method) : String :=
  target ++ " = function (" ++ parameterList method.parameters ++ ") "

theorem clean_functionHead {target : String} {method : Method} (named : Neutral target.toList)
    (parameters : ∀ parameter ∈ method.parameters, Neutral parameter.toList) :
    Clean (Snippet.functionHead target method) := by
  have list := neutral_parameterList parameters
  simp only [Clean, Snippet.functionHead, String.toList_append, quoting_append, named _, list _]
  decide

structure Carries (functions : List (String × Text)) (text : Text) : Prop where
  starts : text.head? = some 'f'
  passable : Passable text
  holds : ∀ head body, (head, body) ∈ functions → ∃ before after,
    text = before ++ (head.toList ++ (Snippet.braced body ++ after)) ∧
      Passable (before ++ head.toList)

namespace Carries

variable {functions : List (String × Text)}

theorem append (carries : Carries functions text) {more : Text} (passable : Passable more) :
    Carries functions (text ++ more) := by
  refine ⟨by rw [head?_append, carries.starts, some_or],
    carries.passable.append passable, fun head body member => ?_⟩
  obtain ⟨before, after, rfl, leads⟩ := carries.holds head body member
  exact ⟨before, after ++ more, by simp, leads⟩

theorem line (carries : Carries functions snippet.text) {line : String} (clean : Clean line) :
    Carries functions (snippet.addLine line).text := by
  have feed : Passable ['\n'] := .of_plain (by simp; decide)
  exact carries.append (feed.append clean.passable)

theorem function (carries : Carries functions snippet.text) {target : String} {method : Method}
    {body : Text} (named : Neutral target.toList)
    (parameters : ∀ parameter ∈ method.parameters, Neutral parameter.toList)
    (passable : Passable (Snippet.braced body)) :
    Carries (functions ++ [(Snippet.functionHead target method, body)])
      (snippet.addFunction target method body).text := by
  have opened := carries.line (clean_functionHead named parameters)
  have semicolon : Passable [';'] := .of_plain (by simp; decide)
  have whole := (opened.append passable).append semicolon
  refine ⟨whole.starts, whole.passable, fun other inside member => ?_⟩
  rcases mem_append.1 member with member | member
  · exact whole.holds other inside member
  · cases mem_singleton.1 member
    have leads : Passable (snippet.text ++ '\n' :: (Snippet.functionHead target method).toList) :=
      opened.passable
    refine ⟨snippet.text ++ ['\n'], [';'], ?_, by simpa using leads⟩
    simp [Snippet.addFunction, Snippet.addLine, Snippet.functionHead]

end Carries

/-! ### The code of a type -/

namespace Generate

variable {session : Session} {type : UserType} {method : Method}

def definedName (type : UserType) (method : Method) : String :=
  match method.kind with
  | .get => type.name ++ "._get_impl"
  | .set => type.name ++ "._set_impl"
  | .virtual | .nonVirtual => functionName type method

theorem definedName_eq (isClass : type.isClass = true) (wellFormed : type.declaration.WellFormed)
    (member : method ∈ type.declaration.methods) :
    definedName type method = functionName type method := by
  have isNamed := (wellFormed.kinds method member).trans isClass
  unfold definedName
  cases kind : method.kind with
  | virtual => rfl
  | nonVirtual => rfl
  | get => simp [kind, MethodKind.isNamed] at isNamed
  | set => simp [kind, MethodKind.isNamed] at isNamed

def writtenMethods (type : UserType) : List Method :=
  if type.isClass then type.declaration.methods
  else (type.declaration.methodOfKind? .get).toList ++ (type.declaration.methodOfKind? .set).toList

theorem mem_writtenMethods (wellFormed : type.declaration.WellFormed) :
    method ∈ writtenMethods type ↔ method ∈ type.declaration.methods := by
  unfold writtenMethods
  split
  · rfl
  · next notClass =>
    rw [mem_append, mem_toList, mem_toList]
    constructor
    · rintro (getter | setter)
      · exact mem_of_find?_eq_some getter
      · exact mem_of_find?_eq_some setter
    · intro member
      have unnamed : method.kind.isNamed = false := by
        rw [wellFormed.kinds method member]
        simpa [UserType.isClass] using notClass
      have single := wellFormed.single method member unnamed
      cases kind : method.kind with
      | virtual =>
        rw [kind] at unnamed
        cases unnamed
      | nonVirtual =>
        rw [kind] at unnamed
        cases unnamed
      | get => exact .inl (by rw [← kind, single])
      | set => exact .inr (by rw [← kind, single])

def CarriesAll (session : Session) (type : UserType) (methods : List Method) (text : Text) : Prop :=
  ∃ functions, Carries functions text ∧ ∀ method ∈ methods, ∃ body,
    session.expandBody type method = .ok body ∧
      (Snippet.functionHead (definedName type method) method, body) ∈ functions

theorem neutral_functionName (spelling : Spelling session type) (isClass : type.isClass = true)
    (member : method ∈ type.declaration.methods) : Neutral (functionName type method).toList := by
  have dot : Neutral ".".toList := by
    intro inside
    cases inside <;> decide
  have suffix : Neutral "_impl".toList := by
    intro inside
    cases inside <;> decide
  have named := (spelling.name.append dot).append (spelling.methods isClass method member)
  unfold functionName
  split
  · rw [implementationName, String.toList_append, String.toList_append, String.toList_append]
    exact named.append suffix
  · rw [String.toList_append, String.toList_append]
    exact named

theorem neutral_definedName (spelling : Spelling session type)
    (wellFormed : type.declaration.WellFormed) (member : method ∈ type.declaration.methods) :
    Neutral (definedName type method).toList := by
  have isNamed := wellFormed.kinds method member
  unfold definedName
  cases kind : method.kind with
  | get | set => exact neutral_accessor spelling (by rintro (_ | _) <;> decide)
  | virtual | nonVirtual =>
    rw [kind] at isNamed
    exact neutral_functionName spelling isNamed.symm member

/-- Code of a type so far: lines that close their quotes, and the functions of some methods. -/
inductive Builds (session : Session) (type : UserType) : List Method → Snippet → Prop
  | start {line : String} (starts : line.toList.head? = some 'f')
    (clean : Spelling session type → Clean line) :
    Builds session type [] (Snippet.ofLine type.declaration.line line)
  | line {methods : List Method} {snippet : Snippet} (built : Builds session type methods snippet)
    {line : String} (clean : Spelling session type → Clean line) :
    Builds session type methods (snippet.addLine line)
  | function {methods : List Method} {snippet : Snippet}
    (built : Builds session type methods snippet) {method : Method} {body : Text}
    (member : method ∈ type.declaration.methods)
    (expanded : session.expandBody type method = .ok body) :
    Builds session type (methods ++ [method])
      (snippet.addFunction (definedName type method) method body)

namespace Builds

variable {start : Snippet}

theorem lines {lines : List String} (built : Builds session type methods start)
    (clean : Spelling session type → ∀ line ∈ lines, Clean line) :
    Builds session type methods (start.addLines lines) := by
  induction lines generalizing start with
  | nil => exact built
  | cons line lines ih =>
    exact ih (built.line fun spelling => clean spelling line mem_cons_self)
      fun spelling other member => clean spelling other (mem_cons_of_mem _ member)

theorem accessor {kind : MethodKind} {target : String} {default : List String}
    (built : Builds session type methods start)
    (defined : ∀ method : Method, method.kind = kind → definedName type method = target)
    (clean : Spelling session type → ∀ line ∈ default, Clean line)
    (added : structAccessor session type kind target default start = .ok snippet) :
    Builds session type (methods ++ (type.declaration.methodOfKind? kind).toList) snippet := by
  unfold structAccessor at added
  split at added
  · next method found =>
    have isKind : method.kind = kind := by simpa using find?_some found
    obtain ⟨body, expanded, rfl⟩ := exists_of_map_eq_ok added
    rw [found, ← defined method isKind]
    exact built.function (mem_of_find?_eq_some found) expanded
  · next none =>
    cases added
    rw [none, toList_none, append_nil]
    exact built.lines clean

theorem functions (isClass : type.isClass = true) (wellFormed : type.declaration.WellFormed)
    (included : methods ⊆ type.declaration.methods) {earlier : List Method}
    (built : Builds session type earlier start)
    (added : methods.foldlM (addMethod session type) start = .ok snippet) :
    Builds session type (earlier ++ methods) snippet := by
  induction methods generalizing earlier start with
  | nil =>
    cases added
    rwa [append_nil]
  | cons method methods ih =>
    obtain ⟨member, others⟩ := cons_subset.1 included
    rw [foldlM_cons] at added
    obtain ⟨next, addedFirst, addedRest⟩ := exists_of_bind_eq_ok added
    unfold addMethod at addedFirst
    rw [← definedName_eq isClass wellFormed member] at addedFirst
    obtain ⟨body, expanded, rfl⟩ := exists_of_map_eq_ok addedFirst
    have rest := ih others (built.function member expanded) addedRest
    rwa [append_assoc] at rest

end Builds

theorem builds_structCode (generated : structCode session type = .ok snippet) :
    Builds session type ((type.declaration.methodOfKind? .get).toList ++
      (type.declaration.methodOfKind? .set).toList) snippet := by
  unfold structCode at generated
  obtain ⟨withGetter, getter, setter⟩ := exists_of_bind_eq_ok generated
  have start : Builds session type [] _ := .lines (.start (by simp) clean_structStart) clean_metadata
  have withGet := start.accessor (fun method isGet => by rw [definedName, isGet])
    clean_defaultGetter getter
  exact withGet.accessor (fun method isSet => by rw [definedName, isSet]) clean_defaultSetter setter

theorem builds_classCode (isClass : type.isClass = true) (wellFormed : type.declaration.WellFormed)
    (generated : classCode session type = .ok snippet) :
    Builds session type type.declaration.methods snippet := by
  have behind : ∀ base : Option String,
      (Spelling session type → ∀ name, base = some name → Neutral name.toList) → (do
        let withMethods ← type.declaration.methods.foldlM (addMethod session type)
          ((Snippet.ofLine type.declaration.line
            ("function " ++ type.name ++ "(p) \x7b this._pointer = (p|0); \x7d")).addLines
              (classHead type base))
        return withMethods.addLines (type.dispatchers.flatMap (dispatcher type.name))) =
          Except.ok snippet →
      Builds session type type.declaration.methods snippet := by
    intro base known generated
    obtain ⟨withMethods, added, generated⟩ := exists_of_bind_eq_ok generated
    cases generated
    have first : Builds session type [] (Snippet.ofLine type.declaration.line
        ("function " ++ type.name ++ "(p) \x7b this._pointer = (p|0); \x7d")) := by
      refine .start (by simp) fun spelling => ?_
      simp only [Clean, String.toList_append, quoting_append, spelling.name _]
      decide
    have head := first.lines fun spelling => clean_classHead spelling (known spelling)
    refine (head.functions isClass wellFormed (List.Subset.refl _) added).lines
      fun spelling line member => ?_
    obtain ⟨entry, isEntry, isLine⟩ := mem_flatMap.1 member
    exact clean_dispatcher spelling isClass isEntry line isLine
  unfold classCode at generated
  dsimp only at generated
  split at generated
  · exact behind none (by simp) generated
  · next index isBase =>
    obtain ⟨base, based, generated⟩ := exists_of_bind_eq_ok generated
    obtain ⟨baseType, found, rfl⟩ := exists_of_map_eq_ok based
    refine behind _ ?_ generated
    rintro spelling _ ⟨⟩
    exact spelling.base index _ isBase (Session.userAt_ok found)

theorem builds_generate (wellFormed : type.declaration.WellFormed)
    (generated : session.generate type = .ok snippet) :
    Builds session type (writtenMethods type) snippet := by
  unfold Session.generate at generated
  unfold writtenMethods
  split at generated
  · next isClass =>
    rw [if_pos isClass]
    exact builds_classCode isClass wellFormed generated
  · next notClass =>
    rw [if_neg notClass]
    exact builds_structCode generated

section

variable (spelling : Spelling session type)
  (passable : ∀ method ∈ type.declaration.methods, ∀ body,
    session.expandBody type method = .ok body → Passable (Snippet.braced body))
  (wellFormed : type.declaration.WellFormed)

include spelling passable wellFormed

theorem Builds.carries (built : Builds session type methods snippet) :
    CarriesAll session type methods snippet.text := by
  induction built with
  | start starts clean => exact ⟨[], ⟨starts, (clean spelling).passable, by simp⟩, by simp⟩
  | line _ clean ih =>
    obtain ⟨functions, carries, all⟩ := ih
    exact ⟨functions, carries.line (clean spelling), all⟩
  | @function _ _ _ method body member expanded ih =>
    obtain ⟨functions, carries, all⟩ := ih
    refine ⟨functions ++ [(Snippet.functionHead (definedName type method) method, body)],
      carries.function (neutral_definedName spelling wellFormed member)
        (spelling.parameters method member) (passable method member body expanded),
      fun other isOther => ?_⟩
    rcases mem_append.1 isOther with isOther | isOther
    · obtain ⟨found, expands, isFound⟩ := all other isOther
      exact ⟨found, expands, mem_append_left _ isFound⟩
    · rw [mem_singleton] at isOther
      subst isOther
      exact ⟨body, expanded, by simp⟩

/-- A scan gets through the code of a type, which holds the functions of its methods. -/
theorem carries_generate (generated : session.generate type = .ok snippet) :
    CarriesAll session type type.declaration.methods snippet.text := by
  obtain ⟨functions, carries, all⟩ :=
    (builds_generate wellFormed generated).carries spelling passable wellFormed
  exact ⟨functions, carries, fun method member => all method ((mem_writtenMethods wellFormed).2 member)⟩

end

end Generate

end FlatMemory
