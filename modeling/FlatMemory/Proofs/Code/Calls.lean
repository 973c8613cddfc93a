import FlatMemory.Proofs.Code.Generated
import FlatMemory.Proofs.Code.Members

/-! # Calls in generated code

Generated code calls functions of two kinds: dispatchers call implementations, and bodies call the
methods of `SELF`.  What is called is found by walking up the hierarchy from the class, and what is
defined is written class by class.  Every function that is called is defined by the code of the
class it is called on: an implementation and a plain method by the function of the declared body,
a virtual method by a dispatcher.

A call reaches the last function that the code gives a member.  Dispatchers come last, so a call of a
virtual method reaches one.  The function of a declared body can be replaced by a later one of the same
class; a call reaches it if there is none. -/

namespace FlatMemory

open List Option

variable {name : String} {index : Nat} {session : Session} {type : UserType}
  {reference : SelfReference.Reference}

namespace Session

variable {method : Method}

/-! ### The nearest declaration of a method -/

def DeclaresMethod (session : Session) (index : Nat) (name : String) (method : Method) : Prop :=
  ∃ type, session.types[index]? = some type ∧ method ∈ type.declaration.methods ∧
    method.name = name

/-- Of the classes at or above one, the nearest that declares a method of a name. -/
structure Nearest (session : Session) (derived : Nat) (name : String) (owner : Nat)
    (method : Method) : Prop where
  above : session.Inherits derived owner
  declares : session.DeclaresMethod owner name method
  nearest : ∀ other earlier, session.Inherits derived other →
    session.DeclaresMethod other name earlier → session.Inherits owner other

theorem Wellformed.methodOwner_eq (wellformed : Wellformed session)
    (found : session.types[index]? = some type) (name : String) :
    SelfReference.methodOwner? session type name =
      match type.declaration.method? name with
      | some method => some (type, method)
      | none => (session.baseAt index).bind fun base => (session.types[base]?).bind fun baseType =>
          SelfReference.methodOwner? session baseType name := by
  unfold SelfReference.methodOwner?
  have isBase : session.baseAt index = type.base? := by simp [baseAt, found]
  rw [findSome?_cons, isBase]
  cases own : type.declaration.method? name with
  | some method => rfl
  | none =>
    cases derived : type.base? with
    | none => rfl
    | some base =>
      have inside := wellformed.resolved.baseAt_lt (isBase.trans derived)
      have there := getElem?_eq_getElem inside
      have above : session.baseAt base = (session.types[base]).base? := by simp [baseAt, there]
      simp only [map_none, map_some, Option.getD_some, bind_some,
        wellformed.ancestry_eq inside, there, above, typesAt, filterMap_cons]
      cases (session.types[base]).base? <;> rfl

theorem Readable.method?_eq_some (readable : Readable session) (member : type ∈ session.types)
    (declared : type.declaration.method? name = some method) :
    type.isClass = true ∧ method ∈ type.declaration.methods ∧ method.name = name := by
  have isMember := mem_of_find?_eq_some declared
  have named := find?_some declared
  simp only [Bool.and_eq_true, decide_eq_true_eq] at named
  exact ⟨((readable type member).kinds method isMember).symm.trans named.2, isMember, named.1⟩

theorem Readable.not_declaresMethod (readable : Readable session)
    (found : session.types[index]? = some type) (isClass : type.isClass = true)
    (undeclared : type.declaration.method? name = none) (method : Method) :
    ¬ session.DeclaresMethod index name method := by
  rintro ⟨other, there, member, named⟩
  rw [found] at there
  cases there
  have isNamed := (readable type (mem_of_getElem? found)).kinds method member
  have absent := find?_eq_none.1 undeclared method member
  rw [isNamed, named] at absent
  simp [show type.declaration.isClass = true from isClass] at absent

theorem Wellformed.nearest_of_methodOwner (wellformed : Wellformed session)
    (readable : Readable session) {owner : UserType} (found : session.types[index]? = some type)
    (search : SelfReference.methodOwner? session type name = some (owner, method)) :
    owner.isClass = true ∧
      ∃ place, session.types[place]? = some owner ∧ session.Nearest index name place method := by
  refine wellformed.base_induction (motive := fun index => ∀ type,
    session.types[index]? = some type →
    SelfReference.methodOwner? session type name = some (owner, method) → owner.isClass = true ∧
      ∃ place, session.types[place]? = some owner ∧ session.Nearest index name place method)
    ?_ index (lt_of_getElem? found) type found search
  intro index inside ih type found search
  rw [wellformed.methodOwner_eq found] at search
  split at search
  · next own declared =>
    cases search
    obtain ⟨isClass, member, named⟩ :=
      readable.method?_eq_some (mem_of_getElem? found) declared
    exact ⟨isClass, index, found, Relation.ReflTransGen.refl, ⟨_, found, member, named⟩,
      fun _ _ inherits _ => inherits⟩
  · next undeclared =>
    obtain ⟨base, derived, search⟩ := bind_eq_some_iff.1 search
    obtain ⟨baseType, there, search⟩ := bind_eq_some_iff.1 search
    obtain ⟨isClass, place, ownerFound, nearest⟩ := ih base derived baseType there search
    have isBase : type.base? = some base := by simpa [baseAt, found] using derived
    have derivedClass := (wellformed.resolved.base found isBase).1
    refine ⟨isClass, place, ownerFound, nearest.above.head derived, nearest.declares, ?_⟩
    intro other earlier inherits declares
    rcases (inherits_iff_of_base derived other).1 inherits with rfl | inherits
    · exact absurd declares (readable.not_declaresMethod found derivedClass undeclared earlier)
    · exact nearest.nearest other earlier inherits declares

/-! ### Definitions in generated code -/

def Defines (session : Session) (type : UserType) (statement : Statement) : Prop :=
  ∃ snippet statements, session.generate type = .ok snippet ∧
    session.statements type = .ok statements ∧
    snippet.text = Statement.written type.name statements ∧ statement ∈ statements

/-- What a call of a member of a class reaches: of the statements that give the member, the last. -/
def Reaches (session : Session) (type : UserType) (name : String) (statement : Statement) : Prop :=
  ∃ snippet statements, session.generate type = .ok snippet ∧
    session.statements type = .ok statements ∧
    snippet.text = Statement.written type.name statements ∧
    (Statement.definitions statements name).getLast? = some statement

end Session

/-- The code gives the member of a method again behind its function: for a dispatcher, or for a method
that is declared later. -/
def UserType.Replaces (type : UserType) (method : Method) : Prop :=
  method.staticName ∈ type.dispatchers.map Dispatcher.name ∨
    ∃ front back, type.declaration.methods = front ++ method :: back ∧
      method.staticName ∈ back.map Method.staticName

theorem Statement.getLast?_definitions {statement : Statement} (front : List Statement)
    {back : List Statement} (gives : statement.member? = some name)
    (absent : name ∉ back.filterMap Statement.member?) :
    (definitions (front ++ statement :: back) name).getLast? = some statement := by
  have none : definitions back name = [] := by
    rw [← length_eq_zero_iff, length_definitions, count_eq_zero]
    exact absent
  unfold definitions at none ⊢
  rw [filter_append, filter_cons_of_pos (by simpa using gives), none, getLast?_concat]

namespace Session

theorem functions_split {front back : List Method} {functions : List Statement}
    (written : session.functions type (front ++ method :: back) = .ok functions) :
    ∃ earlier body later, session.expandBody type method = .ok body ∧
      session.functions type back = .ok later ∧
      functions = earlier ++ .ofMethod method body :: later := by
  unfold Session.functions at written
  rw [mapM_append] at written
  obtain ⟨earlier, _, written⟩ := exists_of_bind_eq_ok written
  obtain ⟨others, behind, same⟩ := exists_of_bind_eq_ok written
  cases same
  rw [mapM_cons] at behind
  obtain ⟨_, isFunction, behind⟩ := exists_of_bind_eq_ok behind
  obtain ⟨later, isLater, same⟩ := exists_of_bind_eq_ok behind
  cases same
  obtain ⟨body, expanded, rfl⟩ := exists_of_map_eq_ok isFunction
  exact ⟨earlier, body, later, expanded, isLater, rfl⟩

section

variable (analysed : session.Analysed)
  (generates : ∀ type ∈ session.types, ∃ snippet, session.generate type = .ok snippet)
  (found : session.types[index]? = some type) (isClass : type.isClass = true)

include generates found isClass in
theorem exists_statements : ∃ snippet statements, session.generate type = .ok snippet ∧
    session.statements type = .ok statements ∧
    snippet.text = Statement.written type.name statements := by
  obtain ⟨snippet, generated⟩ := generates type (mem_of_getElem? found)
  have text : (session.generate type).map Snippet.text = _ := Generate.text_generate isClass
  rw [generated] at text
  obtain ⟨statements, written, same⟩ := exists_of_map_eq_ok text.symm
  exact ⟨snippet, statements, generated, written, same.symm⟩

include generates found isClass in
theorem defines_method (member : method ∈ type.declaration.methods) :
    ∃ body, session.expandBody type method = .ok body ∧
      session.Defines type (.ofMethod method body) ∧
      (¬ type.Replaces method → session.Reaches type method.staticName (.ofMethod method body)) := by
  obtain ⟨snippet, statements, generated, written, text⟩ :=
    exists_statements generates found isClass
  obtain ⟨base, functions, named, bodies, rfl⟩ := statements_ok written
  obtain ⟨front, back, split⟩ := append_of_mem member
  rw [split] at bodies
  obtain ⟨earlier, body, later, expanded, behind, rfl⟩ := functions_split bodies
  refine ⟨body, expanded, ⟨snippet, _, generated, written, text, by simp⟩, fun kept => ?_⟩
  refine ⟨snippet, _, generated, written, text, ?_⟩
  rw [append_assoc, cons_append, ← append_assoc]
  refine Statement.getLast?_definitions _ rfl ?_
  rw [filterMap_append, members_functions behind, members_dispatchers, mem_append]
  rintro (again | again)
  · exact kept (.inr ⟨front, back, split, again⟩)
  · exact kept (.inl again)

include analysed generates found isClass in
/-- Dispatchers of a class have different names, and they come last. -/
theorem Analysed.reaches_dispatcher {entry : Dispatcher} (member : entry ∈ type.dispatchers) :
    session.Reaches type entry.name (.ofDispatcher entry) := by
  obtain ⟨snippet, statements, generated, written, text⟩ :=
    exists_statements generates found isClass
  obtain ⟨base, functions, named, bodies, rfl⟩ := statements_ok written
  have distinct : (type.dispatchers.map Dispatcher.name).Nodup := by
    rw [analysed.dispatcherNames found isClass]
    exact (analysed.wellformed.visibleVirtuals_names (lt_of_getElem? found)).1
  refine ⟨snippet, _, generated, written, text, ?_⟩
  obtain ⟨front, back, split⟩ := append_of_mem member
  rw [split, map_append, map_cons, ← append_assoc, ← append_assoc]
  refine Statement.getLast?_definitions _ rfl ?_
  rw [split, map_append, map_cons] at distinct
  rw [members_dispatchers]
  exact (nodup_cons.1 (nodup_append.1 distinct).2.1).1

end

/-! ### What is called -/

end Session

namespace Session

end Session

theorem SelfReference.Refers.uses {afterDot : Bool} {tokens : List Token} {front inner back : Text}
    (refers : Refers session type afterDot tokens front reference inner back) :
    ∃ path after rest, Uses session type path after reference rest := by
  induction refers with
  | here _ uses => exact ⟨_, _, _, uses⟩
  | behindToken _ _ ih => exact ih
  | behind _ _ _ _ _ ih => exact ih
  | inside _ _ _ _ ih => exact ih

/-- What a call of a method on `SELF` in a body of a class leads to: the dispatcher of the class
if the nearest declaration is virtual, and else the body that is declared there, unless its function
is replaced. -/
inductive Session.CallLeads (session : Session) (index : Nat) (type : UserType) (name : String) :
    String → Prop
  | dispatched {place : Nat} {method : Method} {entry : Dispatcher}
    (nearest : session.Nearest index name place method) (isVirtual : method.kind = .virtual)
    (member : entry ∈ type.dispatchers) (named : entry.name = name)
    (reached : session.Reaches type name (.ofDispatcher entry)) :
    CallLeads session index type name type.name
  | declared {place : Nat} {method : Method} {owner : UserType} {body : Text}
    (nearest : session.Nearest index name place method) (plain : method.kind ≠ .virtual)
    (there : session.types[place]? = some owner) (isClass : owner.isClass = true)
    (expanded : session.expandBody owner method = .ok body)
    (defined : session.Defines owner (.ofMethod method body))
    (reached : ¬ owner.Replaces method → session.Reaches owner name (.ofMethod method body)) :
    CallLeads session index type name owner.name

theorem Session.Analysed.leads (analysed : session.Analysed) (readable : session.Readable)
    (generates : ∀ type ∈ session.types, ∃ snippet, session.generate type = .ok snippet)
    (found : session.types[index]? = some type) {declarer : UserType} {method : Method}
    (search : SelfReference.methodOwner? session type name = some (declarer, method)) :
    type.isClass = true ∧
      session.CallLeads index type name (if method.kind = .virtual then type else declarer).name := by
  obtain ⟨declarerClass, place, there, nearest⟩ :=
    analysed.wellformed.nearest_of_methodOwner readable found search
  obtain ⟨_, sameType, member, named⟩ := nearest.declares
  rw [there] at sameType
  cases sameType
  have isClass := analysed.wellformed.resolved.isClass_of_inherits there declarerClass
    nearest.above found
  refine ⟨isClass, ?_⟩
  split
  · next isVirtual =>
    have visible : name ∈ type.dispatchers.map Dispatcher.name := by
      rw [analysed.dispatcherNames found isClass,
        (analysed.wellformed.visibleVirtuals_names (lt_of_getElem? found)).2]
      exact ⟨place, nearest.above, declarer, there, method, member, isVirtual, named⟩
    obtain ⟨entry, isEntry, rfl⟩ := mem_map.1 visible
    exact .dispatched nearest isVirtual isEntry rfl
      (analysed.reaches_dispatcher generates found isClass isEntry)
  · next plain =>
    obtain ⟨body, expanded, defined, reached⟩ := defines_method generates there declarerClass member
    rw [Method.staticName, if_neg plain, named] at reached
    exact .declared nearest plain there declarerClass expanded defined reached

end FlatMemory
