import FlatMemory.Proofs.Program

/-! # Static members of a class

The code of a class is a list of statements, most of which give the class a static member: fixed
ones such as `SIZE`, a function for each declared method and a dispatcher for each visible virtual
one.  Some names are reserved, the fixed ones and the implementations of virtual methods, and some
are those that methods are called by.  Neither list repeats a name, so a member is given twice
exactly if a method is called by a reserved name. -/

namespace FlatMemory

open List

/-! ### Statements -/

inductive Statement where
  | assigned (member : String) (value : Text)
  /-- A member that is defined as a property. -/
  | property (member : String) (value : Text)
  /-- A statement that gives the class no static member. -/
  | other (text : Text)
  deriving DecidableEq, Repr

def Method.staticName (method : Method) : String :=
  if method.kind = .virtual then method.name ++ "_impl" else method.name

namespace Statement

def text (type : String) : Statement → Text
  | assigned member value => (type ++ "." ++ member ++ " = ").toList ++ (value ++ [';'])
  | property member value =>
    ("Object.defineProperty(" ++ type ++ ", \"" ++ member ++ "\", ").toList ++ (value ++ [')', ';'])
  | other text => text

/-- The static member that a statement gives the class. -/
def member? : Statement → Option String
  | assigned member _ => some member
  | property member _ => some member
  | other _ => none

def written (type : String) (statements : List Statement) : Text :=
  ['\n'].intercalate (statements.map (text type))

/-- The statements that give the class a member. -/
def definitions (statements : List Statement) (member : String) : List Statement :=
  statements.filter fun statement => statement.member? = some member

/-- Parameters as they are declared and passed on: the instance comes first. -/
def passed (parameters : List String) : String := ", ".intercalate ("SELF" :: parameters)

def function (parameters : List String) (block : Text) : Text :=
  ("function (" ++ passed parameters ++ ") ").toList ++ block

/-- A body on one line stands between braces as it is.  One of several lines loses blank text at its
end, and its brace is closed on a line of its own. -/
def block (body : Text) : Text :=
  if body.lineBreaks = 0 then ['{'] ++ body ++ ['}']
  else ['{'] ++ (body.reverse.dropWhile isBlank).reverse ++ ['\n', '}']

def ofMethod (method : Method) (body : Text) : Statement :=
  assigned method.staticName (function method.parameters (block body))

def switchLines (entry : Dispatcher) : List String :=
  let parameters := passed entry.parameters
  "  switch (_mem_int32[SELF >> 2]) \x7b" ::
    entry.cases.flatMap (fun dispatchCase =>
      dispatchCase.ids.map (fun id => "    case " ++ toString id ++ ":")
        ++ ["      return " ++ dispatchCase.implementation ++ "(" ++ parameters ++ ");"])
    ++ ["    default:",
        match entry.fallback with
        | some implementation => "      return " ++ implementation ++ "(" ++ parameters ++ ");"
        | none => "      throw FlatJS._badType(SELF);",
        "  \x7d"]

def ofDispatcher (entry : Dispatcher) : Statement :=
  assigned entry.name (function entry.parameters
    ('{' :: ((switchLines entry).flatMap (fun line => '\n' :: line.toList) ++ ['\n', '}'])))

def ofHead (type : UserType) (base : Option String) : List Statement :=
  let name := type.name
  let id := toString type.classId
  let inherits := match base with
    | none => []
    | some base =>
      [assigned "prototype" ("Object.create(" ++ base ++ ".prototype)").toList,
       other (name ++ ".prototype.constructor = " ++ name ++ ";").toList]
  other ("function " ++ name ++ "(p) \x7b this._pointer = (p|0); \x7d").toList ::
    inherits
    ++ [other ("Object.defineProperty(" ++ name ++
          ".prototype, \"pointer\", \x7b get: function () \x7b return this._pointer; \x7d \x7d);").toList,
        assigned "NAME" ("\"" ++ name ++ "\"").toList,
        assigned "SIZE" (toString type.size).toList,
        assigned "ALIGN" (toString type.align).toList,
        assigned "CLSID" id.toList,
        property "BASE" ("\x7b get: function () \x7b return " ++ base.getD "null" ++ "; \x7d \x7d").toList,
        assigned "initInstance"
          ("function (SELF) \x7b _mem_int32[SELF >> 2] = " ++ id ++ "; return SELF; \x7d").toList,
        other ("FlatJS._idToType[" ++ id ++ "] = " ++ name ++ ";").toList]

theorem written_cons (type : String) (first : Statement) (later : List Statement) :
    written type (first :: later) =
      first.text type ++ later.flatMap fun statement => '\n' :: statement.text type := by
  induction later generalizing first with
  | nil => simp [written]
  | cons second later ih =>
    have step := ih second
    simp only [written, map_cons, intercalate_cons_cons] at step ⊢
    rw [step]
    simp

theorem written_append {type : String} {first : List Statement} (some : first ≠ [])
    (later : List Statement) :
    written type (first ++ later) =
      written type first ++ later.flatMap fun statement => '\n' :: statement.text type := by
  obtain ⟨statement, more, rfl⟩ := exists_cons_of_ne_nil some
  simp [written_cons]

theorem block_eq_braced (body : Text) : block body = Snippet.braced body := by
  unfold block Snippet.braced
  by_cases long : '\n' ∈ body
  · have breaks : body.lineBreaks ≠ 0 := fun none => count_eq_zero.1 none long
    rw [if_neg breaks, if_pos long]
    simp [Text.trimEnd]
  · have breaks : body.lineBreaks = 0 := count_eq_zero.2 long
    rw [if_pos breaks, if_neg long]
    simp

theorem ofHead_ne_nil (type : UserType) (base : Option String) : ofHead type base ≠ [] :=
  cons_ne_nil _ _

end Statement

def Session.baseName (session : Session) (type : UserType) : Except Failure (Option String) :=
  match type.base? with
  | none => .ok none
  | some index => (session.userAt index).map fun base => some base.name

def Session.functions (session : Session) (type : UserType) (methods : List Method) :
    Except Failure (List Statement) :=
  methods.mapM fun method => (session.expandBody type method).map (Statement.ofMethod method)

def Session.statements (session : Session) (type : UserType) :
    Except Failure (List Statement) := do
  let base ← session.baseName type
  let functions ← session.functions type type.declaration.methods
  return Statement.ofHead type base ++ (functions ++ type.dispatchers.map Statement.ofDispatcher)

/-! ### The code of a class is the text of its statements -/

theorem Snippet.text_addLines (snippet : Snippet) (lines : List String) :
    (snippet.addLines lines).text =
      snippet.text ++ lines.flatMap fun line => '\n' :: line.toList := by
  induction lines generalizing snippet with
  | nil => simp [addLines]
  | cons line lines ih =>
    have step := ih (snippet.addLine line)
    simp only [addLines, foldl_cons] at step ⊢
    rw [step]
    simp [addLine]

namespace Generate

variable {session : Session} {type : UserType}

theorem text_head (type : UserType) (base : Option String) :
    ((Snippet.ofLine type.declaration.line
      ("function " ++ type.name ++ "(p) \x7b this._pointer = (p|0); \x7d")).addLines
        (classHead type base)).text = Statement.written type.name (Statement.ofHead type base) := by
  unfold Statement.ofHead
  rw [Snippet.text_addLines, cons_append, Statement.written_cons]
  cases base <;> simp [Snippet.ofLine, classHead, metadata, Statement.text]

theorem text_function (snippet : Snippet) (method : Method) (body : Text) :
    (snippet.addFunction (functionName type method) method body).text =
      snippet.text ++ '\n' :: (Statement.ofMethod method body).text type.name := by
  have named : functionName type method = type.name ++ "." ++ method.staticName := by
    unfold functionName Method.staticName
    split
    · rw [implementationName, ← String.append_assoc]
    · rfl
  simp [Snippet.addFunction, Snippet.addLine, Snippet.parameterList, selfName, Statement.ofMethod,
    Statement.text, Statement.function, Statement.passed, Statement.block_eq_braced, named]

theorem text_dispatcher (name : String) (entry : Dispatcher) :
    (dispatcher name entry).flatMap (fun line => '\n' :: line.toList) =
      '\n' :: (Statement.ofDispatcher entry).text name := by
  cases known : entry.fallback <;>
    simp [dispatcher, Snippet.parameterList, selfName, Statement.ofDispatcher, Statement.text,
      Statement.function, Statement.passed, Statement.switchLines, known]

theorem text_functions {start : Snippet} (methods : List Method) :
    (methods.foldlM (addMethod session type) start).map Snippet.text =
      (session.functions type methods).map fun functions =>
        start.text ++ functions.flatMap fun statement => '\n' :: statement.text type.name := by
  unfold Session.functions
  induction methods generalizing start with
  | nil => simp [Except.map, pure, Except.pure]
  | cons method methods ih =>
    rw [foldlM_cons, mapM_cons, addMethod]
    cases session.expandBody type method with
    | error failure => rfl
    | ok body =>
      have step := @ih (start.addFunction (functionName type method) method body)
      refine step.trans ?_
      rw [text_function]
      generalize (methods.mapM fun method =>
        (session.expandBody type method).map (Statement.ofMethod method)) = later
      cases later with
      | error failure => rfl
      | ok functions => simp [Except.map, bind, Except.bind, pure, Except.pure]

theorem text_dispatchers (name : String) (entries : List Dispatcher) :
    (entries.flatMap (dispatcher name)).flatMap (fun line => '\n' :: line.toList) =
      (entries.map Statement.ofDispatcher).flatMap fun statement => '\n' :: statement.text name := by
  rw [flatMap_assoc, flatMap_map]
  simp only [text_dispatcher]

theorem text_generate (isClass : type.isClass = true) :
    (session.generate type).map Snippet.text =
      (session.statements type).map (Statement.written type.name) := by
  have behind : ∀ base : Option String, (do
        let withMethods ← type.declaration.methods.foldlM (addMethod session type)
          ((Snippet.ofLine type.declaration.line
            ("function " ++ type.name ++ "(p) \x7b this._pointer = (p|0); \x7d")).addLines
              (classHead type base))
        return withMethods.addLines (type.dispatchers.flatMap (dispatcher type.name)) :
          Except Failure Snippet).map Snippet.text = (do
        let functions ← session.functions type type.declaration.methods
        return Statement.ofHead type base ++
          (functions ++ type.dispatchers.map Statement.ofDispatcher) :
          Except Failure (List Statement)).map (Statement.written type.name) := by
    intro base
    have added := @text_functions session type ((Snippet.ofLine type.declaration.line
      ("function " ++ type.name ++ "(p) \x7b this._pointer = (p|0); \x7d")).addLines
        (classHead type base)) type.declaration.methods
    rw [text_head] at added
    generalize type.declaration.methods.foldlM (addMethod session type) _ = withMethods at added ⊢
    generalize session.functions type type.declaration.methods = functions at added ⊢
    cases withMethods with
    | error failure =>
      cases functions with
      | error other =>
        cases added
        rfl
      | ok functions => cases added
    | ok snippet =>
      cases functions with
      | error other => cases added
      | ok functions =>
        have text : snippet.text = _ := Except.ok.inj added
        simp only [Except.map, bind, Except.bind, pure, Except.pure, Snippet.text_addLines, text,
          text_dispatchers, Statement.written_append (Statement.ofHead_ne_nil type base),
          flatMap_append, append_assoc]
  unfold Session.generate Session.statements Session.baseName
  rw [if_pos isClass, classCode]
  cases type.base? with
  | none => exact behind none
  | some index =>
    dsimp only
    cases session.userAt index with
    | error failure => rfl
    | ok base => exact behind (some base.name)

end Generate

/-! ### Names of members -/

namespace UserType

def fixedNames (type : UserType) : List String :=
  (if type.base?.isSome then ["prototype"] else []) ++
    ["NAME", "SIZE", "ALIGN", "CLSID", "BASE", "initInstance"]

/-- The members of a class: the fixed ones, one for each declared method and one for each
dispatcher. -/
def staticNames (type : UserType) : List String :=
  type.fixedNames ++ (type.declaration.methods.map Method.staticName ++
    type.dispatchers.map Dispatcher.name)

def reservedNames (type : UserType) : List String :=
  type.fixedNames ++
    (type.declaration.methods.filter fun method => method.kind = .virtual).map Method.staticName

def calledNames (type : UserType) : List String :=
  (type.declaration.methods.filter fun method => method.kind ≠ .virtual).map Method.staticName ++
    type.dispatchers.map Dispatcher.name

theorem staticNames_perm (type : UserType) :
    type.staticNames.Perm (type.reservedNames ++ type.calledNames) := by
  have parts := (filter_append_perm (fun method : Method => method.kind = .virtual)
    type.declaration.methods).map Method.staticName
  unfold staticNames reservedNames calledNames
  rw [map_append] at parts
  simp only [append_assoc]
  refine List.Perm.append_left _ ?_
  rw [← append_assoc]
  refine List.Perm.append_right _ (parts.symm.trans ?_)
  simp

end UserType

theorem Statement.members_ofHead (type : UserType) {base : Option String}
    (derived : base.isSome = type.base?.isSome) :
    (Statement.ofHead type base).filterMap Statement.member? = type.fixedNames := by
  unfold Statement.ofHead UserType.fixedNames
  rw [← derived]
  cases base <;> rfl

namespace Session

variable {session : Session} {type : UserType} {methods : List Method}
  {functions statements : List Statement}

theorem isSome_baseName {base : Option String} (named : session.baseName type = .ok base) :
    base.isSome = type.base?.isSome := by
  unfold baseName at named
  cases derived : type.base? with
  | none =>
    rw [derived] at named
    cases named
    rfl
  | some index =>
    rw [derived] at named
    obtain ⟨_, _, rfl⟩ := exists_of_map_eq_ok named
    rfl

theorem forall₂_functions (written : session.functions type methods = .ok functions) :
    List.Forall₂ (fun method function => ∃ body, session.expandBody type method = .ok body ∧
      function = .ofMethod method body) methods functions := by
  refine (forall₂_of_mapM_eq_ok written).imp fun method function mapped => ?_
  obtain ⟨body, expanded, same⟩ := exists_of_map_eq_ok mapped
  exact ⟨body, expanded, same.symm⟩

theorem members_functions (written : session.functions type methods = .ok functions) :
    functions.filterMap Statement.member? = methods.map Method.staticName := by
  have each := forall₂_functions written
  clear written
  induction each with
  | nil => rfl
  | cons first _ ih =>
    obtain ⟨body, _, rfl⟩ := first
    rw [map_cons, ← ih]
    rfl

theorem statements_ok (written : session.statements type = .ok statements) :
    ∃ base functions, session.baseName type = .ok base ∧
      session.functions type type.declaration.methods = .ok functions ∧
      statements = Statement.ofHead type base ++
        (functions ++ type.dispatchers.map Statement.ofDispatcher) := by
  obtain ⟨base, named, written⟩ := exists_of_bind_eq_ok written
  obtain ⟨functions, bodies, written⟩ := exists_of_bind_eq_ok written
  exact ⟨base, functions, named, bodies, (Except.ok.inj written).symm⟩

theorem members_dispatchers (entries : List Dispatcher) :
    (entries.map Statement.ofDispatcher).filterMap Statement.member? =
      entries.map Dispatcher.name := by
  rw [filterMap_map, ← filterMap_eq_map]
  rfl

/-- The statements of a class give it its members, in order. -/
theorem members_statements (written : session.statements type = .ok statements) :
    statements.filterMap Statement.member? = type.staticNames := by
  obtain ⟨base, functions, named, bodies, rfl⟩ := statements_ok written
  rw [filterMap_append, filterMap_append, members_functions bodies, members_dispatchers,
    Statement.members_ofHead type (isSome_baseName named), UserType.staticNames]

end Session

namespace Declaration.WellFormed

variable {declaration : Declaration}

theorem methodNames_nodup (wellFormed : declaration.WellFormed)
    (isClass : declaration.isClass = true) : (declaration.methods.map Method.name).Nodup := by
  have named : declaration.methods.filter (fun method => method.kind.isNamed) =
      declaration.methods := by
    rw [filter_eq_self]
    intro method member
    rw [wellFormed.kinds method member, isClass]
  have distinct := (nodup_append.1 wellFormed.distinct).2.1
  rwa [named] at distinct

end Declaration.WellFormed

theorem UserType.not_mem_fixedNames (type : UserType) (name : String) :
    name ++ "_impl" ∉ type.fixedNames := by
  have ends : ∀ fixed ∈ type.fixedNames, fixed.toList.getLast? ≠ some 'l' := by
    unfold fixedNames
    split <;> decide
  intro member
  refine ends _ member ?_
  simp

theorem UserType.reservedNames_nodup {type : UserType} (wellFormed : type.declaration.WellFormed)
    (isClass : type.isClass = true) : type.reservedNames.Nodup := by
  have suffixed : (type.declaration.methods.filter fun method => method.kind = .virtual).map
        Method.staticName =
      ((type.declaration.methods.filter fun method => method.kind = .virtual).map
        Method.name).map (· ++ "_impl") := by
    rw [map_map]
    refine map_congr_left fun method member => ?_
    have isVirtual := (mem_filter.1 member).2
    simp [Method.staticName, of_decide_eq_true isVirtual]
  unfold reservedNames
  rw [suffixed, nodup_append]
  refine ⟨?_, ?_, ?_⟩
  · unfold fixedNames
    split <;> decide
  · refine List.Nodup.map ?_
      ((wellFormed.methodNames_nodup isClass).sublist (filter_sublist.map _))
    intro first second same
    exact (String.append_left_inj _).1 same
  · rintro fixed isFixed _ member rfl
    obtain ⟨name, _, rfl⟩ := mem_map.1 member
    exact type.not_mem_fixedNames name isFixed

namespace Session

variable {session : Session} {index : Nat} {type : UserType}

theorem Analysed.dispatcherNames (analysed : session.Analysed)
    (found : session.types[index]? = some type) (isClass : type.isClass = true) :
    type.dispatchers.map Dispatcher.name = (session.visibleVirtuals index).map Method.name := by
  rw [analysed.dispatched index type found isClass, dispatchers, map_map]
  rfl

theorem Analysed.not_visible (analysed : session.Analysed) (readable : session.Readable)
    (found : session.types[index]? = some type) (isClass : type.isClass = true) {method : Method}
    (member : method ∈ type.declaration.methods) (plain : method.kind ≠ .virtual) :
    method.name ∉ (session.visibleVirtuals index).map Method.name := by
  have inside := lt_of_getElem? found
  have wellFormed := readable type (mem_of_getElem? found)
  rw [(analysed.wellformed.visibleVirtuals_names inside).2]
  rintro ⟨owner, above, declares⟩
  rcases Relation.ReflTransGen.cases_head above with rfl | ⟨base, derived, above⟩
  · obtain ⟨_, there, virtual, isMember, isVirtual, sameName⟩ := declares
    rw [found] at there
    cases there
    have same := inj_on_of_nodup_map (wellFormed.methodNames_nodup isClass) isMember member
      sameName
    exact plain (same ▸ isVirtual)
  · have isBase : type.base? = some base := by simpa [baseAt, found] using derived
    have isNamed := wellFormed.kinds method member
    have nonVirtual : method.kind = .nonVirtual := by
      rw [show type.declaration.isClass = true from isClass] at isNamed
      cases kind : method.kind with
      | nonVirtual => rfl
      | virtual => exact absurd kind plain
      | get => simp [kind, MethodKind.isNamed] at isNamed
      | set => simp [kind, MethodKind.isNamed] at isNamed
    obtain ⟨other, there, declares⟩ := declares
    have hides := analysed.unshadowed index type found isClass base isBase method member nonVirtual
      other.declaration (mem_map_of_mem (mem_filterMap.2 ⟨owner,
        (analysed.wellformed.mem_ancestry (analysed.wellformed.resolved.baseAt_lt derived) owner).2
          above, there⟩))
    rw [(readable.declaresVirtual_iff there method.name).1 ⟨other, there, declares⟩] at hides
    cases hides

theorem Analysed.calledNames_nodup (analysed : session.Analysed) (readable : session.Readable)
    (found : session.types[index]? = some type) (isClass : type.isClass = true) :
    type.calledNames.Nodup := by
  have wellFormed := readable type (mem_of_getElem? found)
  have plain : ∀ method ∈ type.declaration.methods.filter fun method => method.kind ≠ .virtual,
      method ∈ type.declaration.methods ∧ method.kind ≠ .virtual ∧
        method.staticName = method.name := by
    intro method member
    obtain ⟨isMember, notVirtual⟩ := mem_filter.1 member
    have notVirtual := of_decide_eq_true notVirtual
    exact ⟨isMember, notVirtual, by simp [Method.staticName, notVirtual]⟩
  unfold UserType.calledNames
  rw [map_congr_left fun method member => (plain method member).2.2,
    analysed.dispatcherNames found isClass, nodup_append]
  refine ⟨(wellFormed.methodNames_nodup isClass).sublist (filter_sublist.map _),
    (analysed.wellformed.visibleVirtuals_names (lt_of_getElem? found)).1, ?_⟩
  rintro name isPlain _ isVisible rfl
  obtain ⟨method, member, rfl⟩ := mem_map.1 isPlain
  obtain ⟨isMember, notVirtual, _⟩ := plain method member
  exact analysed.not_visible readable found isClass isMember notVirtual isVisible

end Session

/-! ### How often a member is given -/

/-- A method is called by a name that is reserved. -/
def UserType.Contested (type : UserType) (name : String) : Prop :=
  name ∈ type.reservedNames ∧ name ∈ type.calledNames

instance (type : UserType) (name : String) : Decidable (type.Contested name) :=
  inferInstanceAs (Decidable (_ ∧ _))

theorem Statement.length_definitions (statements : List Statement) (member : String) :
    (definitions statements member).length =
      (statements.filterMap Statement.member?).count member := by
  induction statements with
  | nil => rfl
  | cons statement statements ih =>
    unfold definitions at ih ⊢
    cases named : statement.member? with
    | none => simp [named, ih]
    | some name =>
      by_cases same : name = member
      · simp [named, same, ih]
      · simp [named, same, ih]

namespace Session.Analysed

variable {session : Session} (analysed : session.Analysed) (readable : session.Readable)
  {index : Nat} {type : UserType} (found : session.types[index]? = some type)
  (isClass : type.isClass = true)

include analysed readable found isClass

/-- A member is given once as a reserved name and once more as a name that is called. -/
theorem count_staticNames (name : String) :
    type.staticNames.count name =
      (if name ∈ type.reservedNames then 1 else 0) + if name ∈ type.calledNames then 1 else 0 := by
  have wellFormed := readable type (mem_of_getElem? found)
  rw [type.staticNames_perm.count_eq, count_append,
    (UserType.reservedNames_nodup wellFormed isClass).count,
    (analysed.calledNames_nodup readable found isClass).count]

theorem staticNames_nodup_iff :
    type.staticNames.Nodup ↔ ∀ name, ¬ type.Contested name := by
  rw [nodup_iff_count_le_one]
  refine forall_congr' fun name => ?_
  rw [analysed.count_staticNames readable found isClass, UserType.Contested]
  split <;> split <;> simp_all

/-- A statement is the only one for its member unless the name is contested. -/
theorem definitions_eq_iff {statements : List Statement}
    (written : session.statements type = .ok statements) {statement : Statement}
    (member : statement ∈ statements) {name : String} (gives : statement.member? = some name) :
    Statement.definitions statements name = [statement] ↔ ¬ type.Contested name := by
  have isDefinition : statement ∈ Statement.definitions statements name :=
    mem_filter.2 ⟨member, by simpa using gives⟩
  have length := Statement.length_definitions statements name
  rw [members_statements written, analysed.count_staticNames readable found isClass] at length
  unfold UserType.Contested
  constructor
  · rintro alone ⟨isReserved, isCalled⟩
    rw [alone, if_pos isReserved, if_pos isCalled] at length
    simp at length
  · intro free
    have atMost : (Statement.definitions statements name).length ≤ 1 := by
      rw [length]
      split <;> split <;> simp_all
    obtain ⟨first, alone⟩ := length_eq_one_iff.1
      (Nat.le_antisymm atMost (length_pos_of_mem isDefinition))
    rw [alone, mem_singleton] at isDefinition
    rw [alone, isDefinition]

end Session.Analysed

namespace Session

variable {session : Session} {type : UserType} {statements : List Statement}

theorem exists_ofMethod (written : session.statements type = .ok statements) {method : Method}
    (member : method ∈ type.declaration.methods) :
    ∃ body, session.expandBody type method = .ok body ∧ .ofMethod method body ∈ statements := by
  obtain ⟨base, functions, _, bodies, rfl⟩ := statements_ok written
  obtain ⟨_, isFunction, body, expanded, rfl⟩ :=
    exists_of_mem_forall₂ (forall₂_functions bodies) member
  exact ⟨body, expanded, by simp [isFunction]⟩

theorem ofDispatcher_mem (written : session.statements type = .ok statements) {entry : Dispatcher}
    (member : entry ∈ type.dispatchers) : .ofDispatcher entry ∈ statements := by
  obtain ⟨base, functions, _, _, rfl⟩ := statements_ok written
  simp only [mem_append, mem_map]
  exact .inr (.inr ⟨entry, member, rfl⟩)

end Session

/-- The members of a class have names of their own exactly if no method is called by a reserved
name.  The code gives these members and no others, a dispatcher for each visible virtual method
among them, and each by a single statement unless its name is contested. -/
theorem static_members_distinct {declarations : List Declaration} {session : Session}
    (accepts : Accepts declarations session) {index : Nat} {type : UserType}
    (found : session.types[index]? = some type) (isClass : type.isClass = true) :
    (type.staticNames.Nodup ↔ ∀ name, ¬ type.Contested name) ∧
    (∀ name, name ∈ type.dispatchers.map Dispatcher.name ↔
      ∃ owner, session.Inherits index owner ∧ session.DeclaresVirtual owner name) ∧
    (session.generate type).map Snippet.text =
      (session.statements type).map (Statement.written type.name) ∧
    ∀ statements, session.statements type = .ok statements →
      statements.filterMap Statement.member? = type.staticNames ∧
      (∀ statement ∈ statements, ∀ name, statement.member? = some name →
        (Statement.definitions statements name = [statement] ↔ ¬ type.Contested name)) ∧
      (∀ method ∈ type.declaration.methods, ∃ body, session.expandBody type method = .ok body ∧
        .ofMethod method body ∈ statements) ∧
      ∀ entry ∈ type.dispatchers, .ofDispatcher entry ∈ statements := by
  have analysed := accepts.sound
  refine ⟨analysed.staticNames_nodup_iff accepts.readable found isClass, ?_,
    Generate.text_generate isClass, ?_⟩
  · rw [analysed.dispatcherNames found isClass]
    exact (analysed.wellformed.visibleVirtuals_names (Session.lt_of_getElem? found)).2
  · intro statements written
    refine ⟨Session.members_statements written, ?_, ?_, ?_⟩
    · intro statement member name gives
      exact analysed.definitions_eq_iff accepts.readable found isClass written member gives
    · exact fun method member => Session.exists_ofMethod written member
    · exact fun entry member => Session.ofDispatcher_mem written member

def sampleMembers : Text := "@flatjs class B\x7b@virtual m(SELF)\x7b\x7d\x7d@end
@flatjs class D extends B\x7b@virtual n(SELF,k)\x7b\x7d @method p(SELF)\x7bSELF.m();\x7d\x7d@end".toList

theorem static_members_distinct_sample : ∃ declarations session type statements,
    Accepts declarations session ∧ session.types[1]? = some type ∧ type.isClass = true ∧
    session.statements type = .ok statements ∧
    type.staticNames = ["prototype", "NAME", "SIZE", "ALIGN", "CLSID", "BASE", "initInstance",
      "n_impl", "p", "n", "m"] ∧
    type.staticNames.Nodup ∧ statements.filterMap Statement.member? = type.staticNames := by
  have accepted : (do
      let document ← Document.read "sample" sampleMembers
      let session ← Session.ofDocuments [document]
      let type ← session.userAt 1
      let statements ← session.statements type
      return (type.isClass, type.staticNames,
        decide (∀ name ∈ type.calledNames, name ∉ type.reservedNames))) =
        Except.ok (true, ["prototype", "NAME", "SIZE", "ALIGN", "CLSID", "BASE", "initInstance",
          "n_impl", "p", "n", "m"], true) := by
    decide +kernel
  obtain ⟨_, session, _, accepts, accepted⟩ := Accepts.exists_of_sample accepted
  obtain ⟨type, isType, accepted⟩ := exists_of_bind_eq_ok accepted
  obtain ⟨statements, written, same⟩ := exists_of_bind_eq_ok accepted
  obtain ⟨isClass, names, free⟩ := by simpa using Except.ok.inj same
  have found := Session.userAt_ok isType
  obtain ⟨distinct, _, _, gives⟩ := static_members_distinct accepts found isClass
  refine ⟨_, session, type, statements, accepts, found, isClass, written, names, distinct.2 ?_,
    (gives statements written).1⟩
  rintro name ⟨isReserved, isCalled⟩
  exact free name isCalled isReserved

/-- A method that takes the place of a fixed member, and one that has the name of an
implementation. -/
def sampleContested : Text := "@flatjs class T\x7b@virtual m(SELF)\x7b\x7d
@method initInstance(SELF)\x7b\x7d @method m_impl(SELF)\x7b\x7d\x7d@end".toList

/-- An accepted class whose code gives two members twice. -/
theorem static_members_repeat : ∃ declarations session type statements,
    Accepts declarations session ∧ session.types[0]? = some type ∧ type.isClass = true ∧
    session.statements type = .ok statements ∧ ¬ type.staticNames.Nodup ∧
    (Statement.definitions statements "initInstance").length = 2 ∧
    (Statement.definitions statements "m_impl").length = 2 := by
  have accepted : (do
      let document ← Document.read "sample" sampleContested
      let session ← Session.ofDocuments [document]
      let type ← session.userAt 0
      let statements ← session.statements type
      return (type.isClass, decide type.staticNames.Nodup,
        (Statement.definitions statements "initInstance").length,
        (Statement.definitions statements "m_impl").length)) =
        Except.ok (true, false, 2, 2) := by
    decide +kernel
  obtain ⟨_, session, _, accepts, accepted⟩ := Accepts.exists_of_sample accepted
  obtain ⟨type, isType, accepted⟩ := exists_of_bind_eq_ok accepted
  obtain ⟨statements, written, same⟩ := exists_of_bind_eq_ok accepted
  obtain ⟨isClass, repeated, fixed, implementation⟩ := by simpa using Except.ok.inj same
  exact ⟨_, session, type, statements, accepts, Session.userAt_ok isType,
    isClass, written, repeated, fixed, implementation⟩

end FlatMemory
