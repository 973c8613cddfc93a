import FlatMemory.Proofs.Session.Ancestry

/-! # Programs by name

The declarations of a program are a map from names.  What a field holds, what a class extends and
which types are parts of a type are said by names here, without the places that registration gives
to types.  A resolved session says the same by places. -/

namespace FlatMemory

open List

variable {declaration : Declaration}

structure Scope where
  find? : String → Option Declaration

inductive Referent where
  | primitive (type : Primitive)
  | user (declaration : Declaration)

namespace Referent

def name : Referent → String
  | primitive type => type.name
  | user declaration => declaration.name

def isClass : Referent → Bool
  | primitive _ => false
  | user declaration => declaration.isClass

end Referent

namespace Scope

def ofList (declarations : List Declaration) : Scope where
  find? name := declarations.find? fun declaration => declaration.name = name

def Declares (scope : Scope) (declaration : Declaration) : Prop :=
  scope.find? declaration.name = some declaration

def fieldType? (scope : Scope) (field : Field) : Option Referent :=
  match Primitive.ofName? field.typeName with
  | some primitive => (primitive.qualified? field.qualifier).map .primitive
  | none => if field.qualifier = .plain then (scope.find? field.typeName).map .user else none

def base? (scope : Scope) (declaration : Declaration) : Option Declaration :=
  (declaration.baseName?.bind scope.find?).filter Declaration.isClass

/-- Every name that a declaration uses stands for a type of the right kind. -/
structure Known (scope : Scope) (declaration : Declaration) : Prop where
  fields : ∀ field ∈ declaration.fields, ∃ referent, scope.fieldType? field = some referent
  base : ∀ name, declaration.baseName? = some name → ∃ base, scope.base? declaration = some base

/-- What a type is built from: its base and the structs it holds by value. -/
inductive PartOf (scope : Scope) : Declaration → Declaration → Prop
  | base {base derived : Declaration} (extended : scope.base? derived = some base) :
    PartOf scope base derived
  | field {inner outer : Declaration} {field : Field} (member : field ∈ outer.fields)
    (plain : field.isArray = false) (known : scope.fieldType? field = some (.user inner))
    (struct : inner.isClass = false) : PartOf scope inner outer

/-- A class with all it inherits from, nearest first. -/
inductive Lineage (scope : Scope) : Declaration → List Declaration → Prop
  | root {declaration : Declaration} (isRoot : declaration.baseName? = none) :
    Lineage scope declaration [declaration]
  | derived {declaration base : Declaration} {above : List Declaration}
    (extended : scope.base? declaration = some base) (lineage : Lineage scope base above) :
    Lineage scope declaration (declaration :: above)

variable {scope : Scope} {base : Declaration}

theorem baseName_of_base (extended : scope.base? declaration = some base) :
    ∃ name, declaration.baseName? = some name ∧ scope.find? name = some base ∧
      base.isClass = true := by
  obtain ⟨found, isClass⟩ := Option.filter_eq_some_iff.1 extended
  obtain ⟨name, named, known⟩ := Option.bind_eq_some_iff.1 found
  exact ⟨name, named, known, isClass⟩

theorem base?_ne_of_root (isRoot : declaration.baseName? = none) :
    scope.base? declaration ≠ some base := by
  simp [base?, isRoot]

theorem Lineage.unique {first second : List Declaration} (one : scope.Lineage declaration first)
    (other : scope.Lineage declaration second) : first = second := by
  induction one generalizing second with
  | root isRoot =>
    cases other with
    | root _ => rfl
    | derived extended _ => exact absurd extended (base?_ne_of_root isRoot)
  | derived extended _ ih =>
    cases other with
    | root isRoot => exact absurd extended (base?_ne_of_root isRoot)
    | derived again lineage =>
      rw [extended] at again
      cases again
      rw [ih lineage]

end Scope

namespace Session

variable {session : Session} {index : Nat} {first second : Session} {type : UserType}

structure WellNamed (session : Session) : Prop where
  distinct : (session.types.map UserType.name).Nodup
  notPrimitive : ∀ type ∈ session.types, Primitive.ofName? type.name = none

def scope (session : Session) : Scope := Scope.ofList (session.types.map UserType.declaration)

/-- What a reference of a session stands for. -/
def referent? (session : Session) : TypeRef → Option Referent
  | .primitive type => some (.primitive type)
  | .user index => (session.types[index]?).map fun type => .user type.declaration

theorem Agree.scope (same : Agree UserType.declaration first second) : first.scope = second.scope :=
  congrArg Scope.ofList same

theorem WellNamed.agree (named : WellNamed first) (same : Agree UserType.declaration first second) :
    WellNamed second := by
  have names : first.types.map UserType.name = second.types.map UserType.name := by
    have mapped := congrArg (List.map Declaration.name)
      (show first.types.map UserType.declaration = _ from same)
    rwa [map_map, map_map] at mapped
  refine ⟨names ▸ named.distinct, ?_⟩
  intro type member
  have isName : type.name ∈ first.types.map UserType.name := by
    rw [names]
    exact mem_map_of_mem member
  obtain ⟨other, isOther, same⟩ := mem_map.1 isName
  exact same ▸ named.notPrimitive other isOther

/-! ### Names of a session -/

theorem exists_of_scope {name : String} (known : session.scope.find? name = some declaration) :
    declaration.name = name ∧
      ∃ (index : Nat) (type : UserType), session.types[index]? = some type ∧
        type.declaration = declaration := by
  have named := find?_some known
  obtain ⟨type, member, same⟩ := mem_map.1 (mem_of_find?_eq_some known)
  obtain ⟨index, found⟩ := mem_iff_getElem?.1 member
  exact ⟨by simpa using named, index, type, found, same⟩

/-- A name is that of a primitive, or of nothing, or of the first user type that has it. -/
theorem lookup_cases (session : Session) (name : String) :
    (∃ primitive, Primitive.ofName? name = some primitive ∧
      session.lookup name = some (.primitive primitive)) ∨
    (Primitive.ofName? name = none ∧ session.lookup name = none ∧ session.scope.find? name = none) ∨
    (Primitive.ofName? name = none ∧ ∃ index type, session.lookup name = some (.user index) ∧
      session.types[index]? = some type ∧ session.scope.find? name = some type.declaration) := by
  cases primitive : Primitive.ofName? name with
  | some type => exact .inl ⟨type, rfl, by simp [lookup, primitive]⟩
  | none =>
    refine .inr ?_
    cases found : session.lookup name with
    | none =>
      obtain ⟨_, unused⟩ := lookup_eq_none_iff.1 found
      refine .inl ⟨rfl, rfl, find?_eq_none.2 ?_⟩
      intro declaration member
      obtain ⟨type, isType, rfl⟩ := mem_map.1 member
      simpa [UserType.name] using unused type isType
    | some reference =>
      simp only [lookup, primitive, Option.map_eq_some_iff] at found
      obtain ⟨index, first, rfl⟩ := found
      obtain ⟨inside, named, earlier⟩ := findIdx?_eq_some_iff_getElem.1 first
      refine .inr ⟨rfl, index, session.types[index], rfl, getElem?_eq_getElem inside, ?_⟩
      have isNamed : session.types[index].declaration.name = name := of_decide_eq_true named
      refine find?_eq_some_iff_getElem.2 ⟨by simpa using isNamed, index,
        by simpa using inside, by simp, ?_⟩
      intro place before
      have differs := of_decide_eq_false (Bool.eq_false_iff.2 (earlier place before))
      simpa [UserType.name] using differs

namespace WellNamed

theorem index_unique (named : WellNamed session) {first second : Nat} {one other : UserType}
    (isFirst : session.types[first]? = some one) (isSecond : session.types[second]? = some other)
    (same : one.name = other.name) : first = second := by
  have names : ∀ {index : Nat} {type : UserType}, session.types[index]? = some type →
      (session.types.map UserType.name)[index]? = some type.name := by
    intro index type found
    rw [getElem?_map, found, Option.map_some]
  refine (getElem?_inj ?_ named.distinct).1
    ((names isFirst).trans (same ▸ (names isSecond).symm))
  simpa using lt_of_getElem? isFirst

theorem declares (named : WellNamed session) (found : session.types[index]? = some type) :
    session.scope.Declares type.declaration := by
  cases known : session.scope.find? type.declaration.name with
  | none =>
    have absent := find?_eq_none.1 known type.declaration
      (mem_map_of_mem (mem_of_getElem? found))
    simp at absent
  | some declaration =>
    obtain ⟨same, place, other, there, rfl⟩ := exists_of_scope known
    obtain rfl := named.index_unique there found same
    rw [there] at found
    cases found
    exact known

theorem lookup (named : WellNamed session) (found : session.types[index]? = some type) :
    session.lookup type.name = some (.user index) := by
  have notPrimitive := named.notPrimitive type (mem_of_getElem? found)
  rcases session.lookup_cases type.name with ⟨_, isPrimitive, _⟩ | ⟨_, absent, _⟩ |
    ⟨_, place, other, known, there, byName⟩
  · rw [notPrimitive] at isPrimitive
    cases isPrimitive
  · exact absurd rfl ((lookup_eq_none_iff.1 absent).2 type (mem_of_getElem? found))
  · have same := named.declares found
    rw [Scope.Declares, show type.declaration.name = type.name from rfl, byName] at same
    have names := congrArg Declaration.name (Option.some.inj same)
    rwa [named.index_unique there found names] at known

end WellNamed

/-! ### Resolution by names -/

theorem resolveField_scope (session : Session) (type : UserType) (field : Field) :
    (session.resolveField type field).toOption.bind session.referent? =
      session.scope.fieldType? field := by
  unfold resolveField Scope.fieldType?
  rcases session.lookup_cases field.typeName with ⟨primitive, isPrimitive, known⟩ |
    ⟨notPrimitive, unknown, unscoped⟩ | ⟨notPrimitive, index, other, known, found, byName⟩
  · rw [isPrimitive, known]
    cases qualifier : field.qualifier with
    | plain => simp [Primitive.qualified?, Except.toOption, referent?]
    | atomic =>
      cases variant : primitive.qualified? .atomic <;>
        simp [qualified?, variant, Except.toOption, referent?]
    | synchronic =>
      cases variant : primitive.qualified? .synchronic <;>
        simp [qualified?, variant, Except.toOption, referent?]
  · simp [notPrimitive, unknown, unscoped, Except.toOption]
  · rw [notPrimitive, known, byName]
    by_cases plain : field.qualifier = .plain
    · simp [plain, Except.toOption, referent?, found]
    · simp [plain, qualified?, Except.toOption]

theorem WellNamed.resolveBase_scope (named : WellNamed session) (type : UserType) (name : String) :
    (session.resolveBase type name).toOption.bind
        (fun index => (session.types[index]?).map UserType.declaration) =
      (session.scope.find? name).filter Declaration.isClass := by
  unfold resolveBase
  dsimp only
  rcases session.lookup_cases name with ⟨primitive, isPrimitive, known⟩ |
    ⟨_, unknown, unscoped⟩ | ⟨_, index, other, known, found, byName⟩
  · have unscoped : session.scope.find? name = none := by
      cases byName : session.scope.find? name with
      | none => rfl
      | some declaration =>
        obtain ⟨same, index, other, found, rfl⟩ := exists_of_scope byName
        have notPrimitive := named.notPrimitive other (mem_of_getElem? found)
        rw [show other.name = name from same, isPrimitive] at notPrimitive
        cases notPrimitive
    rw [known, unscoped]
    simp [Except.toOption]
  · simp [unknown, unscoped, Except.toOption]
  · rw [known, byName]
    by_cases isClass : other.isClass = true
    · have declared : other.declaration.isClass = true := isClass
      simp [kindOf_user found, isClass, found, Except.toOption, declared, Option.filter]
    · have declared : other.declaration.isClass ≠ true := isClass
      simp [kindOf_user found, isClass, Except.toOption, declared, Option.filter]

theorem WellNamed.known_of_resolution (named : WellNamed session) {resolution : Resolution}
    (resolved : session.resolution type = .ok resolution) :
    session.scope.Known type.declaration := by
  refine ⟨?_, ?_⟩
  · intro field member
    obtain ⟨known, _, fieldOk⟩ := exists_of_mem_forall₂ (resolution_fields resolved) member
    have byName := session.resolveField_scope type field
    rw [fieldOk] at byName
    cases known with
    | primitive primitive => exact ⟨_, byName.symm⟩
    | user index =>
      obtain ⟨other, found, _⟩ := lookup_user (resolveField_user fieldOk)
      exact ⟨.user other.declaration, by simp [← byName, Except.toOption, referent?, found]⟩
  · intro name asked
    unfold Session.resolution at resolved
    obtain ⟨fieldTypes, _, resolved⟩ := exists_of_bind_eq_ok resolved
    rw [asked] at resolved
    obtain ⟨base, baseOk, _⟩ := exists_of_bind_eq_ok resolved
    have byName := named.resolveBase_scope type name
    obtain ⟨other, found, _⟩ := lookup_user (resolveBase_ok baseOk).1
    refine ⟨other.declaration, ?_⟩
    rw [Scope.base?, asked, Option.bind_some, ← byName, baseOk]
    simp [Except.toOption, found]

theorem WellNamed.resolution_of_known (named : WellNamed session)
    (known : session.scope.Known type.declaration) (failure : Failure) :
    session.resolution type ≠ .error failure := by
  intro failed
  unfold Session.resolution at failed
  rcases exists_of_bind_eq_error failed with failed | ⟨fieldTypes, _, failed⟩
  · obtain ⟨field, member, failed⟩ := exists_of_mapM_eq_error failed
    obtain ⟨referent, isKnown⟩ := known.fields field member
    have byName := session.resolveField_scope type field
    rw [failed, isKnown] at byName
    simp [Except.toOption] at byName
  · split at failed
    · cases failed
    · next name asked =>
      rcases exists_of_bind_eq_error failed with failed | ⟨base, _, failed⟩
      · obtain ⟨base, isBase⟩ := known.base name asked
        have byName := named.resolveBase_scope type name
        rw [Scope.base?, asked, Option.bind_some, ← byName, failed] at isBase
        simp [Except.toOption] at isBase
      · cases failed

/-! ### Resolved types by names -/

section Resolved

variable {field : Field}

theorem ResolvedType.fieldType (resolved : ResolvedType session type) {reference : TypeRef}
    (member : (field, some reference) ∈ type.typedFields) :
    ∃ referent, session.referent? reference = some referent ∧
      session.scope.fieldType? field = some referent := by
  obtain ⟨_, known, same, fieldOk⟩ := resolved.typedFields member
  cases same
  have byName := session.resolveField_scope type field
  rw [fieldOk, Except.toOption, Option.bind_some] at byName
  cases reference with
  | primitive primitive => exact ⟨_, rfl, byName.symm⟩
  | user index =>
    obtain ⟨other, found, _⟩ := lookup_user (resolveField_user fieldOk)
    have shown : session.referent? (.user index) = some (.user other.declaration) := by
      simp [referent?, found]
    exact ⟨_, shown, byName.symm.trans shown⟩

theorem ResolvedType.exists_fieldType (resolved : ResolvedType session type)
    (member : field ∈ type.declaration.fields) :
    ∃ reference, (field, some reference) ∈ type.typedFields := by
  rw [← resolved.typedFields_fst] at member
  obtain ⟨⟨_, fieldType⟩, typed, rfl⟩ := mem_map.1 member
  obtain ⟨_, known, rfl, _⟩ := resolved.typedFields typed
  exact ⟨known, typed⟩

theorem ResolvedType.baseDeclaration (named : WellNamed session)
    (resolved : ResolvedType session type) {base : Nat} (derived : type.base? = some base) :
    ∃ other, session.types[base]? = some other ∧
      session.scope.base? type.declaration = some other.declaration := by
  obtain ⟨name, asked, known, isClass⟩ := resolved.base derived
  obtain ⟨other, found, rfl⟩ := lookup_user known
  refine ⟨other, found, ?_⟩
  rw [Scope.base?, asked, Option.bind_some, show session.scope.find? other.name = _ from
    named.declares found]
  exact Option.filter_eq_some_iff.2 ⟨rfl, (kindOf_eq_classType_iff found).1 isClass⟩

theorem ResolvedType.exists_base (named : WellNamed session) (resolved : ResolvedType session type)
    (extended : session.scope.base? type.declaration = some declaration) :
    ∃ base other, type.base? = some base ∧ session.types[base]? = some other ∧
      other.declaration = declaration := by
  cases derived : type.base? with
  | none => exact absurd extended (Scope.base?_ne_of_root (resolved.root derived))
  | some base =>
    obtain ⟨other, found, known⟩ := resolved.baseDeclaration named derived
    rw [extended] at known
    exact ⟨base, other, rfl, found, (Option.some.inj known).symm⟩

variable (found : session.types[index]? = some type)

include found

theorem ResolvedType.partOf (named : WellNamed session) (resolved : ResolvedType session type)
    {inner : Nat} (part : session.PartOf inner index) :
    ∃ other, session.types[inner]? = some other ∧
      session.scope.PartOf other.declaration type.declaration := by
  rcases part with derived | ⟨_, same, member⟩
  · have isBase : type.base? = some inner := by simpa [Extends, baseAt, found] using derived
    obtain ⟨other, there, known⟩ := resolved.baseDeclaration named isBase
    exact ⟨other, there, .base known⟩
  · rw [found] at same
    cases same
    obtain ⟨field, typed, plain, kind⟩ := mem_embedded.1 member
    obtain ⟨referent, shown, known⟩ := resolved.fieldType typed
    obtain ⟨other, there, rfl⟩ := Option.map_eq_some_iff.1 shown
    exact ⟨other, there, .field (resolved.typedFields typed).1 plain known
      ((kindOf_eq_structType_iff there).1 kind)⟩

theorem ResolvedType.exists_partOf (named : WellNamed session)
    (resolved : ResolvedType session type)
    (part : session.scope.PartOf declaration type.declaration) :
    ∃ inner other, session.types[inner]? = some other ∧ other.declaration = declaration ∧
      session.PartOf inner index := by
  cases part with
  | base extended =>
    obtain ⟨base, other, derived, there, same⟩ := resolved.exists_base named extended
    exact ⟨base, other, there, same, .inl (by simp [Extends, baseAt, found, derived])⟩
  | field member plain known struct =>
    obtain ⟨reference, typed⟩ := resolved.exists_fieldType member
    obtain ⟨referent, shown, same⟩ := resolved.fieldType typed
    rw [known] at same
    cases same
    cases reference with
    | primitive primitive => cases shown
    | user inner =>
      obtain ⟨other, there, same⟩ := Option.map_eq_some_iff.1 shown
      cases same
      exact ⟨inner, other, there, rfl, .inr ⟨type, found, mem_embedded.2
        ⟨_, typed, plain, (kindOf_eq_structType_iff there).2 struct⟩⟩⟩

end Resolved

theorem WellNamed.acc_scope (named : WellNamed session) (resolved : Resolved session)
    (grounded : Acc session.PartOf index) :
    ∀ type, session.types[index]? = some type → Acc session.scope.PartOf type.declaration := by
  induction grounded with
  | intro index _ ih =>
    intro type found
    constructor
    intro declaration part
    obtain ⟨inner, other, there, rfl, isPart⟩ :=
      (resolved index type found).exists_partOf found named part
    exact ih inner isPart other there

theorem WellNamed.acc_partOf (named : WellNamed session) (resolved : Resolved session)
    (grounded : Acc session.scope.PartOf declaration) :
    ∀ index type, session.types[index]? = some type → type.declaration = declaration →
      Acc session.PartOf index := by
  induction grounded with
  | intro declaration _ ih =>
    rintro index type found rfl
    constructor
    intro inner part
    obtain ⟨other, there, isPart⟩ := (resolved index type found).partOf found named part
    exact ih _ isPart inner other there rfl

theorem Wellformed.lineage (wellformed : Wellformed session) (named : WellNamed session)
    (inside : index < session.types.length) :
    ∀ type, session.types[index]? = some type → session.scope.Lineage type.declaration
      ((session.typesAt (session.ancestry index)).map UserType.declaration) := by
  refine wellformed.base_induction (motive := fun index => ∀ type,
    session.types[index]? = some type → session.scope.Lineage type.declaration
      ((session.typesAt (session.ancestry index)).map UserType.declaration)) ?_ index inside
  intro index inside ih type found
  have resolved := wellformed.resolved index type found
  have isBase : session.baseAt index = type.base? := by simp [baseAt, found]
  rw [wellformed.ancestry_eq inside, isBase]
  cases derived : type.base? with
  | none =>
    have alone : (session.typesAt [index]).map UserType.declaration = [type.declaration] := by
      simp [typesAt, found]
    rw [alone]
    exact .root (resolved.root derived)
  | some base =>
    obtain ⟨other, there, known⟩ := resolved.baseDeclaration named derived
    have above := ih base (isBase.trans derived) other there
    have split : (session.typesAt (index :: session.ancestry base)).map UserType.declaration =
        type.declaration :: (session.typesAt (session.ancestry base)).map UserType.declaration := by
      simp [typesAt, found]
    rw [split]
    exact .derived known above

end Session

end FlatMemory
