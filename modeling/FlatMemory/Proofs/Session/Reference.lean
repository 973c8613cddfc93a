import FlatMemory.Proofs.Session.Layout
import FlatMemory.Proofs.Session.Scope

/-! # The layout that declarations ask for

By names alone: the fields of a type are placed in order behind those of its base, and an embedded
struct takes the room that its own declaration asks for.  There is at most one such plan, and a
layout that a session has recorded shows it. -/

namespace FlatMemory

open List

structure Entry where
  path : String
  direct : Bool
  offset : Nat
  /-- There is none for a reference that leads nowhere. -/
  typeName : Option String
  isArray : Bool
  deriving DecidableEq

namespace Entry

def behind (offset : Nat) (entry : Entry) : Entry := { entry with offset := offset + entry.offset }

def under (path : String) (entry : Entry) : Entry :=
  { entry with path := path ++ "." ++ entry.path }

end Entry

structure Plan where
  size : Nat
  align : Nat
  entries : List Entry
  deriving DecidableEq

namespace Plan

def start (isClass : Bool) : Plan :=
  if isClass then ⟨Layout.tagSize, Layout.pointerSize, []⟩ else ⟨0, 1, []⟩

def place (plan : Plan) (size align : Nat) (entries : List Entry) : Plan :=
  let offset := alignTo plan.size align
  ⟨offset + size, max plan.align align, plan.entries ++ entries.map (Entry.behind offset)⟩

def finished (isClass : Bool) (plan : Plan) : Plan :=
  if isClass then plan else { plan with size := alignTo plan.size plan.align }

def add (plan : Plan) (field : Field) (referent : Referent) (inner : Plan) : Plan :=
  if field.isArray = true ∨ referent.isClass = true then
    plan.place Layout.pointerSize Layout.pointerSize
      [⟨field.name, true, 0, some referent.name, field.isArray⟩]
  else match referent with
    | .primitive type =>
      plan.place type.size type.align [⟨field.name, true, 0, some type.name, false⟩]
    | .user declaration =>
      plan.place inner.size inner.align (⟨field.name, false, 0, some declaration.name, false⟩ ::
        inner.entries.map (Entry.under field.name))

def hasPath (plan : Plan) (path : String) : Bool := plan.entries.any fun entry => entry.path = path

end Plan

namespace Scope

variable {scope : Scope} {declaration : Declaration} {first second : Plan}

/-- The first so many fields of a type come to a plan. -/
inductive Lays (scope : Scope) : Declaration → Nat → Plan → Prop
  | root {declaration : Declaration} (isRoot : declaration.baseName? = none) :
    Lays scope declaration 0 (.start declaration.isClass)
  | derived {declaration base : Declaration} {plan : Plan}
    (extended : scope.base? declaration = some base)
    (above : Lays scope base base.fields.length plan) : Lays scope declaration 0 plan
  | field {declaration : Declaration} {count : Nat} {plan inner : Plan} {field : Field}
    {referent : Referent} (before : Lays scope declaration count plan)
    (next : declaration.fields[count]? = some field)
    (known : scope.fieldType? field = some referent)
    (within : ∀ struct, referent = .user struct → field.isArray = false →
      struct.isClass = false → Lays scope struct struct.fields.length inner) :
    Lays scope declaration (count + 1) (plan.add field referent (inner.finished false))

/-- The layout that the declarations ask for. -/
def Plans (scope : Scope) (declaration : Declaration) (plan : Plan) : Prop :=
  ∃ filled, scope.Lays declaration declaration.fields.length filled ∧
    plan = filled.finished declaration.isClass

theorem Lays.unique {count : Nat} (one : scope.Lays declaration count first)
    (other : scope.Lays declaration count second) : first = second := by
  induction one generalizing second with
  | root isRoot =>
    cases other with
    | root _ => rfl
    | derived extended _ => exact absurd extended (base?_ne_of_root isRoot)
  | derived extended _ ih =>
    cases other with
    | root isRoot => exact absurd extended (base?_ne_of_root isRoot)
    | derived again above =>
      rw [extended] at again
      cases again
      exact ih above
  | @field declaration count plan inner field referent _ next known _ ih ihWithin =>
    cases other with
    | field before again also within =>
      rw [next] at again
      cases again
      rw [known] at also
      cases also
      rw [ih before]
      -- The plan of a struct is looked at only where there is one.
      unfold Plan.add
      split
      · rfl
      · next value =>
        simp only [not_or, Bool.not_eq_true] at value
        cases referent with
        | primitive type => rfl
        | user struct =>
          rw [ihWithin struct rfl value.1 value.2 (within struct rfl value.1 value.2)]

theorem Plans.unique (one : scope.Plans declaration first) (other : scope.Plans declaration second) :
    first = second := by
  obtain ⟨filled, lays, rfl⟩ := one
  obtain ⟨otherFilled, otherLays, rfl⟩ := other
  rw [lays.unique otherLays]

end Scope

namespace Session

variable {session : Session}

def typeName? (session : Session) : TypeRef → Option String
  | .primitive type => some type.name
  | .user index => (session.types[index]?).map UserType.name

def entry (session : Session) (slot : Slot) : Entry :=
  ⟨slot.path, slot.direct, slot.offset, session.typeName? slot.type, slot.isArray⟩

def plan (session : Session) (layout : Layout) : Plan :=
  ⟨layout.size, layout.align, layout.slots.map session.entry⟩

theorem hasPath_plan (session : Session) (layout : Layout) (path : String) :
    (session.plan layout).hasPath path = layout.hasPath path := by
  rw [Plan.hasPath, Layout.hasPath, plan, any_map]
  rfl

theorem typeName_of_referent {reference : TypeRef} {referent : Referent}
    (shown : session.referent? reference = some referent) :
    session.typeName? reference = some referent.name := by
  cases reference with
  | primitive type =>
    cases shown
    rfl
  | user index =>
    obtain ⟨type, found, rfl⟩ := Option.map_eq_some_iff.1 shown
    simp [typeName?, found, Referent.name, UserType.name]

theorem plan_start (session : Session) (isClass : Bool) :
    session.plan (if isClass then Layout.ofClass else Layout.ofStruct) = Plan.start isClass := by
  cases isClass <;> rfl

theorem plan_finished (session : Session) (isClass : Bool) (layout : Layout) :
    session.plan (layout.finished isClass) = (session.plan layout).finished isClass := by
  cases isClass <;> rfl

theorem plan_place {slots : Nat → List Slot} {entries : List Entry}
    (shown : ∀ offset, (slots offset).map session.entry = entries.map (Entry.behind offset))
    (layout : Layout) (size align : Nat) :
    session.plan (layout.place size align slots) =
      (session.plan layout).place size align entries := by
  simp only [plan, Layout.place, Plan.place, Layout.nextOffset, map_append, shown]

/-! ### Recorded layouts -/

section Recorded

variable {index : Nat} {type : UserType} {layout next : Layout} {field : Field}
  {reference : TypeRef} {referent : Referent}

theorem Referent.isClass_of_kindOf (shown : session.referent? reference = some referent)
    (kind : session.kindOf reference = .classType) : referent.isClass = true := by
  cases reference with
  | primitive primitive => cases kind
  | user place =>
    obtain ⟨other, there, rfl⟩ := Option.map_eq_some_iff.1 shown
    exact (kindOf_eq_classType_iff there).1 kind

theorem plan_places {inner : Plan} (shown : session.referent? reference = some referent)
    (held : session.Held field reference fun _ known => session.plan known = inner)
    (places : session.Places layout field reference next) :
    session.plan next = (session.plan layout).add field referent inner := by
  have named := typeName_of_referent shown
  cases places with
  | pointer isReference =>
    unfold Plan.add
    rw [if_pos (isReference.imp_right (Referent.isClass_of_kindOf shown))]
    refine plan_place (fun offset => ?_) layout _ _
    simp [entry, Entry.behind, named]
  | primitive plain =>
    cases shown
    unfold Plan.add
    rw [if_neg (by simp [plain, Referent.isClass])]
    refine plan_place (fun offset => ?_) layout _ _
    simp [entry, Entry.behind, typeName?]
  | @struct place known plain kind recorded =>
    obtain ⟨_, rfl⟩ := held.recorded plain kind recorded
    obtain ⟨other, there, rfl⟩ := Option.map_eq_some_iff.1 shown
    have isStruct := (kindOf_eq_structType_iff there).1 kind
    unfold Plan.add
    rw [if_neg (by simp [plain, Referent.isClass, isStruct])]
    refine plan_place (fun offset => ?_) layout _ _
    simp [plan, entry, Entry.behind, Entry.under, named, Referent.name, Slot.within]

def PartsPlanned (session : Session) (index : Nat) : Prop :=
  ∀ place other known, session.PartOf place index → session.types[place]? = some other →
    other.layout = some known → session.scope.Plans other.declaration (session.plan known)

theorem PartsPlanned.exists_inner (parts : PartsPlanned session index)
    (found : session.types[index]? = some type)
    (member : (field, some reference) ∈ type.typedFields)
    (shown : session.referent? reference = some referent)
    (places : session.Places layout field reference next) :
    ∃ inner, (∀ struct, referent = .user struct → field.isArray = false → struct.isClass = false →
        session.scope.Lays struct struct.fields.length inner) ∧
      session.Held field reference fun _ known => session.plan known = inner.finished false := by
  by_cases embeds : ∃ place other, reference = .user place ∧ field.isArray = false ∧
      session.types[place]? = some other ∧ other.isClass = false
  · obtain ⟨place, other, rfl, plain, there, isStruct⟩ := embeds
    have kind := (kindOf_eq_structType_iff there).2 isStruct
    have part : session.PartOf place index :=
      .inr ⟨type, found, mem_embedded.2 ⟨field, member, plain, kind⟩⟩
    rw [referent?, there] at shown
    cases shown
    cases places with
    | pointer isReference => simp [plain, kind] at isReference
    | @struct _ known _ _ recorded =>
      rw [layoutAt_eq there] at recorded
      obtain ⟨filled, lays, same⟩ := parts place other known part there recorded
      refine ⟨filled, ?_, ?_⟩
      · rintro struct isOther _ _
        cases isOther
        exact lays
      · rintro _ _ _ isPlace _ again _ known
        cases isPlace
        rw [there] at again
        cases again
        rw [recorded] at known
        cases known
        exact (show other.declaration.isClass = false from isStruct) ▸ same
  · refine ⟨.start false, ?_, ?_⟩
    · rintro struct rfl plain isStruct
      cases reference with
      | primitive type => cases shown
      | user place =>
        obtain ⟨other, there, same⟩ := Option.map_eq_some_iff.1 shown
        cases same
        exact absurd ⟨place, other, rfl, plain, there, isStruct⟩ embeds
    · intro place other _ isPlace plain there isStruct _
      exact absurd ⟨place, other, isPlace, plain, there, isStruct⟩ embeds

theorem ResolvedType.lays (named : WellNamed session) (found : session.types[index]? = some type)
    (resolved : ResolvedType session type) (parts : PartsPlanned session index) {start : Layout}
    {done rest : List (Field × Option TypeRef)} (begins : session.startOf type = some start)
    (fields : type.typedFields = done ++ rest) (fills : session.Fills start done layout) :
    session.scope.Lays type.declaration done.length (session.plan layout) := by
  induction fills generalizing rest with
  | nil =>
    unfold startOf at begins
    cases derived : type.base? with
    | none =>
      rw [derived] at begins
      cases begins
      rw [plan_start]
      exact .root (resolved.root derived)
    | some base =>
      rw [derived] at begins
      obtain ⟨other, there, extended⟩ := resolved.baseDeclaration named derived
      obtain ⟨filled, lays, same⟩ := parts base other start
        (.inl (by simp [Extends, baseAt, found, derived])) there
        ((layoutAt_eq there).symm.trans begins)
      obtain ⟨_, _, _, isClass⟩ := Scope.baseName_of_base extended
      rw [isClass] at same
      exact same ▸ .derived extended lays
  | @snoc earlier current next field reference _ _ places ih =>
    rw [length_append, length_singleton]
    have typed : type.typedFields[earlier.length]? = some (field, some reference) := by
      rw [fields, append_assoc, getElem?_append_right (Nat.le_refl _)]
      simp
    have isNext : type.declaration.fields[earlier.length]? = some field := by
      rw [← resolved.typedFields_fst, getElem?_map, typed, Option.map_some]
    have member := mem_of_getElem? typed
    obtain ⟨referent, shown, known⟩ := resolved.fieldType member
    obtain ⟨inner, within, recorded⟩ := parts.exists_inner found member shown places
    rw [plan_places shown recorded places]
    exact .field (ih (by rw [fields, append_assoc])) isNext known within

end Recorded

theorem Consistent.plans (consistent : Consistent session) (named : WellNamed session)
    (resolved : ∀ (index : Nat) (type : UserType) (layout : Layout),
      session.types[index]? = some type → type.layout = some layout → session.ResolvedType type)
    {index : Nat} (grounded : Acc session.PartOf index) :
    ∀ type layout, session.types[index]? = some type → type.layout = some layout →
      session.scope.Plans type.declaration (session.plan layout) := by
  induction grounded with
  | intro index _ ih =>
    intro type layout found recorded
    have resolvedHere := resolved index type layout found recorded
    obtain ⟨start, filled, begins, fills, _, rfl⟩ := consistent index type layout found recorded
    have lays := resolvedHere.lays named found (fun place other known part => ih place part other
      known) begins (append_nil _).symm fills
    exact ⟨session.plan filled, resolvedHere.length_typedFields ▸ lays,
      session.plan_finished type.isClass filled⟩

end Session

end FlatMemory
