import FlatMemory.Session.Containment
import FlatMemory.Session.Resolution
import FlatMemory.Proofs.Result

/-! # What the stages leave alone

Each stage of the analysis changes one part of the types of a session.  `Agree view` says that two
sessions show the same through `view`; what a function reads decides through which view it needs
them to agree. -/

namespace FlatMemory

open List

def UserType.shape (type : UserType) : Declaration × Option Resolution :=
  (type.declaration, type.resolution)

namespace Session

variable {α β : Type} {type : UserType} {name : String}
variable {session : Session} {index : Nat}

def Agree (view : UserType → α) (first second : Session) : Prop :=
  first.types.map view = second.types.map view

def baseAt (session : Session) (index : Nat) : Option Nat :=
  (session.types[index]?).bind UserType.base?

theorem lt_of_getElem? (found : session.types[index]? = some type) : index < session.types.length :=
  (List.getElem?_eq_some_iff.1 found).1

theorem userAt_ok (isType : session.userAt index = .ok type) :
    session.types[index]? = some type := by
  unfold userAt at isType
  split at isType
  · next other found =>
    cases isType
    exact found
  · cases isType

theorem lookup_user (found : session.lookup name = some (.user index)) :
    ∃ type, session.types[index]? = some type ∧ type.name = name := by
  unfold lookup at found
  split at found
  · simp at found
  · obtain ⟨place, placed, same⟩ := Option.map_eq_some_iff.1 found
    cases same
    obtain ⟨inside, named, _⟩ := findIdx?_eq_some_iff_getElem.1 placed
    exact ⟨_, getElem?_eq_getElem inside, by simpa using named⟩

theorem lookup_eq_none_iff :
    session.lookup name = none ↔
      Primitive.ofName? name = none ∧ ∀ type ∈ session.types, type.name ≠ name := by
  unfold lookup
  cases Primitive.ofName? name with
  | some primitive => simp
  | none => simp [findIdx?_eq_none_iff]

section

variable (found : session.types[index]? = some type)

include found

theorem kindOf_user :
    session.kindOf (.user index) = if type.isClass then .classType else .structType := by
  simp [kindOf, found]

theorem kindOf_eq_structType_iff :
    session.kindOf (.user index) = .structType ↔ type.declaration.isClass = false := by
  rw [kindOf_user found, UserType.isClass]
  cases type.declaration.isClass <;> simp

theorem kindOf_eq_classType_iff :
    session.kindOf (.user index) = .classType ↔ type.declaration.isClass = true := by
  rw [kindOf_user found, UserType.isClass]
  cases type.declaration.isClass <;> simp

end

theorem kindOf_eq_classType (kind : session.kindOf (.user index) = .classType) :
    ∃ type, session.types[index]? = some type ∧ type.isClass = true := by
  cases found : session.types[index]? with
  | none => simp [kindOf, found] at kind
  | some type => exact ⟨type, rfl, (kindOf_eq_classType_iff found).1 kind⟩

namespace Agree

variable {first second third : Session} {view : UserType → α} {other : UserType}

theorem refl (view : UserType → α) (session : Session) : Agree view session session := rfl

section

variable (same : Agree view first second)

include same

theorem symm : Agree view second first := Eq.symm same

theorem trans (later : Agree view second third) : Agree view first third :=
  Eq.trans same later

theorem length : first.types.length = second.types.length := by
  simpa using congrArg List.length same

omit same in
theorem coarsen {view : UserType → UserType} (same : Agree view first second)
    (coarse : UserType → β) (through : ∀ type, coarse (view type) = coarse type) :
    Agree coarse first second := by
  have mapped := congrArg (List.map coarse) (show first.types.map view = _ from same)
  simpa [Function.comp_def, through, Agree] using mapped

omit same in
theorem declaration (same : Agree UserType.shape first second) :
    Agree UserType.declaration first second := by
  have mapped := congrArg (List.map Prod.fst) (show first.types.map UserType.shape = _ from same)
  simpa [Function.comp_def, UserType.shape, Agree] using mapped

theorem getElem? (index : Nat) :
    (first.types[index]?).map view = (second.types[index]?).map view := by
  have here := congrArg (fun types => types[index]?)
    (show first.types.map view = second.types.map view from same)
  simpa using here

theorem counterpart (found : first.types[index]? = some type) :
    ∃ other, second.types[index]? = some other ∧ view other = view type := by
  have here := same.getElem? index
  rw [found] at here
  obtain ⟨other, there, seen⟩ := Option.map_eq_some_iff.1 here.symm
  exact ⟨other, there, seen⟩

theorem bind (read : α → Option β) (index : Nat) :
    (first.types[index]?).bind (fun type => read (view type)) =
      (second.types[index]?).bind fun type => read (view type) := by
  have here := congrArg (fun seen => Option.bind seen read) (same.getElem? index)
  simpa only [Option.bind_map, Function.comp_def] using here

theorem typesAt (indices : List Nat) :
    (first.typesAt indices).map view = (second.typesAt indices).map view := by
  unfold Session.typesAt
  rw [map_filterMap, map_filterMap]
  congr 1
  funext index
  exact same.getElem? index

end

theorem modifyAt (session : Session) (index : Nat) {change : UserType → UserType}
    (unseen : ∀ type, view (change type) = view type) :
    Agree view (session.modifyAt index change) session := by
  apply ext_getElem?
  intro place
  simp only [Session.modifyAt, getElem?_map, getElem?_modify]
  cases session.types[place]? with
  | none => rfl
  | some type =>
    by_cases here : index = place
    · simp [here, unseen]
    · simp [here]

section

variable (same : Agree UserType.declaration first second)

include same

theorem lookup (name : String) : first.lookup name = second.lookup name := by
  have through : ∀ session : Session, session.types.findIdx? (fun type => type.name = name)
      = (session.types.map UserType.declaration).findIdx?
        (fun declaration => declaration.name = name) := by
    intro session
    rw [findIdx?_map]
    rfl
  unfold Session.lookup
  rw [through first, through second, show _ = _ from same]

theorem kindOf (type : TypeRef) : first.kindOf type = second.kindOf type := by
  cases type with
  | primitive type => rfl
  | user index =>
    have here := same.getElem? index
    cases inFirst : first.types[index]? with
    | none =>
      rw [inFirst] at here
      simp [Session.kindOf, inFirst, Option.map_eq_none_iff.1 here.symm]
    | some type =>
      obtain ⟨other, inSecond, declared⟩ := same.counterpart inFirst
      rw [kindOf_user inFirst, kindOf_user inSecond, UserType.isClass, UserType.isClass, declared]

theorem resolution (declared : other.declaration = type.declaration) :
    first.resolution type = second.resolution other := by
  have fields : first.resolveField type = second.resolveField other := by
    funext field
    simp only [Session.resolveField, same.lookup, UserType.fault, declared, Session.qualified?]
  have base : first.resolveBase type = second.resolveBase other := by
    funext name
    simp only [Session.resolveBase, same.lookup, same.kindOf, UserType.fault, UserType.name,
      declared]
  simp only [Session.resolution, fields, base, declared]

end

section

variable (same : Agree UserType.shape first second)

include same

theorem baseAt (index : Nat) : first.baseAt index = second.baseAt index :=
  same.bind (fun shape => shape.2.bind Resolution.base) index

theorem ancestry (index : Nat) : first.ancestry index = second.ancestry index := by
  have upTo : ∀ steps index, first.ancestryUpTo steps index = second.ancestryUpTo steps index := by
    intro steps
    induction steps with
    | zero => intro index; rfl
    | succ steps ih =>
      intro index
      have base := same.baseAt index
      unfold Session.baseAt at base
      simp only [Session.ancestryUpTo, base, ih]
  unfold Session.ancestry
  rw [same.length, upTo]

theorem embedded (shaped : other.shape = type.shape) :
    first.embedded type = second.embedded other := by
  obtain ⟨declared, resolved⟩ := Prod.mk.inj shaped
  simp only [Session.embedded, UserType.typedFields, declared, resolved, same.declaration.kindOf]

end

end Agree

end Session

end FlatMemory
