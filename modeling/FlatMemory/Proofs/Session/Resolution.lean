import FlatMemory.Proofs.Session.Shape
import FlatMemory.Proofs.Session.Steps

/-! # Resolved sessions

After resolution every reference leads to a type of the session, every base is a class, and each
type has been given its direct subclasses in registration order. -/

namespace FlatMemory

open List Option

variable {index : Nat}

namespace UserType

def unlinked (type : UserType) : UserType := { type with resolution := none, subclasses := [] }

end UserType

theorem Declaration.isClass_of_baseName {declaration : Declaration} {name : String}
    (named : declaration.baseName? = some name) : declaration.isClass = true := by
  unfold baseName? at named
  unfold isClass
  split at named
  · cases named
  · rfl

namespace Session

variable {session : Session} {type : UserType} {resolution : Resolution}

def ResolvedType (session : Session) (type : UserType) : Prop :=
  ∃ resolution, type.resolution = some resolution ∧ session.resolution type = .ok resolution

def Resolved (session : Session) : Prop :=
  ∀ (index : Nat) (type : UserType), session.types[index]? = some type →
    session.ResolvedType type

def declaredBase (session : Session) (index : Nat) : Option Nat :=
  match (session.types[index]?).map session.resolution with
  | some (.ok resolution) => resolution.base
  | _ => none

@[simp] theorem modifyAt_getElem? (session : Session) (index place : Nat)
    (change : UserType → UserType) :
    (session.modifyAt index change).types[place]? =
      (session.types[place]?).map fun type => if index = place then change type else type := by
  simp [modifyAt, getElem?_modify]

def link (session : Session) (index : Nat) (resolution : Resolution) : Session :=
  let resolved := session.modifyAt index fun type => { type with resolution := some resolution }
  match resolution.base with
  | none => resolved
  | some base =>
    resolved.modifyAt base fun type => { type with subclasses := type.subclasses ++ [index] }

theorem link_getElem? (session : Session) (index place : Nat) (resolution : Resolution) :
    (session.link index resolution).types[place]? =
      (session.types[place]?).map fun type => { type with
        resolution := if index = place then some resolution else type.resolution
        subclasses := type.subclasses ++ if resolution.base = some place then [index] else [] } := by
  unfold link
  cases derived : resolution.base with
  | none =>
    rw [modifyAt_getElem?]
    congr 1
    funext type
    by_cases here : index = place <;> simp [here]
  | some base =>
    rw [modifyAt_getElem?, modifyAt_getElem?, Option.map_map]
    congr 1
    funext type
    by_cases here : index = place <;> by_cases above : base = place <;> simp [here, above]

theorem link_agree (session : Session) (index : Nat) (resolution : Resolution) :
    Agree UserType.unlinked (session.link index resolution) session := by
  apply ext_getElem?
  intro place
  rw [getElem?_map, getElem?_map, link_getElem?]
  cases session.types[place]? <;> rfl

/-! ### What a resolution says -/

theorem resolution_fields (resolved : session.resolution type = .ok resolution) :
    List.Forall₂ (fun field fieldType => session.resolveField type field = .ok fieldType)
      type.declaration.fields resolution.fieldTypes := by
  unfold Session.resolution at resolved
  obtain ⟨fieldTypes, fields, resolved⟩ := exists_of_bind_eq_ok resolved
  have all := forall₂_of_mapM_eq_ok fields
  split at resolved
  · cases resolved
    exact all
  · obtain ⟨base, _, resolved⟩ := exists_of_bind_eq_ok resolved
    cases resolved
    exact all

theorem resolution_base {base : Nat} (resolved : session.resolution type = .ok resolution)
    (derived : resolution.base = some base) :
    ∃ name, type.declaration.baseName? = some name ∧
      session.resolveBase type name = .ok base := by
  unfold Session.resolution at resolved
  obtain ⟨fieldTypes, _, resolved⟩ := exists_of_bind_eq_ok resolved
  split at resolved
  · cases resolved
    simp at derived
  · next name named =>
    obtain ⟨found, foundOk, resolved⟩ := exists_of_bind_eq_ok resolved
    cases resolved
    cases derived
    exact ⟨name, named, foundOk⟩

theorem resolution_isFault {failure : Failure} (failed : session.resolution type = .error failure) :
    failure.IsFault := by
  have ofField : ∀ field, session.resolveField type field = .error failure → failure.IsFault := by
    intro field failed
    unfold resolveField at failed
    repeat' split at failed
    all_goals cases failed
    all_goals trivial
  have ofBase : ∀ name, session.resolveBase type name = .error failure → failure.IsFault := by
    intro name failed
    unfold resolveBase at failed
    dsimp only at failed
    repeat' split at failed
    all_goals cases failed
    all_goals trivial
  unfold Session.resolution at failed
  rcases exists_of_bind_eq_error failed with failed | ⟨fieldTypes, _, failed⟩
  · obtain ⟨field, _, failed⟩ := exists_of_mapM_eq_error failed
    exact ofField field failed
  · split at failed
    · cases failed
    · rcases exists_of_bind_eq_error failed with failed | ⟨base, _, failed⟩
      · exact ofBase _ failed
      · cases failed

theorem resolveField_user {field : Field}
    (resolved : session.resolveField type field = .ok (.user index)) :
    session.lookup field.typeName = some (.user index) := by
  unfold resolveField at resolved
  split at resolved
  · cases resolved
  · next found looked =>
    split at resolved
    · cases resolved
      exact looked
    · cases found with
      | primitive primitive =>
        unfold qualified? at resolved
        cases qualified : primitive.qualified? field.qualifier <;> simp [qualified] at resolved
      | user index => simp [qualified?] at resolved

theorem resolveBase_ok {name : String} {base : Nat}
    (resolved : session.resolveBase type name = .ok base) :
    session.lookup name = some (.user base) ∧ session.kindOf (.user base) = .classType := by
  unfold resolveBase at resolved
  dsimp only at resolved
  split at resolved
  · cases resolved
  · next found looked =>
    split at resolved
    · next index kind =>
      cases resolved
      exact ⟨looked, kind⟩
    · cases resolved

namespace ResolvedType

section

variable (resolved : ResolvedType session type)

include resolved

theorem typedFields {field : Field} {fieldType : Option TypeRef}
    (member : (field, fieldType) ∈ type.typedFields) :
    field ∈ type.declaration.fields ∧
      ∃ known, fieldType = some known ∧ session.resolveField type field = .ok known := by
  obtain ⟨resolution, known, asked⟩ := resolved
  have all := resolution_fields asked
  simp only [UserType.typedFields, known] at member
  generalize type.declaration.fields = fields at all member
  generalize resolution.fieldTypes = fieldTypes at all member
  induction all with
  | nil => simp at member
  | @cons first firstType later laterTypes firstOk _ ih =>
    simp only [map_cons, zip_cons_cons, mem_cons, Prod.mk.injEq] at member
    rcases member with ⟨rfl, rfl⟩ | member
    · exact ⟨mem_cons_self, firstType, rfl, firstOk⟩
    · exact ⟨mem_cons_of_mem _ (ih member).1, (ih member).2⟩

theorem typedFields_fst : type.typedFields.map Prod.fst = type.declaration.fields := by
  obtain ⟨resolution, known, asked⟩ := resolved
  have lengths := (resolution_fields asked).length_eq
  rw [UserType.typedFields, known]
  exact map_fst_zip (by simp [lengths])

theorem length_typedFields : type.typedFields.length = type.declaration.fields.length := by
  rw [← resolved.typedFields_fst, length_map]

theorem base {base : Nat} (derived : type.base? = some base) :
    ∃ name, type.declaration.baseName? = some name ∧ session.lookup name = some (.user base) ∧
      session.kindOf (.user base) = .classType := by
  obtain ⟨resolution, known, asked⟩ := resolved
  have here : resolution.base = some base := by simpa [UserType.base?, known] using derived
  obtain ⟨name, named, baseOk⟩ := resolution_base asked here
  exact ⟨name, named, resolveBase_ok baseOk⟩

theorem root (root : type.base? = none) : type.declaration.baseName? = none := by
  obtain ⟨resolution, known, asked⟩ := resolved
  have here : resolution.base = none := by simpa [UserType.base?, known] using root
  unfold Session.resolution at asked
  obtain ⟨fieldTypes, _, asked⟩ := exists_of_bind_eq_ok asked
  split at asked
  · next isRoot => exact isRoot
  · obtain ⟨base, _, asked⟩ := exists_of_bind_eq_ok asked
    cases asked
    cases here

end

end ResolvedType

theorem mem_embedded {inner : Nat} :
    inner ∈ session.embedded type ↔ ∃ field, (field, some (.user inner)) ∈ type.typedFields ∧
      field.isArray = false ∧ session.kindOf (.user inner) = .structType := by
  unfold embedded
  rw [mem_filterMap]
  constructor
  · rintro ⟨⟨field, fieldType⟩, typed, held⟩
    dsimp only at held
    split at held
    · next place =>
      split at held
      · next isStruct =>
        cases held
        exact ⟨field, typed, isStruct⟩
      · cases held
    · cases held
  · rintro ⟨field, typed, isStruct⟩
    exact ⟨_, typed, by simp [isStruct.1, isStruct.2]⟩

namespace Resolved

section

variable (resolved : Resolved session)

include resolved

section

variable (found : session.types[index]? = some type)

include found

theorem typedFields {field : Field} {fieldType : Option TypeRef}
    (member : (field, fieldType) ∈ type.typedFields) :
    field ∈ type.declaration.fields ∧
      ∃ known, fieldType = some known ∧ session.resolveField type field = .ok known :=
  (resolved index type found).typedFields member

theorem typedFields_fst : type.typedFields.map Prod.fst = type.declaration.fields :=
  (resolved index type found).typedFields_fst

theorem base {base : Nat} (derived : type.base? = some base) :
    type.isClass = true ∧ session.kindOf (.user base) = .classType := by
  obtain ⟨name, named, _, isClass⟩ := (resolved index type found).base derived
  exact ⟨Declaration.isClass_of_baseName named, isClass⟩

omit found in
theorem baseAt_lt {base : Nat} (derived : session.baseAt index = some base) :
    base < session.types.length := by
  unfold baseAt at derived
  obtain ⟨type, found, derived⟩ := bind_eq_some_iff.1 derived
  obtain ⟨other, there, _⟩ := kindOf_eq_classType (resolved.base found derived).2
  exact lt_of_getElem? there

theorem embedded {inner : Nat} (member : inner ∈ session.embedded type) :
    ∃ struct, session.types[inner]? = some struct ∧ struct.isClass = false := by
  obtain ⟨field, typed, _, kind⟩ := mem_embedded.1 member
  obtain ⟨_, known, same, fieldOk⟩ := resolved.typedFields found typed
  cases same
  obtain ⟨struct, there, _⟩ := lookup_user (resolveField_user fieldOk)
  exact ⟨struct, there, (kindOf_eq_structType_iff there).1 kind⟩

end

theorem agree {other : Session} (same : Agree UserType.shape session other) : Resolved other := by
  intro index type found
  obtain ⟨before, there, shaped⟩ := same.symm.counterpart found
  obtain ⟨resolution, known, asked⟩ := resolved index before there
  obtain ⟨declared, resolutions⟩ := Prod.mk.inj shaped
  refine ⟨resolution, resolutions ▸ known, ?_⟩
  rw [← asked]
  exact same.symm.declaration.resolution declared

end

end Resolved

end Session

/-! ### The stage -/

namespace Analysis

variable {reached start : Session}

open Session

structure ResolvedUpTo (start : Session) (count : Nat) (reached : Session) : Prop where
  rest : Agree UserType.unlinked reached start
  resolved : ∀ index type, index < count → reached.types[index]? = some type →
    ∃ resolution, type.resolution = some resolution ∧ start.resolution type = .ok resolution
  later : ∀ index before type, count ≤ index → start.types[index]? = some before →
    reached.types[index]? = some type → type.resolution = before.resolution
  subclasses : ∀ index before type, start.types[index]? = some before →
    reached.types[index]? = some type →
    type.subclasses = before.subclasses ++
      (List.range count).filter fun sub => start.declaredBase sub = some index

theorem ResolvedUpTo.declaration {count : Nat} (kept : ResolvedUpTo start count reached) :
    Agree UserType.declaration reached start :=
  kept.rest.coarsen _ fun _ => rfl

def ResolutionStops (start : Session) (failure : Failure) (reached : Session) : Prop :=
  ∃ count type, ResolvedUpTo start count reached ∧ reached.types[count]? = some type ∧
    reached.resolution type = .error failure

theorem ResolutionStops.isFault {failure : Failure}
    (stops : ResolutionStops start failure reached) : failure.IsFault := by
  obtain ⟨_, _, _, _, failed⟩ := stops
  exact resolution_isFault failed

theorem filter_declaredBase_succ (start : Session) (count index : Nat) :
    ((List.range (count + 1)).filter fun sub => start.declaredBase sub = some index) =
      ((List.range count).filter fun sub => start.declaredBase sub = some index) ++
        if start.declaredBase count = some index then [count] else [] := by
  rw [range_succ, filter_append]
  by_cases here : start.declaredBase count = some index <;> simp [here]

theorem ends_resolveType {type : UserType} (kept : ResolvedUpTo start index reached)
    (found : reached.types[index]? = some type) :
    Ends (resolveType index type) reached (fun _ => ResolvedUpTo start (index + 1))
      (ResolutionStops start) := by
  obtain ⟨before, inStart, declared⟩ := kept.declaration.counterpart found
  have asked : reached.resolution type = start.resolution before :=
    kept.declaration.resolution declared
  unfold resolveType
  rw [ends_bind]
  refine ends_ask ?_ fun failure failed => ⟨index, type, kept, found, failed⟩
  intro resolution resolved
  have base : start.declaredBase index = resolution.base := by
    simp [declaredBase, inStart, ← asked, resolved]
  suffices linked : ResolvedUpTo start (index + 1) (reached.link index resolution) by
    rw [ends_bind, ends_modifyAt]
    unfold link at linked
    cases derived : resolution.base with
    | none => simpa [derived] using linked
    | some base => simpa [derived] using linked
  refine ⟨(link_agree reached index resolution).trans kept.rest, ?_, ?_, ?_⟩
  · intro place changed bound there
    rw [link_getElem?] at there
    obtain ⟨earlier, inReached, rfl⟩ := map_eq_some_iff.1 there
    by_cases here : index = place
    · subst here
      rw [found] at inReached
      cases inReached
      refine ⟨resolution, by simp, ?_⟩
      rw [← resolved]
      exact kept.declaration.symm.resolution rfl
    · obtain ⟨known, isKnown, asked⟩ := kept.resolved place earlier (by omega) inReached
      refine ⟨known, by simpa [here] using isKnown, ?_⟩
      rw [← asked]
      exact (Agree.refl UserType.declaration start).resolution rfl
  · intro place first changed bound atStart there
    rw [link_getElem?] at there
    obtain ⟨earlier, inReached, rfl⟩ := map_eq_some_iff.1 there
    rw [← kept.later place first earlier (by omega) atStart inReached]
    exact if_neg (by omega)
  · intro place first changed atStart there
    rw [link_getElem?] at there
    obtain ⟨earlier, inReached, rfl⟩ := map_eq_some_iff.1 there
    rw [filter_declaredBase_succ, base, ← append_assoc,
      ← kept.subclasses place first earlier atStart inReached]

/-- Resolution gives every type its references and its direct subclasses, or finds a fault. -/
theorem ends_resolveTypes (start : Session) :
    Ends resolveTypes start (fun _ => ResolvedUpTo start start.types.length)
      (ResolutionStops start) := by
  refine ends_forTypes (ResolvedUpTo start) ?_ rfl ?_ ?_
  · refine ⟨Agree.refl _ _, fun index type bound => absurd bound (by omega), ?_, ?_⟩
    · intro index before type _ atStart found
      rw [atStart] at found
      cases found
      rfl
    · intro index before type atStart found
      rw [atStart] at found
      cases found
      simp
  · intro count reached kept
    exact kept.rest.length
  · intro index type reached _ kept found
    exact ends_resolveType kept found

theorem ResolvedUpTo.all (kept : ResolvedUpTo start start.types.length reached) :
    Resolved reached := by
  intro index type found
  have inside : index < start.types.length := by
    rw [← kept.rest.length]
    exact lt_of_getElem? found
  obtain ⟨resolution, known, asked⟩ := kept.resolved index type inside found
  refine ⟨resolution, known, ?_⟩
  rw [← asked]
  exact kept.declaration.resolution rfl

end Analysis

theorem Session.Resolved.baseAt_eq {reached start : Session} (resolved : Resolved reached)
    (declared : Agree UserType.declaration reached start) (index : Nat) :
    reached.baseAt index = start.declaredBase index := by
  cases found : reached.types[index]? with
  | none =>
    have here := declared.getElem? index
    rw [found] at here
    simp [Session.baseAt, declaredBase, found, map_eq_none_iff.1 here.symm]
  | some type =>
    obtain ⟨before, inStart, same⟩ := declared.counterpart found
    obtain ⟨resolution, known, asked⟩ := resolved index type found
    rw [declared.resolution same] at asked
    simp [Session.baseAt, declaredBase, found, inStart, UserType.base?, known, asked]

end FlatMemory
