import FlatMemory.Proofs.Session.Analysis
import FlatMemory.Proofs.Session.Reference

/-! # Which programs are accepted

An analysis accepts exactly the admissible programs.  Admissible is said by names: the stages walk
the types in the order of registration and stop at the first fault, but whether there is a fault
somewhere does not depend on where the walk begins. -/

namespace FlatMemory

open List

namespace Scope

def qualifiedName (lineage : List Declaration) : String :=
  ">".intercalate (lineage.map Declaration.name).reverse

def Above (scope : Scope) (declaration : Declaration) (lineage : List Declaration) : Prop :=
  ∃ base, scope.base? declaration = some base ∧ scope.Lineage base lineage

def Hashes (scope : Scope) (declaration : Declaration) (id : Nat) : Prop :=
  ∃ lineage, scope.Lineage declaration lineage ∧
    ClassTag.hash? (qualifiedName lineage) = some id

/-- A program without a fault. -/
structure Admissible (scope : Scope) : Prop where
  known : ∀ declaration, scope.Declares declaration → scope.Known declaration
  grounded : ∀ declaration, scope.Declares declaration → Acc scope.PartOf declaration
  /-- A field has a name that no slot in front of it has. -/
  fields : ∀ declaration, scope.Declares declaration → ∀ done field rest plan,
    declaration.fields = done ++ field :: rest → scope.Lays declaration done.length plan →
    plan.hasPath field.name = false
  /-- A method has a name that no slot has. -/
  methods : ∀ declaration, scope.Declares declaration → ∀ plan,
    scope.Lays declaration declaration.fields.length plan →
    ∀ method ∈ declaration.methods, plan.hasPath method.name = false
  unhidden : ∀ declaration, scope.Declares declaration → ∀ lineage,
    scope.Above declaration lineage → ∀ above ∈ lineage, ∀ field ∈ declaration.fields,
    above.hasMethod field.name = false
  unshadowed : ∀ declaration, scope.Declares declaration → ∀ lineage,
    scope.Above declaration lineage → ∀ above ∈ lineage, ∀ method ∈ declaration.methods,
    method.kind = .nonVirtual → above.declaresVirtual method.name = false
  hashed : ∀ declaration, scope.Declares declaration → declaration.isClass = true →
    ∃ id, scope.Hashes declaration id
  distinct : ∀ first second id, scope.Declares first → scope.Declares second →
    first.isClass = true → second.isClass = true → scope.Hashes first id →
    scope.Hashes second id → first = second

end Scope

namespace Session

variable {session : Session} {failure : Failure} {layout : Layout} {type : UserType} {index : Nat}
  {reached : Session}

/-! ### Sessions by names -/

section Wellformed

section

variable (wellformed : Wellformed session) (named : WellNamed session)

include wellformed named

theorem Wellformed.above (found : session.types[index]? = some type) {lineage : List Declaration} :
    session.scope.Above type.declaration lineage ↔ ∃ base, type.base? = some base ∧
      lineage = (session.typesAt (session.ancestry base)).map UserType.declaration := by
  have resolved := wellformed.resolved index type found
  constructor
  · rintro ⟨declaration, extended, isLineage⟩
    obtain ⟨base, other, derived, there, rfl⟩ := resolved.exists_base named extended
    exact ⟨base, derived,
      isLineage.unique (wellformed.lineage named (lt_of_getElem? there) other there)⟩
  · rintro ⟨base, derived, rfl⟩
    obtain ⟨other, there, extended⟩ := resolved.baseDeclaration named derived
    exact ⟨other.declaration, extended,
      wellformed.lineage named (lt_of_getElem? there) other there⟩

theorem Wellformed.hashes (found : session.types[index]? = some type) {id : Nat} :
    session.scope.Hashes type.declaration id ↔
      ClassTag.hash? (session.qualifiedName index) = some id := by
  have lineage := wellformed.lineage named (lt_of_getElem? found) type found
  have name : session.qualifiedName index = Scope.qualifiedName
      ((session.typesAt (session.ancestry index)).map UserType.declaration) := by
    rw [Session.qualifiedName, Scope.qualifiedName, map_map]
    rfl
  rw [name]
  constructor
  · rintro ⟨other, isLineage, hashed⟩
    rw [lineage.unique isLineage]
    exact hashed
  · intro hashed
    exact ⟨_, lineage, hashed⟩

theorem Wellformed.plans (consistent : Consistent session)
    (found : session.types[index]? = some type) (recorded : type.layout = some layout) :
    session.scope.Plans type.declaration (session.plan layout) :=
  consistent.plans named (fun place other _ there _ => wellformed.resolved place other there)
    (wellformed.grounded index (lt_of_getElem? found)) type layout found recorded

theorem Wellformed.lays (consistent : Consistent session)
    (found : session.types[index]? = some type) {start : Layout}
    {done rest : List (Field × Option TypeRef)} (begins : session.startOf type = some start)
    (fields : type.typedFields = done ++ rest) (fills : session.Fills start done layout) :
    session.scope.Lays type.declaration done.length (session.plan layout) := by
  refine (wellformed.resolved index type found).lays named found ?_ begins fields fills
  intro place other known _ there recorded
  exact wellformed.plans named consistent there recorded

end

end Wellformed

theorem Fills.front {start : Layout} {field : Field} {fieldType : Option TypeRef}
    {done rest : List (Field × Option TypeRef)}
    (fills : session.Fills start (done ++ (field, fieldType) :: rest) layout) :
    ∃ current reference next, fieldType = some reference ∧ session.Fills start done current ∧
      current.hasPath field.name = false ∧ session.Places current field reference next ∧
      next.slots <+: layout.slots := by
  induction rest using List.reverseRecOn generalizing layout with
  | nil =>
    generalize all : done ++ [(field, fieldType)] = fields at fills
    cases fills with
    | nil => simp at all
    | snoc before fresh places =>
      obtain ⟨rfl, same⟩ := append_inj' all rfl
      cases same
      exact ⟨_, _, _, rfl, before, fresh, places, prefix_refl _⟩
  | append_singleton rest last ih =>
    generalize all : done ++ (field, fieldType) :: (rest ++ [last]) = fields at fills
    cases fills with
    | nil => simp at all
    | @snoc _ middle _ _ _ before _ placesLast =>
      rw [← cons_append, ← append_assoc] at all
      obtain ⟨rfl, _⟩ := append_inj' all rfl
      obtain ⟨current, reference, next, known, fills, free, places, within⟩ := ih before
      have grows : middle.slots <+: layout.slots := by
        cases placesLast with
        | pointer _ => exact prefix_append _ _
        | primitive _ => exact prefix_append _ _
        | struct _ _ _ => exact prefix_append _ _
      exact ⟨current, reference, next, known, fills, free, places, within.trans grows⟩

theorem checkMethods_ok_iff :
    checkMethods type layout = .ok () ↔
      ∀ method ∈ type.declaration.methods, layout.hasPath method.name = false := by
  unfold checkMethods
  cases taken : type.declaration.methods.find? fun method => layout.hasPath method.name with
  | none => simpa [find?_eq_none] using taken
  | some method =>
    have member := mem_of_find?_eq_some taken
    have path := find?_some taken
    simp only [reduceCtorEq, false_iff, not_forall]
    exact ⟨method, member, by simpa using path⟩

/-! ### Accepted programs -/

theorem Analysed.admissible (analysed : Analysed session) (named : WellNamed session) :
    session.scope.Admissible := by
  have wellformed := analysed.wellformed
  have resolved := wellformed.resolved
  -- The layout of a declared type and how it was filled.
  have filled : ∀ declaration, session.scope.Declares declaration →
      ∃ (index : Nat) (type : UserType) (start layout : Layout),
        session.types[index]? = some type ∧ type.declaration = declaration ∧
        session.startOf type = some start ∧ session.Fills start type.typedFields layout ∧
        checkMethods type layout = .ok () := by
    intro declaration declared
    obtain ⟨_, index, type, found, same⟩ := exists_of_scope declared
    obtain ⟨final, recorded⟩ := analysed.laidOut index (lt_of_getElem? found)
    rw [layoutAt_eq found] at recorded
    obtain ⟨start, layout, begins, fills, methods, _⟩ :=
      analysed.consistent index type final found recorded
    exact ⟨index, type, start, layout, found, same, begins, fills, methods⟩
  refine ⟨?_, ?_, ?_, ?_, ?_, ?_, ?_, ?_⟩
  · intro declaration declared
    obtain ⟨_, index, type, found, rfl⟩ := exists_of_scope declared
    obtain ⟨_, _, asked⟩ := resolved index type found
    exact named.known_of_resolution asked
  · intro declaration declared
    obtain ⟨_, index, type, found, rfl⟩ := exists_of_scope declared
    exact named.acc_scope resolved (wellformed.grounded index (lt_of_getElem? found)) type found
  · intro declaration declared done field rest plan split lays
    obtain ⟨index, type, start, layout, found, rfl, begins, fills, _⟩ :=
      filled declaration declared
    rw [← (resolved index type found).typedFields_fst] at split
    obtain ⟨front, back, fields, rfl, atField⟩ := map_eq_append_iff.1 split
    obtain ⟨⟨_, fieldType⟩, later, rfl, rfl, _⟩ := map_eq_cons_iff.1 atField
    rw [fields] at fills
    obtain ⟨current, _, _, _, before, free, _⟩ := fills.front
    have here := wellformed.lays named analysed.consistent found begins fields before
    rw [length_map] at lays
    rw [lays.unique here, hasPath_plan]
    exact free
  · intro declaration declared plan lays
    obtain ⟨index, type, start, layout, found, rfl, begins, fills, methods⟩ :=
      filled declaration declared
    have here := wellformed.lays named analysed.consistent found begins
      (append_nil _).symm fills
    rw [(resolved index type found).length_typedFields] at here
    rw [lays.unique here]
    simpa only [hasPath_plan] using checkMethods_ok_iff.1 methods
  · intro declaration declared lineage isAbove above member field isField
    obtain ⟨_, index, type, found, rfl⟩ := exists_of_scope declared
    obtain ⟨base, derived, rfl⟩ := (wellformed.above named found).1 isAbove
    have unowned := analysed.unhidden index (lt_of_getElem? found) type found field isField
    rw [derived] at unowned
    exact methodOwner_eq_none_iff.1 unowned above member
  · intro declaration declared lineage isAbove above member method isMethod plain
    obtain ⟨_, index, type, found, rfl⟩ := exists_of_scope declared
    obtain ⟨base, derived, rfl⟩ := (wellformed.above named found).1 isAbove
    have isClass := (resolved.base found derived).1
    exact analysed.unshadowed index type found isClass base derived method isMethod plain above
      member
  · intro declaration declared isClass
    obtain ⟨_, index, type, found, rfl⟩ := exists_of_scope declared
    obtain ⟨tag, _, name, hashed⟩ := analysed.tagged.tags index type found isClass
    exact ⟨tag.id, (wellformed.hashes named found).2 (name ▸ hashed)⟩
  · intro first second id isFirst isSecond firstClass secondClass firstHash secondHash
    obtain ⟨_, one, firstType, firstFound, rfl⟩ := exists_of_scope isFirst
    obtain ⟨_, two, secondType, secondFound, rfl⟩ := exists_of_scope isSecond
    have tagged : ∀ (index : Nat) (type : UserType), session.types[index]? = some type →
        type.isClass = true → session.scope.Hashes type.declaration id →
        ∃ tag, session.tagAt index = some tag ∧ tag.id = id := by
      intro index type found isClass hashes
      obtain ⟨tag, isTag, name, hashed⟩ := analysed.tagged.tags index type found isClass
      have again := (wellformed.hashes named found).1 hashes
      rw [← name, hashed] at again
      exact ⟨tag, (tagAt_eq found).trans isTag, Option.some.inj again⟩
    obtain ⟨firstTag, isFirstTag, firstId⟩ := tagged one firstType firstFound firstClass firstHash
    obtain ⟨secondTag, isSecondTag, secondId⟩ :=
      tagged two secondType secondFound secondClass secondHash
    have same := analysed.tagged.distinct one two firstTag secondTag isFirstTag isSecondTag
      (firstId.trans secondId.symm)
    subst same
    rw [firstFound] at secondFound
    cases secondFound
    rfl

/-! ### Refused programs -/

theorem exists_of_shape (shaped : (session.types[index]?).map UserType.shape = some type.shape) :
    ∃ other, session.types[index]? = some other ∧ other.declaration = type.declaration ∧
      other.base? = type.base? ∧ other.typedFields = type.typedFields ∧
      session.startOf other = session.startOf type := by
  obtain ⟨other, found, same⟩ := Option.map_eq_some_iff.1 shaped
  obtain ⟨declared, resolved⟩ := Prod.mk.inj same
  have base : other.base? = type.base? := by simp only [UserType.base?, resolved]
  refine ⟨other, found, declared, base, ?_, ?_⟩
  · simp only [UserType.typedFields, declared, resolved]
  · rw [startOf, startOf, base, UserType.isClass, UserType.isClass, declared]

theorem Blocked.not_admissible (blocked : Blocked session failure) (wellformed : Wellformed session)
    (named : WellNamed session) (consistent : Consistent session) : ¬ session.scope.Admissible := by
  intro admissible
  cases blocked with
  | @field index type start layout field fieldType done rest shaped begins fields fills refused =>
    obtain ⟨other, found, declared, base, typed, starts⟩ := exists_of_shape shaped
    rw [← starts] at begins
    have lays := wellformed.lays named consistent found begins (typed.trans fields) fills
    have split : other.declaration.fields = done.map Prod.fst ++ field :: rest.map Prod.fst := by
      rw [← (wellformed.resolved index other found).typedFields_fst, typed, fields]
      simp
    have free := admissible.fields other.declaration (named.declares found) _ field _ _ split
      (by rwa [length_map])
    rw [hasPath_plan] at free
    have unowned : session.methodOwner? ((type.base?.map session.ancestry).getD []) field.name =
        none := by
      rw [methodOwner_eq_none_iff, ← base]
      cases derived : other.base? with
      | none => simp [typesAt]
      | some above =>
        intro declaration member
        exact admissible.unhidden other.declaration (named.declares found) _
          ((wellformed.above named found).2 ⟨above, derived, rfl⟩) declaration member field
          (by simp [split])
    rw [checkField_ok_iff.2 ⟨free, unowned⟩] at refused
    cases refused
  | @method index type start filled shaped begins fills refused =>
    obtain ⟨other, found, declared, base, typed, starts⟩ := exists_of_shape shaped
    rw [← starts] at begins
    rw [← typed] at fills
    have lays := wellformed.lays named consistent found begins (append_nil _).symm fills
    rw [(wellformed.resolved index other found).length_typedFields] at lays
    have free := admissible.methods other.declaration (named.declares found) _ lays
    simp only [hasPath_plan] at free
    rw [checkMethods_ok_iff.2 (declared ▸ free)] at refused
    cases refused

theorem tagFor_error (failed : session.tagFor index type = .error failure) :
    ClassTag.hash? (session.qualifiedName index) = none ∨
      ∃ id owner tag, ClassTag.hash? (session.qualifiedName index) = some id ∧ owner ≠ index ∧
        session.tagAt owner = some tag ∧ tag.id = id := by
  unfold tagFor at failed
  dsimp only at failed
  cases hashed : ClassTag.hash? (session.qualifiedName index) with
  | none => exact .inl rfl
  | some id =>
    refine .inr ⟨id, ?_⟩
    simp only [hashed] at failed
    cases owned : session.ownerOf? id with
    | none => simp [owned] at failed
    | some owner =>
      obtain ⟨tag, isTag, same⟩ := tagAt_of_owner owned
      by_cases here : owner = index
      · simp [owned, here] at failed
      · exact ⟨owner, tag, rfl, here, isTag, same⟩

theorem not_admissible_of_tagFor (shape : Agree UserType.shape reached session)
    (wellformed : Wellformed session) (named : WellNamed session)
    (right : ∀ owner tag, reached.tagAt owner = some tag → ∃ ownerType,
      reached.types[owner]? = some ownerType ∧ ownerType.isClass = true ∧
        ClassTag.hash? (session.qualifiedName owner) = some tag.id)
    (found : reached.types[index]? = some type) (isClass : type.isClass = true)
    (failed : reached.tagFor index type = .error failure) : ¬ session.scope.Admissible := by
  intro admissible
  have counterpart : ∀ {place : Nat} {one : UserType}, reached.types[place]? = some one →
      ∃ other, session.types[place]? = some other ∧ other.declaration = one.declaration := by
    intro place one there
    exact shape.declaration.counterpart there
  obtain ⟨other, inSession, declared⟩ := counterpart found
  have otherClass : other.declaration.isClass = true := declared ▸ isClass
  obtain ⟨id, hashes⟩ := admissible.hashed other.declaration (named.declares inSession) otherClass
  have hashed := (wellformed.hashes named inSession).1 hashes
  rw [← shape.qualifiedName] at hashed
  rcases tagFor_error failed with unhashed | ⟨_, owner, tag, again, elsewhere, isTag, same⟩
  · rw [hashed] at unhashed
    cases unhashed
  · rw [hashed] at again
    cases again
    obtain ⟨ownerType, ownerFound, ownerClass, hash⟩ := right owner tag isTag
    rw [same] at hash
    obtain ⟨first, firstFound, firstDeclared⟩ := counterpart ownerFound
    have one := admissible.distinct first.declaration other.declaration id
      (named.declares firstFound) (named.declares inSession) (firstDeclared ▸ ownerClass)
      otherClass ((wellformed.hashes named firstFound).2 hash) hashes
    exact elsewhere (named.index_unique firstFound inSession (congrArg Declaration.name one))

theorem not_admissible_of_tagging (stops : Analysis.RetaggingStops session failure reached)
    (wellformed : Wellformed session) (named : WellNamed session) (right : RightTags session) :
    ¬ session.scope.Admissible := by
  obtain ⟨index, type, kept, found, isClass, failed⟩ := stops
  refine not_admissible_of_tagFor kept.shape wellformed named ?_ found isClass failed
  intro owner tag isTag
  obtain ⟨ownerType, ownerFound, tagged⟩ := Option.bind_eq_some_iff.1 isTag
  have ownerClass := kept.classes owner ownerType ownerFound (by simp [tagged])
  refine ⟨ownerType, ownerFound, ownerClass, ?_⟩
  by_cases early : owner < index
  · obtain ⟨_, known, name, hash⟩ := kept.tagged owner ownerType early ownerFound ownerClass
    rw [tagged] at known
    cases known
    exact name ▸ hash
  · obtain ⟨before, inStart, same⟩ := kept.shape.declaration.counterpart ownerFound
    rw [kept.later owner (by omega), tagAt_eq inStart] at isTag
    exact right owner before tag inStart ((congrArg Declaration.isClass same).trans ownerClass) isTag

theorem Refused.not_admissible {start : Session} (refused : Refused start)
    (named : WellNamed start) : ¬ start.scope.Admissible := by
  cases refused with
  | unresolved found failed =>
    intro admissible
    exact named.resolution_of_known (admissible.known _ (named.declares found)) _ failed
  | @cyclic session declared resolved cycle =>
    rw [← declared.scope]
    have named := named.agree declared.symm
    intro admissible
    refine cycle fun index inside => ?_
    have found := getElem?_eq_getElem inside
    exact named.acc_partOf resolved (admissible.grounded _ (named.declares found)) index _ found rfl
  | blocked declared wellformed consistent blocked =>
    rw [← declared.scope]
    exact blocked.not_admissible wellformed (named.agree declared.symm) consistent
  | untagged declared wellformed right stops =>
    rw [← declared.scope]
    exact not_admissible_of_tagging stops wellformed (named.agree declared.symm) right
  | @shadowed session index type declared wellformed found isClass shadowed =>
    rw [← declared.scope]
    have named := named.agree declared.symm
    intro admissible
    refine shadowed fun base derived method member plain above isAbove => ?_
    exact admissible.unshadowed type.declaration (named.declares found) _
      ((wellformed.above named found).2 ⟨base, derived, rfl⟩) above isAbove method member plain

/-- A registered program is accepted exactly if it is admissible. -/
theorem analyze_ok_iff {declarations : List Declaration} {registered : Session}
    (known : Registers declarations registered) :
    (∃ analysed, registered.analyze = (.ok (), analysed)) ↔ registered.scope.Admissible := by
  constructor
  · rintro ⟨analysed, accepted⟩
    obtain ⟨_, sound, declared⟩ := analyze_ok known accepted
    rw [← declared.scope]
    exact sound.admissible (known.named.agree declared.symm)
  · intro admissible
    rcases answer : registered.analyze with ⟨failure | _, reached⟩
    · exact absurd admissible ((analyze_error known answer).2.not_admissible known.named)
    · exact ⟨reached, rfl⟩

end Session

end FlatMemory
