import FlatMemory.Proofs.Program
import FlatMemory.Proofs.Session.Acceptance

/-! # The order of registration

Two orders of the same declarations are one program by names.  Both are accepted or none is, and
what analysis finds out of a type is the same up to the places of the types. -/

namespace FlatMemory

open List Relation Session Option

structure Dispatcher.Same (one other : Dispatcher) : Prop where
  name : one.name = other.name
  parameters : one.parameters = other.parameters
  cases : ∀ implementation id,
    Session.Sends one.cases implementation id ↔ Session.Sends other.cases implementation id
  fallback : one.fallback = other.fallback

/-- Types of two sessions of which the same is known. -/
structure UserType.Matches (first second : Session) (one other : UserType) : Prop where
  declaration : one.declaration = other.declaration
  size : one.size = other.size
  align : one.align = other.align
  entries : one.slots.map first.entry = other.slots.map second.entry
  tag : one.tag = other.tag
  dispatchers : List.Forall₂ Dispatcher.Same one.dispatchers other.dispatchers

namespace Scope

variable {declarations permuted : List Declaration}

theorem find?_ofList (distinct : (declarations.map Declaration.name).Nodup) {name : String}
    {declaration : Declaration} :
    (ofList declarations).find? name = some declaration ↔
      declaration ∈ declarations ∧ declaration.name = name := by
  constructor
  · intro found
    exact ⟨mem_of_find?_eq_some found, by simpa using find?_some found⟩
  · rintro ⟨member, rfl⟩
    cases found : (ofList declarations).find? declaration.name with
    | none =>
      have absent := find?_eq_none.1 found declaration member
      simp at absent
    | some other =>
      have named : other.name = declaration.name := by simpa using find?_some found
      rw [inj_on_of_nodup_map distinct (mem_of_find?_eq_some found) member named]

theorem ofList_perm (order : declarations.Perm permuted)
    (distinct : (declarations.map Declaration.name).Nodup) :
    ofList declarations = ofList permuted := by
  have permutedDistinct := (order.map Declaration.name).nodup_iff.1 distinct
  have same : (ofList declarations).find? = (ofList permuted).find? := by
    funext name
    apply Option.ext
    intro declaration
    rw [find?_ofList distinct, find?_ofList permutedDistinct, order.mem_iff]
  exact congrArg Scope.mk same

end Scope

namespace Session

variable {index : Nat}

/-! ### Registration -/

theorem exists_registerAll {declarations : List Declaration}
    (distinct : (declarations.map Declaration.name).Nodup)
    (notPrimitive : ∀ declaration ∈ declarations, Primitive.ofName? declaration.name = none) :
    ∃ registered, empty.registerAll declarations = .ok registered := by
  induction declarations using List.reverseRecOn with
  | nil => exact ⟨empty, rfl⟩
  | append_singleton earlier last ih =>
    rw [map_append, nodup_append] at distinct
    obtain ⟨before, registers⟩ := ih distinct.1 fun declaration member =>
      notPrimitive declaration (mem_append_left _ member)
    have known := registerAll_ok registers
    have unknown : before.lookup last.name = none := by
      refine lookup_eq_none_iff.2 ⟨notPrimitive last (by simp), ?_⟩
      intro type member
      rw [known.types] at member
      obtain ⟨declaration, isEarlier, rfl⟩ := mem_map.1 member
      exact distinct.2.2 declaration.name (mem_map_of_mem isEarlier) last.name (by simp)
    refine ⟨⟨before.types ++ [UserType.ofDeclaration last]⟩, ?_⟩
    unfold registerAll at registers ⊢
    rw [foldlM_append, registers]
    simp [register, unknown, bind, Except.bind, pure, Except.pure, Except.map]

theorem Analysed.plans {session : Session} (analysed : Analysed session) (named : WellNamed session)
    {type : UserType} (found : session.types[index]? = some type) :
    ∃ layout, type.layout = some layout ∧
      session.scope.Plans type.declaration (session.plan layout) := by
  obtain ⟨layout, recorded⟩ := analysed.laidOut index (lt_of_getElem? found)
  rw [layoutAt_eq found] at recorded
  exact ⟨layout, recorded, analysed.wellformed.plans named analysed.consistent found recorded⟩

/-! ### Two sessions of one program -/

structure Twin (first second : Session) (index place : Nat) (one other : UserType) : Prop where
  found : first.types[index]? = some one
  there : second.types[place]? = some other
  same : one.declaration = other.declaration

theorem Twin.symm {first second : Session} {place : Nat} {one other : UserType}
    (twin : Twin first second index place one other) : Twin second first place index other one :=
  ⟨twin.there, twin.found, twin.same.symm⟩

/-- Analysed sessions of the same declarations. -/
structure Reordered (first second : Session) : Prop where
  analysed : Analysed first
  named : WellNamed first
  otherAnalysed : Analysed second
  otherNamed : WellNamed second
  scope : first.scope = second.scope

namespace Reordered

variable {first second : Session} {one : UserType}

theorem symm (reordered : Reordered first second) : Reordered second first :=
  ⟨reordered.otherAnalysed, reordered.otherNamed, reordered.analysed, reordered.named,
    reordered.scope.symm⟩

theorem exists_twin (reordered : Reordered first second) (found : first.types[index]? = some one) :
    ∃ place other, Twin first second index place one other := by
  have declared := reordered.named.declares found
  rw [reordered.scope] at declared
  obtain ⟨_, place, other, there, same⟩ := exists_of_scope declared
  exact ⟨place, other, found, there, same.symm⟩

section Twins

variable (reordered : Reordered first second) {place : Nat} {other : UserType}
  (twin : Twin first second index place one other)

include reordered twin

theorem place_unique {otherPlace : Nat} {twinOther : UserType}
    (another : Twin first second index otherPlace one twinOther) : place = otherPlace :=
  reordered.otherNamed.index_unique twin.there another.there
    (congrArg Declaration.name (twin.same.symm.trans another.same))

theorem base_twin {base : Nat} (derived : one.base? = some base) :
    ∃ above baseOne baseOther, other.base? = some above ∧
      Twin first second base above baseOne baseOther := by
  obtain ⟨baseOne, baseFound, extended⟩ :=
    (reordered.analysed.wellformed.resolved index one twin.found).baseDeclaration reordered.named
      derived
  rw [reordered.scope, twin.same] at extended
  obtain ⟨above, baseOther, otherDerived, otherFound, declared⟩ :=
    (reordered.otherAnalysed.wellformed.resolved place other twin.there).exists_base
      reordered.otherNamed extended
  exact ⟨above, baseOne, baseOther, otherDerived, baseFound, otherFound, declared.symm⟩

theorem root_twin (root : one.base? = none) : other.base? = none := by
  cases derived : other.base? with
  | none => rfl
  | some above =>
    obtain ⟨_, _, _, isDerived, _⟩ := reordered.symm.base_twin twin.symm derived
    rw [root] at isDerived
    cases isDerived

theorem lineage_twin :
    (first.typesAt (first.ancestry index)).map UserType.declaration =
      (second.typesAt (second.ancestry place)).map UserType.declaration := by
  have lineage := reordered.analysed.wellformed.lineage reordered.named
    (lt_of_getElem? twin.found) one twin.found
  rw [reordered.scope, twin.same] at lineage
  exact lineage.unique (reordered.otherAnalysed.wellformed.lineage reordered.otherNamed
    (lt_of_getElem? twin.there) other twin.there)

theorem layout_twin : one.size = other.size ∧ one.align = other.align ∧
    one.slots.map first.entry = other.slots.map second.entry := by
  obtain ⟨layout, recorded, plans⟩ := reordered.analysed.plans reordered.named twin.found
  obtain ⟨otherLayout, otherRecorded, otherPlans⟩ :=
    reordered.otherAnalysed.plans reordered.otherNamed twin.there
  rw [reordered.scope, twin.same] at plans
  have same := plans.unique otherPlans
  simp only [UserType.size, UserType.align, UserType.slots, recorded, otherRecorded,
    map_some, Option.getD_some]
  exact ⟨congrArg Plan.size same, congrArg Plan.align same, congrArg Plan.entries same⟩

theorem qualifiedName_twin : first.qualifiedName index = second.qualifiedName place := by
  have names := congrArg (List.map Declaration.name) (reordered.lineage_twin twin)
  rw [List.map_map, List.map_map] at names
  exact congrArg (fun names => ">".intercalate names.reverse) names

theorem tag_twin : one.tag = other.tag := by
  have sameKind : one.isClass = other.isClass := congrArg Declaration.isClass twin.same
  cases isClass : one.isClass with
  | false =>
    rw [(reordered.analysed.structs index one twin.found isClass).1,
      (reordered.otherAnalysed.structs place other twin.there (sameKind.symm.trans isClass)).1]
  | true =>
    obtain ⟨⟨name, id⟩, isTag, isName, hashed⟩ :=
      reordered.analysed.tagged.tags index one twin.found isClass
    obtain ⟨⟨otherName, otherId⟩, isOtherTag, isOtherName, otherHashed⟩ :=
      reordered.otherAnalysed.tagged.tags place other twin.there (sameKind.symm.trans isClass)
    have sameName : name = otherName :=
      isName.trans ((reordered.qualifiedName_twin twin).trans isOtherName.symm)
    subst sameName
    have sameId : id = otherId := Option.some.inj (hashed.symm.trans otherHashed)
    rw [isTag, isOtherTag, sameId]

theorem stop_twin {lower lowerPlace : Nat} {lowerOne lowerOther : UserType}
    (lowerTwin : Twin first second lower lowerPlace lowerOne lowerOther)
    (stops : some lower = one.base?) : some lowerPlace = other.base? := by
  obtain ⟨above, baseOne, baseOther, derived, baseTwin⟩ := reordered.base_twin twin stops.symm
  have same : lowerOne = baseOne := Option.some.inj (lowerTwin.found.symm.trans baseTwin.found)
  subst same
  rw [derived, reordered.place_unique lowerTwin baseTwin]

end Twins

theorem implementor_twin (reordered : Reordered first second) (name : String)
    {stop otherStop : Option Nat}
    (stops : ∀ index place one other, Twin first second index place one other →
      (some index = stop ↔ some place = otherStop))
    {place : Nat} {other : UserType} (twin : Twin first second index place one other) :
    (first.implementor? index name stop).map UserType.declaration =
      (second.implementor? place name otherStop).map UserType.declaration := by
  refine reordered.analysed.wellformed.base_induction (motive := fun index =>
    ∀ place one other, Twin first second index place one other →
      (first.implementor? index name stop).map UserType.declaration =
        (second.implementor? place name otherStop).map UserType.declaration)
    ?_ index (lt_of_getElem? twin.found) place one other twin
  intro index _ ih place one other twin
  rw [reordered.analysed.wellformed.implementor_eq twin.found,
    reordered.otherAnalysed.wellformed.implementor_eq twin.there, twin.same]
  have stopped := stops index place one other twin
  by_cases atStop : some index = stop
  · rw [if_pos atStop, if_pos (stopped.1 atStop)]
  rw [if_neg atStop, if_neg fun isStop => atStop (stopped.2 isStop)]
  by_cases declares : other.declaration.declaresVirtual name = true
  · rw [if_pos declares, if_pos declares, map_some, map_some, twin.same]
  rw [if_neg declares, if_neg declares]
  have isBase : first.baseAt index = one.base? := by simp [baseAt, twin.found]
  have isOtherBase : second.baseAt place = other.base? := by simp [baseAt, twin.there]
  cases derived : one.base? with
  | none =>
    rw [isBase, isOtherBase, derived, reordered.root_twin twin derived]
    rfl
  | some base =>
    obtain ⟨above, baseOne, baseOther, otherDerived, baseTwin⟩ :=
      reordered.base_twin twin derived
    rw [isBase, isOtherBase, derived, otherDerived]
    exact ih base (isBase.trans derived) above baseOne baseOther baseTwin

section Twins

variable (reordered : Reordered first second) {place : Nat} {other : UserType}
  (twin : Twin first second index place one other)

include reordered twin

theorem fallback_twin (name : String) : first.fallback one name = second.fallback other name := by
  unfold fallback
  cases derived : one.base? with
  | none => rw [reordered.root_twin twin derived]
  | some base =>
    obtain ⟨above, _, _, otherDerived, baseTwin⟩ := reordered.base_twin twin derived
    have searched : (first.implementor? base name none).map UserType.declaration =
        (second.implementor? above name none).map UserType.declaration := by
      rw [implementor_unstopped, implementor_unstopped, reordered.lineage_twin baseTwin]
    simp only [otherDerived, twin.same, implementor_name searched]

theorem inherits_twin {sub subPlace : Nat} {subOne subOther : UserType}
    (subTwin : Twin first second sub subPlace subOne subOther)
    (inherits : first.Inherits sub index) : second.Inherits subPlace place := by
  induction inherits using ReflTransGen.head_induction_on generalizing subPlace subOne subOther with
  | refl =>
    have same : subOne = one := Option.some.inj (subTwin.found.symm.trans twin.found)
    subst same
    rw [reordered.place_unique subTwin twin]
    exact ReflTransGen.refl
  | @head lower upper derived _ ih =>
    have isBase : subOne.base? = some upper := by simpa [baseAt, subTwin.found] using derived
    obtain ⟨above, _, _, otherDerived, baseTwin⟩ := reordered.base_twin subTwin isBase
    exact ReflTransGen.head (by simp [baseAt, subTwin.there, otherDerived]) (ih baseTwin)

/-- What a dispatcher sends to an implementation, that of the twin sends there too. -/
theorem sends_twin {name implementation : String} {id : Nat}
    (sends : Sends (first.dispatchCases (first.subtree index) name one.base?) implementation id) :
    Sends (second.dispatchCases (second.subtree place) name other.base?) implementation id := by
  rw [dispatchCases_eq, sends_collected, mem_filterMap] at sends ⊢
  obtain ⟨sub, member, adds⟩ := sends
  obtain ⟨owner, subOne, searched, subFound, entry⟩ := caseFor_eq_some adds
  obtain ⟨subPlace, subOther, subTwin⟩ := reordered.exists_twin subFound
  obtain ⟨_, inherits⟩ := (reordered.analysed.wellformed.mem_subtree reordered.analysed.linked
    (lt_of_getElem? twin.found) sub).1 member
  refine ⟨subPlace, (reordered.otherAnalysed.wellformed.mem_subtree
    reordered.otherAnalysed.linked (lt_of_getElem? twin.there) subPlace).2
    ⟨lt_of_getElem? subTwin.there, reordered.inherits_twin twin subTwin inherits⟩, ?_⟩
  have found := implementor_name (reordered.implementor_twin name
    (fun _ _ _ _ lower => ⟨reordered.stop_twin twin lower,
      reordered.symm.stop_twin twin.symm lower.symm⟩) subTwin)
  rw [searched, map_some] at found
  obtain ⟨otherOwner, otherSearched, sameName⟩ := map_eq_some_iff.1 found.symm
  have sameId : subOne.classId = subOther.classId := by
    rw [UserType.classId, UserType.classId, reordered.tag_twin subTwin]
  rw [entry, ← sameName, sameId]
  simp [caseFor, otherSearched, subTwin.there]

theorem dispatchers_twin : List.Forall₂ Dispatcher.Same one.dispatchers other.dispatchers := by
  have sameKind : one.isClass = other.isClass := congrArg Declaration.isClass twin.same
  cases isClass : one.isClass with
  | false =>
    rw [(reordered.analysed.structs index one twin.found isClass).2,
      (reordered.otherAnalysed.structs place other twin.there (sameKind.symm.trans isClass)).2]
    exact .nil
  | true =>
    have visible : first.visibleVirtuals index = second.visibleVirtuals place := by
      rw [visibleVirtuals_eq, visibleVirtuals_eq, reordered.lineage_twin twin]
    rw [reordered.analysed.dispatched index one twin.found isClass,
      reordered.otherAnalysed.dispatched place other twin.there (sameKind.symm.trans isClass)]
    unfold dispatchers
    rw [visible, forall₂_map_left_iff, forall₂_map_right_iff, List.forall₂_same]
    intro method _
    exact ⟨rfl, rfl, fun _ _ => ⟨reordered.sends_twin twin, reordered.symm.sends_twin twin.symm⟩,
      reordered.fallback_twin twin method.name⟩

theorem matches_twin : one.Matches first second other := by
  obtain ⟨size, align, entries⟩ := reordered.layout_twin twin
  exact ⟨twin.same, size, align, entries, reordered.tag_twin twin, reordered.dispatchers_twin twin⟩

end Twins

end Reordered

end Session

/-! ### Orders of one program -/

namespace Loaded

variable {declarations permuted : List Declaration} {session : Session}

/-- The declarations that are accepted, without a word on their order. -/
theorem exists_iff : (∃ session, Loaded declarations session) ↔
    (declarations.map Declaration.name).Nodup ∧
      (∀ declaration ∈ declarations, Primitive.ofName? declaration.name = none) ∧
      (Scope.ofList declarations).Admissible := by
  constructor
  · rintro ⟨session, registered, registering, analysing⟩
    have known := registerAll_ok registering
    refine ⟨known.distinct, known.notPrimitive, ?_⟩
    rw [← known.scope]
    exact (analyze_ok_iff known).1 ⟨session, analysing⟩
  · rintro ⟨distinct, notPrimitive, admissible⟩
    obtain ⟨registered, registering⟩ := exists_registerAll distinct notPrimitive
    have known := registerAll_ok registering
    rw [← known.scope] at admissible
    obtain ⟨session, analysing⟩ :=
      (analyze_ok_iff known).2 admissible
    exact ⟨session, registered, registering, analysing⟩

theorem exists_perm (order : declarations.Perm permuted) :
    (∃ session, Loaded declarations session) → ∃ session, Loaded permuted session := by
  rw [exists_iff, exists_iff]
  rintro ⟨distinct, notPrimitive, admissible⟩
  refine ⟨(order.map Declaration.name).nodup_iff.1 distinct,
    fun declaration member => notPrimitive declaration (order.mem_iff.2 member), ?_⟩
  rw [← Scope.ofList_perm order distinct]
  exact admissible

theorem reordered {other : Session} (order : declarations.Perm permuted)
    (loaded : Loaded declarations session) (otherLoaded : Loaded permuted other) :
    session.Reordered other :=
  ⟨loaded.analysed, loaded.named, otherLoaded.analysed, otherLoaded.named, by
    rw [loaded.scope, otherLoaded.scope, Scope.ofList_perm order loaded.distinct]⟩

end Loaded

/-- Every order of some declarations is accepted or none is, and all that are accepted find out
the same of each type. -/
theorem analysis_order_free {declarations permuted : List Declaration}
    (order : declarations.Perm permuted) :
    ((∃ session, Loaded declarations session) ↔ ∃ session, Loaded permuted session) ∧
    ∀ first second, Loaded declarations first → Loaded permuted second →
      ∀ one ∈ first.types, ∃ other ∈ second.types, one.Matches first second other := by
  refine ⟨⟨Loaded.exists_perm order, Loaded.exists_perm order.symm⟩, ?_⟩
  intro first second loaded otherLoaded one member
  have reordered := loaded.reordered order otherLoaded
  obtain ⟨index, found⟩ := List.mem_iff_getElem?.1 member
  obtain ⟨place, other, twin⟩ := reordered.exists_twin found
  exact ⟨other, List.mem_of_getElem? twin.there, reordered.matches_twin twin⟩

def sampleOrder : Text := "@flatjs class C extends B\x7b@virtual m(SELF,x)\x7b\x7d\x7d@end
@flatjs class B extends A\x7b\x7d@end
@flatjs class A\x7bs:S; @virtual m(SELF,x)\x7b\x7d\x7d@end
@flatjs struct S\x7bb:int8;i:I;\x7d@end
@flatjs struct I\x7ba:int32;\x7d@end".toList

theorem analysis_order_free_sample : ∃ declarations first second one,
    declarations.Perm declarations.reverse ∧ Loaded declarations first ∧
    Loaded declarations.reverse second ∧ first.types[2]? = some one ∧
    one.slots.length = 4 ∧ one.dispatchers.length = 1 ∧
    ∃ other ∈ second.types, one.Matches first second other := by
  have accepted : (do
      let document ← Document.read "sample" sampleOrder
      let session ← Session.ofDocuments [document]
      return (session.types[2]?).map fun type =>
        if type.slots.length = 4 then type.dispatchers.length else 0) = Except.ok (some 1) := by
    decide +kernel
  obtain ⟨declarations, first, accepts, counted⟩ := Accepts.ofSource accepted
  obtain ⟨one, found, count⟩ := Option.map_eq_some_iff.1 counted
  have order := declarations.reverse_perm.symm
  obtain ⟨second, otherLoaded⟩ := (analysis_order_free order).1.1 ⟨first, accepts.loaded⟩
  split at count
  · next slots =>
    exact ⟨declarations, first, second, one, order, accepts.loaded, otherLoaded, found, slots,
      count, (analysis_order_free order).2 first second accepts.loaded otherLoaded one
        (List.mem_of_getElem? found)⟩
  · cases count

end FlatMemory
