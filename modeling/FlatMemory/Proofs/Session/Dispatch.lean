import FlatMemory.Proofs.Session.Ancestry
import FlatMemory.Proofs.Session.ClassTag
import FlatMemory.Proofs.Types.Declaration

/-! # Dispatch finds the nearest implementation

A dispatcher of a class sends the id of each class of the subtree to the nearest class at or above
it that declares the method.  The search of the dispatcher stops above the root of the subtree;
what it does not find there is the fallback, found from the base of the root on. -/

namespace FlatMemory

open List

variable {session : Session} {name : String} {index : Nat}

open Relation

namespace UserType

def undispatched (type : UserType) : UserType := { type with dispatchers := [] }

end UserType

/-- The function that a dispatcher calls for an instance with an id. -/
def Dispatcher.target (dispatcher : Dispatcher) (id : Nat) : Option String :=
  match dispatcher.cases.find? fun entry => id ∈ entry.ids with
  | some entry => some entry.implementation
  | none => dispatcher.fallback

namespace Session

variable {first second : Session} {stop : Option Nat} {type : UserType}

def caseFor (session : Session) (name : String) (base : Option Nat) (index : Nat) :
    Option (String × Nat) :=
  match session.implementor? index name base, session.types[index]? with
  | some implementor, some type => some (implementationName implementor.name name, type.classId)
  | _, _ => none

theorem dispatchCases_eq (session : Session) (subtree : List Nat) (name : String)
    (base : Option Nat) :
    session.dispatchCases subtree name base =
      (subtree.filterMap (session.caseFor name base)).foldl
        (fun cases entry => addCase cases entry.1 entry.2) [] := by
  unfold dispatchCases
  rw [foldl_filterMap]
  congr 1
  funext cases index
  unfold caseFor
  cases session.implementor? index name base <;> cases session.types[index]? <;> rfl

/-! ### What the dispatchers read -/

theorem implementor_declaration (session : Session) (start : Nat) (name : String)
    (stop : Option Nat) :
    (session.implementor? start name stop).map UserType.declaration =
      ((session.typesAt ((session.ancestry start).takeWhile fun index => some index ≠ stop)).map
        UserType.declaration).find? fun declaration => declaration.declaresVirtual name := by
  rw [find?_map]
  rfl

theorem visibleVirtuals_eq (session : Session) (index : Nat) :
    session.visibleVirtuals index =
      firstOfEachName (((session.typesAt (session.ancestry index)).map
        UserType.declaration).flatMap fun declaration =>
          declaration.methods.filter fun method => method.kind = .virtual) := by
  rw [flatMap_map]
  rfl

theorem implementor_name {start place : Nat} {other : Option Nat}
    (same : (first.implementor? start name stop).map UserType.declaration =
      (second.implementor? place name other).map UserType.declaration) :
    (first.implementor? start name stop).map
        (fun implementor => implementationName implementor.name name) =
      (second.implementor? place name other).map
        (fun implementor => implementationName implementor.name name) := by
  have mapped := congrArg
    (Option.map fun declaration : Declaration => implementationName declaration.name name) same
  rwa [Option.map_map, Option.map_map] at mapped

namespace Agree

variable {other : UserType}

theorem implementor (same : Agree UserType.shape first second) (start : Nat) (name : String)
    (stop : Option Nat) :
    (first.implementor? start name stop).map UserType.declaration =
      (second.implementor? start name stop).map UserType.declaration := by
  rw [implementor_declaration, implementor_declaration, same.ancestry, same.declaration.typesAt]

theorem caseFor (shape : Agree UserType.shape first second)
    (tags : Agree UserType.tag first second) (name : String) (base : Option Nat) :
    first.caseFor name base = second.caseFor name base := by
  funext index
  have through : ∀ session : Session, session.caseFor name base index =
      ((session.implementor? index name base).map UserType.declaration).bind fun implementor =>
        ((session.types[index]?).map UserType.tag).map fun tag =>
          (implementationName implementor.name name, (tag.map ClassTag.id).getD 0) := by
    intro session
    unfold Session.caseFor
    cases session.implementor? index name base <;> cases session.types[index]? <;> rfl
  rw [through first, through second, shape.implementor, tags.getElem?]

theorem subtree (same : Agree UserType.undispatched first second) (index : Nat) :
    first.subtree index = second.subtree index := by
  have below : Agree UserType.subclasses first second := same.coarsen _ fun _ => rfl
  have upTo : ∀ depth index, first.subtreeUpTo depth index = second.subtreeUpTo depth index := by
    intro depth
    induction depth with
    | zero => intro index; rfl
    | succ depth ih =>
      intro index
      rw [subtreeUpTo, subtreeUpTo, below.getElem?, funext ih]
  rw [Session.subtree, Session.subtree, same.length, upTo]

theorem visibleVirtuals (same : Agree UserType.shape first second) (index : Nat) :
    first.visibleVirtuals index = second.visibleVirtuals index := by
  rw [visibleVirtuals_eq, visibleVirtuals_eq, same.ancestry, same.declaration.typesAt]

theorem fallback (same : Agree UserType.shape first second) (shaped : type.shape = other.shape)
    (name : String) : first.fallback type name = second.fallback other name := by
  obtain ⟨declared, resolved⟩ := Prod.mk.inj shaped
  have base : type.base? = other.base? := by rw [UserType.base?, UserType.base?, resolved]
  have found := fun start => implementor_name (same.implementor start name none)
  simp only [Session.fallback, base, declared, found]

theorem dispatchers (same : Agree UserType.undispatched first second)
    (shaped : type.shape = other.shape) (index : Nat) :
    first.dispatchers index type = second.dispatchers index other := by
  have shape : Agree UserType.shape first second := same.coarsen _ fun _ => rfl
  have base : type.base? = other.base? := by
    rw [UserType.base?, UserType.base?, (Prod.mk.inj shaped).2]
  simp only [Session.dispatchers, dispatchCases_eq, shape.visibleVirtuals, same.subtree,
    shape.caseFor (same.coarsen _ fun _ => rfl), base, shape.fallback shaped]

end Agree

/-! ### Searching upwards -/

def Readable (session : Session) : Prop :=
  ∀ type ∈ session.types, type.declaration.WellFormed

def DeclaresVirtual (session : Session) (index : Nat) (name : String) : Prop :=
  ∃ type, session.types[index]? = some type ∧ type.declaration.DeclaresVirtual name

/-- Of the classes at or above one, the nearest that declares a virtual method. -/
structure Implements (session : Session) (owner derived : Nat) (name : String) : Prop where
  above : session.Inherits derived owner
  declares : session.DeclaresVirtual owner name
  nearest : ∀ other, session.Inherits derived other → session.DeclaresVirtual other name →
    session.Inherits owner other

theorem inherits_iff_of_base {base : Nat} (derived : session.baseAt index = some base)
    (other : Nat) :
    session.Inherits index other ↔ index = other ∨ session.Inherits base other := by
  unfold Inherits
  rw [ReflTransGen.cases_head_iff]
  simp [derived]

theorem Readable.declaresVirtual_iff (readable : Readable session)
    (found : session.types[index]? = some type) (name : String) :
    session.DeclaresVirtual index name ↔ type.declaration.declaresVirtual name = true := by
  rw [(readable type (mem_of_getElem? found)).declaresVirtual_iff]
  simp [DeclaresVirtual, found]

section

variable (wellformed : Wellformed session)

include wellformed

theorem Wellformed.implementor_eq (found : session.types[index]? = some type) (name : String)
    (stop : Option Nat) :
    session.implementor? index name stop =
      if some index = stop then none
      else if type.declaration.declaresVirtual name then some type
      else (session.baseAt index).bind fun base => session.implementor? base name stop := by
  unfold implementor?
  rw [wellformed.ancestry_eq (lt_of_getElem? found)]
  by_cases stops : some index = stop
  · simp [stops, typesAt]
  · by_cases declares : type.declaration.declaresVirtual name = true
    · simp [stops, typesAt, found, declares]
    · cases derived : session.baseAt index <;> simp [stops, typesAt, found, declares]

theorem Wellformed.implementor_some (readable : Readable session) {owner : UserType}
    (inside : index < session.types.length)
    (search : session.implementor? index name stop = some owner) :
    ∃ place, session.types[place]? = some owner ∧ session.Implements place index name := by
  revert search
  refine wellformed.base_induction (motive := fun index =>
    session.implementor? index name stop = some owner → ∃ place,
      session.types[place]? = some owner ∧ session.Implements place index name) ?_ index inside
  intro index inside ih search
  have found := getElem?_eq_getElem inside
  rw [wellformed.implementor_eq found] at search
  split at search
  · cases search
  split at search
  · next declares =>
    cases search
    exact ⟨index, found, ReflTransGen.refl, (readable.declaresVirtual_iff found name).2 declares,
      fun _ inherits _ => inherits⟩
  · next declares =>
    obtain ⟨base, derived, search⟩ := Option.bind_eq_some_iff.1 search
    obtain ⟨place, there, implements⟩ := ih base derived search
    refine ⟨place, there, implements.above.head derived, implements.declares, ?_⟩
    intro other inherits otherDeclares
    rcases (inherits_iff_of_base derived other).1 inherits with same | inherits
    · subst same
      exact absurd ((readable.declaresVirtual_iff found name).1 otherDeclares) declares
    · exact implements.nearest other inherits otherDeclares

theorem Wellformed.implementor_none (readable : Readable session)
    (inside : index < session.types.length) (search : session.implementor? index name stop = none)
    {other : Nat} (inherits : session.Inherits index other)
    (passed : ∀ between, session.Inherits between other → some between ≠ stop) :
    ¬ session.DeclaresVirtual other name := by
  induction inherits using ReflTransGen.head_induction_on with
  | refl =>
    have found := getElem?_eq_getElem inside
    rw [wellformed.implementor_eq found, if_neg (passed other ReflTransGen.refl)] at search
    rw [readable.declaresVirtual_iff found]
    intro declares
    simp [declares] at search
  | @head lower upper derived inherits ih =>
    have found := getElem?_eq_getElem inside
    refine ih (wellformed.resolved.baseAt_lt derived) ?_
    rw [wellformed.implementor_eq found, if_neg (passed lower (inherits.head derived)),
      derived] at search
    by_cases declares : session.types[lower].declaration.declaresVirtual name = true
    · simp [declares] at search
    · simpa [declares] using search

theorem Wellformed.ne_base_of_inherits {root between : Nat}
    (below : session.Inherits between root) : some between ≠ session.baseAt root := by
  intro isBase
  have climbed := wellformed.level_base (baseAt_lt isBase.symm) isBase.symm
  rcases wellformed.level_inherits (wellformed.resolved.baseAt_lt isBase.symm) below with
    same | lower
  · subst same
    omega
  · omega

end

/-! ### Collecting the cases -/

def Sends (cases : List DispatchCase) (implementation : String) (id : Nat) : Prop :=
  ∃ entry ∈ cases, entry.implementation = implementation ∧ id ∈ entry.ids

theorem sends_cons (first : DispatchCase) (later : List DispatchCase) (implementation : String)
    (id : Nat) :
    Sends (first :: later) implementation id ↔
      (first.implementation = implementation ∧ id ∈ first.ids) ∨ Sends later implementation id := by
  simp [Sends]

theorem sends_addCase (cases : List DispatchCase) (implementation : String) (id : Nat)
    (other : String) (place : Nat) :
    Sends (addCase cases implementation id) other place ↔
      Sends cases other place ∨ (other, place) = (implementation, id) := by
  rw [Prod.mk.injEq]
  induction cases with
  | nil => simp [addCase, Sends, eq_comm]
  | cons first later ih =>
    unfold addCase
    by_cases same : first.implementation = implementation
    · rw [if_pos same, sends_cons, sends_cons, mem_append, mem_singleton, same]
      constructor
      · rintro (⟨named, member | new⟩ | later)
        · exact .inl (.inl ⟨named, member⟩)
        · exact .inr ⟨named.symm, new⟩
        · exact .inl (.inr later)
      · rintro ((⟨named, member⟩ | later) | ⟨named, new⟩)
        · exact .inl ⟨named, .inl member⟩
        · exact .inr later
        · exact .inl ⟨named.symm, .inr new⟩
    · rw [if_neg same, sends_cons, sends_cons, ih, or_assoc]

theorem ids_addCase (cases : List DispatchCase) (implementation : String) (id : Nat) :
    ((addCase cases implementation id).flatMap DispatchCase.ids).Perm
      (cases.flatMap DispatchCase.ids ++ [id]) := by
  induction cases with
  | nil => simp [addCase]
  | cons first later ih =>
    unfold addCase
    by_cases same : first.implementation = implementation
    · simp only [same, if_true, flatMap_cons, append_assoc]
      exact (perm_append_comm).append_left first.ids
    · simp only [same, if_false, flatMap_cons, append_assoc]
      exact ih.append_left first.ids

theorem sends_collected (entries : List (String × Nat)) (implementation : String) (id : Nat) :
    Sends (entries.foldl (fun cases entry => addCase cases entry.1 entry.2) [])
      implementation id ↔ (implementation, id) ∈ entries := by
  induction entries using List.reverseRecOn with
  | nil => simp [Sends]
  | append_singleton entries entry ih =>
    rw [foldl_append, foldl_cons, foldl_nil, sends_addCase, ih, mem_append,
      mem_singleton]

theorem ids_collected (entries : List (String × Nat)) :
    ((entries.foldl (fun cases entry => addCase cases entry.1 entry.2) []).flatMap
      DispatchCase.ids).Perm (entries.map Prod.snd) := by
  induction entries using List.reverseRecOn with
  | nil => simp
  | append_singleton entries entry ih =>
    rw [foldl_append, foldl_cons, foldl_nil, map_append]
    exact (ids_addCase _ _ _).trans (ih.append_right _)

theorem mem_firstOfEachName (methods : List Method) :
    ((firstOfEachName methods).map Method.name).Nodup ∧
      ∀ name, name ∈ (firstOfEachName methods).map Method.name ↔
        name ∈ methods.map Method.name := by
  induction methods using List.reverseRecOn with
  | nil => simp [firstOfEachName]
  | append_singleton methods method ih =>
    obtain ⟨nodup, names⟩ := ih
    unfold firstOfEachName at nodup names ⊢
    rw [foldl_append, foldl_cons, foldl_nil]
    split
    · next known =>
      obtain ⟨earlier, member, same⟩ := any_eq_true.1 known
      have present := (names method.name).1
        (mem_map.2 ⟨earlier, member, by simpa using same⟩)
      refine ⟨nodup, fun name => ?_⟩
      rw [names name, map_append, mem_append]
      constructor
      · exact .inl
      · rintro (member | new)
        · exact member
        · simp only [map_cons, map_nil, mem_singleton] at new
          exact new ▸ present
    · next unknown =>
      rw [map_append, nodup_append]
      refine ⟨⟨nodup, by simp, ?_⟩, fun name => ?_⟩
      · rintro name member _ new rfl
        simp only [map_cons, map_nil, mem_singleton] at new
        obtain ⟨earlier, isEarlier, named⟩ := mem_map.1 member
        exact unknown (any_eq_true.2 ⟨earlier, isEarlier, by simp [named, new]⟩)
      · rw [mem_append, names name, map_append, mem_append]

/-! ### Dispatchers of a class -/

structure Tagged (session : Session) : Prop where
  tags : ∀ (index : Nat) (type : UserType), session.types[index]? = some type →
    type.isClass = true → ∃ tag, type.tag = some tag ∧
      tag.name = session.qualifiedName index ∧ ClassTag.hash? tag.name = some tag.id
  distinct : TagsDistinct session

theorem Tagged.agree (tagged : Tagged first) (shape : Agree UserType.shape first second)
    (tags : Agree UserType.tag first second) : Tagged second := by
  have tagAt : ∀ index, second.tagAt index = first.tagAt index := tags.symm.bind id
  refine ⟨?_, ?_⟩
  · intro index type found isClass
    obtain ⟨other, inFirst, shaped⟩ := shape.symm.counterpart found
    have otherClass : other.isClass = true := by
      rw [UserType.isClass, (Prod.mk.inj shaped).1]
      exact isClass
    obtain ⟨tag, isTag, named, hashed⟩ := tagged.tags index other inFirst otherClass
    refine ⟨tag, ?_, by rw [named, shape.qualifiedName], hashed⟩
    rw [← tagAt_eq found, tagAt, tagAt_eq inFirst, isTag]
  · intro one other oneTag otherTag isOne isOther same
    rw [tagAt] at isOne isOther
    exact tagged.distinct one other oneTag otherTag isOne isOther same

theorem Tagged.classId_injective (tagged : Tagged session) {first second : Nat}
    {one other : UserType} (isOne : session.types[first]? = some one)
    (isOther : session.types[second]? = some other) (oneClass : one.isClass = true)
    (otherClass : other.isClass = true) (same : one.classId = other.classId) : first = second := by
  obtain ⟨tag, tagOne, _⟩ := tagged.tags first one isOne oneClass
  obtain ⟨tag', tagOther, _⟩ := tagged.tags second other isOther otherClass
  simp only [UserType.classId, tagOne, tagOther, Option.map_some, Option.getD_some] at same
  exact tagged.distinct first second tag tag' (by rw [tagAt_eq isOne, tagOne])
    (by rw [tagAt_eq isOther, tagOther]) same

theorem Resolved.isClass_of_inherits {session : Session} (resolved : Resolved session)
    {sub index : Nat} {type subType : UserType} (found : session.types[index]? = some type)
    (isClass : type.isClass = true) (inherits : session.Inherits sub index)
    (subFound : session.types[sub]? = some subType) : subType.isClass = true := by
  rcases ReflTransGen.cases_head inherits with same | ⟨base, derived, _⟩
  · subst same
    rw [found] at subFound
    cases subFound
    exact isClass
  · simp only [baseAt, subFound, Option.bind_some] at derived
    exact (resolved.base subFound derived).1

/-- What a class adds to a dispatcher is its nearest implementation at or below the root. -/
theorem caseFor_eq_some {base : Option Nat} {entry : String × Nat}
    (adds : session.caseFor name base index = some entry) :
    ∃ owner type, session.implementor? index name base = some owner ∧
      session.types[index]? = some type ∧
      entry = (implementationName owner.name name, type.classId) := by
  unfold caseFor at adds
  split at adds
  · next owner type searched found =>
    cases adds
    exact ⟨owner, type, searched, found, rfl⟩
  · cases adds

section Class

variable (wellformed : Wellformed session) (linked : Linked session) (tagged : Tagged session)
  (found : session.types[index]? = some type) (isClass : type.isClass = true)

include wellformed linked tagged found isClass

theorem dispatched_ids (name : String) :
    (((session.dispatchCases (session.subtree index) name type.base?).flatMap
      DispatchCase.ids).Nodup) ∧
    ∀ id ∈ (session.dispatchCases (session.subtree index) name type.base?).flatMap
        DispatchCase.ids,
      ∃ sub subType, session.types[sub]? = some subType ∧ session.Inherits sub index ∧
        subType.classId = id := by
  have inside := lt_of_getElem? found
  have collected := ids_collected
    ((session.subtree index).filterMap (session.caseFor name type.base?))
  rw [dispatchCases_eq]
  have origin : ∀ sub ∈ session.subtree index, ∀ entry,
      session.caseFor name type.base? sub = some entry →
      ∃ subType, session.types[sub]? = some subType ∧ session.Inherits sub index ∧
        subType.isClass = true ∧ subType.classId = entry.2 := by
    intro sub member entry adds
    obtain ⟨_, inherits⟩ := (wellformed.mem_subtree linked inside sub).1 member
    obtain ⟨_, subType, _, subFound, rfl⟩ := caseFor_eq_some adds
    exact ⟨subType, subFound, inherits,
      wellformed.resolved.isClass_of_inherits found isClass inherits subFound, rfl⟩
  constructor
  · rw [collected.nodup_iff, List.Nodup, pairwise_map, pairwise_filterMap]
    refine (wellformed.nodup_subtree linked inside).imp_of_mem ?_
    intro first second isFirst isSecond distinct one oneAdds other otherAdds same
    obtain ⟨oneType, oneFound, _, oneClass, oneId⟩ := origin first isFirst one oneAdds
    obtain ⟨otherType, otherFound, _, otherClass, otherId⟩ :=
      origin second isSecond other otherAdds
    exact distinct (tagged.classId_injective oneFound otherFound oneClass otherClass
      (by rw [oneId, otherId, same]))
  · intro id member
    obtain ⟨entry, isEntry, rfl⟩ := mem_map.1 (collected.mem_iff.1 member)
    obtain ⟨sub, isSub, adds⟩ := mem_filterMap.1 isEntry
    obtain ⟨subType, subFound, inherits, _, same⟩ := origin sub isSub entry adds
    exact ⟨sub, subType, subFound, inherits, same⟩

/-- The case that lists a class of the subtree names the implementation found below the root. -/
theorem dispatched_case (name : String) {sub : Nat} {subType : UserType}
    (subFound : session.types[sub]? = some subType) (below : session.Inherits sub index) :
    ((session.dispatchCases (session.subtree index) name type.base?).find? fun entry =>
        subType.classId ∈ entry.ids).map DispatchCase.implementation =
      (session.implementor? sub name type.base?).map fun owner =>
        implementationName owner.name name := by
  have inside := lt_of_getElem? found
  have subMember : sub ∈ session.subtree index :=
    (wellformed.mem_subtree linked inside sub).2 ⟨lt_of_getElem? subFound, below⟩
  have sends : ∀ implementation,
      Sends (session.dispatchCases (session.subtree index) name type.base?) implementation
        subType.classId ↔
      ∃ owner, session.implementor? sub name type.base? = some owner ∧
        implementation = implementationName owner.name name := by
    intro implementation
    rw [dispatchCases_eq, sends_collected, mem_filterMap]
    constructor
    · -- Whatever class adds the id is the class itself.
      rintro ⟨other, isOther, adds⟩
      obtain ⟨owner, otherType, searched, otherFound, same⟩ := caseFor_eq_some adds
      obtain ⟨named, id⟩ := Prod.mk.inj same
      obtain ⟨_, otherBelow⟩ := (wellformed.mem_subtree linked inside other).1 isOther
      have classOf := @Resolved.isClass_of_inherits session wellformed.resolved
      have here : sub = other := tagged.classId_injective subFound otherFound
        (classOf found isClass below subFound) (classOf found isClass otherBelow otherFound) id
      exact ⟨owner, here ▸ searched, named⟩
    · rintro ⟨owner, searched, rfl⟩
      exact ⟨sub, subMember, by simp [caseFor, searched, subFound]⟩
  cases listed : (session.dispatchCases (session.subtree index) name type.base?).find? fun entry =>
      subType.classId ∈ entry.ids with
  | some entry =>
    have lists := find?_some listed
    obtain ⟨owner, searched, named⟩ := (sends entry.implementation).1
      ⟨entry, mem_of_find?_eq_some listed, rfl, by simpa using lists⟩
    simp [searched, named]
  | none =>
    cases searched : session.implementor? sub name type.base? with
    | none => rfl
    | some owner =>
      obtain ⟨entry, member, _, lists⟩ := (sends _).2 ⟨owner, searched, rfl⟩
      have absent := find?_eq_none.1 listed entry member
      simp [lists] at absent

end Class

/-- Where nothing between a subclass and the root of the subtree declares a visible method, the
fallback of the root is the nearest implementation. -/
theorem Wellformed.fallback_implements (wellformed : Wellformed session)
    (readable : Readable session) (found : session.types[index]? = some type)
    (visible : ∃ owner, session.Inherits index owner ∧ session.DeclaresVirtual owner name)
    {sub : Nat} (inside : sub < session.types.length) (below : session.Inherits sub index)
    (searched : session.implementor? sub name type.base? = none) :
    ∃ owner ownerType, session.types[owner]? = some ownerType ∧
      session.Implements owner sub name ∧
      session.fallback type name = some (implementationName ownerType.name name) := by
  have baseIs : session.baseAt index = type.base? := by simp [baseAt, found]
  have between : ∀ other, session.Inherits sub other → session.Inherits other index →
      ¬ session.DeclaresVirtual other name := by
    intro other inherits otherBelow
    refine wellformed.implementor_none readable inside searched inherits ?_
    intro class' classBelow
    rw [← baseIs]
    exact wellformed.ne_base_of_inherits (classBelow.trans otherBelow)
  have notHere := between index below ReflTransGen.refl
  obtain ⟨first, firstAbove, firstDeclares⟩ := visible
  rcases ReflTransGen.cases_head firstAbove with same | ⟨base, derived, baseAbove⟩
  · exact absurd firstDeclares (same ▸ notHere)
  have baseInside := wellformed.resolved.baseAt_lt derived
  cases fromBase : session.implementor? base name none with
  | none =>
    exact absurd firstDeclares
      (wellformed.implementor_none readable baseInside fromBase baseAbove (by simp))
  | some ownerType =>
    obtain ⟨owner, there, implements⟩ :=
      wellformed.implementor_some readable baseInside fromBase
    refine ⟨owner, ownerType, there, ⟨?_, implements.declares, ?_⟩, ?_⟩
    · exact (below.tail derived).trans implements.above
    · intro other inherits declares
      rcases ReflTransGen.total_of_right_unique session.baseAt_rightUnique inherits below with
        lower | higher
      · exact absurd declares (between other inherits lower)
      · rcases (inherits_iff_of_base derived other).1 higher with same | higher
        · exact absurd declares (same ▸ notHere)
        · exact implements.nearest other higher declares
    · rw [readable.declaresVirtual_iff found] at notHere
      have isDerived : type.base? = some base := by rw [← baseIs, derived]
      simp [fallback, isDerived, notHere, fromBase]

/-- What a dispatcher of a class does: it lists ids of the subtree only, each once, and sends every
class of the subtree to the nearest class at or above it that declares the method. -/
structure Dispatches (session : Session) (index : Nat) (dispatcher : Dispatcher) : Prop where
  nodup : (dispatcher.cases.flatMap DispatchCase.ids).Nodup
  within : ∀ id ∈ dispatcher.cases.flatMap DispatchCase.ids,
    ∃ sub subType, session.types[sub]? = some subType ∧ session.Inherits sub index ∧
      subType.classId = id
  target : ∀ sub subType, session.types[sub]? = some subType → session.Inherits sub index →
    ∃ owner ownerType, session.types[owner]? = some ownerType ∧
      session.Implements owner sub dispatcher.name ∧
      dispatcher.target subType.classId =
        some (implementationName ownerType.name dispatcher.name)

theorem Wellformed.visibleVirtuals_names (wellformed : Wellformed session)
    (inside : index < session.types.length) :
    ((session.visibleVirtuals index).map Method.name).Nodup ∧
    ∀ name, name ∈ (session.visibleVirtuals index).map Method.name ↔
      ∃ owner, session.Inherits index owner ∧ session.DeclaresVirtual owner name := by
  unfold visibleVirtuals
  refine ⟨(mem_firstOfEachName _).1, fun name => ?_⟩
  rw [(mem_firstOfEachName _).2 name]
  simp only [mem_map, mem_flatMap, mem_filter, decide_eq_true_eq, typesAt,
    mem_filterMap, wellformed.mem_ancestry inside]
  constructor
  · rintro ⟨method, ⟨type, ⟨owner, above, there⟩, member, isVirtual⟩, rfl⟩
    exact ⟨owner, above, type, there, method, member, isVirtual, rfl⟩
  · rintro ⟨owner, above, type, there, method, member, isVirtual, rfl⟩
    exact ⟨method, ⟨type, ⟨owner, above, there⟩, member, isVirtual⟩, rfl⟩

theorem Wellformed.dispatchers_dispatch (wellformed : Wellformed session) (linked : Linked session)
    (tagged : Tagged session) (readable : Readable session)
    (found : session.types[index]? = some type) (isClass : type.isClass = true)
    {dispatcher : Dispatcher} (member : dispatcher ∈ session.dispatchers index type) :
    session.Dispatches index dispatcher := by
  obtain ⟨method, isMethod, rfl⟩ := mem_map.1 member
  have visible := ((wellformed.visibleVirtuals_names (lt_of_getElem? found)).2 method.name).1
    (mem_map_of_mem isMethod)
  have ids := dispatched_ids wellformed linked tagged found isClass method.name
  refine ⟨ids.1, ids.2, ?_⟩
  intro sub subType subFound below
  have listed := dispatched_case wellformed linked tagged found isClass method.name subFound below
  have subInside := lt_of_getElem? subFound
  cases searched : session.implementor? sub method.name type.base? with
  | some ownerType =>
    obtain ⟨owner, there, implements⟩ :=
      wellformed.implementor_some readable subInside searched
    rw [searched, Option.map_some] at listed
    obtain ⟨entry, first, named⟩ := Option.map_eq_some_iff.1 listed
    exact ⟨owner, ownerType, there, implements, by simp only [Dispatcher.target, first, named]⟩
  | none =>
    obtain ⟨owner, ownerType, there, implements, falls⟩ :=
      wellformed.fallback_implements readable found visible subInside below searched
    rw [searched, Option.map_none, Option.map_eq_none_iff] at listed
    exact ⟨owner, ownerType, there, implements, by simp only [Dispatcher.target, listed, falls]⟩

end Session

/-! ### Hidden virtual methods -/

namespace Session

variable {type : UserType}

theorem implementor_unstopped (session : Session) (index : Nat) (name : String) :
    (session.implementor? index name none).map UserType.declaration =
      ((session.typesAt (session.ancestry index)).map UserType.declaration).find?
        fun declaration => declaration.declaresVirtual name := by
  have all : (session.ancestry index).takeWhile (fun place => some place ≠ none) =
      session.ancestry index := by simp
  rw [implementor_declaration, all]

theorem implementor_eq_none_iff :
    session.implementor? index name none = none ↔
      ∀ declaration ∈ (session.typesAt (session.ancestry index)).map UserType.declaration,
        declaration.declaresVirtual name = false := by
  rw [← Option.map_eq_none_iff, implementor_unstopped, find?_eq_none]
  simp

def Unshadowed (session : Session) (type : UserType) : Prop :=
  ∀ base, type.base? = some base → ∀ method ∈ type.declaration.methods,
    method.kind = .nonVirtual →
    ∀ declaration ∈ (session.typesAt (session.ancestry base)).map UserType.declaration,
      declaration.declaresVirtual method.name = false

theorem checkShadowing_ok_iff : session.checkShadowing type = .ok () ↔ session.Unshadowed type := by
  unfold checkShadowing Unshadowed
  cases type.base? with
  | none => simp
  | some base =>
    simp only [forM_eq_ok_iff, Option.some.injEq, forall_eq']
    refine forall₂_congr fun method _ => ?_
    rw [← implementor_eq_none_iff]
    by_cases plain : method.kind = .nonVirtual
    · cases session.implementor? base method.name none <;> simp [plain]
    · simp [plain]

theorem Unshadowed.agree {first second : Session} {other : UserType}
    (unshadowed : Unshadowed first type) (same : Agree UserType.shape first second)
    (shaped : type.shape = other.shape) : Unshadowed second other := by
  obtain ⟨declared, resolved⟩ := Prod.mk.inj shaped
  have base : type.base? = other.base? := by rw [UserType.base?, UserType.base?, resolved]
  intro above derived method member plain
  rw [← same.ancestry, ← same.declaration.typesAt]
  exact unshadowed above (base.trans derived) method (declared ▸ member) plain

end Session

/-! ### The stage -/

namespace Analysis

variable {type : UserType} {start : Session}

open Session

structure DispatchedUpTo (start : Session) (count : Nat) (reached : Session) : Prop where
  rest : Agree UserType.undispatched reached start
  dispatched : ∀ index type, index < count → reached.types[index]? = some type →
    type.isClass = true → type.dispatchers = start.dispatchers index type
  unshadowed : ∀ index type, index < count → start.types[index]? = some type →
    type.isClass = true → start.Unshadowed type
  structs : ∀ (index : Nat) (type : UserType), reached.types[index]? = some type →
    type.isClass = false → start.types[index]? = some type

theorem checkShadowing_isFault {failure : Failure}
    (failed : session.checkShadowing type = .error failure) : failure.IsFault := by
  unfold checkShadowing at failed
  split at failed
  · cases failed
  · obtain ⟨method, _, failed⟩ := exists_of_forM_eq_error failed
    repeat' split at failed
    all_goals cases failed
    trivial

/-- Whatever a refusal says, a stage that ends well has given every class its dispatchers. -/
theorem ends_buildDispatchers_of {badly : Failure → Session → Prop}
    (shadowing : ∀ (index : Nat) (type : UserType) (reached : Session) (failure : Failure),
      DispatchedUpTo start index reached → reached.types[index]? = some type →
      type.isClass = true → reached.checkShadowing type = .error failure → badly failure reached)
    (subtree : ∀ (index : Nat) (type : UserType) (reached : Session) (failure : Failure),
      DispatchedUpTo start index reached → reached.types[index]? = some type →
      type.isClass = true → reached.checkSubtree index = .error failure → badly failure reached) :
    Ends buildDispatchers start (fun _ => DispatchedUpTo start start.types.length) badly := by
  refine ends_forTypes (DispatchedUpTo start) ?_ rfl ?_ ?_
  · exact ⟨Agree.refl _ _, fun index type bound => absurd bound (by omega),
      fun index type bound => absurd bound (by omega), fun index type found _ => found⟩
  · intro count reached kept
    exact kept.rest.length
  · intro index type reached _ kept found
    have shape : Agree UserType.shape start reached := kept.rest.symm.coarsen _ fun _ => rfl
    obtain ⟨original, inStart, shaped⟩ := shape.symm.counterpart found
    have declared : original.isClass = type.isClass :=
      congrArg Declaration.isClass (congrArg Prod.fst shaped)
    by_cases isClass : type.isClass = true
    · simp only [isClass, Bool.not_true, Bool.false_eq_true, if_false, ends_bind, ends_get]
      refine ends_ask ?_ fun failure => shadowing index type reached failure kept found isClass
      intro _ checked
      have unshadowed := (checkShadowing_ok_iff.1 checked).agree shape.symm shaped.symm
      refine ends_ask ?_ fun failure => subtree index type reached failure kept found isClass
      intro _ _
      rw [ends_modifyAt]
      refine ⟨(Agree.modifyAt reached index fun _ => by rfl).trans kept.rest, ?_, ?_, ?_⟩
      · intro place changed bound there changedClass
        rw [modifyAt_getElem?] at there
        obtain ⟨earlier, inReached, same⟩ := Option.map_eq_some_iff.1 there
        by_cases here : index = place
        · subst here
          rw [found] at inReached
          cases inReached
          simp only [if_true] at same
          subst same
          exact kept.rest.dispatchers rfl index
        · simp only [here, if_false] at same
          subst same
          exact kept.dispatched place earlier (by omega) inReached changedClass
      · intro place other bound there otherClass
        by_cases here : place = index
        · rw [here, inStart] at there
          cases there
          exact unshadowed
        · exact kept.unshadowed place other (by omega) there otherClass
      · intro place changed there notClass
        rw [modifyAt_getElem?] at there
        obtain ⟨earlier, inReached, rfl⟩ := Option.map_eq_some_iff.1 there
        by_cases here : index = place
        · subst here
          rw [found] at inReached
          cases inReached
          rw [if_pos rfl] at notClass
          exact absurd (isClass.symm.trans notClass) (by simp)
        · simp only [here, if_false] at notClass ⊢
          exact kept.structs place earlier inReached notClass
    · simp only [isClass, Bool.not_false, if_true, ends_pure]
      refine ⟨kept.rest, ?_, ?_, kept.structs⟩
      · intro place other bound there otherClass
        by_cases here : place = index
        · rw [here, found] at there
          cases there
          contradiction
        · exact kept.dispatched place other (by omega) there otherClass
      · intro place other bound there otherClass
        by_cases here : place = index
        · rw [here, inStart] at there
          cases there
          exact absurd (declared.symm.trans otherClass) isClass
        · exact kept.unshadowed place other (by omega) there otherClass

end Analysis

end FlatMemory
