import FlatMemory.Proofs.Session.Acceptance
import FlatMemory.Proofs.Session.Inheritance

/-! # Slots are walks through fields

A type has the slots of its base, a slot for each of its fields and, under the name of a field that
holds a struct, a copy of the slots of the struct.  So the path of a slot can be walked field by field
through the declarations, and the offset of the slot is the sum of the offsets on the way. -/

namespace FlatMemory

open List

variable {session : Session} {index : Nat} {type : UserType} {field : Field} {referent : Referent}
  {name : String}

def Referent.embedded? (field : Field) : Referent → Option Declaration
  | primitive _ => none
  | user declaration =>
    if field.isArray = true ∨ declaration.isClass = true then none else some declaration

theorem Referent.embedded?_eq_some {struct : Declaration}
    (embeds : referent.embedded? field = some struct) :
    referent = .user struct ∧ field.isArray = false ∧ struct.isClass = false := by
  cases referent with
  | primitive primitive => cases embeds
  | user declaration =>
    rw [embedded?] at embeds
    by_cases pointed : field.isArray = true ∨ declaration.isClass = true
    · rw [if_pos pointed] at embeds
      cases embeds
    · rw [if_neg pointed] at embeds
      cases embeds
      exact ⟨rfl, by simpa using pointed⟩

/-! ### Walking a path -/

namespace Scope

variable {scope : Scope} {declaration base : Declaration} {offset : Nat}

inductive Aligns (scope : Scope) (field : Field) : Referent → Nat → Prop
  | pointer {referent : Referent} (reference : field.isArray = true ∨ referent.isClass = true) :
    Aligns scope field referent Layout.pointerSize
  | primitive {primitive : Primitive} (plain : field.isArray = false) :
    Aligns scope field (.primitive primitive) primitive.align
  | struct {declaration : Declaration} {plan : Plan} (plain : field.isArray = false)
    (isStruct : declaration.isClass = false) (plans : scope.Plans declaration plan) :
    Aligns scope field (.user declaration) plan.align

/-- A declared field, what it holds and its own offset in its type: the next multiple of its
alignment behind the fields in front of it. -/
def Puts (scope : Scope) (declaration : Declaration) (field : Field) (referent : Referent)
    (offset : Nat) : Prop :=
  ∃ done rest plan align, declaration.fields = done ++ field :: rest ∧
    scope.fieldType? field = some referent ∧ scope.Lays declaration done.length plan ∧
    scope.Aligns field referent align ∧ offset = alignTo plan.size align

def Has (scope : Scope) (declaration : Declaration) (field : Field) (referent : Referent)
    (offset : Nat) : Prop :=
  ∃ lineage, scope.Lineage declaration lineage ∧
    ∃ owner ∈ lineage, scope.Puts owner field referent offset

/-- A path of names leads from a type to a field, through structs that are held by value.  The
offsets of the fields on the way add up. -/
inductive Reaches (scope : Scope) : Declaration → List String → Field → Referent → Nat → Prop
  | field {declaration : Declaration} {field : Field} {referent : Referent} {offset : Nat}
    (has : scope.Has declaration field referent offset) :
    Reaches scope declaration [field.name] field referent offset
  | within {declaration struct : Declaration} {outer field : Field} {held referent : Referent}
    {names : List String} {offset inner : Nat} (has : scope.Has declaration outer held offset)
    (embeds : held.embedded? outer = some struct)
    (later : Reaches scope struct names field referent inner) :
    Reaches scope declaration (outer.name :: names) field referent (offset + inner)

theorem Aligns.unique {first second : Nat} (one : scope.Aligns field referent first)
    (other : scope.Aligns field referent second) : first = second := by
  cases one with
  | pointer reference =>
    cases other with
    | pointer _ => rfl
    | primitive plain => simp [plain, Referent.isClass] at reference
    | struct plain isStruct _ => simp [plain, Referent.isClass, isStruct] at reference
  | primitive plain =>
    cases other with
    | pointer reference => simp [plain, Referent.isClass] at reference
    | primitive _ => rfl
  | struct plain isStruct plans =>
    cases other with
    | pointer reference => simp [plain, Referent.isClass, isStruct] at reference
    | struct _ _ again => rw [plans.unique again]

theorem Lineage.self_mem {lineage : List Declaration}
    (isLineage : scope.Lineage declaration lineage) : declaration ∈ lineage := by
  cases isLineage with
  | root _ => exact mem_cons_self
  | derived _ _ => exact mem_cons_self

theorem Has.derived (extended : scope.base? declaration = some base)
    (has : scope.Has base field referent offset) : scope.Has declaration field referent offset := by
  obtain ⟨lineage, isLineage, owner, member, puts⟩ := has
  exact ⟨_, .derived extended isLineage, owner, mem_cons_of_mem _ member, puts⟩

theorem Reaches.derived {names : List String} (extended : scope.base? declaration = some base)
    (reaches : scope.Reaches base names field referent offset) :
    scope.Reaches declaration names field referent offset := by
  cases reaches with
  | field has => exact .field (has.derived extended)
  | within has embeds later => exact .within (has.derived extended) embeds later

end Scope

/-! ### Paths of names -/

theorem IsIdentifier.dotless (identifier : IsIdentifier name) : '.' ∉ name.toList :=
  fun dot => absurd (identifier.parts '.' dot) (by decide)

theorem dotted_cons {names : List String} (more : names ≠ []) :
    dotted (name :: names) = name ++ "." ++ dotted names := by
  cases names with
  | nil => exact absurd rfl more
  | cons second names => exact String.intercalate_cons_cons

theorem append_dot_inj {first second : String} (oneDotless : '.' ∉ first.toList)
    (otherDotless : '.' ∉ second.toList) {one other : String}
    (same : first ++ "." ++ one = second ++ "." ++ other) : first = second ∧ one = other := by
  have chars : first.toList ++ '.' :: one.toList = second.toList ++ '.' :: other.toList := by
    simpa using congrArg String.toList same
  have heads := congrArg (List.takeWhile fun c => c ≠ '.') chars
  rw [Slot.takeWhile_dotless oneDotless, Slot.takeWhile_dotless otherDotless] at heads
  rw [heads] at chars
  have tails := (List.cons.inj (append_cancel_left chars)).2
  exact ⟨String.toList_injective heads, String.toList_injective tails⟩

theorem ne_append_dot (dotless : '.' ∉ name.toList) (first rest : String) :
    name ≠ first ++ "." ++ rest := by
  rintro rfl
  simp at dotless

theorem dotted_injective {first second : List String} (someFirst : first ≠ [])
    (someSecond : second ≠ []) (firstDotless : ∀ name ∈ first, '.' ∉ name.toList)
    (secondDotless : ∀ name ∈ second, '.' ∉ name.toList) (same : dotted first = dotted second) :
    first = second := by
  induction first generalizing second with
  | nil => exact absurd rfl someFirst
  | cons one first ih =>
    obtain ⟨other, second, rfl⟩ := exists_cons_of_ne_nil someSecond
    obtain ⟨oneDotless, firstDotless⟩ := forall_mem_cons.1 firstDotless
    obtain ⟨otherDotless, areDotless⟩ := forall_mem_cons.1 secondDotless
    have single : ∀ name, dotted [name] = name := fun name => String.intercalate_singleton
    by_cases moreFirst : first = [] <;> by_cases moreSecond : second = []
    · subst moreFirst moreSecond
      rw [single, single] at same
      rw [same]
    · subst moreFirst
      rw [single, dotted_cons moreSecond] at same
      exact absurd same (ne_append_dot oneDotless _ _)
    · subst moreSecond
      rw [single, dotted_cons moreFirst] at same
      exact absurd same.symm (ne_append_dot otherDotless _ _)
    · rw [dotted_cons moreFirst, dotted_cons moreSecond] at same
      obtain ⟨heads, tails⟩ := append_dot_inj oneDotless otherDotless same
      rw [heads, ih moreFirst moreSecond firstDotless areDotless tails]

/-! ### What a field adds to a layout -/

theorem Layout.slots_finished (isClass : Bool) (layout : Layout) :
    (layout.finished isClass).slots = layout.slots := by
  cases isClass <;> rfl

namespace Session

variable {layout next start : Layout} {reference : TypeRef} {fields : List (Field × Option TypeRef)}
  {offset : Nat}

structure Shows (session : Session) (slot : Slot) (field : Field) (referent : Referent) : Prop where
  type : session.referent? slot.type = some referent
  isArray : slot.isArray = field.isArray
  direct : slot.direct = (referent.embedded? field).isNone

def Walked (session : Session) (declaration : Declaration) (slot : Slot) : Prop :=
  ∃ names field referent, names ≠ [] ∧ (∀ name ∈ names, '.' ∉ name.toList) ∧
    slot.path = dotted names ∧
    session.scope.Reaches declaration names field referent slot.offset ∧
    session.Shows slot field referent

structure Adds (session : Session) (field : Field) (reference : TypeRef) (referent : Referent)
    (slot : Slot) (below : List Slot) : Prop where
  path : slot.path = field.name
  shows : session.Shows slot field referent
  plain : referent.embedded? field = none → below = []
  embedded : ∀ struct, referent.embedded? field = some struct →
    ∃ (place : Nat) (inner : UserType) (known : Layout), reference = .user place ∧
      session.types[place]? = some inner ∧ inner.declaration = struct ∧
      inner.layout = some known ∧ below = known.slots.map (Slot.within field.name slot.offset)

theorem Shows.within {slot : Slot} (shows : session.Shows slot field referent) (name : String)
    (offset : Nat) : session.Shows (slot.within name offset) field referent :=
  ⟨shows.type, shows.isArray, shows.direct⟩

section

variable (places : session.Places layout field reference next)

include places

theorem Places.adds (shown : session.referent? reference = some referent)
    (planned : ∀ (place : Nat) (other : UserType) (known : Layout),
      session.types[place]? = some other → other.layout = some known →
      session.scope.Plans other.declaration (session.plan known)) :
    ∃ slot below align, next.slots = layout.slots ++ slot :: below ∧
      session.Adds field reference referent slot below ∧ session.scope.Aligns field referent align ∧
      slot.offset = alignTo layout.size align := by
  cases places with
  | pointer isReference =>
    have pointed : field.isArray = true ∨ referent.isClass = true :=
      isReference.imp_right (Referent.isClass_of_kindOf shown)
    have none : referent.embedded? field = none := by
      cases referent with
      | primitive primitive => rfl
      | user declaration => exact if_pos pointed
    refine ⟨_, [], _, rfl, ⟨rfl, ⟨shown, rfl, ?_⟩, fun _ => rfl, ?_⟩, .pointer pointed, rfl⟩
    · rw [none]
      rfl
    · intro struct embeds
      rw [none] at embeds
      cases embeds
  | primitive plain =>
    cases shown
    refine ⟨_, [], _, rfl, ⟨rfl, ⟨rfl, plain.symm, rfl⟩, fun _ => rfl, ?_⟩, .primitive plain, rfl⟩
    rintro struct ⟨⟩
  | @struct place known plain kind recorded =>
    obtain ⟨other, there, rfl⟩ := Option.map_eq_some_iff.1 shown
    have isStruct := (kindOf_eq_structType_iff there).1 kind
    rw [layoutAt_eq there] at recorded
    have embeds : Referent.embedded? field (.user other.declaration) = some other.declaration :=
      if_neg (by simp [plain, isStruct])
    refine ⟨_, _, _, rfl, ⟨rfl, ⟨shown, plain.symm, ?_⟩, ?_, ?_⟩,
      .struct plain isStruct (planned place other known there recorded), rfl⟩
    · rw [embeds]
      rfl
    · intro none
      rw [embeds] at none
      cases none
    · intro struct same
      rw [embeds] at same
      exact ⟨place, other, known, rfl, there, Option.some.inj same, recorded, rfl⟩

theorem Places.nodup_added {added : List Slot} (slots : next.slots = layout.slots ++ added)
    (dotless : '.' ∉ field.name.toList)
    (held : session.Held field reference fun _ known => (known.slots.map Slot.path).Nodup) :
    (added.map Slot.path).Nodup := by
  cases places with
  | pointer _ =>
    cases append_cancel_left slots
    exact nodup_singleton _
  | primitive _ =>
    cases append_cancel_left slots
    exact nodup_singleton _
  | @struct place known plain kind recorded =>
    cases append_cancel_left slots
    obtain ⟨_, distinct⟩ := held.recorded plain kind recorded
    have paths : (known.slots.map (Slot.within field.name (layout.nextOffset known.align))).map
        Slot.path = (known.slots.map Slot.path).map (field.name ++ "." ++ ·) := by
      rw [map_map, map_map]
      rfl
    rw [map_cons, paths, nodup_cons]
    refine ⟨?_, distinct.map fun one other same => (append_dot_inj dotless dotless same).2⟩
    intro member
    obtain ⟨path, _, same⟩ := mem_map.1 member
    exact ne_append_dot dotless _ _ same.symm

/-- What a field adds starts with its name, which no path in front of it does. -/
theorem Places.nodup_paths {low : Nat} (keeps : session.Keeps low layout)
    (distinct : (layout.slots.map Slot.path).Nodup) (fresh : layout.hasPath field.name = false)
    (dotless : '.' ∉ field.name.toList)
    (encloses : session.Held field reference fun _ => session.Encloses)
    (held : session.Held field reference fun _ known => (known.slots.map Slot.path).Nodup) :
    (next.slots.map Slot.path).Nodup := by
  obtain ⟨added, slots, free⟩ := (places.goesOn keeps.power encloses fresh dotless).slots
  rw [slots, map_append, nodup_append]
  refine ⟨distinct, places.nodup_added slots dotless held, ?_⟩
  intro _ isOld _ isNew same
  obtain ⟨old, oldMember, rfl⟩ := mem_map.1 isOld
  obtain ⟨new, newMember, rfl⟩ := mem_map.1 isNew
  have heads : old.head = new.head := by rw [Slot.head, Slot.head, same]
  have taken := keeps.headed old oldMember
  rw [heads, free new newMember] at taken
  cases taken

end

/-! ### Slots of an analysed session -/

variable (analysed : Analysed session) (named : WellNamed session)

include analysed named

theorem Analysed.puts (found : session.types[index]? = some type) {current : Layout}
    {done rest : List (Field × Option TypeRef)} (begins : session.startOf type = some start)
    (fields : type.typedFields = done ++ (field, some reference) :: rest)
    (fills : session.Fills start done current)
    (places : session.Places current field reference next) :
    ∃ referent slot below align, next.slots = current.slots ++ slot :: below ∧
      session.Adds field reference referent slot below ∧ session.scope.fieldType? field = some referent ∧
      session.scope.Lays type.declaration done.length (session.plan current) ∧
      session.scope.Aligns field referent align ∧ slot.offset = alignTo current.size align ∧
      session.scope.Puts type.declaration field referent slot.offset := by
  have resolved := analysed.wellformed.resolved index type found
  have member : (field, some reference) ∈ type.typedFields := by simp [fields]
  obtain ⟨referent, shown, known⟩ := resolved.fieldType member
  obtain ⟨slot, below, align, slots, adds, aligns, offset⟩ := places.adds shown
    fun place other layout there recorded =>
      analysed.wellformed.plans named analysed.consistent there recorded
  have lays := analysed.wellformed.lays named analysed.consistent found begins fields fills
  refine ⟨referent, slot, below, align, slots, adds, known, lays, aligns, offset, ?_⟩
  have split : type.declaration.fields = done.map Prod.fst ++ field :: rest.map Prod.fst := by
    rw [← resolved.typedFields_fst, fields]
    simp
  exact ⟨_, _, _, align, split, known, by rwa [length_map], aligns, offset⟩

/-- Every slot is reached by a path of identifiers, which is its own. -/
theorem Analysed.reaches_of_slot (readable : Readable session)
    (inside : index < session.types.length) :
    ∀ type layout, session.types[index]? = some type → type.layout = some layout →
      ∀ slot ∈ layout.slots, session.Walked type.declaration slot := by
  have resolved := analysed.wellformed.resolved
  refine analysed.consistent.descend
    (fun type layout => ∀ slot ∈ layout.slots, session.Walked type.declaration slot)
    (fun type _ => ?_) ?_ ?_ (fun type layout known => by rwa [Layout.slots_finished])
    (analysed.wellformed.grounded index inside)
  · split
    · simp [Layout.ofClass]
    · simp [Layout.ofStruct]
  · intro index type base above layout found derived there _ known slot inherited
    obtain ⟨_, same, extended⟩ := (resolved index type found).baseDeclaration named derived
    rw [there] at same
    cases same
    obtain ⟨names, field, referent, some, dotless, path, reaches, shows⟩ := known slot inherited
    exact ⟨names, field, referent, some, dotless, path, reaches.derived extended, shows⟩
  · intro index type start done field reference rest current next found begins fields before _ places
      held known slot placed
    obtain ⟨referent, own, below, align, slots, adds, _, _, _, _, puts⟩ :=
      analysed.puts named found begins fields before places
    have typed : (field, some reference) ∈ type.typedFields := by simp [fields]
    have fieldDotless := readable.dotless (mem_of_getElem? found)
      (resolved.typedFields found typed).1
    have lineage := analysed.wellformed.lineage named (lt_of_getElem? found) type found
    have has : session.scope.Has type.declaration field referent own.offset :=
      ⟨_, lineage, type.declaration, lineage.self_mem, puts⟩
    rw [slots, mem_append, mem_cons] at placed
    rcases placed with old | rfl | isBelow
    · exact known slot old
    · exact ⟨[field.name], field, referent, by simp, by simpa using fieldDotless,
        adds.path.trans String.intercalate_singleton.symm, .field has, adds.shows⟩
    · cases embeds : referent.embedded? field with
      | none =>
        rw [adds.plain embeds] at isBelow
        cases isBelow
      | some struct =>
        obtain ⟨place, inner, known, rfl, there, rfl, isLayout, rfl⟩ := adds.embedded struct embeds
        obtain ⟨copied, isInner, rfl⟩ := mem_map.1 isBelow
        obtain ⟨rfl, plain, isStruct⟩ := Referent.embedded?_eq_some embeds
        obtain ⟨names, last, lastReferent, some, dotless, path, reaches, shows⟩ :=
          held place inner known rfl plain there isStruct isLayout copied isInner
        refine ⟨field.name :: names, last, lastReferent, by simp, ?_, ?_,
          .within has embeds reaches, shows.within _ _⟩
        · exact forall_mem_cons.2 ⟨fieldDotless, dotless⟩
        · rw [dotted_cons some, ← path]
          rfl

theorem Analysed.adds_of_has (readable : Readable session)
    (found : session.types[index]? = some type)
    (has : session.scope.Has type.declaration field referent offset) :
    ∃ reference slot below, session.Adds field reference referent slot below ∧
      slot.offset = offset ∧ ∀ other ∈ slot :: below, other ∈ type.slots := by
  have wellformed := analysed.wellformed
  have inside := lt_of_getElem? found
  obtain ⟨lineage, isLineage, owner, isOwner, puts⟩ := has
  rw [isLineage.unique (wellformed.lineage named inside type found)] at isOwner
  obtain ⟨ownerType, isType, rfl⟩ := mem_map.1 isOwner
  obtain ⟨place, isPlace, there⟩ := mem_filterMap.1 isType
  have inherits := (wellformed.mem_ancestry inside place).1 isPlace
  obtain ⟨done, rest, plan, align, split, known, lays, aligns, rfl⟩ := puts
  -- The field stands in the layout of the class that declares it.
  obtain ⟨ownerLayout, ownerRecorded⟩ := analysed.laidOut place (lt_of_getElem? there)
  obtain ⟨layout, recorded⟩ := analysed.laidOut index inside
  have goesOn := analysed.goesOn readable inherits inside ownerRecorded recorded
  rw [layoutAt_eq there] at ownerRecorded
  rw [layoutAt_eq found] at recorded
  obtain ⟨start, filled, begins, fills, _, rfl⟩ :=
    analysed.consistent place ownerType ownerLayout there ownerRecorded
  rw [← (wellformed.resolved place ownerType there).typedFields_fst] at split
  obtain ⟨front, back, fields, rfl, atField⟩ := map_eq_append_iff.1 split
  obtain ⟨⟨_, fieldType⟩, later, rfl, rfl, _⟩ := map_eq_cons_iff.1 atField
  rw [fields] at fills
  obtain ⟨current, reference, next, rfl, before, _, places, within⟩ := fills.front
  obtain ⟨other, slot, below, otherAlign, slots, adds, otherKnown, otherLays, otherAligns, offset, _⟩ :=
    analysed.puts named there begins fields before places
  rw [known] at otherKnown
  cases otherKnown
  rw [length_map] at lays
  refine ⟨reference, slot, below, adds, ?_, ?_⟩
  · rw [offset, lays.unique otherLays, aligns.unique otherAligns]
    rfl
  · intro one member
    obtain ⟨added, grown, _⟩ := goesOn.slots
    rw [UserType.slots, recorded, Option.map_some, Option.getD_some, grown, Layout.slots_finished]
    refine mem_append_left _ (within.subset ?_)
    rw [slots]
    exact mem_append_right _ member

/-- Wherever a path leads there is a slot. -/
theorem Analysed.slot_of_reaches (readable : Readable session) {declaration : Declaration}
    {names : List String} (reaches : session.scope.Reaches declaration names field referent offset) :
    names ≠ [] ∧ ∀ (index : Nat) (type : UserType), session.types[index]? = some type →
      type.declaration = declaration → ∃ slot ∈ type.slots, slot.path = dotted names ∧
        slot.offset = offset ∧ session.Shows slot field referent := by
  induction reaches with
  | field has =>
    refine ⟨by simp, ?_⟩
    rintro index type found rfl
    obtain ⟨reference, slot, below, adds, offset, within⟩ :=
      analysed.adds_of_has named readable found has
    exact ⟨slot, within slot mem_cons_self,
      adds.path.trans String.intercalate_singleton.symm, offset, adds.shows⟩
  | @within _ struct outer field held referent names _ _ has embeds _ ih =>
    obtain ⟨some, ih⟩ := ih
    refine ⟨by simp, ?_⟩
    rintro index type found rfl
    obtain ⟨reference, slot, below, adds, offset, within⟩ :=
      analysed.adds_of_has named readable found has
    obtain ⟨place, inner, known, _, there, isStruct, recorded, rfl⟩ := adds.embedded struct embeds
    obtain ⟨copied, isInner, path, innerOffset, shows⟩ := ih place inner there isStruct
    have slots : inner.slots = known.slots := by simp [UserType.slots, recorded]
    rw [slots] at isInner
    refine ⟨copied.within outer.name slot.offset,
      within _ (mem_cons_of_mem _ (mem_map_of_mem isInner)), ?_, ?_, shows.within _ _⟩
    · rw [dotted_cons some, ← path]
      rfl
    · rw [← offset, ← innerOffset]
      rfl

omit named

theorem Analysed.nodup_paths (readable : Readable session)
    (inside : index < session.types.length) :
    ∀ type layout, session.types[index]? = some type → type.layout = some layout →
      (layout.slots.map Slot.path).Nodup := by
  have resolved := analysed.wellformed.resolved
  refine analysed.consistent.descend (fun _ layout => (∃ low, session.Keeps low layout) ∧
    (layout.slots.map Slot.path).Nodup) (fun type _ => ?_) ?_ ?_
    (fun type layout known => by rw [Layout.slots_finished]; exact known.2)
    (analysed.wellformed.grounded index inside)
  · split
    · exact ⟨⟨_, .empty session (show Layout.pointerSize = 2 ^ 2 from rfl)⟩, nodup_nil⟩
    · exact ⟨⟨_, .empty session (show 1 = 2 ^ 0 from rfl)⟩, nodup_nil⟩
  · intro _ _ _ _ _ _ _ there recorded distinct
    exact ⟨⟨_, analysed.keepsAt readable there ((layoutAt_eq there).trans recorded)⟩, distinct⟩
  · rintro _ type _ _ field reference _ _ _ found _ fields _ fresh places held ⟨⟨low, keeps⟩, distinct⟩
    have member : (field, some reference) ∈ type.typedFields := by simp [fields]
    have dotless := readable.dotless (mem_of_getElem? found)
      (resolved.typedFields found member).1
    have kept := analysed.held readable field reference
    exact ⟨⟨low, keeps.places fresh dotless kept places⟩,
      places.nodup_paths keeps distinct fresh dotless
        (kept.mono fun _ _ _ keeps => keeps.encloses) held⟩

end Session

theorem UserType.slot?_of_mem {slot : Slot} (distinct : (type.slots.map Slot.path).Nodup)
    (member : slot ∈ type.slots) : type.slot? slot.path = some slot := by
  cases found : type.slot? slot.path with
  | none =>
    have absent := find?_eq_none.1 found slot (mem_reverse.2 member)
    simp at absent
  | some other =>
    obtain ⟨isOther, path⟩ := slot?_eq_some found
    rw [inj_on_of_nodup_map distinct isOther member path]

/-- The slots of a type are the walks through fields that start there: a path of names has a slot
exactly if it can be walked, and the slot stands where the walk ends and shows the last field.  No two
slots have one path. -/
theorem slots_are_walks {declarations : List Declaration} {session : Session}
    (accepts : Accepts declarations session) {index : Nat} {type : UserType}
    (found : session.types[index]? = some type) :
    (type.slots.map Slot.path).Nodup ∧
    ∀ names, names ≠ [] → (∀ name ∈ names, IsIdentifier name) →
      ((∃ slot, type.slot? (dotted names) = some slot) ↔ ∃ field referent offset,
        (Scope.ofList declarations).Reaches type.declaration names field referent offset) ∧
      ∀ slot field referent offset, type.slot? (dotted names) = some slot →
        (Scope.ofList declarations).Reaches type.declaration names field referent offset →
        slot.offset = offset ∧ session.referent? slot.type = some referent ∧
          slot.isArray = field.isArray ∧
          (slot.direct = false ↔ ∃ struct, referent.embedded? field = some struct) := by
  have analysed := accepts.sound
  have named := accepts.loaded.named
  obtain ⟨layout, recorded⟩ := analysed.laidOut index (Session.lt_of_getElem? found)
  rw [Session.layoutAt_eq found] at recorded
  have slots : type.slots = layout.slots := by simp [UserType.slots, recorded]
  have distinct : (type.slots.map Slot.path).Nodup := by
    rw [slots]
    exact analysed.nodup_paths accepts.readable (Session.lt_of_getElem? found) type layout found
      recorded
  have walked : ∀ names field referent offset,
      session.scope.Reaches type.declaration names field referent offset →
      ∃ slot, type.slot? (dotted names) = some slot ∧ slot.offset = offset ∧
        session.Shows slot field referent := by
    intro names field referent offset reaches
    obtain ⟨slot, member, path, isOffset, shows⟩ :=
      (analysed.slot_of_reaches named accepts.readable reaches).2 index type found rfl
    exact ⟨slot, path ▸ UserType.slot?_of_mem distinct member, isOffset, shows⟩
  rw [← accepts.loaded.scope]
  refine ⟨distinct, fun names some identifiers => ⟨⟨?_, ?_⟩, ?_⟩⟩
  · rintro ⟨slot, isSlot⟩
    obtain ⟨member, path⟩ := UserType.slot?_eq_some isSlot
    rw [slots] at member
    obtain ⟨others, field, referent, someOthers, dotless, samePath, reaches, _⟩ :=
      analysed.reaches_of_slot named accepts.readable (Session.lt_of_getElem? found) type layout found
        recorded slot member
    have same := dotted_injective someOthers some dotless
      (fun name member => (identifiers name member).dotless) (samePath.symm.trans path)
    exact ⟨field, referent, slot.offset, same ▸ reaches⟩
  · rintro ⟨field, referent, offset, reaches⟩
    obtain ⟨slot, isSlot, _⟩ := walked names field referent offset reaches
    exact ⟨slot, isSlot⟩
  · intro slot field referent offset isSlot reaches
    obtain ⟨other, isOther, isOffset, shows⟩ := walked names field referent offset reaches
    rw [isSlot] at isOther
    cases isOther
    refine ⟨isOffset, shows.type, shows.isArray, ?_⟩
    rw [shows.direct, Option.isNone_eq_false_iff, Option.isSome_iff_exists]

def sampleNesting : Text := "@flatjs struct P\x7bn:int16.atomic;t:int8.Array;\x7d@end
@flatjs struct Q\x7ba:int8;p:P;\x7d@end
@flatjs class B\x7bq:Q;\x7d@end
@flatjs class D extends B\x7br:Q;\x7d@end".toList

theorem slots_are_walks_sample : ∃ declarations session type field referent,
    Accepts declarations session ∧ session.types[3]? = some type ∧
    (type.slot? "r.p.t").map (fun slot => (slot.offset, slot.direct, slot.isArray)) =
      some (24, true, true) ∧
    (Scope.ofList declarations).Reaches type.declaration ["r", "p", "t"] field referent 24 := by
  have accepted : (do
      let document ← Document.read "sample" sampleNesting
      let session ← Session.ofDocuments [document]
      return do
        let type ← session.types[3]?
        let slot ← type.slot? "r.p.t"
        return (slot.offset, slot.direct, slot.isArray)) = Except.ok (some (24, true, true)) := by
    decide +kernel
  obtain ⟨document, read, accepted⟩ := exists_of_bind_eq_ok accepted
  obtain ⟨session, analysed, same⟩ := exists_of_bind_eq_ok accepted
  have accepts := Accepts.ofDocument read analysed
  obtain ⟨type, found, known⟩ := Option.bind_eq_some_iff.1 (Except.ok.inj same)
  obtain ⟨slot, isSlot, known⟩ := Option.bind_eq_some_iff.1 known
  have identifiers : ∀ name ∈ ["r", "p", "t"], IsIdentifier name := by
    simp only [List.forall_mem_cons, List.not_mem_nil, IsEmpty.forall_iff, implies_true, and_true]
    exact ⟨⟨'r', [], rfl, by decide, by simp⟩, ⟨'p', [], rfl, by decide, by simp⟩,
      ⟨'t', [], rfl, by decide, by simp⟩⟩
  obtain ⟨walked, shown⟩ :=
    (slots_are_walks accepts found).2 ["r", "p", "t"] (by simp) identifiers
  obtain ⟨field, referent, offset, reaches⟩ := walked.1 ⟨slot, isSlot⟩
  have isOffset := (shown slot field referent offset isSlot reaches).1
  simp only [Option.pure_def, Option.some.injEq, Prod.mk.injEq] at known
  rw [← isOffset, known.1] at reaches
  exact ⟨_, session, type, field, referent, accepts, found, by rw [isSlot]; simp [known], reaches⟩

end FlatMemory
