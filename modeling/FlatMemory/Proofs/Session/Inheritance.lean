import FlatMemory.Proofs.Program

/-! # Instances of derived classes

The layout of a derived class goes on behind that of its base: the slots of the base stay in front,
at their offsets, and every slot behind them has a first name of its own.  So a path that leads
somewhere in the base leads to the same place in every class that inherits from it. -/

namespace FlatMemory

open List Option

variable {session : Session} {segments : List String} {layout longer shorter : Layout} {index : Nat}

/-! ### Layouts that go on behind others -/

structure Layout.GoesOn (longer shorter : Layout) : Prop where
  size : shorter.size ≤ longer.size
  align : shorter.align ∣ longer.align
  slots : ∃ added, longer.slots = shorter.slots ++ added ∧
    ∀ slot ∈ added, shorter.hasPath slot.head = false

namespace Layout.GoesOn

theorem refl (layout : Layout) : layout.GoesOn layout :=
  ⟨Nat.le_refl _, Nat.dvd_refl _, [], (append_nil _).symm, by simp⟩

theorem hasPath (goesOn : longer.GoesOn shorter) {path : String}
    (free : longer.hasPath path = false) : shorter.hasPath path = false := by
  obtain ⟨added, slots, _⟩ := goesOn.slots
  unfold Layout.hasPath at free ⊢
  rw [slots, any_append, Bool.or_eq_false_iff] at free
  exact free.1

theorem trans {middle : Layout} (goesOn : longer.GoesOn middle) (before : middle.GoesOn shorter) :
    longer.GoesOn shorter := by
  obtain ⟨last, slots, lastFree⟩ := goesOn.slots
  obtain ⟨first, middleSlots, firstFree⟩ := before.slots
  refine ⟨before.size.trans goesOn.size, Nat.dvd_trans before.align goesOn.align,
    first ++ last, by rw [slots, middleSlots, append_assoc], ?_⟩
  intro slot member
  rcases mem_append.1 member with isFirst | isLast
  · exact firstFree slot isFirst
  · exact before.hasPath (lastFree slot isLast)

theorem place {size align : Nat} {slots : Nat → List Slot} {name : String}
    (power : ∃ exponent, layout.align = 2 ^ exponent)
    (room : session.Room name size align slots) (fresh : layout.hasPath name = false)
    (dotless : '.' ∉ name.toList) : (layout.place size align slots).GoesOn layout := by
  have behind := room.behind layout
  obtain ⟨wide, power⟩ := power
  obtain ⟨exponent, fieldPower⟩ := room.power
  refine ⟨behind.trans (Nat.le_add_right _ _), ?_, _, rfl, ?_⟩
  · show layout.align ∣ max layout.align align
    rw [power, fieldPower, max_two_pow]
    exact Nat.pow_dvd_pow 2 (Nat.le_max_left _ _)
  · intro slot member
    rwa [room.heads dotless _ slot member]

end Layout.GoesOn

namespace Session

theorem Places.goesOn {next : Layout} {field : Field} {type : TypeRef}
    (places : session.Places layout field type next)
    (power : ∃ exponent, layout.align = 2 ^ exponent)
    (held : session.Held field type fun _ => session.Encloses)
    (fresh : layout.hasPath field.name = false) (dotless : '.' ∉ field.name.toList) :
    next.GoesOn layout := by
  obtain ⟨_, _, _, rfl, room, _⟩ := places.room held
  exact .place power room fresh dotless

theorem Fills.goesOn {low : Nat} {start : Layout} {fields : List (Field × Option TypeRef)}
    (fills : session.Fills start fields layout) (keeps : session.Keeps low start)
    (held : ∀ field type, session.Held field type fun _ => session.Keeps 0)
    (dotless : ∀ field type, (field, type) ∈ fields → '.' ∉ field.name.toList) :
    session.Keeps low layout ∧ layout.GoesOn start := by
  induction fills with
  | nil => exact ⟨keeps, .refl _⟩
  | @snoc earlier current next field type fills fresh places ih =>
    obtain ⟨keeps, goesOn⟩ := ih fun field type member =>
      dotless field type (mem_append_left _ member)
    have fieldDotless := dotless field _ (mem_append_right _ mem_cons_self)
    have encloses := (held field type).mono fun _ _ _ keeps => keeps.encloses
    exact ⟨keeps.places fresh fieldDotless (held field type) places,
      (places.goesOn keeps.power encloses fresh fieldDotless).trans goesOn⟩

/-! ### Classes and their ancestors -/

section

variable (analysed : Analysed session) (readable : Readable session)

include analysed readable

theorem Analysed.keepsAt {type : UserType} (found : session.types[index]? = some type)
    (recorded : session.layoutAt index = some layout) : session.Keeps (lowest type) layout := by
  rw [layoutAt_eq found] at recorded
  exact (analysed.keeps readable (lt_of_getElem? found) type layout found recorded).1

theorem Analysed.held (field : Field) (type : TypeRef) :
    session.Held field type fun _ => session.Keeps 0 := by
  intro place struct known _ _ found isStruct recorded
  have keeps := analysed.keepsAt readable found ((layoutAt_eq found).trans recorded)
  rwa [lowest, if_neg (by simp [isStruct])] at keeps

/-- The layout of a class goes on behind that of its base. -/
theorem Analysed.goesOn_base {base : Nat} (derived : session.baseAt index = some base)
    (baseRecorded : session.layoutAt base = some shorter)
    (recorded : session.layoutAt index = some longer) : longer.GoesOn shorter := by
  obtain ⟨type, found, isBase⟩ := bind_eq_some_iff.1 derived
  obtain ⟨baseType, baseFound, _⟩ := bind_eq_some_iff.1 baseRecorded
  have resolved := analysed.wellformed.resolved
  rw [layoutAt_eq found] at recorded
  obtain ⟨start, filled, begins, fills, _, rfl⟩ :=
    analysed.consistent index type longer found recorded
  have same : start = shorter := by
    rw [startOf, isBase] at begins
    exact Option.some.inj (begins.symm.trans baseRecorded)
  subst same
  rw [Layout.finished, if_pos (resolved.base found isBase).1]
  refine (fills.goesOn (analysed.keepsAt readable baseFound baseRecorded)
    (analysed.held readable) ?_).2
  intro field fieldType member
  exact readable.dotless (mem_of_getElem? found) (resolved.typedFields found member).1

theorem Analysed.goesOn {ancestor : Nat} (inherits : session.Inherits index ancestor)
    (inside : index < session.types.length) (above : session.layoutAt ancestor = some shorter)
    (recorded : session.layoutAt index = some longer) : longer.GoesOn shorter := by
  induction inherits generalizing shorter with
  | refl =>
    rw [above] at recorded
    cases recorded
    exact .refl _
  | @tail middle upper inherits step ih =>
    obtain ⟨between, middleRecorded⟩ :=
      analysed.laidOut middle (analysed.wellformed.inherits_lt inside inherits)
    exact (ih middleRecorded).trans (analysed.goesOn_base readable step above middleRecorded)

end

end Session

/-! ### Paths through a base -/

theorem Slot.head_dotted {slot : Slot} {first : String}
    (path : slot.path = dotted (first :: segments)) :
    slot.head = ({ slot with path := first } : Slot).head := by
  cases segments with
  | nil =>
    rw [dotted, String.intercalate_singleton] at path
    rw [← path]
  | cons second segments =>
    apply Slot.head_below
    rw [dotted, String.intercalate_cons_cons] at path
    exact ⟨_, path⟩

namespace UserType

variable {type derived base : UserType} {path : String} {slot : Slot} {added : List Slot}
  {count : Nat}

theorem slot?_eq_some (found : type.slot? path = some slot) :
    slot ∈ type.slots ∧ slot.path = path :=
  ⟨mem_reverse.1 (mem_of_find?_eq_some found), by simpa using find?_some found⟩

theorem slot?_of_append (slots : derived.slots = base.slots ++ added)
    (apart : ∀ slot ∈ added, slot.path ≠ path) : derived.slot? path = base.slot? path := by
  have none : added.reverse.find? (fun slot => slot.path = path) = none := by
    rw [find?_eq_none]
    intro slot member
    simpa using apart slot (mem_reverse.1 member)
  rw [slot?, slot?, slots, reverse_append, find?_append, none, none_or]

theorem longestField?_eq_some (found : type.longestField? segments = some (count, slot)) :
    type.slot? (dotted (segments.take count)) = some slot ∧ count ≠ 0 := by
  obtain ⟨fewer, _, isSlot⟩ := exists_of_findSome?_eq_some found
  obtain ⟨_, known, same⟩ := map_eq_some_iff.1 isSlot
  cases same
  exact ⟨known, Nat.succ_ne_zero _⟩

/-- A path that starts in the base goes as far in a type whose slots go on behind the base's. -/
theorem longestField?_of_append (slots : derived.slots = base.slots ++ added)
    (apart : ∀ old ∈ base.slots, ∀ new ∈ added, new.head ≠ old.head)
    (found : base.longestField? segments = some (count, slot)) :
    derived.longestField? segments = some (count, slot) := by
  obtain ⟨known, some⟩ := longestField?_eq_some found
  obtain ⟨member, path⟩ := slot?_eq_some known
  rw [← found]
  cases segments with
  | nil => rfl
  | cons first segments =>
    obtain ⟨fewer, rfl⟩ := Nat.exists_eq_succ_of_ne_zero some
    rw [take_succ_cons] at path
    have same : ∀ more, derived.slot? (dotted ((first :: segments).take (more + 1))) =
        base.slot? (dotted ((first :: segments).take (more + 1))) := by
      intro more
      refine slot?_of_append slots ?_
      intro new isNew newPath
      rw [take_succ_cons] at newPath
      exact apart slot member new isNew
        ((Slot.head_dotted newPath).trans (Slot.head_dotted path).symm)
    unfold longestField?
    simp only [same]

end UserType

namespace Session

variable {type : UserType}

theorem Resolved.isClass_of_inherited (resolved : Resolved session) {ancestor : Nat}
    {derived base : UserType} (found : session.types[index]? = some derived)
    (isClass : derived.isClass = true) (inherits : session.Inherits index ancestor)
    (above : session.types[ancestor]? = some base) : base.isClass = true := by
  rcases Relation.ReflTransGen.cases_tail inherits with same | ⟨lower, _, step⟩
  · subst same
    rw [found] at above
    cases above
    exact isClass
  · obtain ⟨type, lowerFound, isBase⟩ := bind_eq_some_iff.1 step
    exact (kindOf_eq_classType_iff above).1 (resolved.base lowerFound isBase).2

theorem ofType_class (found : session.types[index]? = some type) (isClass : type.isClass = true) :
    Target.ofType session (.user index) = .pointer := by
  simp [Target.ofType, found, isClass]

theorem resolveInType?_class (isClass : type.isClass = true) {access : Access}
    (resolved : session.resolveInType? type segments = some access) :
    ∃ count slot, type.longestField? segments = some (count, slot) ∧
      access.target = Target.ofSlot session slot ∧ access.offset = slot.offset := by
  unfold resolveInType? at resolved
  split at resolved
  · next count slot found =>
    obtain ⟨_, _, rfl⟩ := map_eq_some_iff.1 resolved
    exact ⟨count, slot, found, rfl, rfl⟩
  · rw [if_pos isClass] at resolved
    cases resolved

end Session

/-- What makes an instance of one class usable as an instance of another. -/
structure UserType.Substitutes (session : Session) (derived base : UserType) : Prop where
  slots : base.slots <+: derived.slots
  size : base.size ≤ derived.size
  align : base.align ∣ derived.align
  /-- Target, offset, operation and explicitness of an access are those in the base, and its bytes
  lie in the part of the base. -/
  resolves : ∀ segments access, session.resolveInType? base segments = some access →
    session.resolveInType? derived segments = some access ∧
      access.offset + access.target.stride ≤ base.size

theorem Session.Analysed.substitutes (analysed : Analysed session) (readable : Readable session)
    {ancestor : Nat} {derived base : UserType} (found : session.types[index]? = some derived)
    (above : session.types[ancestor]? = some base) (baseClass : base.isClass = true)
    (inherits : session.Inherits index ancestor) :
    derived.Substitutes session base := by
  obtain ⟨shorter, baseRecorded⟩ := analysed.laidOut ancestor (lt_of_getElem? above)
  obtain ⟨longer, recorded⟩ := analysed.laidOut index (lt_of_getElem? found)
  have goesOn := analysed.goesOn readable inherits (lt_of_getElem? found) baseRecorded recorded
  have keeps := analysed.keepsAt readable above baseRecorded
  rw [layoutAt_eq above] at baseRecorded
  rw [layoutAt_eq found] at recorded
  have baseSlots : base.slots = shorter.slots := by simp [UserType.slots, baseRecorded]
  obtain ⟨added, grown, free⟩ := goesOn.slots
  have slots : derived.slots = base.slots ++ added := by
    simp [UserType.slots, recorded, baseRecorded, grown]
  refine ⟨⟨added, slots.symm⟩, ?_, ?_, ?_⟩
  · simpa [UserType.size, recorded, baseRecorded] using goesOn.size
  · simpa [UserType.align, recorded, baseRecorded] using goesOn.align
  · intro segments access resolved
    obtain ⟨count, slot, isLongest, target, offset⟩ := resolveInType?_class baseClass resolved
    have apart : ∀ old ∈ base.slots, ∀ new ∈ added, new.head ≠ old.head := by
      intro old isOld new isNew same
      rw [baseSlots] at isOld
      have taken := keeps.headed old isOld
      rw [← same, free new isNew] at taken
      cases taken
    have derivedLongest := UserType.longestField?_of_append slots apart isLongest
    constructor
    · rw [← resolved]
      simp only [resolveInType?, isLongest, derivedLongest]
    · have member := (UserType.slot?_eq_some (UserType.longestField?_eq_some isLongest).1).1
      rw [target, offset]
      exact (analysed.sound readable above).within slot member

/-- An instance of a class is usable through every ancestor, and an accessor written with the name
of the ancestor stands for the same operation as one written with the name of the class. -/
theorem substitutes_of_inherits {declarations : List Declaration} {session : Session}
    (accepts : Accepts declarations session) {index ancestor : Nat} {derived base : UserType}
    (found : session.types[index]? = some derived) (above : session.types[ancestor]? = some base)
    (isClass : derived.isClass = true) (inherits : session.Inherits index ancestor) :
    derived.Substitutes session base ∧
    ∀ segments call,
      Accessor.call? session ⟨base.name, segments⟩ (.user ancestor) = .ok (some call) →
      Accessor.call? session ⟨derived.name, segments⟩ (.user index) = .ok (some call) := by
  have analysed := accepts.sound
  have baseClass := analysed.wellformed.resolved.isClass_of_inherited found isClass inherits above
  have substitutes := analysed.substitutes accepts.readable found above baseClass inherits
  refine ⟨substitutes, ?_⟩
  intro segments call called
  unfold Accessor.call? at called ⊢
  dsimp only at called ⊢
  cases array : Accessor.arrayPath? segments with
  | some form =>
    obtain ⟨qualifier, path⟩ := form
    rw [array] at called
    dsimp only at called ⊢
    -- Only primitives have shared variants, and an array of any class holds pointers.
    by_cases plain : qualifier = .plain
    · rw [if_pos plain] at called ⊢
      dsimp only at called ⊢
      rw [Session.ofType_class above baseClass] at called
      rw [Session.ofType_class found isClass]
      cases resolved : session.resolveInElement? .pointer path with
      | none =>
        rw [resolved] at called
        cases called
      | some access =>
        rwa [resolved] at called
    · rw [if_neg plain] at called
      cases called
  | none =>
    rw [array] at called
    simp only [Session.user, Session.userAt, above] at called
    simp only [Session.user, Session.userAt, found]
    obtain ⟨access, resolved, same⟩ := Option.map_eq_some_iff.1 (Except.ok.inj called)
    rw [(substitutes.resolves segments access resolved).1, Option.map_some, same]

def sampleInheritance : Text := "@flatjs struct I\x7ba:float64;b:int8;\x7d@end
@flatjs class B\x7bc:int8;i:I;\x7d@end
@flatjs class M extends B\x7bs:float64;\x7d@end
@flatjs class S extends M\x7bj:I;\x7d@end".toList

theorem substitutes_of_inherits_sample : ∃ declarations session derived base access,
    Accepts declarations session ∧ session.types[3]? = some derived ∧
    session.types[1]? = some base ∧ session.Inherits 3 1 ∧
    session.resolveInType? base ["i", "b", "add"] = some access ∧ access.offset = 16 ∧
    derived.Substitutes session base := by
  have accepted : (do
      let document ← Document.read "sample" sampleInheritance
      let session ← Session.ofDocuments [document]
      return do
        let derived ← session.types[3]?
        let base ← session.types[1]?
        let access ← session.resolveInType? base ["i", "b", "add"]
        let middle ← session.baseAt 3
        let root ← session.baseAt middle
        return if derived.isClass then (access.offset, root) else (0, 0)) =
          Except.ok (some (16, 1)) := by
    decide +kernel
  obtain ⟨document, read, accepted⟩ := exists_of_bind_eq_ok accepted
  obtain ⟨session, analysed, same⟩ := exists_of_bind_eq_ok accepted
  have accepts := Accepts.ofDocument read analysed
  have known := Except.ok.inj same
  obtain ⟨derived, found, known⟩ := Option.bind_eq_some_iff.1 known
  obtain ⟨base, above, known⟩ := Option.bind_eq_some_iff.1 known
  obtain ⟨access, resolved, known⟩ := Option.bind_eq_some_iff.1 known
  obtain ⟨middle, first, known⟩ := Option.bind_eq_some_iff.1 known
  obtain ⟨root, second, known⟩ := Option.bind_eq_some_iff.1 known
  split at known
  · next isClass =>
    obtain ⟨offset, rfl⟩ : access.offset = 16 ∧ root = 1 := by simpa using known
    have inherits : session.Inherits 3 1 := .head first (.single second)
    exact ⟨_, session, derived, base, access, accepts, found, above, inherits, resolved,
      offset, (substitutes_of_inherits accepts found above isClass inherits).1⟩
  · cases known

end FlatMemory
