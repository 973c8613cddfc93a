import FlatMemory.Access.Emit
import FlatMemory.Proofs.Session.Analysis
import Mathlib.Algebra.Group.Nat.Defs

/-! # Recorded layouts are sound

Every slot is aligned, lies inside its type and behind the tag, and shares no byte with another
slot that holds a value.  Placing a field keeps this: what it adds starts where the type ends so
far, so nothing before it is touched.  The slots of an embedded struct go under its own name, and a
name that is still free is the first name of no earlier path.

Generated code names an element of a view by a shifted address.  It is the element at that address,
since the address of a slot in an aligned instance is a multiple of the width of the view. -/

namespace FlatMemory

open List Session

variable {session : Session} {name : String} {align : Nat}

/-! ### Rounding up -/

theorem dvd_alignTo (value align : Nat) : align ∣ alignTo value align :=
  Nat.dvd_mul_left align _

theorem le_alignTo (positive : 0 < align) (value : Nat) :
    value ≤ alignTo value align := by
  unfold alignTo
  have cut := Nat.div_add_mod (value + align - 1) align
  have short := Nat.mod_lt (value + align - 1) positive
  rw [Nat.mul_comm] at cut
  omega

theorem max_two_pow (first second : Nat) : max (2 ^ first) (2 ^ second) = 2 ^ max first second := by
  rcases Nat.le_total first second with less | less
  · rw [Nat.max_eq_right less, Nat.max_eq_right (Nat.pow_le_pow_right (by omega) less)]
  · rw [Nat.max_eq_left less, Nat.max_eq_left (Nat.pow_le_pow_right (by omega) less)]

/-! ### Paths -/

namespace Slot

variable {slot inner outer : Slot} {offset : Nat}

def head (slot : Slot) : String := String.ofList (slot.path.toList.takeWhile fun c => c ≠ '.')

def Below (inner outer : Slot) : Prop := ∃ rest, inner.path = outer.path ++ "." ++ rest

theorem takeWhile_dotless (dotless : '.' ∉ name.toList) (rest : List Char) :
    (name.toList ++ '.' :: rest).takeWhile (fun c => c ≠ '.') = name.toList := by
  rw [takeWhile_append_of_pos]
  · simp
  · intro c member
    have different : c ≠ '.' := fun same => dotless (same ▸ member)
    simpa using different

theorem head_of_path (dotless : '.' ∉ slot.path.toList) : slot.head = slot.path := by
  unfold head
  rw [takeWhile_eq_self_iff.2, String.ofList_toList]
  intro c member
  have different : c ≠ '.' := fun same => dotless (same ▸ member)
  simpa using different

theorem head_within (dotless : '.' ∉ name.toList) (offset : Nat) (slot : Slot) :
    (slot.within name offset).head = name := by
  have path : (slot.within name offset).path.toList = name.toList ++ '.' :: slot.path.toList := by
    simp [within]
  rw [head, path, takeWhile_dotless dotless, String.ofList_toList]

theorem head_below (below : inner.Below outer) : inner.head = outer.head := by
  obtain ⟨rest, path⟩ := below
  have chars : inner.path.toList = outer.path.toList ++ '.' :: rest.toList := by
    simp [path]
  unfold head
  rw [chars]
  generalize outer.path.toList = front
  congr 1
  induction front with
  | nil => simp
  | cons c front ih =>
    simp only [cons_append, takeWhile_cons, ih]

theorem below_within (below : (inner.within name offset).Below (outer.within name offset)) :
    inner.Below outer := by
  obtain ⟨rest, path⟩ := below
  refine ⟨rest, ?_⟩
  have chars := congrArg String.toList path
  simp only [within, String.toList_append, append_assoc] at chars
  have tails := append_cancel_left (append_cancel_left chars)
  apply String.toList_injective
  simpa using tails

theorem not_below_self {whole : Slot} (named : whole.path = name) :
    ¬ whole.Below (slot.within name offset) := by
  rintro ⟨rest, path⟩
  have lengths := congrArg (fun path => path.toList.length) path
  simp only [within, named, String.toList_append, length_append] at lengths
  simp at lengths
  omega

end Slot

/-! ### What a layout keeps -/

theorem Primitive.align_power (type : Primitive) : ∃ exponent, type.align = 2 ^ exponent := by
  cases type with
  | scalar type => exact ⟨_, rfl⟩
  | simd type => exact ⟨4, rfl⟩
  | atomic type => exact ⟨_, rfl⟩
  | synchronic type =>
    refine ⟨2, ?_⟩
    cases type <;> decide

namespace Session

variable {fields : List (Field × Option TypeRef)} {layout start : Layout} {low size : Nat}
  {exponent : Nat} {slot : Slot} {next : Layout} {field : Field} {type : TypeRef}
  {added : Nat → List Slot} {index : Nat}

def slotSize (session : Session) (slot : Slot) : Nat := (Target.ofSlot session slot).stride

def slotAlign (session : Session) (slot : Slot) : Nat := (Target.ofSlot session slot).align

structure Encloses (session : Session) (layout : Layout) : Prop where
  power : ∃ exponent, layout.align = 2 ^ exponent
  aligned : ∀ slot ∈ layout.slots,
    session.slotAlign slot ∣ slot.offset ∧ session.slotAlign slot ∣ layout.align
  within : ∀ slot ∈ layout.slots, slot.offset + session.slotSize slot ≤ layout.size

def Apart (session : Session) (one other : Slot) : Prop :=
  one.offset + session.slotSize one ≤ other.offset ∨
    other.offset + session.slotSize other ≤ one.offset

def Inside (session : Session) (inner outer : Slot) : Prop :=
  outer.offset ≤ inner.offset ∧
    inner.offset + session.slotSize inner ≤ outer.offset + session.slotSize outer

/-- Slots that fit together: those that hold values are apart, those below the path of another are
inside it. -/
structure Fit (session : Session) (slots : List Slot) : Prop where
  disjoint : slots.Pairwise fun one other =>
    one.direct = true → other.direct = true → session.Apart one other
  nested : ∀ outer ∈ slots, ∀ inner ∈ slots, outer.direct = false → inner.Below outer →
    session.Inside inner outer

structure Occupies (session : Session) (low high align : Nat) (slots : List Slot) : Prop where
  aligned : ∀ slot ∈ slots, session.slotAlign slot ∣ slot.offset ∧ session.slotAlign slot ∣ align
  between : ∀ slot ∈ slots, low ≤ slot.offset ∧ slot.offset + session.slotSize slot ≤ high
  fit : Fit session slots

structure Keeps (session : Session) (low : Nat) (layout : Layout) : Prop where
  power : ∃ exponent, layout.align = 2 ^ exponent
  low_le : low ≤ layout.size
  occupies : session.Occupies low layout.size layout.align layout.slots
  headed : ∀ slot ∈ layout.slots, layout.hasPath slot.head = true

theorem hasPath_iff {path : String} :
    layout.hasPath path = true ↔ ∃ slot ∈ layout.slots, slot.path = path := by
  simp [Layout.hasPath]

theorem Keeps.empty (session : Session) (power : align = 2 ^ exponent) :
    session.Keeps size ⟨size, align, []⟩ :=
  ⟨⟨exponent, power⟩, Nat.le_refl _, ⟨by simp, by simp, ⟨by simp, by simp⟩⟩, by simp⟩

theorem Encloses.empty (session : Session) (power : align = 2 ^ exponent) :
    session.Encloses ⟨size, align, []⟩ :=
  ⟨⟨exponent, power⟩, by simp, by simp⟩

theorem Encloses.positive (encloses : session.Encloses layout) :
    0 < layout.align := by
  obtain ⟨exponent, power⟩ := encloses.power
  rw [power]
  exact Nat.two_pow_pos exponent

structure Room (session : Session) (name : String) (size align : Nat) (slots : Nat → List Slot) :
    Prop where
  power : ∃ exponent, align = 2 ^ exponent
  aligned : ∀ offset, align ∣ offset → ∀ slot ∈ slots offset,
    session.slotAlign slot ∣ slot.offset ∧ session.slotAlign slot ∣ align
  between : ∀ offset, ∀ slot ∈ slots offset,
    offset ≤ slot.offset ∧ slot.offset + session.slotSize slot ≤ offset + size
  heads : '.' ∉ name.toList → ∀ offset, ∀ slot ∈ slots offset, slot.head = name
  named : ∀ offset, ∃ slot ∈ slots offset, slot.path = name

theorem Room.behind (room : session.Room name size align added) (layout : Layout) :
    layout.size ≤ layout.nextOffset align := by
  obtain ⟨exponent, power⟩ := room.power
  refine le_alignTo ?_ layout.size
  rw [power]
  exact Nat.two_pow_pos exponent

theorem Encloses.place (encloses : session.Encloses layout)
    (room : session.Room name size align added) :
    session.Encloses (layout.place size align added) := by
  have behind := room.behind layout
  have starts : align ∣ layout.nextOffset align := dvd_alignTo layout.size align
  obtain ⟨exponent, power⟩ := room.power
  obtain ⟨wide, layoutPower⟩ := encloses.power
  have together : max layout.align align = 2 ^ max wide exponent := by
    rw [layoutPower, power, max_two_pow]
  have divides : layout.align ∣ max layout.align align ∧ align ∣ max layout.align align := by
    rw [together, layoutPower, power]
    exact ⟨Nat.pow_dvd_pow 2 (Nat.le_max_left _ _), Nat.pow_dvd_pow 2 (Nat.le_max_right _ _)⟩
  refine ⟨⟨_, together⟩, ?_, ?_⟩
  · intro slot member
    rcases mem_append.1 member with isOld | isNew
    · have known := encloses.aligned slot isOld
      exact ⟨known.1, Nat.dvd_trans known.2 divides.1⟩
    · have known := room.aligned _ starts slot isNew
      exact ⟨known.1, Nat.dvd_trans known.2 divides.2⟩
  · intro slot member
    change _ ≤ layout.nextOffset align + size
    rcases mem_append.1 member with isOld | isNew
    · have known := encloses.within slot isOld
      omega
    · exact (room.between _ slot isNew).2

theorem Keeps.encloses (keeps : session.Keeps low layout) : session.Encloses layout :=
  ⟨keeps.power, keeps.occupies.aligned, fun slot member => (keeps.occupies.between slot member).2⟩

theorem Keeps.place (keeps : session.Keeps low layout) (fresh : layout.hasPath name = false)
    (dotless : '.' ∉ name.toList) (room : session.Room name size align added)
    (fit : ∀ offset, session.Fit (added offset)) :
    session.Keeps low (layout.place size align added) := by
  have encloses := keeps.encloses.place room
  have behind := room.behind layout
  have between := room.between (layout.nextOffset align)
  have heads := room.heads dotless (layout.nextOffset align)
  have lowLe := keeps.low_le
  -- A path that goes on behind another has the same first name, so none crosses over.
  have apart : ∀ old ∈ layout.slots, ∀ new ∈ added (layout.nextOffset align),
      old.head ≠ new.head := by
    intro old isOld new isNew same
    have taken := keeps.headed old isOld
    rw [same, heads new isNew, fresh] at taken
    cases taken
  refine ⟨encloses.power, ?_, ⟨encloses.aligned, ?_, ?_, ?_⟩, ?_⟩
  · exact (lowLe.trans behind).trans (Nat.le_add_right _ _)
  · intro slot member
    refine ⟨?_, encloses.within slot member⟩
    rcases mem_append.1 member with isOld | isNew
    · exact (keeps.occupies.between slot isOld).1
    · have known := between slot isNew
      omega
  · refine pairwise_append.2 ⟨keeps.occupies.fit.disjoint, (fit _).disjoint, ?_⟩
    intro old isOld new isNew _ _
    have before := keeps.occupies.between old isOld
    have after := between new isNew
    exact .inl (by omega)
  · intro outer isOuter inner isInner indirect below
    have heads := Slot.head_below below
    rcases mem_append.1 isOuter with outerOld | outerNew <;>
      rcases mem_append.1 isInner with innerOld | innerNew
    · exact keeps.occupies.fit.nested outer outerOld inner innerOld indirect below
    · exact absurd heads.symm (apart outer outerOld inner innerNew)
    · exact absurd heads (apart inner innerOld outer outerNew)
    · exact (fit _).nested outer outerNew inner innerNew indirect below
  · intro slot member
    rw [hasPath_iff]
    rcases mem_append.1 member with isOld | isNew
    · obtain ⟨first, isFirst, path⟩ := hasPath_iff.1 (keeps.headed slot isOld)
      exact ⟨first, mem_append_left _ isFirst, path⟩
    · obtain ⟨first, isFirst, path⟩ := room.named (layout.nextOffset align)
      exact ⟨first, mem_append_right _ isFirst, by rw [heads slot isNew, path]⟩

theorem Room.single {slot : Nat → Slot} (power : ∃ exponent, align = 2 ^ exponent)
    (path : ∀ offset, (slot offset).path = name)
    (measured : ∀ offset, (slot offset).offset = offset ∧ session.slotSize (slot offset) = size ∧
      session.slotAlign (slot offset) = align) :
    session.Room name size align fun offset => [slot offset] := by
  refine ⟨power, ?_, ?_, ?_, fun offset => ⟨_, mem_singleton_self _, path offset⟩⟩
  · intro offset divides only member
    obtain ⟨starts, _, aligned⟩ := measured offset
    rw [mem_singleton.1 member, aligned, starts]
    exact ⟨divides, Nat.dvd_refl _⟩
  · intro offset only member
    obtain ⟨starts, sized, _⟩ := measured offset
    rw [mem_singleton.1 member, starts, sized]
    exact ⟨Nat.le_refl _, Nat.le_refl _⟩
  · intro dotless offset only member
    rw [mem_singleton.1 member, Slot.head_of_path (by rwa [path]), path]

theorem fit_single (direct : slot.direct = true) : session.Fit [slot] := by
  refine ⟨pairwise_singleton _ _, ?_⟩
  intro outer isOuter inner _ indirect
  rw [mem_singleton.1 isOuter, direct] at indirect
  cases indirect

theorem Room.struct {whole : Nat → Slot} {inner : Layout} (path : ∀ offset, (whole offset).path = name)
    (measured : ∀ offset, (whole offset).offset = offset ∧
      session.slotSize (whole offset) = inner.size ∧ session.slotAlign (whole offset) = inner.align)
    (encloses : session.Encloses inner) :
    session.Room name inner.size inner.align fun offset =>
      whole offset :: inner.slots.map (Slot.within name offset) := by
  refine ⟨encloses.power, ?_, ?_, ?_, fun offset => ⟨_, mem_cons_self, path offset⟩⟩
  · intro offset divides slot member
    rcases mem_cons.1 member with rfl | member
    · rw [(measured offset).1, (measured offset).2.2]
      exact ⟨divides, Nat.dvd_refl _⟩
    · obtain ⟨slot, isInner, rfl⟩ := mem_map.1 member
      have aligned := encloses.aligned slot isInner
      exact ⟨Nat.dvd_add (Nat.dvd_trans aligned.2 divides) aligned.1, aligned.2⟩
  · intro offset slot member
    rcases mem_cons.1 member with rfl | member
    · rw [(measured offset).1, (measured offset).2.1]
      exact ⟨Nat.le_refl _, Nat.le_refl _⟩
    · obtain ⟨slot, isInner, rfl⟩ := mem_map.1 member
      have inside := encloses.within slot isInner
      change offset ≤ offset + slot.offset ∧
        offset + slot.offset + session.slotSize slot ≤ offset + inner.size
      omega
  · intro dotless offset slot member
    rcases mem_cons.1 member with rfl | member
    · rw [Slot.head_of_path (by rwa [path]), path]
    · obtain ⟨inside, _, rfl⟩ := mem_map.1 member
      exact Slot.head_within dotless offset inside

theorem fit_struct {whole : Slot} {inner : Layout} (indirect : whole.direct = false)
    (sized : session.slotSize whole = inner.size) (keeps : session.Keeps low inner) :
    session.Fit (whole :: inner.slots.map (Slot.within whole.path whole.offset)) := by
  have size : ∀ slot : Slot, session.slotSize (slot.within whole.path whole.offset) =
      session.slotSize slot := fun _ => rfl
  have shifted : ∀ slot : Slot, (slot.within whole.path whole.offset).offset =
      whole.offset + slot.offset := fun _ => rfl
  refine ⟨?_, ?_⟩
  · rw [pairwise_cons, pairwise_map]
    refine ⟨?_, keeps.occupies.fit.disjoint.imp ?_⟩
    · intro slot _ direct
      rw [indirect] at direct
      cases direct
    · intro one other apart oneDirect otherDirect
      have known := apart oneDirect otherDirect
      unfold Apart at known ⊢
      rw [size, size, shifted, shifted]
      omega
  · intro outer isOuter slot isSlot outerIndirect below
    rcases mem_cons.1 isOuter with rfl | isOuter <;>
      rcases mem_cons.1 isSlot with rfl | isSlot
    · exact ⟨Nat.le_refl _, Nat.le_refl _⟩
    · obtain ⟨slot, isInner, rfl⟩ := mem_map.1 isSlot
      have known := keeps.encloses.within slot isInner
      unfold Inside
      rw [size, shifted, sized]
      omega
    · obtain ⟨outer, _, rfl⟩ := mem_map.1 isOuter
      exact absurd below (Slot.not_below_self rfl)
    · obtain ⟨outer, outerInner, rfl⟩ := mem_map.1 isOuter
      obtain ⟨slot, isInner, rfl⟩ := mem_map.1 isSlot
      have known := keeps.occupies.fit.nested outer outerInner slot isInner outerIndirect
        (Slot.below_within below)
      unfold Inside at known ⊢
      rw [size, size, shifted, shifted]
      omega

theorem ofSlot_pointer (reference : slot.isArray = true ∨ session.kindOf slot.type = .classType) :
    Target.ofSlot session slot = .pointer := by
  unfold Target.ofSlot
  by_cases array : slot.isArray = true
  · rw [if_pos array]
  · rw [if_neg array]
    have kind := reference.resolve_left array
    cases same : slot.type with
    | primitive primitive =>
      rw [same] at kind
      cases kind
    | user index =>
      rw [same] at kind
      obtain ⟨type, found, isClass⟩ := kindOf_eq_classType kind
      simp [Target.ofType, found, isClass]

theorem ofSlot_struct {known : Layout} (plain : slot.isArray = false)
    (same : slot.type = .user index) (kind : session.kindOf (.user index) = .structType)
    (recorded : session.layoutAt index = some known) :
    session.slotSize slot = known.size ∧ session.slotAlign slot = known.align := by
  obtain ⟨type, found, recorded⟩ := Option.bind_eq_some_iff.1 recorded
  have notClass : type.isClass = false := (kindOf_eq_structType_iff found).1 kind
  have target : Target.ofSlot session slot = .structure type := by
    simp [Target.ofSlot, plain, same, Target.ofType, found, notClass]
  simp [slotSize, slotAlign, target, Target.stride, Target.align, UserType.size, UserType.align,
    recorded]

theorem Places.room (places : session.Places layout field type next)
    (held : session.Held field type fun _ => session.Encloses) :
    ∃ size align slots, next = layout.place size align slots ∧
      session.Room field.name size align slots ∧
      (session.Held field type (fun _ => session.Keeps 0) → ∀ offset, session.Fit (slots offset)) := by
  cases places with
  | pointer reference =>
    refine ⟨_, _, _, rfl, .single ⟨2, rfl⟩ (fun _ => rfl) fun offset => ?_,
      fun _ _ => fit_single rfl⟩
    have target : Target.ofSlot session ⟨field.name, true, offset, type, field.isArray⟩ =
        .pointer := ofSlot_pointer reference
    rw [slotSize, slotAlign, target]
    exact ⟨rfl, rfl, rfl⟩
  | @primitive primitive plain =>
    exact ⟨_, _, _, rfl, .single primitive.align_power (fun _ => rfl) fun _ => ⟨rfl, rfl, rfl⟩,
      fun _ _ => fit_single rfl⟩
  | @struct index known plain kind recorded =>
    obtain ⟨_, encloses⟩ := held.recorded plain kind recorded
    have measured : ∀ offset, session.slotSize ⟨field.name, false, offset, .user index, false⟩ =
        known.size ∧ session.slotAlign ⟨field.name, false, offset, .user index, false⟩ =
        known.align := fun offset => ofSlot_struct rfl rfl kind recorded
    refine ⟨_, _, _, rfl, .struct (fun _ => rfl) (fun offset => ⟨rfl, measured offset⟩) encloses,
      fun held offset => ?_⟩
    obtain ⟨_, keeps⟩ := held.recorded plain kind recorded
    exact @fit_struct session 0 ⟨field.name, false, offset, .user index, false⟩ known rfl
      (measured offset).1 keeps

theorem Encloses.places (encloses : session.Encloses layout)
    (held : session.Held field type fun _ => session.Encloses)
    (places : session.Places layout field type next) : session.Encloses next := by
  obtain ⟨_, _, _, rfl, room, _⟩ := places.room held
  exact encloses.place room

theorem Keeps.places (keeps : session.Keeps low layout) (fresh : layout.hasPath field.name = false)
    (dotless : '.' ∉ field.name.toList)
    (held : session.Held field type fun _ => session.Keeps 0)
    (places : session.Places layout field type next) : session.Keeps low next := by
  obtain ⟨_, _, _, rfl, room, fit⟩ := places.room (held.mono fun _ _ _ keeps => keeps.encloses)
  exact keeps.place fresh dotless room (fit held)

/-! ### Recorded layouts -/

def lowest (type : UserType) : Nat := if type.isClass then Layout.tagSize else 0

theorem Keeps.rounded (keeps : session.Keeps low layout) : session.Keeps low layout.rounded := by
  have grows : layout.size ≤ layout.nextOffset layout.align :=
    le_alignTo keeps.encloses.positive layout.size
  refine ⟨keeps.power, keeps.low_le.trans grows, ⟨keeps.occupies.aligned, ?_, keeps.occupies.fit⟩,
    keeps.headed⟩
  intro slot member
  have known := keeps.occupies.between slot member
  exact ⟨known.1, known.2.trans grows⟩

theorem Encloses.finished (encloses : session.Encloses layout) (isClass : Bool) :
    session.Encloses (layout.finished isClass) := by
  have grows : layout.size ≤ layout.nextOffset layout.align :=
    le_alignTo encloses.positive layout.size
  unfold Layout.finished
  split
  · exact encloses
  · exact ⟨encloses.power, encloses.aligned,
      fun slot member => (encloses.within slot member).trans grows⟩

/-- What holds of recorded layouts, by descent to the base and to the structs among the fields.
`placed` is what holds while the fields of a type are placed. -/
theorem Consistent.descend (consistent : Consistent session) (placed : UserType → Layout → Prop)
    {property : UserType → Layout → Prop} (root : ∀ type, type.base? = none →
      placed type (if type.isClass then Layout.ofClass else Layout.ofStruct))
    (inherit : ∀ (index : Nat) type (base : Nat) above layout, session.types[index]? = some type →
      type.base? = some base → session.types[base]? = some above → above.layout = some layout →
      property above layout → placed type layout)
    (step : ∀ (index : Nat) type start done field reference rest layout next,
      session.types[index]? = some type → session.startOf type = some start →
      type.typedFields = done ++ (field, some reference) :: rest →
      session.Fills start done layout → layout.hasPath field.name = false →
      session.Places layout field reference next → session.Held field reference property →
      placed type layout → placed type next)
    (finish : ∀ type layout, placed type layout → property type (layout.finished type.isClass))
    (grounded : Acc session.PartOf index) :
    ∀ type layout, session.types[index]? = some type → type.layout = some layout →
      property type layout := by
  induction grounded with
  | intro index _ ih =>
    intro type layout found recorded
    obtain ⟨start, filled, begins, fills, _, rfl⟩ := consistent index type layout found recorded
    apply finish
    have starts : placed type start := by
      have start := begins
      unfold startOf at start
      cases derived : type.base? with
      | none =>
        rw [derived] at start
        exact Option.some.inj start ▸ root type derived
      | some base =>
        rw [derived] at start
        obtain ⟨above, there, known⟩ := Option.bind_eq_some_iff.1 start
        have part : session.PartOf base index := .inl (by simp [Extends, baseAt, found, derived])
        exact inherit index type base above _ found derived there known
          (ih base part above _ there known)
    suffices ∀ done rest current, type.typedFields = done ++ rest →
        session.Fills start done current → placed type current from
      this type.typedFields [] filled (append_nil _).symm fills
    intro done rest current fields fills
    induction fills generalizing rest with
    | nil => exact starts
    | @snoc earlier current next field reference before fresh places further =>
      rw [append_assoc] at fields
      refine step index type start earlier field reference rest current next found begins fields
        before fresh places ?_ (further _ fields)
      rintro place struct known rfl plain there isStruct isKnown
      have held : place ∈ session.embedded type := mem_embedded.2
        ⟨field, by simp [fields], plain, (kindOf_eq_structType_iff there).2 isStruct⟩
      exact ih place (.inr ⟨type, found, held⟩) struct known there isKnown

theorem Consistent.encloses (consistent : Consistent session)
    (grounded : Acc session.PartOf index) :
    ∀ type layout, session.types[index]? = some type → type.layout = some layout →
      session.Encloses layout ∧ (type.isClass = false → layout.align ∣ layout.size) := by
  refine consistent.descend (fun _ => session.Encloses) (fun type _ => ?_)
    (fun _ _ _ _ _ _ _ _ _ known => known.1) ?_ ?_ grounded
  · split
    · exact Encloses.empty session (show Layout.pointerSize = 2 ^ 2 from rfl)
    · exact Encloses.empty session (show 1 = 2 ^ 0 from rfl)
  · intro _ _ _ _ _ _ _ _ _ _ _ _ _ _ places held encloses
    exact encloses.places (held.mono fun _ _ _ known => known.1) places
  · intro type layout encloses
    refine ⟨encloses.finished type.isClass, fun notClass => ?_⟩
    rw [notClass]
    exact dvd_alignTo layout.size layout.align

theorem Readable.dotless (readable : Readable session) {type : UserType}
    (member : type ∈ session.types) (isField : field ∈ type.declaration.fields) :
    '.' ∉ field.name.toList := by
  obtain ⟨c, cs, chars, start, parts⟩ := (readable type member).identifiers field.name
    (mem_append_left _ (mem_map_of_mem isField))
  rw [chars, mem_cons]
  rintro (dot | dot)
  · rw [← dot] at start
    exact absurd start (by decide)
  · exact absurd (parts '.' dot) (by decide)

/-- Every recorded layout is sound. -/
theorem Analysed.keeps (analysed : Analysed session) (readable : Readable session)
    (inside : index < session.types.length) :
    ∀ type layout, session.types[index]? = some type → type.layout = some layout →
      session.Keeps (lowest type) layout ∧
        (type.isClass = false → layout.align ∣ layout.size) := by
  have resolved := analysed.wellformed.resolved
  refine analysed.consistent.descend (fun type => session.Keeps (lowest type)) (fun type _ => ?_)
    ?_ ?_ ?_ (analysed.wellformed.grounded index inside)
  · unfold lowest
    split
    · exact Keeps.empty session (show Layout.pointerSize = 2 ^ 2 from rfl)
    · exact Keeps.empty session (show 1 = 2 ^ 0 from rfl)
  · intro index type base above layout found derived there _ known
    obtain ⟨isClass, kind⟩ := resolved.base found derived
    have baseClass : above.isClass = true := (kindOf_eq_classType_iff there).1 kind
    have same : lowest above = lowest type := by simp [lowest, baseClass, isClass]
    exact same ▸ known.1
  · intro index type start done field reference rest layout next found _ fields _ fresh places held
      keeps
    have member : (field, some reference) ∈ type.typedFields := by simp [fields]
    refine keeps.places fresh ?_ (held.mono fun struct known isStruct keeps => ?_) places
    · exact readable.dotless (mem_of_getElem? found) (resolved.typedFields found member).1
    · have lowestInner : lowest struct = 0 := by simp [lowest, isStruct]
      exact lowestInner ▸ keeps.1
  · intro type layout keeps
    unfold Layout.finished
    by_cases isClass : type.isClass = true
    · rw [if_pos isClass]
      exact ⟨keeps, fun notClass => by rw [isClass] at notClass; cases notClass⟩
    · rw [if_neg isClass]
      exact ⟨keeps.rounded, fun _ => dvd_alignTo layout.size layout.align⟩

/-- What placing a field adds: a slot for it and, for an embedded struct, slots below that one. -/
theorem Places.slots (places : session.Places layout field type next) :
    ∃ slot below, next.slots = layout.slots ++ slot :: below ∧ slot.path = field.name ∧
      slot.type = type ∧ slot.isArray = field.isArray ∧ ∀ other ∈ below, '.' ∈ other.path.toList := by
  cases places with
  | pointer _ => exact ⟨_, [], rfl, rfl, rfl, rfl, by simp⟩
  | primitive plain => exact ⟨_, [], rfl, rfl, rfl, plain.symm, by simp⟩
  | struct plain _ _ =>
    refine ⟨_, _, rfl, rfl, rfl, plain.symm, ?_⟩
    intro other member
    obtain ⟨inner, _, rfl⟩ := mem_map.1 member
    simp [Slot.within]

theorem hasPath_of_fills (fills : session.Fills start fields layout) :
    ∀ field type, (field, type) ∈ fields → layout.hasPath field.name = true := by
  induction fills with
  | nil => simp
  | @snoc earlier current next field type _ _ placed ih =>
    intro other otherType member
    obtain ⟨new, below, slots, path, _⟩ := placed.slots
    rw [hasPath_iff, slots]
    rcases mem_append.1 member with member | new
    · obtain ⟨slot, isSlot, path⟩ := hasPath_iff.1 (ih other otherType member)
      exact ⟨slot, mem_append_left _ isSlot, path⟩
    · cases mem_singleton.1 new
      exact ⟨_, mem_append_right _ mem_cons_self, path⟩

end Session

/-! ### Sound types -/

def Target.view? : Target → Option Scalar
  | primitive type => some type.store
  | pointer => some (.int .int32)
  | .structure _ => none

/-- The element of its view at which a scalar at an address is read and written. -/
def Scalar.index (type : Scalar) (address : Nat) : Nat := address >>> type.shift

theorem Scalar.index_exact {type : Scalar} {address : Nat} (aligned : type.width ∣ address) :
    type.index address * type.width = address := by
  rw [index, Nat.shiftRight_eq_div_pow]
  exact Nat.div_mul_cancel aligned

theorem Target.view_dvd_align {target : Target} {view : Scalar}
    (viewed : target.view? = some view) :
    view.width ∣ target.align := by
  rcases target with type | _ | type
  · cases viewed
    cases type with
    | scalar type => exact Nat.dvd_refl _
    | simd type => cases type <;> decide
    | atomic type => exact Nat.dvd_refl _
    | synchronic type => cases type <;> decide
  · cases viewed
    decide
  · cases viewed

namespace Emit

structure Place where
  base : Text
  offset : Nat
  shift : Nat

def Place.written (place : Place) : Text :=
  let address := if place.offset = 0 then operand place.base
    else "(".toList ++ operand place.base ++ " + ".toList ++ number place.offset ++ ")".toList
  if place.shift = 0 then address else address ++ " >> ".toList ++ number place.shift

def Place.value (values : Text → Nat) (place : Place) : Nat :=
  (values place.base + place.offset) >>> place.shift

inductive Touches (view : Scalar) (place : Place) : Text → Prop
  | element : Touches view place (view.view.toList ++ "[".toList ++ place.written ++ "]".toList)
  | assigned (operator value : Text) :
    Touches view place ("(".toList ++ (view.view.toList ++ "[".toList ++ place.written ++ "]".toList)
      ++ " ".toList ++ operator ++ " ".toList ++ value ++ ")".toList)
  | call (callee : String) (arguments : List Text) :
    Touches view place (callee.toList ++ "(".toList ++ view.view.toList ++ ", ".toList
      ++ place.written ++ furtherArguments arguments ++ ")".toList)

theorem touches_scalar (view : Scalar) (base : Text) (offset : Nat) (operation : Operation)
    (arguments : List Text) : Touches view ⟨base, offset, view.shift⟩
      (scalar view (fieldAddress base offset) operation arguments) := by
  unfold scalar
  dsimp only
  split
  · exact .assigned _ _
  · exact .element

end Emit

def Target.isSynchronic : Target → Bool
  | primitive (.synchronic _) => true
  | _ => false

/-- An operation on a field touches the view of its target at the address of the field, shifted unless
the target is a synchronic cell. -/
theorem Target.touches {target : Target} {view : Scalar} (viewed : target.view? = some view)
    {operation : Operation} {arguments : List Text} (notRef : operation ≠ .ref)
    (supported : target.supports operation = true) (enough : arguments.length = operation.operands)
    (base : Text) (offset : Nat) :
    ∃ text, Emit.access target (Emit.fieldAddress base offset) operation arguments = .ok text ∧
      Emit.Touches view ⟨base, offset, if target.isSynchronic then 0 else view.shift⟩ text := by
  unfold Emit.access
  rw [if_neg (by simp [enough, supported]), if_neg notRef]
  rcases target with type | _ | type
  · cases viewed
    refine ⟨_, rfl, ?_⟩
    cases type with
    | scalar type => exact Emit.touches_scalar type base offset operation arguments
    | simd type => exact .call _ arguments
    | atomic type => exact .call _ arguments
    | synchronic type => exact .call _ arguments
  · cases viewed
    exact ⟨_, rfl, Emit.touches_scalar _ base offset operation arguments⟩
  · cases viewed

/-- A type that is laid out soundly. -/
structure UserType.Sound (session : Session) (type : UserType) : Prop where
  laidOut : type.layout.isSome = true
  /-- Every declared field has a slot. -/
  covers : ∀ field ∈ type.declaration.fields, ∃ slot ∈ type.slots, slot.path = field.name
  power : ∃ exponent, type.align = 2 ^ exponent
  aligned : ∀ slot ∈ type.slots,
    session.slotAlign slot ∣ slot.offset ∧ session.slotAlign slot ∣ type.align
  within : ∀ slot ∈ type.slots, slot.offset + session.slotSize slot ≤ type.size
  behindTag : type.isClass = true → ∀ slot ∈ type.slots, Layout.tagSize ≤ slot.offset
  disjoint : type.slots.Pairwise fun one other =>
    one.direct = true → other.direct = true → session.Apart one other
  nested : ∀ outer ∈ type.slots, ∀ inner ∈ type.slots, outer.direct = false →
    inner.Below outer → session.Inside inner outer
  rounded : type.isClass = false → type.align ∣ type.size
  /-- An aligned instance is read through its views without loss. -/
  exact : ∀ slot ∈ type.slots, ∀ view, (Target.ofSlot session slot).view? = some view →
    ∀ pointer, type.align ∣ pointer →
      view.index (pointer + slot.offset) * view.width = pointer + slot.offset
  /-- Generated code touches the view of a slot at this index, or the cell at its address. -/
  emitted : ∀ slot ∈ type.slots, ∀ view, (Target.ofSlot session slot).view? = some view →
    ∀ base operation arguments, operation ≠ .ref →
      (Target.ofSlot session slot).supports operation = true →
      arguments.length = operation.operands →
      ∃ text place, Emit.access (Target.ofSlot session slot) (Emit.fieldAddress base slot.offset)
          operation arguments = .ok text ∧ Emit.Touches view place text ∧
        ∀ values, place.value values =
          if (Target.ofSlot session slot).isSynchronic then values base + slot.offset
          else view.index (values base + slot.offset)

theorem Session.Analysed.sound (analysed : Analysed session) (readable : Readable session)
    {index : Nat} {type : UserType} (found : session.types[index]? = some type) :
    type.Sound session := by
  have inside := lt_of_getElem? found
  obtain ⟨layout, recorded⟩ := analysed.laidOut index inside
  rw [layoutAt_eq found] at recorded
  obtain ⟨keeps, rounded⟩ := analysed.keeps readable inside type layout found recorded
  have size : type.size = layout.size := by simp [UserType.size, recorded]
  have align : type.align = layout.align := by simp [UserType.align, recorded]
  have slots : type.slots = layout.slots := by simp [UserType.slots, recorded]
  refine ⟨by simp [recorded], ?_, ?_, ?_, ?_, ?_, ?_, ?_, ?_, ?_, ?_⟩
  · intro field isField
    obtain ⟨start, filled, _, fills, _, rfl⟩ :=
      analysed.consistent index type layout found recorded
    rw [← analysed.wellformed.resolved.typedFields_fst found] at isField
    obtain ⟨⟨_, fieldType⟩, member, rfl⟩ := mem_map.1 isField
    have placed := hasPath_iff.1 (hasPath_of_fills fills _ fieldType member)
    rw [slots, Layout.finished]
    split
    · exact placed
    · exact placed
  · rw [align]
    exact keeps.power
  · rw [slots, align]
    exact keeps.occupies.aligned
  · rw [slots, size]
    exact fun slot member => (keeps.occupies.between slot member).2
  · intro isClass slot member
    rw [slots] at member
    have known := (keeps.occupies.between slot member).1
    rwa [Session.lowest, if_pos isClass] at known
  · rw [slots]
    exact keeps.occupies.fit.disjoint
  · rw [slots]
    exact keeps.occupies.fit.nested
  · rw [align, size]
    exact rounded
  · intro slot member view viewed pointer aligned
    rw [slots] at member
    rw [align] at aligned
    obtain ⟨offset, ofType⟩ := keeps.occupies.aligned slot member
    have width := Target.view_dvd_align viewed
    exact Scalar.index_exact (Nat.dvd_add (Nat.dvd_trans width (Nat.dvd_trans ofType aligned))
      (Nat.dvd_trans width offset))
  · intro slot _ view viewed base operation arguments notRef supported enough
    obtain ⟨text, emitted, touches⟩ :=
      Target.touches viewed notRef supported enough base slot.offset
    refine ⟨text, _, emitted, touches, fun values => ?_⟩
    unfold Emit.Place.value
    split
    · exact Nat.shiftRight_zero
    · rfl

end FlatMemory
