import FlatMemory.Proofs.Session.Ancestry
import FlatMemory.Session.Layout

/-! # Recorded layouts

A recorded layout is what the fields of its type come to, placed in order behind the recorded
layout of the base, with the recorded layouts of the structs among them.  A layout is recorded once
and then left alone, so what holds of it when it is recorded holds to the end. -/

namespace FlatMemory

open List Option

variable {layout : Layout} {before : Session} {index : Nat}

namespace UserType

def unplaced (type : UserType) : UserType := { type with layout := none }

structure Keeps (before after : UserType) : Prop where
  declaration : after.declaration = before.declaration
  resolution : ∀ resolution, before.resolution = some resolution →
    after.resolution = some resolution
  layout : ∀ layout, before.layout = some layout → after.layout = some layout

end UserType

def Layout.finished (isClass : Bool) (layout : Layout) : Layout :=
  if isClass then layout else layout.rounded

namespace Session

variable {session : Session} {field : Field} {type : UserType} {failure : Failure} {name : String}
  {first second : Session}

def layoutAt (session : Session) (index : Nat) : Option Layout :=
  (session.types[index]?).bind UserType.layout

inductive Places (session : Session) (layout : Layout) (field : Field) : TypeRef → Layout → Prop
  | pointer {type : TypeRef}
    (reference : field.isArray = true ∨ session.kindOf type = .classType) :
    Places session layout field type (layout.placePointer field.name type field.isArray)
  | primitive {type : Primitive} (plain : field.isArray = false) :
    Places session layout field (.primitive type) (layout.placePrimitive field.name type)
  | struct {index : Nat} {inner : Layout} (plain : field.isArray = false)
    (kind : session.kindOf (.user index) = .structType)
    (recorded : session.layoutAt index = some inner) :
    Places session layout field (.user index) (layout.placeStruct field.name index inner)

inductive Fills (session : Session) (start : Layout) :
    List (Field × Option TypeRef) → Layout → Prop
  | nil : Fills session start [] start
  | snoc {fields : List (Field × Option TypeRef)} {layout next : Layout} {field : Field}
    {type : TypeRef} (fills : Fills session start fields layout)
    (fresh : layout.hasPath field.name = false) (places : Places session layout field type next) :
    Fills session start (fields ++ [(field, some type)]) next

theorem Fills.recorded {start : Layout} {fields : List (Field × Option TypeRef)}
    (fills : Fills session start fields layout) (member : (field, some (.user index)) ∈ fields)
    (plain : field.isArray = false) (kind : session.kindOf (.user index) = .structType) :
    ∃ known, session.layoutAt index = some known := by
  induction fills with
  | nil => cases member
  | snoc _ _ places ih =>
    rcases mem_append.1 member with earlier | new
    · exact ih earlier
    · rw [mem_singleton] at new
      cases new
      cases places with
      | pointer reference => simp [plain, kind] at reference
      | struct _ _ recorded => exact ⟨_, recorded⟩

def Held (session : Session) (field : Field) (reference : TypeRef)
    (property : UserType → Layout → Prop) : Prop :=
  ∀ place struct known, reference = .user place → field.isArray = false →
    session.types[place]? = some struct → struct.isClass = false → struct.layout = some known →
    property struct known

theorem Held.mono {reference : TypeRef} {property other : UserType → Layout → Prop}
    (held : session.Held field reference property)
    (weaker : ∀ struct known, struct.isClass = false → property struct known → other struct known) :
    session.Held field reference other := by
  intro place struct known isPlace plain found isStruct recorded
  exact weaker struct known isStruct (held place struct known isPlace plain found isStruct recorded)

theorem Held.recorded {property : UserType → Layout → Prop} {place : Nat} {known : Layout}
    (held : session.Held field (.user place) property) (plain : field.isArray = false)
    (kind : session.kindOf (.user place) = .structType)
    (recorded : session.layoutAt place = some known) : ∃ struct, property struct known := by
  obtain ⟨struct, found, isLayout⟩ := bind_eq_some_iff.1 recorded
  exact ⟨struct, held place struct known rfl plain found ((kindOf_eq_structType_iff found).1 kind)
    isLayout⟩

def startOf (session : Session) (type : UserType) : Option Layout :=
  match type.base? with
  | some base => session.layoutAt base
  | none => some (if type.isClass then Layout.ofClass else Layout.ofStruct)

def Laid (session : Session) (type : UserType) (layout : Layout) : Prop :=
  ∃ start filled, session.startOf type = some start ∧
    Fills session start type.typedFields filled ∧ checkMethods type filled = .ok () ∧
    layout = filled.finished type.isClass

def Consistent (session : Session) : Prop :=
  ∀ (index : Nat) (type : UserType) (layout : Layout), session.types[index]? = some type →
    type.layout = some layout → session.Laid type layout

def Unhidden (session : Session) (index : Nat) : Prop :=
  ∀ type, session.types[index]? = some type → ∀ field ∈ type.declaration.fields,
    session.methodOwner? ((type.base?.map session.ancestry).getD []) field.name = none

inductive Blocked (session : Session) (failure : Failure) : Prop
  | field {index : Nat} {type : UserType} {start layout : Layout} {field : Field}
    {fieldType : TypeRef} {done rest : List (Field × Option TypeRef)}
    (shaped : (session.types[index]?).map UserType.shape = some type.shape)
    (begins : session.startOf type = some start)
    (fields : type.typedFields = done ++ (field, some fieldType) :: rest)
    (fills : session.Fills start done layout)
    (refused : session.checkField type layout field = .error failure) : Blocked session failure
  | method {index : Nat} {type : UserType} {start filled : Layout}
    (shaped : (session.types[index]?).map UserType.shape = some type.shape)
    (begins : session.startOf type = some start)
    (fills : session.Fills start type.typedFields filled)
    (refused : checkMethods type filled = .error failure) : Blocked session failure

/-- A later session: all that was known of the types is so still. -/
def Continues (before after : Session) : Prop :=
  ∀ (index : Nat) (type : UserType), before.types[index]? = some type →
    ∃ other, after.types[index]? = some other ∧ type.Keeps other

structure Grows (before after : Session) : Prop where
  shape : Agree UserType.shape after before
  keeps : ∀ index layout, before.layoutAt index = some layout → after.layoutAt index = some layout

theorem layoutAt_eq (found : session.types[index]? = some type) :
    session.layoutAt index = type.layout := by
  simp [layoutAt, found]

theorem layoutAt_record (session : Session) (index place : Nat) (layout : Layout)
    (inside : index < session.types.length) :
    (session.modifyAt index fun type => { type with layout := some layout }).layoutAt place =
      if index = place then some layout else session.layoutAt place := by
  unfold layoutAt
  rw [modifyAt_getElem?]
  by_cases here : index = place
  · subst here
    simp [getElem?_eq_getElem inside]
  · simp [here]

theorem kindOf_eq_structType (notClass : session.kindOf (.user index) ≠ .classType) :
    session.kindOf (.user index) = .structType := by
  cases found : session.types[index]? with
  | none => simp [kindOf, found]
  | some type =>
    rw [kindOf_user found] at notClass ⊢
    by_cases isClass : type.isClass = true
    · simp [isClass] at notClass
    · simp [isClass]

theorem checkField_ok_iff :
    session.checkField type layout field = .ok () ↔ layout.hasPath field.name = false ∧
      session.methodOwner? ((type.base?.map session.ancestry).getD []) field.name = none := by
  unfold checkField
  cases layout.hasPath field.name with
  | true => simp
  | false =>
    cases session.methodOwner? ((type.base?.map session.ancestry).getD []) field.name <;> simp

theorem checkField_isFault (failed : session.checkField type layout field = .error failure) :
    failure.IsFault := by
  unfold checkField at failed
  split at failed
  · cases failed
    trivial
  · split at failed
    · cases failed
      trivial
    · cases failed

theorem checkMethods_isFault (failed : checkMethods type layout = .error failure) :
    failure.IsFault := by
  unfold checkMethods at failed
  split at failed
  · cases failed
    trivial
  · cases failed

theorem Blocked.isFault (blocked : Blocked session failure) : failure.IsFault := by
  cases blocked with
  | field _ _ _ _ refused => exact checkField_isFault refused
  | method _ _ _ refused => exact checkMethods_isFault refused

/-! ### Later sessions -/

theorem methodOwner_eq_none_iff {classes : List Nat} :
    session.methodOwner? classes name = none ↔
      ∀ declaration ∈ (session.typesAt classes).map UserType.declaration,
        declaration.hasMethod name = false := by
  simp [methodOwner?, find?_eq_none]

theorem Agree.methodOwner_eq_none (same : Agree UserType.shape first second) {base : Option Nat}
    (unowned : first.methodOwner? ((base.map first.ancestry).getD []) name = none) :
    second.methodOwner? ((base.map second.ancestry).getD []) name = none := by
  rw [methodOwner_eq_none_iff] at unowned ⊢
  have ancestry : first.ancestry = second.ancestry := funext same.ancestry
  rwa [← same.declaration.typesAt, ← ancestry]

theorem Unhidden.agree (unhidden : Unhidden first index)
    (same : Agree UserType.shape first second) :
    Unhidden second index := by
  intro type found field member
  obtain ⟨other, inFirst, shaped⟩ := same.symm.counterpart found
  obtain ⟨declared, resolved⟩ := Prod.mk.inj shaped
  have base : other.base? = type.base? := by rw [UserType.base?, UserType.base?, resolved]
  exact same.methodOwner_eq_none (base ▸ unhidden other inFirst field (declared ▸ member))

namespace Continues

variable {middle after : Session} {start : Layout}

theorem refl (session : Session) : Continues session session :=
  fun _ type found => ⟨type, found, rfl, fun _ known => known, fun _ known => known⟩

theorem trans (continues : Continues before middle) (later : Continues middle after) :
    Continues before after := by
  intro index type found
  obtain ⟨between, inMiddle, first⟩ := continues index type found
  obtain ⟨other, inAfter, second⟩ := later index between inMiddle
  exact ⟨other, inAfter, second.declaration.trans first.declaration,
    fun resolution known => second.resolution resolution (first.resolution resolution known),
    fun layout known => second.layout layout (first.layout layout known)⟩

section

variable (continues : Continues before after)

include continues

theorem kindOf (found : before.types[index]? = some type) :
    after.kindOf (.user index) = before.kindOf (.user index) := by
  obtain ⟨other, there, keeps⟩ := continues index type found
  rw [kindOf_user found, kindOf_user there, UserType.isClass, UserType.isClass, keeps.declaration]

theorem layoutAt (recorded : before.layoutAt index = some layout) :
    after.layoutAt index = some layout := by
  obtain ⟨type, found, known⟩ := bind_eq_some_iff.1 recorded
  obtain ⟨other, there, keeps⟩ := continues index type found
  rw [layoutAt_eq there]
  exact keeps.layout layout known

theorem places {next : Layout} {type : TypeRef} (places : Places before layout field type next) :
    Places after layout field type next := by
  cases places with
  | pointer reference =>
    refine .pointer (reference.imp_right fun kind => ?_)
    cases type with
    | primitive primitive => cases kind
    | user index =>
      obtain ⟨other, found, _⟩ := kindOf_eq_classType kind
      exact (continues.kindOf found).trans kind
  | primitive plain => exact .primitive plain
  | struct plain kind recorded =>
    obtain ⟨other, found, _⟩ := bind_eq_some_iff.1 recorded
    exact .struct plain ((continues.kindOf found).trans kind) (continues.layoutAt recorded)

theorem fills {fields : List (Field × Option TypeRef)} (fills : Fills before start fields layout) :
    Fills after start fields layout := by
  induction fills with
  | nil => exact .nil
  | snoc _ fresh places ih => exact .snoc ih fresh (continues.places places)

theorem startOf (begins : before.startOf type = some start) : after.startOf type = some start := by
  unfold Session.startOf at begins ⊢
  cases derived : type.base? with
  | none =>
    rw [derived] at begins
    exact begins
  | some base =>
    rw [derived] at begins
    exact continues.layoutAt begins

theorem laid {other : UserType} (shaped : other.shape = type.shape)
    (laid : before.Laid type layout) : after.Laid other layout := by
  obtain ⟨declared, resolved⟩ := Prod.mk.inj shaped
  obtain ⟨start, filled, begins, fills, methods, same⟩ := laid
  have base : other.base? = type.base? := by simp only [UserType.base?, resolved]
  have isClass : other.isClass = type.isClass := by simp only [UserType.isClass, declared]
  have fields : other.typedFields = type.typedFields := by
    simp only [UserType.typedFields, declared, resolved]
  refine ⟨start, filled, ?_, fields ▸ continues.fills fills, ?_, isClass ▸ same⟩
  · rw [← continues.startOf begins]
    simp only [Session.startOf, base, isClass]
  · rw [← methods]
    simp only [checkMethods, UserType.fault, declared]

end

end Continues

namespace Grows

variable {middle after : Session}

theorem refl (session : Session) : Grows session session :=
  ⟨Agree.refl _ _, fun _ _ recorded => recorded⟩

theorem trans (grows : Grows before middle) (later : Grows middle after) : Grows before after :=
  ⟨later.shape.trans grows.shape,
    fun index layout recorded => later.keeps index layout (grows.keeps index layout recorded)⟩

theorem kindOf (grows : Grows before after) (type : TypeRef) :
    after.kindOf type = before.kindOf type :=
  grows.shape.declaration.kindOf type

theorem continues (grows : Grows before after) : Continues before after := by
  intro index type found
  obtain ⟨other, there, shaped⟩ := grows.shape.symm.counterpart found
  obtain ⟨declared, resolved⟩ := Prod.mk.inj shaped
  refine ⟨other, there, declared, fun _ known => resolved.trans known, fun layout known => ?_⟩
  rw [← layoutAt_eq there]
  exact grows.keeps index layout ((layoutAt_eq found).trans known)

end Grows

theorem Agree.layoutAt (same : Agree UserType.layout first second) (index : Nat) :
    first.layoutAt index = second.layoutAt index :=
  same.bind id index

theorem Consistent.agree {after : Session} (consistent : Consistent before)
    (shape : Agree UserType.shape after before) (layouts : Agree UserType.layout after before) :
    Consistent after := by
  have grows : Grows before after :=
    ⟨shape, fun index layout recorded => by rw [layouts.layoutAt, recorded]⟩
  intro index type layout found recorded
  obtain ⟨earlier, inBefore, shaped⟩ := shape.counterpart found
  have known : earlier.layout = some layout := by
    rw [← layoutAt_eq inBefore, ← layouts.layoutAt, layoutAt_eq found, recorded]
  exact grows.continues.laid shaped.symm (consistent index earlier layout inBefore known)

theorem Consistent.record (consistent : Consistent session)
    (found : session.types[index]? = some type) (unrecorded : session.layoutAt index = none)
    (laid : session.Laid type layout) :
    Grows session (session.modifyAt index fun type => { type with layout := some layout }) ∧
      Consistent (session.modifyAt index fun type => { type with layout := some layout }) := by
  have inside := lt_of_getElem? found
  have grows : Grows session
      (session.modifyAt index fun type => { type with layout := some layout }) := by
    refine ⟨Agree.modifyAt session index fun _ => by rfl, ?_⟩
    intro place earlier recorded
    rw [layoutAt_record session index place layout inside]
    by_cases here : index = place
    · rw [← here, unrecorded] at recorded
      cases recorded
    · simpa [here] using recorded
  refine ⟨grows, ?_⟩
  intro place changed known there recorded
  have shown := layoutAt_record session index place layout inside
  rw [layoutAt_eq there, recorded] at shown
  by_cases here : index = place
  · subst here
    rw [modifyAt_getElem?, found] at there
    cases there
    simp only [if_true, Option.some.injEq] at shown
    subst shown
    exact grows.continues.laid (by simp [UserType.shape]) laid
  · simp only [here, if_false] at shown
    rw [modifyAt_getElem?] at there
    obtain ⟨earlier, inSession, same⟩ := map_eq_some_iff.1 there
    simp only [here, if_false] at same
    subst same
    exact grows.continues.laid rfl (consistent place earlier known inSession recorded)

end Session

/-! ### The stage -/

namespace Analysis

variable {start : Session} {rank : Nat → Nat}

open Session

structure Placed (before after : Session) : Prop where
  rest : Agree UserType.unplaced after before
  grows : Grows before after
  consistent : Consistent after
  unhidden : ∀ index layout, after.layoutAt index = some layout →
    before.layoutAt index = some layout ∨ after.Unhidden index

theorem Placed.refl (consistent : Consistent before) : Placed before before :=
  ⟨Agree.refl _ _, Grows.refl before, consistent, fun _ _ recorded => .inl recorded⟩

theorem Placed.trans {middle after : Session} (placed : Placed before middle)
    (later : Placed middle after) : Placed before after := by
  refine ⟨later.rest.trans placed.rest, placed.grows.trans later.grows, later.consistent, ?_⟩
  intro index layout recorded
  rcases later.unhidden index layout recorded with earlier | unhidden
  · rcases placed.unhidden index layout earlier with earlier | unhidden
    · exact .inl earlier
    · exact .inr (unhidden.agree later.grows.shape.symm)
  · exact .inr unhidden

structure LaysOut (rank : Nat → Nat) (bound : Nat) (before after : Session) : Prop
    extends Placed before after where
  above : ∀ place, bound ≤ rank place → after.layoutAt place = before.layoutAt place

namespace LaysOut

variable {bound : Nat} {middle after : Session}

theorem refl (rank : Nat → Nat) (bound : Nat) (consistent : Consistent before) :
    LaysOut rank bound before before :=
  ⟨Placed.refl consistent, fun _ _ => rfl⟩

theorem trans (lays : LaysOut rank bound before middle) (later : LaysOut rank bound middle after) :
    LaysOut rank bound before after :=
  ⟨lays.toPlaced.trans later.toPlaced,
    fun place above => (later.above place above).trans (lays.above place above)⟩

theorem mono {wider : Nat} (lays : LaysOut rank bound before after) (wide : bound ≤ wider) :
    LaysOut rank wider before after :=
  ⟨lays.toPlaced, fun place above => lays.above place (wide.trans above)⟩

end LaysOut

structure LayoutStops (rank : Nat → Nat) (bound : Nat) (before : Session) (failure : Failure)
    (reached : Session) : Prop where
  lays : LaysOut rank bound before reached
  blocked : Blocked reached failure

theorem ends_placeField {rank : Nat → Nat} {bound : Nat} {before : Session}
    {layoutInner : Nat → Analysis Layout} (type : UserType) (layout : Layout) {field : Field}
    {fieldType : TypeRef} (consistent : Consistent before)
    (refused : ∀ failure, before.checkField type layout field = .error failure →
      Blocked before failure)
    (inner : ∀ index, fieldType = .user index → field.isArray = false →
      before.kindOf (.user index) = .structType →
      Ends (layoutInner index) before
        (fun known after => LaysOut rank bound before after ∧ after.layoutAt index = some known)
        (LayoutStops rank bound before)) :
    Ends (placeField layoutInner type layout (field, some fieldType)) before
      (fun next after => LaysOut rank bound before after ∧
        before.checkField type layout field = .ok () ∧ Places after layout field fieldType next)
      (LayoutStops rank bound before) := by
  have stays := LaysOut.refl rank bound consistent
  unfold placeField
  simp only [ends_bind]
  refine ends_ask ?_ fun failure failed => ⟨stays, refused failure failed⟩
  intro _ fresh
  by_cases array : field.isArray = true
  · simp only [array, if_true, ends_pure]
    exact ⟨stays, fresh, array ▸ .pointer (.inl array)⟩
  have plain : field.isArray = false := by simpa using array
  simp only [array]
  cases fieldType with
  | primitive primitive => exact ⟨stays, fresh, .primitive plain⟩
  | user index =>
    simp only [Bool.false_eq_true, if_false, ends_bind, ends_get]
    by_cases isClass : before.kindOf (.user index) = .classType
    · simp only [isClass, ends_pure]
      exact ⟨stays, fresh, plain ▸ .pointer (.inr isClass)⟩
    · have kind := kindOf_eq_structType isClass
      simp only [kind, ends_bind, ends_pure]
      refine (inner index rfl plain kind).mono ?_ (fun _ _ stops => stops)
      rintro known after ⟨lays, recorded⟩
      exact ⟨lays, fresh, .struct plain (by rwa [lays.grows.kindOf]) recorded⟩

theorem ends_placeFields {bound : Nat} {type : UserType} {layoutInner : Nat → Analysis Layout}
    (resolved : Resolved start) (found : start.types[index]? = some type)
    (grown : Grows start before) (consistent : Consistent before)
    (begins : before.startOf type = some layout)
    (inner : ∀ inner reached, start.PartOf inner index → Grows start reached →
      Consistent reached →
      Ends (layoutInner inner) reached
        (fun known after => LaysOut rank bound reached after ∧ after.layoutAt inner = some known)
        (LayoutStops rank bound reached)) :
    Ends (type.typedFields.foldlM (placeField layoutInner type) layout) before
      (fun filled after => LaysOut rank bound before after ∧
        Fills after layout type.typedFields filled ∧ after.Unhidden index)
      (LayoutStops rank bound before) := by
  refine (ends_foldlM (fun done current reached => LaysOut rank bound before reached ∧
    Fills reached layout done current ∧ ∀ field ∈ done.map Prod.fst, reached.methodOwner?
      ((type.base?.map reached.ancestry).getD []) field.name = none)
    ⟨LaysOut.refl rank bound consistent, .nil, by simp⟩ ?_).mono ?_ (fun _ _ stops => stops)
  swap
  · rintro filled reached ⟨lays, fills, free⟩
    refine ⟨lays, fills, ?_⟩
    have shape := (grown.trans lays.grows).shape
    rintro other there field member
    obtain ⟨_, inStart, shaped⟩ := shape.counterpart there
    rw [found] at inStart
    cases inStart
    obtain ⟨declared, linked⟩ := Prod.mk.inj shaped
    have base : other.base? = type.base? := by rw [UserType.base?, UserType.base?, linked]
    rw [base]
    refine free field ?_
    rw [resolved.typedFields_fst found, declared]
    exact member
  rintro done ⟨field, fieldType⟩ rest current reached whole ⟨lays, fills, free⟩
  have member : (field, fieldType) ∈ type.typedFields := by
    rw [whole]
    simp
  obtain ⟨_, known, rfl, _⟩ := resolved.typedFields found member
  have grownOn := grown.trans lays.grows
  refine (@ends_placeField rank bound reached layoutInner type current field known
    lays.consistent ?_ ?_).mono ?_ (fun _ _ stops => ⟨lays.trans stops.lays, stops.blocked⟩)
  · intro failure refused
    have shaped := grownOn.shape.getElem? index
    rw [found, map_some] at shaped
    exact .field shaped (lays.grows.continues.startOf begins) whole fills refused
  · rintro place rfl plain kind
    rw [grownOn.kindOf] at kind
    have held : place ∈ start.embedded type :=
      mem_filterMap.2 ⟨_, member, by simp [plain, kind]⟩
    exact inner place reached (.inr ⟨type, found, held⟩) grownOn lays.consistent
  · rintro next after ⟨innerLays, checked, places⟩
    obtain ⟨fresh, unowned⟩ := checkField_ok_iff.1 checked
    refine ⟨lays.trans innerLays, .snoc (innerLays.grows.continues.fills fills) fresh places, ?_⟩
    intro other member
    rw [map_append, mem_append] at member
    refine innerLays.grows.shape.symm.methodOwner_eq_none ?_
    rcases member with earlier | new
    · exact free other earlier
    · rw [map_singleton, mem_singleton] at new
      exact new ▸ unowned

theorem ends_layoutType :
    ∀ depth index session, Resolved session → Consistent session →
      (∀ inner outer, session.PartOf inner outer → rank inner < rank outer) →
      rank index < depth → index < session.types.length →
      Ends (layoutType depth index) session
        (fun layout after => LaysOut rank (rank index + 1) session after ∧
          after.layoutAt index = some layout)
        (LayoutStops rank (rank index + 1) session) := by
  intro depth
  induction depth with
  | zero => intro index session _ _ _ enough; omega
  | succ depth ih =>
    intro index session resolved consistent ranked enough inside
    have below : ∀ inner reached, session.PartOf inner index → Grows session reached →
        Consistent reached →
        Ends (layoutType depth inner) reached
          (fun known after => LaysOut rank (rank index) reached after ∧
            after.layoutAt inner = some known)
          (LayoutStops rank (rank index) reached) := by
      intro inner reached part grown consistentOn
      have lower := ranked inner index part
      have innerInside : inner < reached.types.length := by
        rw [grown.shape.length]
        exact partOf_lt resolved part
      refine (ih inner reached (resolved.agree grown.shape.symm) consistentOn
        (fun first second isPart => ranked first second (partOf_agree grown.shape isPart))
        (by omega) innerInside).mono ?_
        (fun _ _ stops => ⟨stops.lays.mono (by omega), stops.blocked⟩)
      rintro known after ⟨lays, recorded⟩
      exact ⟨lays.mono (by omega), recorded⟩
    unfold layoutType
    rw [ends_bind]
    refine ends_userAt inside ?_
    intro type found
    cases recorded : type.layout with
    | some layout =>
      exact ⟨LaysOut.refl rank _ consistent, by rw [layoutAt_eq found, recorded]⟩
    | none =>
      -- Whatever the fields start from, this is how they are placed and the result recorded.
      have fields : ∀ layout reached, LaysOut rank (rank index) session reached →
          reached.startOf type = some layout →
          Ends (do
              let filled ← type.typedFields.foldlM (placeField (layoutType depth) type) layout
              ask fun _ => checkMethods type filled
              let final := filled.finished type.isClass
              modifyAt index fun type => { type with layout := some final }
              return final) reached
            (fun layout after => LaysOut rank (rank index + 1) session after ∧
              after.layoutAt index = some layout)
            (LayoutStops rank (rank index + 1) session) := by
        intro layout reached begun begins
        simp only [ends_bind]
        refine (ends_placeFields resolved found begun.grows begun.consistent begins below).mono ?_
          (fun _ _ stops => ⟨(begun.trans stops.lays).mono (by omega), stops.blocked⟩)
        rintro filled after ⟨placed, fills, unhidden⟩
        have lays := begun.trans placed
        obtain ⟨other, inAfter, shaped⟩ := lays.grows.shape.symm.counterpart found
        refine ends_ask ?_ fun failure refused => ⟨lays.mono (by omega),
          .method (by rw [inAfter, map_some, shaped])
            (placed.grows.continues.startOf begins) fills refused⟩
        intro _ methods
        simp only [ends_modifyAt, ends_pure]
        have laid : after.Laid type (filled.finished type.isClass) :=
          ⟨layout, filled, placed.grows.continues.startOf begins, fills, methods, rfl⟩
        have unrecorded : after.layoutAt index = none := by
          rw [lays.above index le_rfl, layoutAt_eq found, recorded]
        obtain ⟨grows, consistentAfter⟩ :=
          lays.consistent.record inAfter unrecorded ((Continues.refl after).laid shaped laid)
        have there := layoutAt_record after index
        have recording : Placed after (after.modifyAt index fun other =>
            { other with layout := some (filled.finished type.isClass) }) := by
          refine ⟨Agree.modifyAt after index fun _ => by rfl, grows, consistentAfter, ?_⟩
          intro place final recorded
          rw [there place _ (lt_of_getElem? inAfter)] at recorded
          by_cases here : index = place
          · exact .inr (here ▸ unhidden.agree grows.shape.symm)
          · exact .inl (by simpa [here] using recorded)
        refine ⟨⟨lays.toPlaced.trans recording, ?_⟩, ?_⟩
        · intro place above
          rw [there place _ (lt_of_getElem? inAfter), if_neg (by rintro rfl; omega),
            lays.above place (by omega)]
        · rw [there index _ (lt_of_getElem? inAfter), if_pos rfl]
      cases derived : type.base? with
      | none =>
        refine fields _ _ (LaysOut.refl rank _ consistent) ?_
        rw [startOf, derived]
      | some above =>
        rw [ends_bind]
        have part : session.PartOf above index := .inl (by simp [Extends, baseAt, found, derived])
        refine (below above session part (Grows.refl session) consistent).mono ?_
          (fun _ _ stops => ⟨stops.lays.mono (by omega), stops.blocked⟩)
        rintro layout reached ⟨lays, known⟩
        exact fields layout reached lays (by rw [startOf, derived]; exact known)

/-- After the stage every type has the layout it has to have, unless there was a fault. -/
theorem ends_layoutTypes (wellformed : Wellformed start) (consistent : Consistent start) :
    Ends layoutTypes start
      (fun _ after => Placed start after ∧
        ∀ index < start.types.length, ∃ layout, after.layoutAt index = some layout)
      fun failure reached => Placed start reached ∧ Blocked reached failure := by
  obtain ⟨rank, ranked, bounded⟩ := wellformed.exists_rank
  refine ends_forTypes (fun count reached => Placed start reached ∧
    ∀ index < count, ∃ layout, reached.layoutAt index = some layout) ?_ rfl ?_ ?_
  · exact ⟨Placed.refl consistent, fun index bound => absurd bound (by omega)⟩
  · rintro count reached ⟨placed, _⟩
    exact placed.rest.length
  · rintro index type reached inside ⟨placed, done⟩ _
    have shape := placed.grows.shape
    have sized := placed.rest.length
    have enough := bounded index inside
    simp only [ends_bind, ends_get, ends_pure]
    refine (ends_layoutType reached.types.length index reached
      (wellformed.resolved.agree shape.symm) placed.consistent
      (fun inner outer part => ranked inner outer (partOf_agree shape part))
      (by omega) (by omega)).mono ?_
        (fun _ _ stops => ⟨placed.trans stops.lays.toPlaced, stops.blocked⟩)
    rintro layout after ⟨lays, recorded⟩
    refine ⟨placed.trans lays.toPlaced, ?_⟩
    intro place bound
    by_cases here : place = index
    · exact ⟨layout, here ▸ recorded⟩
    · obtain ⟨earlier, known⟩ := done place (by omega)
      exact ⟨earlier, lays.grows.keeps place earlier known⟩

end Analysis

end FlatMemory
