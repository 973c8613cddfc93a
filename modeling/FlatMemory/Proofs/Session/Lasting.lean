import FlatMemory.Proofs.Session.Dispatch
import FlatMemory.Proofs.Session.Layout
import FlatMemory.Proofs.Session.Scope

/-! # What nothing later can change

Types are registered and sessions analysed in any order and any number of times, and an analysis
that fails leaves what it has found out.  What is found out of a type rests on types that are
resolved, so nothing that is registered later can change it. -/

namespace FlatMemory

open List Relation

variable {session : Session} {index : Nat}

namespace Session

variable {before after : Session} {below : Nat → Nat → Prop} {type : UserType}
  {view : UserType → UserType}

/-! ### What later sessions find -/

namespace Continues

variable {name : String} {other : UserType}

theorem lookup (continues : Continues before after) {type : TypeRef}
    (known : before.lookup name = some type) : after.lookup name = some type := by
  rcases before.lookup_cases name with ⟨primitive, isPrimitive, found⟩ | ⟨_, unknown, _⟩ |
    ⟨notPrimitive, index, first, found, there, _⟩
  · rw [known] at found
    cases found
    simp [Session.lookup, isPrimitive]
  · rw [known] at unknown
    cases unknown
  · rw [known] at found
    cases found
    simp only [Session.lookup, notPrimitive, Option.map_eq_some_iff] at known ⊢
    obtain ⟨place, isFirst, same⟩ := known
    cases same
    refine ⟨index, ?_, rfl⟩
    obtain ⟨inside, named, earlier⟩ := findIdx?_eq_some_iff_getElem.1 isFirst
    -- At and in front of the first type of the name both sessions have the same declarations.
    have declared : ∀ place (bound : place < before.types.length),
        ∃ there : place < after.types.length,
          after.types[place].declaration = before.types[place].declaration := by
      intro place bound
      obtain ⟨other, found, keeps⟩ := continues place _ (getElem?_eq_getElem bound)
      obtain ⟨inAfter, rfl⟩ := List.getElem?_eq_some_iff.1 found
      exact ⟨inAfter, keeps.declaration⟩
    obtain ⟨inAfter, same⟩ := declared index inside
    refine findIdx?_eq_some_iff_getElem.2 ⟨inAfter, ?_, ?_⟩
    · exact decide_eq_true ((congrArg Declaration.name same).trans (of_decide_eq_true named))
    · intro place lower isNamed
      obtain ⟨_, same⟩ := declared place (lower.trans inside)
      exact earlier place lower (decide_eq_true
        ((congrArg Declaration.name same).symm.trans (of_decide_eq_true isNamed)))

theorem resolveField (continues : Continues before after) {type other : UserType} {field : Field}
    {known : TypeRef} (resolved : before.resolveField type field = .ok known) :
    after.resolveField other field = .ok known := by
  unfold Session.resolveField at resolved ⊢
  cases looked : before.lookup field.typeName with
  | none => simp [looked] at resolved
  | some found =>
    rw [continues.lookup looked]
    rw [looked] at resolved
    by_cases plain : field.qualifier = .plain
    · simpa [plain] using resolved
    · simp only [plain, if_false] at resolved ⊢
      rw [show after.qualified? found = before.qualified? found by cases found <;> rfl]
      cases variant : before.qualified? found field.qualifier with
      | none => simp [variant] at resolved
      | some _ => simpa [variant] using resolved

theorem resolveBase (continues : Continues before after) {base : Nat}
    (resolved : before.resolveBase type name = .ok base) :
    after.resolveBase other name = .ok base := by
  obtain ⟨known, kind⟩ := resolveBase_ok resolved
  obtain ⟨_, found, _⟩ := lookup_user known
  have kindAfter := (continues.kindOf found).trans kind
  simp [Session.resolveBase, continues.lookup known, kindAfter]

theorem resolution (continues : Continues before after)
    (declared : other.declaration = type.declaration) {resolution : Resolution}
    (resolved : before.resolution type = .ok resolution) :
    after.resolution other = .ok resolution := by
  have fields := (resolution_fields resolved).imp fun _ _ =>
    @resolveField before after continues type other _ _
  unfold Session.resolution at resolved ⊢
  obtain ⟨fieldTypes, mapped, resolved⟩ := exists_of_bind_eq_ok resolved
  rw [declared]
  cases asked : type.declaration.baseName? with
  | none =>
    rw [asked] at resolved
    cases resolved
    rw [mapM_eq_ok_of_forall₂ fields]
    rfl
  | some name =>
    rw [asked] at resolved
    obtain ⟨base, baseOk, resolved⟩ := exists_of_bind_eq_ok resolved
    cases resolved
    rw [mapM_eq_ok_of_forall₂ fields]
    change (do return (⟨fieldTypes, some (← after.resolveBase other name)⟩ : Resolution)) = _
    rw [continues.resolveBase baseOk]
    rfl

theorem resolvedType (continues : Continues before after) (keeps : type.Keeps other)
    (resolved : before.ResolvedType type) : after.ResolvedType other := by
  obtain ⟨resolution, known, asked⟩ := resolved
  exact ⟨resolution, keeps.resolution resolution known,
    continues.resolution keeps.declaration asked⟩

end Continues

theorem ResolvedType.shape_eq {other : UserType} (resolved : session.ResolvedType type)
    (keeps : type.Keeps other) : other.shape = type.shape := by
  obtain ⟨resolution, known, _⟩ := resolved
  exact Prod.ext keeps.declaration ((keeps.resolution resolution known).trans known.symm)

theorem Continues.partOf (continues : Continues before after) {inner outer : Nat}
    (found : before.types[outer]? = some type) (resolved : before.ResolvedType type) :
    (after.Extends inner outer → before.Extends inner outer) ∧
      (after.Holds inner outer → before.Holds inner outer) := by
  obtain ⟨other, there, keeps⟩ := continues outer type found
  obtain ⟨declared, linked⟩ := Prod.mk.inj (resolved.shape_eq keeps)
  have base : other.base? = type.base? := by simp only [UserType.base?, linked]
  have fields : other.typedFields = type.typedFields := by
    simp only [UserType.typedFields, declared, linked]
  refine ⟨?_, ?_⟩
  · intro derived
    simpa [Extends, baseAt, found, there, base] using derived
  · rintro ⟨_, same, member⟩
    rw [there] at same
    cases same
    obtain ⟨field, typed, plain, kind⟩ := mem_embedded.1 member
    rw [fields] at typed
    obtain ⟨_, _, same, fieldOk⟩ := resolved.typedFields typed
    cases same
    obtain ⟨_, inBefore, _⟩ := lookup_user (resolveField_user fieldOk)
    exact ⟨type, found, mem_embedded.2
      ⟨field, typed, plain, (continues.kindOf inBefore).symm.trans kind⟩⟩

/-! ### What nothing later can change -/

inductive Firm (session : Session) (below : Nat → Nat → Prop) : Nat → Prop
  | intro {index : Nat} {type : UserType} (found : session.types[index]? = some type)
    (resolved : session.ResolvedType type)
    (parts : ∀ inner, below inner index → Firm session below inner) : Firm session below index

theorem Firm.acc (firm : session.Firm below index) : Acc below index := by
  induction firm with
  | intro _ _ _ ih => exact ⟨_, ih⟩

theorem Firm.resolvedType (firm : session.Firm below index)
    (found : session.types[index]? = some type) : session.ResolvedType type := by
  obtain ⟨same, resolved, _⟩ := firm
  rw [found] at same
  cases same
  exact resolved

theorem Resolved.firm (resolved : Resolved session)
    (parts : ∀ inner outer, below inner outer → session.PartOf inner outer)
    (inside : index < session.types.length) (grounded : Acc below index) :
    session.Firm below index := by
  induction grounded with
  | intro index _ ih =>
    have found := getElem?_eq_getElem inside
    exact .intro found (resolved index _ found) fun inner below =>
      ih inner below (partOf_lt resolved (parts inner index below))

theorem Firm.later {was isBelow : Nat → Nat → Prop} (continues : Continues before after)
    (parts : ∀ inner outer type, before.types[outer]? = some type → before.ResolvedType type →
      isBelow inner outer → was inner outer) (firm : before.Firm was index) :
    after.Firm isBelow index := by
  induction firm with
  | intro found resolved _ ih =>
    obtain ⟨other, there, keeps⟩ := continues _ _ found
    exact .intro there (continues.resolvedType keeps resolved) fun inner below =>
      ih inner (parts inner _ _ found resolved below)

theorem Firm.holds (continues : Continues before after) (firm : before.Firm before.Holds index) :
    after.Firm after.Holds index :=
  firm.later continues fun _ _ _ found resolved => (continues.partOf found resolved).2

theorem Firm.partOf (continues : Continues before after) (firm : before.Firm before.PartOf index) :
    after.Firm after.PartOf index :=
  firm.later continues fun _ _ _ found resolved part =>
    part.imp (continues.partOf found resolved).1 (continues.partOf found resolved).2

/-- What holds of a session after any calls.  A mark that a failed search has left says of a type
that it contains no endless descent, and that stays true. -/
structure Lasting (session : Session) : Prop where
  named : WellNamed session
  resolved : ∀ (index : Nat) (type : UserType), session.types[index]? = some type →
    type.resolution.isSome = true → session.ResolvedType type
  consistent : Consistent session
  laid : ∀ index layout, session.layoutAt index = some layout →
    session.Firm session.PartOf index
  checked : ∀ index, session.markAt index = some .checked → session.Firm session.Holds index

theorem Lasting.later (lasting : Lasting before) (continues : Continues before after)
    (named : WellNamed after)
    (resolved : ∀ (index : Nat) (type : UserType), after.types[index]? = some type →
      type.resolution.isSome = true → after.ResolvedType type)
    (layouts : ∀ index layout, after.layoutAt index = some layout →
      before.layoutAt index = some layout)
    (marks : ∀ index, after.markAt index = some .checked → before.Firm before.Holds index) :
    Lasting after := by
  refine ⟨named, resolved, ?_, ?_, ?_⟩
  · intro index other layout there recorded
    have earlier := layouts index layout ((layoutAt_eq there).trans recorded)
    obtain ⟨type, found, known⟩ := Option.bind_eq_some_iff.1 earlier
    obtain ⟨_, same, keeps⟩ := continues index type found
    rw [there] at same
    cases same
    have shaped := ((lasting.laid index layout earlier).resolvedType found).shape_eq keeps
    exact continues.laid shaped (lasting.consistent index type layout found known)
  · intro index layout recorded
    exact (lasting.laid index layout (layouts index layout recorded)).partOf continues
  · intro index checked
    exact (marks index checked).holds continues

theorem Lasting.agree (lasting : Lasting before) (same : Agree view after before)
    (shape : ∀ type, (view type).shape = type.shape)
    (layout : ∀ type, (view type).layout = type.layout)
    (marks : ∀ index, after.markAt index = some .checked → before.Firm before.Holds index) :
    Lasting after ∧ Continues before after := by
  have shapes : Agree UserType.shape after before := same.coarsen _ shape
  have layouts : Agree UserType.layout after before := same.coarsen _ layout
  have grows : Grows before after :=
    ⟨shapes, fun index known recorded => by rw [layouts.layoutAt, recorded]⟩
  have continues := grows.continues
  refine ⟨lasting.later continues (lasting.named.agree shapes.declaration.symm) ?_ ?_ marks,
    continues⟩
  · intro index other there known
    obtain ⟨type, found, shaped⟩ := shapes.counterpart there
    obtain ⟨_, linked⟩ := Prod.mk.inj shaped
    obtain ⟨_, again, keeps⟩ := continues index type found
    rw [there] at again
    cases again
    exact continues.resolvedType keeps (lasting.resolved index type found (linked ▸ known))
  · intro index known recorded
    rw [← layouts.layoutAt]
    exact recorded

/-! ### What an analysis leaves to the next one -/

def BareStructs (session : Session) : Prop :=
  ∀ type ∈ session.types, type.isClass = false → type.tag = none ∧ type.dispatchers = []

theorem BareStructs.agree (bare : BareStructs before)
    (same : Agree (fun type => (type.isClass, type.tag, type.dispatchers)) after before) :
    BareStructs after := by
  intro type member notClass
  obtain ⟨index, found⟩ := mem_iff_getElem?.1 member
  obtain ⟨other, there, shown⟩ := same.counterpart found
  simp only [Prod.mk.injEq] at shown
  obtain ⟨kind, tag, dispatchers⟩ := shown
  have := bare other (mem_of_getElem? there) (kind.trans notClass)
  exact ⟨tag ▸ this.1, dispatchers ▸ this.2⟩

def Clear (session : Session) (index : Nat) : Prop :=
  ∀ (owner : Nat) (type ownerType : UserType), session.types[index]? = some type →
    TransGen (fun lower upper => session.baseAt lower = some upper) index owner →
    session.types[owner]? = some ownerType →
    ∀ field ∈ type.declaration.fields, ownerType.declaration.hasMethod field.name = false

theorem Clear.agree {first second : Session} (clear : first.Clear index)
    (shape : Agree UserType.shape second first) : second.Clear index := by
  intro owner type ownerType found above there field member
  obtain ⟨before, inFirst, shaped⟩ := shape.counterpart found
  obtain ⟨ownerBefore, ownerFirst, ownerShaped⟩ := shape.counterpart there
  simp only [shape.baseAt] at above
  rw [← (Prod.mk.inj ownerShaped).1]
  exact clear owner before ownerBefore inFirst above ownerFirst field
    ((Prod.mk.inj shaped).1 ▸ member)

/-- Without cycles, what stands above a class is its ancestry. -/
theorem Wellformed.unhidden_iff (wellformed : Wellformed session) (index : Nat) :
    session.Unhidden index ↔ session.Clear index := by
  have mem : ∀ owner type, session.types[index]? = some type →
      (TransGen (fun lower upper => session.baseAt lower = some upper) index owner ↔
        owner ∈ ((type.base?.map session.ancestry).getD [])) := by
    intro owner type found
    rw [TransGen.head'_iff, show session.baseAt index = type.base? by simp [baseAt, found]]
    cases derived : type.base? with
    | none => simp
    | some base =>
      have baseInside : base < session.types.length :=
        wellformed.resolved.baseAt_lt (show session.baseAt index = some base by
          simp [baseAt, found, derived])
      simp [wellformed.mem_ancestry baseInside, Inherits]
  unfold Unhidden Clear
  simp only [methodOwner_eq_none_iff, typesAt, mem_map, mem_filterMap]
  constructor
  · intro free owner type ownerType found above there field member
    exact free type found field member _ ⟨ownerType, ⟨owner, (mem owner type found).1 above, there⟩,
      rfl⟩
  · rintro free type found field member _ ⟨ownerType, ⟨owner, above, there⟩, rfl⟩
    exact free owner type ownerType found ((mem owner type found).2 above) there field member

theorem Firm.above (continues : Continues before after) {owner : Nat}
    (firm : before.Firm before.PartOf index)
    (above : TransGen (fun lower upper => after.baseAt lower = some upper) index owner) :
    TransGen (fun lower upper => before.baseAt lower = some upper) index owner ∧
      before.Firm before.PartOf owner := by
  have step : ∀ lower upper, before.Firm before.PartOf lower → after.baseAt lower = some upper →
      before.baseAt lower = some upper ∧ before.Firm before.PartOf upper := by
    rintro lower upper ⟨found, resolved, parts⟩ derived
    have earlier := (continues.partOf found resolved).1 derived
    exact ⟨earlier, parts upper (.inl earlier)⟩
  induction above with
  | single derived =>
    obtain ⟨earlier, upper⟩ := step index _ firm derived
    exact ⟨.single earlier, upper⟩
  | tail _ derived ih =>
    obtain ⟨earlier, upper⟩ := step _ _ ih.2 derived
    exact ⟨ih.1.tail earlier, upper⟩

theorem Clear.later (clear : before.Clear index) (firm : before.Firm before.PartOf index)
    (continues : Continues before after) :
    after.Clear index := by
  intro owner type ownerType found above there field member
  obtain ⟨earlierAbove, ownerFirm⟩ := firm.above continues above
  obtain ⟨inBefore, _, _⟩ := firm
  obtain ⟨_, same, keeps⟩ := continues index _ inBefore
  rw [found] at same
  cases same
  obtain ⟨ownerFound, _, _⟩ := ownerFirm
  obtain ⟨_, same, ownerKeeps⟩ := continues owner _ ownerFound
  rw [there] at same
  cases same
  rw [ownerKeeps.declaration]
  exact clear owner _ _ inBefore earlierAbove ownerFound field (keeps.declaration ▸ member)

def LaidClear (session : Session) : Prop :=
  ∀ index layout, session.layoutAt index = some layout → session.Clear index

theorem LaidClear.later (clear : LaidClear before) (lasting : Lasting before)
    (continues : Continues before after)
    (layouts : ∀ index layout, after.layoutAt index = some layout →
      before.layoutAt index = some layout) : LaidClear after := by
  intro index layout recorded
  have earlier := layouts index layout recorded
  exact (clear index layout earlier).later (lasting.laid index layout earlier) continues

theorem LaidClear.agree (clear : LaidClear before) (shape : Agree UserType.shape after before)
    (layouts : Agree UserType.layout after before) :
    LaidClear after := by
  intro index layout recorded
  rw [layouts.layoutAt] at recorded
  exact (clear index layout recorded).agree shape

theorem LaidClear.placed (clear : LaidClear before) (wellformed : Wellformed before)
    (placed : Analysis.Placed before after) : LaidClear after := by
  have shape := placed.grows.shape
  intro index layout recorded
  rcases placed.unhidden index layout recorded with earlier | unhidden
  · exact (clear index layout earlier).agree shape
  · exact ((wellformed.agree shape.symm).unhidden_iff index).1 unhidden

def ClassesBelow (session : Session) : Prop :=
  ∀ type ∈ session.types, ∀ sub ∈ type.subclasses, ∃ subType,
    session.types[sub]? = some subType ∧ subType.isClass = true

/-- What holds of a session after any calls. -/
structure Standing (session : Session) : Prop extends Lasting session where
  clear : LaidClear session
  bare : BareStructs session
  classes : ClassesBelow session

theorem ClassesBelow.checkSubtree (classes : ClassesBelow session)
    (found : session.types[index]? = some type) (isClass : type.isClass = true)
    (failure : Failure) :
    session.checkSubtree index ≠ .error failure := by
  have below : ∀ depth index type, session.types[index]? = some type → type.isClass = true →
      ∀ sub ∈ session.subtreeUpTo depth index, ∃ subType,
        session.types[sub]? = some subType ∧ subType.isClass = true := by
    intro depth
    induction depth with
    | zero => intro index type _ _ sub member; cases member
    | succ depth ih =>
      intro index type found isClass sub member
      rw [subtreeUpTo, found, Option.map_some, Option.getD_some, mem_cons] at member
      rcases member with rfl | member
      · exact ⟨type, found, isClass⟩
      · obtain ⟨lower, isLower, member⟩ := mem_flatMap.1 member
        obtain ⟨lowerType, there, lowerClass⟩ :=
          classes type (mem_of_getElem? found) lower isLower
        exact ih lower lowerType there lowerClass sub member
  intro failed
  obtain ⟨sub, member, failed⟩ := exists_of_forM_eq_error failed
  obtain ⟨subType, there, subClass⟩ := below _ index type found isClass sub member
  rw [show session.userAt sub = .ok subType by rw [Session.userAt, there]] at failed
  change (if subType.isClass then _ else _) = _ at failed
  rw [if_pos subClass] at failed
  cases failed

theorem isClass_of_declaredBase {sub base : Nat} (derived : session.declaredBase sub = some base) :
    ∃ type, session.types[sub]? = some type ∧ type.isClass = true := by
  unfold declaredBase at derived
  split at derived
  · next resolution asked =>
    obtain ⟨type, found, resolved⟩ := Option.map_eq_some_iff.1 asked
    obtain ⟨name, named, _⟩ := resolution_base resolved derived
    exact ⟨type, found, Declaration.isClass_of_baseName named⟩
  · cases derived

/-! ### How far resolution comes -/

/-- How many types an analysis resolves: those in front of the first with a name that is not
known. -/
def reach (session : Session) : Nat :=
  (session.types.takeWhile fun type => (session.resolution type).isOk).length

theorem resolution_of_reach (early : index < session.reach) :
    ∃ type resolution, session.types[index]? = some type ∧
      session.resolution type = .ok resolution := by
  have isPrefix := takeWhile_prefix (l := session.types)
    fun type => (session.resolution type).isOk
  have inside : index < session.types.length := Nat.lt_of_lt_of_le early isPrefix.length_le
  have found := getElem?_eq_getElem inside
  have known : (session.resolution session.types[index]).isOk = true := by
    have same := isPrefix.getElem early
    have holds := mem_takeWhile_imp (getElem_mem early)
    rwa [same] at holds
  cases asked : session.resolution session.types[index] with
  | ok resolution => exact ⟨_, resolution, found, asked⟩
  | error failure => simp [asked, Except.isOk, Except.toBool] at known

theorem reach_eq {count : Nat} (inside : count ≤ session.types.length)
    (known : ∀ (index : Nat) (type : UserType), index < count →
      session.types[index]? = some type → ∃ resolution, session.resolution type = .ok resolution)
    (stops : ∀ type, session.types[count]? = some type →
      ∃ failure, session.resolution type = .error failure) : session.reach = count := by
  have front : ∀ type ∈ session.types.take count, (session.resolution type).isOk = true := by
    intro type member
    obtain ⟨index, found⟩ := mem_iff_getElem?.1 member
    rw [getElem?_take] at found
    split at found
    · next early =>
      obtain ⟨resolution, asked⟩ := known index type early found
      rw [asked]
      rfl
    · cases found
  have back : (session.types.drop count).takeWhile
      (fun type => (session.resolution type).isOk) = [] := by
    cases rest : session.types.drop count with
    | nil => rfl
    | cons type later =>
      have found : session.types[count]? = some type := by
        rw [← head?_drop, rest, head?_cons]
      obtain ⟨failure, asked⟩ := stops type found
      simp [asked, Except.isOk, Except.toBool]
  unfold reach
  rw [← take_append_drop count session.types, takeWhile_append_of_pos front, back,
    append_nil, length_take, Nat.min_eq_left inside]

def Grown (start after : Session) : Prop :=
  ∀ (index : Nat) (before type : UserType), start.types[index]? = some before →
    after.types[index]? = some type → type.subclasses = before.subclasses ++
      (List.range start.reach).filter fun sub => start.declaredBase sub = some index

theorem Grown.agree {start middle : Session} (grown : Grown start middle)
    (same : Agree UserType.subclasses after middle) : Grown start after := by
  intro index before type inStart found
  obtain ⟨other, there, shown⟩ := same.counterpart found
  rw [← shown]
  exact grown index before other inStart there

end Session

namespace Analysis

open Session

variable {start reached : Session} {count : Nat}

section

variable (kept : ResolvedUpTo start count reached)

include kept

theorem ResolvedUpTo.continues (lasting : Lasting start) : Continues start reached := by
  intro index type found
  obtain ⟨other, there, same⟩ := kept.rest.symm.counterpart found
  have declared : other.declaration = type.declaration :=
    (congrArg UserType.declaration same :)
  refine ⟨other, there, declared, ?_, ?_⟩
  · intro resolution known
    by_cases early : index < count
    · obtain ⟨again, isAgain, asked⟩ := kept.resolved index other early there
      obtain ⟨_, isKnown, first⟩ := lasting.resolved index type found (by simp [known])
      rw [known] at isKnown
      cases isKnown
      rw [(Agree.refl _ start).resolution declared, asked] at first
      cases first
      exact isAgain
    · rw [kept.later index type other (by omega) found there]
      exact known
  · intro layout known
    exact (congrArg UserType.layout same :).trans known

theorem ResolvedUpTo.lasting (lasting : Lasting start) : Lasting reached := by
  have continues := kept.continues lasting
  have layouts : Agree UserType.layout reached start := kept.rest.coarsen _ fun _ => rfl
  have marks : Agree UserType.mark reached start := kept.rest.coarsen _ fun _ => rfl
  refine lasting.later continues (lasting.named.agree kept.declaration.symm) ?_ ?_ ?_
  · intro index other there known
    by_cases early : index < count
    · obtain ⟨resolution, isKnown, asked⟩ := kept.resolved index other early there
      refine ⟨resolution, isKnown, ?_⟩
      rw [← asked]
      exact kept.declaration.resolution rfl
    · obtain ⟨type, found, _⟩ := kept.declaration.counterpart there
      obtain ⟨_, again, keeps⟩ := continues index type found
      rw [there] at again
      cases again
      rw [kept.later index type other (by omega) found there] at known
      exact continues.resolvedType keeps (lasting.resolved index type found known)
  · intro index layout recorded
    rw [← layouts.layoutAt]
    exact recorded
  · intro index checked
    exact lasting.checked index (marks.markAt index ▸ checked)

omit kept in
theorem Placed.lasting (placed : Placed start reached) (lasting : Lasting start)
    (wellformed : Wellformed start) : Lasting reached := by
  have after := wellformed.agree placed.grows.shape.symm
  have marks : Agree UserType.mark reached start := placed.rest.coarsen _ fun _ => rfl
  refine ⟨lasting.named.agree placed.grows.shape.declaration.symm,
    fun index type found _ => after.resolved index type found, placed.consistent, ?_, ?_⟩
  · intro index layout recorded
    obtain ⟨type, found, _⟩ := Option.bind_eq_some_iff.1 recorded
    have inside := lt_of_getElem? found
    exact after.resolved.firm (fun _ _ part => part) inside (after.grounded index inside)
  · intro index checked
    exact (lasting.checked index (marks.markAt index ▸ checked)).holds placed.grows.continues

/-- A stage that resolves so many types stops at the type after them, if there is one. -/
theorem ResolvedUpTo.grown (inside : count ≤ start.types.length)
    (stops : ∀ type, reached.types[count]? = some type →
      ∃ failure, reached.resolution type = .error failure) :
    start.reach = count ∧ Grown start reached := by
  have isReach : start.reach = count := by
    refine reach_eq inside ?_ ?_
    · intro index type early found
      obtain ⟨other, there, same⟩ := kept.declaration.symm.counterpart found
      obtain ⟨resolution, _, asked⟩ := kept.resolved index other early there
      exact ⟨resolution, by rw [← asked]; exact (Agree.refl _ start).resolution same⟩
    · intro type found
      obtain ⟨other, there, same⟩ := kept.declaration.symm.counterpart found
      obtain ⟨failure, failed⟩ := stops other there
      exact ⟨failure, by rw [← failed]; exact kept.declaration.symm.resolution same⟩
  refine ⟨isReach, ?_⟩
  intro index before type inStart found
  rw [isReach]
  exact kept.subclasses index before type inStart found

theorem ResolvedUpTo.clear (lasting : Lasting start) (clear : LaidClear start) :
    LaidClear reached := by
  have layouts : Agree UserType.layout reached start := kept.rest.coarsen _ fun _ => rfl
  refine clear.later lasting (kept.continues lasting) fun index layout recorded => ?_
  rwa [layouts.layoutAt] at recorded

end

end Analysis

end FlatMemory
