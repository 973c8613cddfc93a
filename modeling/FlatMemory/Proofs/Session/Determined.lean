import FlatMemory.Proofs.Session.Order

/-! # What declarations determine

Registration order and declarations leave nothing open: two analysed sessions of the same
declarations in the same order, without marks, are one session. -/

namespace FlatMemory

open List

theorem Primitive.ofName?_name (type : Primitive) : ofName? type.name = some type := by
  rcases type with (kind | _ | _) | kind | kind | kind <;> first | rfl | cases kind <;> rfl

/-- Every entry names its type. -/
theorem Scope.Lays.typed {scope : Scope} {declaration : Declaration} {count : Nat} {plan : Plan}
    (lays : scope.Lays declaration count plan) :
    ∀ entry ∈ plan.entries, entry.typeName.isSome = true := by
  induction lays with
  | @root declaration _ => cases kind : declaration.isClass <;> simp [Plan.start]
  | derived _ _ ih => exact ih
  | @field declaration count plan inner field referent _ _ _ _ ih ihWithin =>
    unfold Plan.add
    split
    · simpa [Plan.place, or_imp, forall_and, Entry.behind] using ih
    · next value =>
      simp only [not_or, Bool.not_eq_true] at value
      cases referent with
      | primitive type => simpa [Plan.place, or_imp, forall_and, Entry.behind] using ih
      | user struct =>
        have within := ihWithin struct rfl value.1 value.2
        simpa [Plan.place, or_imp, forall_and, Entry.behind, Entry.under, Plan.finished] using
          ⟨ih, within⟩

namespace Session

variable {first second : Session}

theorem Agree.refine {α β : Type} {view : UserType → α} {finer : UserType → β}
    (same : Agree view first second)
    (shown : ∀ (index : Nat) (type other : UserType), first.types[index]? = some type →
      second.types[index]? = some other → view other = view type → finer type = finer other) :
    Agree finer first second := by
  apply ext_getElem?
  intro index
  rw [getElem?_map, getElem?_map]
  cases found : first.types[index]? with
  | none =>
    have absent := same.getElem? index
    rw [found] at absent
    rw [Option.map_eq_none_iff.1 absent.symm, Option.map_none]
  | some type =>
    obtain ⟨other, there, seen⟩ := same.counterpart found
    rw [there, Option.map_some, Option.map_some, shown index type other found there seen]

/-! ### Layouts -/

theorem WellNamed.lookup_typeName (named : WellNamed first) {reference : TypeRef} {name : String}
    (shown : first.typeName? reference = some name) : first.lookup name = some reference := by
  cases reference with
  | primitive type =>
    cases shown
    rw [Session.lookup, Primitive.ofName?_name]
  | user index =>
    obtain ⟨type, found, rfl⟩ := Option.map_eq_some_iff.1 shown
    exact named.lookup found

/-- An entry that names its type leaves no choice of a slot. -/
theorem WellNamed.slots_unique (named : WellNamed first)
    (declared : Agree UserType.declaration first second) {slots others : List Slot}
    (typed : ∀ entry ∈ slots.map first.entry, entry.typeName.isSome = true)
    (same : slots.map first.entry = others.map second.entry) : slots = others := by
  induction slots generalizing others with
  | nil => exact (map_eq_nil_iff.1 same.symm).symm
  | cons slot slots ih =>
    obtain ⟨other, others, rfl, one, rest⟩ := map_eq_cons_iff.1 same.symm
    obtain ⟨isTyped, typed⟩ := forall_mem_cons.1 typed
    obtain ⟨name, shown⟩ := Option.isSome_iff_exists.1 isTyped
    have otherShown : second.typeName? other.type = some name :=
      (congrArg Entry.typeName one).trans shown
    have type : slot.type = other.type := by
      have known := named.lookup_typeName shown
      rw [declared.lookup, (named.agree declared).lookup_typeName otherShown] at known
      exact (Option.some.inj known).symm
    obtain ⟨path, direct, offset, _, isArray⟩ := Entry.mk.inj one
    rw [ih typed rest.symm]
    congr 1
    calc slot = ⟨slot.path, slot.direct, slot.offset, slot.type, slot.isArray⟩ := rfl
      _ = other := by rw [← path, ← direct, ← offset, type, ← isArray]

theorem Resolved.unique (one : Resolved first) (two : Resolved second)
    (declared : Agree UserType.declaration first second) : Agree UserType.shape first second := by
  refine declared.refine fun index type other found there same => ?_
  obtain ⟨resolution, known, asked⟩ := one index type found
  obtain ⟨_, otherKnown, again⟩ := two index other there
  rw [← declared.resolution same, asked] at again
  cases again
  exact Prod.ext same.symm (known.trans otherKnown.symm)

theorem Reordered.layout_unique (reordered : Reordered first second)
    (declared : Agree UserType.declaration first second) {index : Nat} {type other : UserType}
    (twin : Twin first second index index type other) : type.layout = other.layout := by
  obtain ⟨layout, recorded, _, lays, whole⟩ :=
    reordered.analysed.plans reordered.named twin.found
  obtain ⟨otherLayout, otherRecorded, _⟩ :=
    reordered.otherAnalysed.plans reordered.otherNamed twin.there
  have typed : ∀ entry ∈ layout.slots.map first.entry, entry.typeName.isSome = true := by
    have entries : layout.slots.map first.entry = _ := congrArg Plan.entries whole
    rw [entries, Plan.finished]
    split <;> exact lays.typed
  obtain ⟨size, align, entries⟩ := reordered.layout_twin twin
  simp only [UserType.size, UserType.align, UserType.slots, recorded, otherRecorded,
    Option.map_some, Option.getD_some] at size align entries
  have slots := reordered.named.slots_unique declared typed entries
  rw [recorded, otherRecorded]
  calc some layout = some ⟨layout.size, layout.align, layout.slots⟩ := rfl
    _ = some otherLayout := by rw [size, align, slots]

section

variable (one : Analysed first) (two : Analysed second)

include one two

theorem eq_of_undispatched (same : Agree UserType.undispatched first second) : first = second := by
  have types : Agree id first second := by
    refine same.refine fun index type other found there shown => ?_
    have shaped : type.undispatched.shape = other.undispatched.shape :=
      congrArg UserType.shape shown.symm
    have isClass : type.isClass = other.isClass :=
      congrArg Declaration.isClass (congrArg Prod.fst shaped)
    have dispatchers : type.dispatchers = other.dispatchers := by
      cases kind : type.isClass with
      | false =>
        rw [(one.structs index type found kind).2,
          (two.structs index other there (isClass.symm.trans kind)).2]
      | true =>
        rw [one.dispatched index type found kind,
          two.dispatched index other there (isClass.symm.trans kind)]
        exact same.dispatchers shaped index
    calc type = { type.undispatched with dispatchers := type.dispatchers } := rfl
      _ = { other.undispatched with dispatchers := other.dispatchers } := by
        rw [shown, dispatchers]
  unfold Agree at types
  rw [map_id, map_id] at types
  exact congrArg Session.mk types

/-- Analysed sessions of the same declarations, in one order and without marks, are one. -/
theorem Analysed.unique (named : WellNamed first)
    (declared : Agree UserType.declaration first second)
    (unmarked : ∀ type ∈ first.types, type.mark = .unvisited)
    (otherUnmarked : ∀ type ∈ second.types, type.mark = .unvisited) : first = second := by
  have reordered : Reordered first second :=
    ⟨one, named, two, named.agree declared, declared.scope⟩
  have shape := one.wellformed.resolved.unique two.wellformed.resolved declared
  refine eq_of_undispatched one two (shape.refine fun index type other found there shaped => ?_)
  obtain ⟨sameDeclaration, sameResolution⟩ := Prod.mk.inj shaped
  have twin : Twin first second index index type other := ⟨found, there, sameDeclaration.symm⟩
  have subclasses : type.subclasses = other.subclasses := by
    rw [one.linked index type found, two.linked index other there, shape.length]
    simp only [shape.baseAt]
  have marks : type.mark = other.mark :=
    (unmarked type (mem_of_getElem? found)).trans
      (otherUnmarked other (mem_of_getElem? there)).symm
  simp only [UserType.undispatched, sameDeclaration, sameResolution, subclasses, marks,
    reordered.layout_unique declared twin, reordered.tag_twin twin]

end

end Session

end FlatMemory
