import FlatMemory.Proofs.Session.Resolution
import FlatMemory.Session.ClassTag

/-! # Tagged sessions

Every class is tagged with the hash of its qualified name, and no two tags have one id: a class
whose id is claimed already is refused. -/

namespace FlatMemory

open List

namespace UserType

def untagged (type : UserType) : UserType := { type with tag := none }

end UserType

namespace Session

variable {session : Session} {index id : Nat} {type : UserType}

def tagAt (session : Session) (index : Nat) : Option ClassTag :=
  (session.types[index]?).bind UserType.tag

theorem tagAt_eq (found : session.types[index]? = some type) : session.tagAt index = type.tag := by
  simp [tagAt, found]

theorem Agree.qualifiedName {first second : Session} (same : Agree UserType.shape first second)
    (index : Nat) : first.qualifiedName index = second.qualifiedName index := by
  have names : ∀ indices, (first.typesAt indices).map UserType.name
      = (second.typesAt indices).map UserType.name := by
    intro indices
    have mapped := congrArg (List.map fun shape => shape.1.name) (same.typesAt indices)
    rw [map_map, map_map] at mapped
    exact mapped
  rw [Session.qualifiedName, Session.qualifiedName, same.ancestry, names]

theorem tagAt_of_unowned {place : Nat} {tag : ClassTag} (unowned : session.ownerOf? id = none)
    (tagged : session.tagAt place = some tag) : tag.id ≠ id := by
  obtain ⟨type, found, tagged⟩ := Option.bind_eq_some_iff.1 tagged
  have absent := findIdx?_eq_none_iff.1 unowned type (mem_of_getElem? found)
  simpa [tagged] using absent

theorem tagAt_of_owner {owner : Nat} (owned : session.ownerOf? id = some owner) :
    ∃ tag, session.tagAt owner = some tag ∧ tag.id = id := by
  obtain ⟨inside, has, _⟩ := findIdx?_eq_some_iff_getElem.1 owned
  rw [Option.any_eq_true] at has
  obtain ⟨tag, tagged, same⟩ := has
  exact ⟨tag, by rw [tagAt_eq (getElem?_eq_getElem inside), tagged], by simpa using same⟩

theorem tagFor_ok {tag : ClassTag} (given : session.tagFor index type = .ok tag) :
    tag.name = session.qualifiedName index ∧ ClassTag.hash? tag.name = some tag.id ∧
      ∀ place other, place < index → session.tagAt place = some other → other.id ≠ tag.id := by
  unfold tagFor at given
  dsimp only at given
  cases hashed : ClassTag.hash? (session.qualifiedName index) with
  | none => simp [hashed] at given
  | some id =>
    cases owned : session.ownerOf? id with
    | none =>
      simp only [hashed, owned, Except.ok.injEq] at given
      subst given
      exact ⟨rfl, hashed, fun place other _ isOther => tagAt_of_unowned owned isOther⟩
    | some owner =>
      by_cases here : owner = index
      · simp only [hashed, owned, here, if_true, Except.ok.injEq] at given
        subst given here
        refine ⟨rfl, hashed, ?_⟩
        -- The owner is the first type with the id.
        intro place other early isOther same
        obtain ⟨otherType, found, isTag⟩ := Option.bind_eq_some_iff.1 isOther
        obtain ⟨inside, _, first⟩ := findIdx?_eq_some_iff_getElem.1 owned
        obtain ⟨placeInside, rfl⟩ := List.getElem?_eq_some_iff.1 found
        exact first place early (by simp [isTag, same])
      · simp only [hashed, owned, here, if_false] at given
        obtain ⟨_, _, failed⟩ := exists_of_bind_eq_ok given
        cases failed

theorem tagFor_isFault {failure : Failure} (failed : session.tagFor index type = .error failure) :
    failure.IsFault := by
  unfold tagFor at failed
  dsimp only at failed
  split at failed
  · cases failed
    trivial
  · split at failed
    · cases failed
    · next owner owned =>
      split at failed
      · cases failed
      · obtain ⟨inside, _, _⟩ := findIdx?_eq_some_iff_getElem.1 owned
        rcases exists_of_bind_eq_error failed with absent | ⟨_, _, failed⟩
        · simp [userAt, getElem?_eq_getElem inside] at absent
        · cases failed
          trivial

def TagsDistinct (session : Session) : Prop :=
  ∀ first second one other, session.tagAt first = some one → session.tagAt second = some other →
    one.id = other.id → first = second

end Session

namespace Analysis

variable {start reached : Session} {count : Nat}

open Session

structure RetaggedUpTo (start : Session) (count : Nat) (reached : Session) : Prop where
  rest : Agree UserType.untagged reached start
  tagged : ∀ index type, index < count → reached.types[index]? = some type →
    type.isClass = true → ∃ tag, type.tag = some tag ∧
      tag.name = start.qualifiedName index ∧ ClassTag.hash? tag.name = some tag.id
  later : ∀ index, count ≤ index → reached.tagAt index = start.tagAt index
  classes : ∀ (index : Nat) (type : UserType), reached.types[index]? = some type →
    type.tag.isSome = true → type.isClass = true
  distinct : ∀ first second one other, first < second → second < count →
    reached.tagAt first = some one → reached.tagAt second = some other → one.id ≠ other.id

theorem RetaggedUpTo.shape (kept : RetaggedUpTo start count reached) :
    Agree UserType.shape reached start :=
  kept.rest.coarsen _ fun _ => rfl

theorem RetaggedUpTo.tag {index : Nat} {type : UserType} {tag : ClassTag}
    (kept : RetaggedUpTo start index reached) (found : reached.types[index]? = some type)
    (isClass : type.isClass = true) (given : reached.tagFor index type = .ok tag) :
    RetaggedUpTo start (index + 1)
      (reached.modifyAt index fun type => { type with tag := some tag }) := by
  obtain ⟨named, hashed, unused⟩ := tagFor_ok given
  have tags : ∀ place,
      (reached.modifyAt index fun type => { type with tag := some tag }).tagAt place =
        if index = place then some tag else reached.tagAt place := by
    intro place
    unfold tagAt
    rw [modifyAt_getElem?]
    by_cases here : index = place
    · subst here
      simp [found]
    · simp [here]
  refine ⟨(Agree.modifyAt reached index fun _ => by rfl).trans kept.rest, ?_, ?_, ?_, ?_⟩
  · intro place changed bound there isClass
    by_cases here : index = place
    · subst here
      have shown := tags index
      rw [tagAt_eq there, if_pos rfl] at shown
      exact ⟨tag, shown, by rw [named, kept.shape.qualifiedName], hashed⟩
    · rw [modifyAt_getElem?] at there
      obtain ⟨earlier, inReached, same⟩ := Option.map_eq_some_iff.1 there
      simp only [here, if_false] at same
      subst same
      exact kept.tagged place earlier (by omega) inReached isClass
  · intro place bound
    rw [tags, if_neg (by omega)]
    exact kept.later place (by omega)
  · intro place changed there isTagged
    rw [modifyAt_getElem?] at there
    obtain ⟨earlier, inReached, rfl⟩ := Option.map_eq_some_iff.1 there
    by_cases here : index = place
    · subst here
      rw [found] at inReached
      cases inReached
      rw [if_pos rfl]
      exact isClass
    · simp only [here, if_false] at isTagged ⊢
      exact kept.classes place earlier inReached isTagged
  · intro first second one other before bound isOne isOther
    rw [tags, if_neg (by omega)] at isOne
    rw [tags] at isOther
    by_cases here : index = second
    · rw [if_pos here] at isOther
      cases isOther
      exact unused first one (by omega) isOne
    · rw [if_neg here] at isOther
      exact kept.distinct first second one other before (by omega) isOne isOther

def RetaggingStops (start : Session) (failure : Failure) (reached : Session) : Prop :=
  ∃ index type, RetaggedUpTo start index reached ∧ reached.types[index]? = some type ∧
    type.isClass = true ∧ reached.tagFor index type = .error failure

/-- The stage tags every class with the hash of its qualified name, all of them different. -/
theorem ends_assignTags_again
    (classes : ∀ (index : Nat) (type : UserType), start.types[index]? = some type →
      type.tag.isSome = true → type.isClass = true) :
    Ends assignTags start (fun _ => RetaggedUpTo start start.types.length)
      (RetaggingStops start) := by
  refine ends_forTypes (RetaggedUpTo start) ?_ rfl ?_ ?_
  · exact ⟨Agree.refl _ _, fun index type bound => absurd bound (by omega), fun _ _ => rfl,
      classes, fun first second one other _ bound => absurd bound (by omega)⟩
  · intro count reached kept
    exact kept.rest.length
  · intro index type reached _ kept found
    by_cases isClass : type.isClass = true
    · simp only [isClass, Bool.not_true, Bool.false_eq_true, if_false, ends_bind]
      refine ends_ask ?_ fun failure failed => ⟨index, type, kept, found, isClass, failed⟩
      intro tag given
      exact kept.tag found isClass given
    · simp only [isClass, Bool.not_false, if_true, ends_pure]
      refine ⟨kept.rest, ?_, fun place bound => kept.later place (by omega), kept.classes, ?_⟩
      · intro place other bound there otherClass
        by_cases here : place = index
        · rw [here, found] at there
          cases there
          contradiction
        · exact kept.tagged place other (by omega) there otherClass
      · intro first second one other before bound isOne isOther
        by_cases here : second = index
        · rw [here, tagAt_eq found] at isOther
          exact absurd (kept.classes index type found (by simp [isOther])) isClass
        · exact kept.distinct first second one other before (by omega) isOne isOther

theorem RetaggedUpTo.distinct_all (kept : RetaggedUpTo start count reached)
    (all : ∀ index tag, reached.tagAt index = some tag → index < count) : TagsDistinct reached := by
  intro first second one other isOne isOther same
  rcases Nat.lt_trichotomy first second with lower | equal | higher
  · exact absurd same
      (kept.distinct first second one other lower (all second other isOther) isOne isOther)
  · exact equal
  · exact absurd same.symm
      (kept.distinct second first other one higher (all first one isOne) isOther isOne)

end Analysis

end FlatMemory
