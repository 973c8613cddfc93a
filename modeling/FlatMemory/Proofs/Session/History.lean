import FlatMemory.Proofs.Session.Analysis
import FlatMemory.Proofs.Session.Reference

/-! # Sessions with a history

Types are registered and sessions analysed in any order and any number of times.  A recorded layout
is the one that the declarations ask for, whatever happened before it was recorded and whatever
happens after. -/

namespace FlatMemory

open List

variable {session : Session} {index : Nat}

/-! ### Calls -/

inductive Call where
  | register (declaration : Declaration)
  | analyze

namespace Session

/-- The session after a call.  A registration that fails changes nothing, an analysis that fails
leaves what it has found out. -/
def call (session : Session) : Call → Session
  | .register declaration =>
    match session.register declaration with
    | .ok (_, registered) => registered
    | .error _ => session
  | .analyze => session.analyze.2

def after (calls : List Call) : Session := calls.foldl call empty

theorem Standing.empty : Standing empty :=
  (registerAll_ok rfl : Registers [] Session.empty).standing.1

variable {registered : Session} {declaration : Declaration} {type : TypeRef}

theorem register_cases (registers : session.register declaration = .ok (type, registered))
    (index : Nat) (other : UserType) (found : registered.types[index]? = some other) :
    session.types[index]? = some other ∨
      session.types.length ≤ index ∧ other = UserType.ofDeclaration declaration := by
  rw [(register_ok registers).2] at found
  rcases Nat.lt_or_ge index session.types.length with old | new
  · rw [getElem?_append_left old] at found
    exact .inl found
  · rw [getElem?_append_right new] at found
    exact .inr ⟨new, mem_singleton.1 (mem_of_getElem? found)⟩

theorem Standing.register (standing : Standing session)
    (registers : session.register declaration = .ok (type, registered)) :
    Standing registered ∧ Continues session registered := by
  have cases := register_cases registers
  obtain ⟨unknown, types⟩ := register_ok registers
  obtain ⟨notPrimitive, unused⟩ := lookup_eq_none_iff.1 unknown
  have continues : Continues session registered := by
    intro index type found
    refine ⟨type, ?_, rfl, fun _ known => known, fun _ known => known⟩
    rw [types, getElem?_append_left (lt_of_getElem? found)]
    exact found
  have layouts : ∀ index layout, registered.layoutAt index = some layout →
      session.layoutAt index = some layout := by
    intro index layout recorded
    obtain ⟨other, found, known⟩ := Option.bind_eq_some_iff.1 recorded
    rcases cases index other found with earlier | ⟨_, rfl⟩
    · exact (layoutAt_eq earlier).trans known
    · cases known
  refine ⟨⟨standing.later continues ⟨?_, ?_⟩ ?_ layouts ?_,
    standing.clear.later standing.toLasting continues layouts, ?_, ?_⟩, continues⟩
  · rw [types, map_append, nodup_append]
    refine ⟨standing.named.distinct, nodup_singleton _, ?_⟩
    rintro name member _ new rfl
    obtain ⟨earlier, isEarlier, named⟩ := mem_map.1 member
    rw [map_singleton, mem_singleton] at new
    exact unused earlier isEarlier (named.trans new)
  · intro other member
    rw [types] at member
    rcases mem_append.1 member with member | new
    · exact standing.named.notPrimitive other member
    · rw [mem_singleton] at new
      exact new ▸ notPrimitive
  · intro index other found known
    rcases cases index other found with earlier | ⟨_, rfl⟩
    · exact continues.resolvedType ⟨rfl, fun _ isKnown => isKnown, fun _ isKnown => isKnown⟩
        (standing.resolved index other earlier known)
    · cases known
  · intro index checked
    obtain ⟨other, found, mark⟩ := Option.map_eq_some_iff.1 checked
    rcases cases index other found with earlier | ⟨_, rfl⟩
    · exact standing.checked index (by rw [markAt, earlier, Option.map_some, mark])
    · cases mark
  · intro other member notClass
    obtain ⟨index, found⟩ := mem_iff_getElem?.1 member
    rcases cases index other found with earlier | ⟨_, rfl⟩
    · exact standing.bare other (mem_of_getElem? earlier) notClass
    · exact ⟨rfl, rfl⟩
  · intro other member sub isSub
    obtain ⟨index, found⟩ := mem_iff_getElem?.1 member
    rcases cases index other found with earlier | ⟨_, rfl⟩
    · obtain ⟨subType, subFound, subClass⟩ :=
        standing.classes other (mem_of_getElem? earlier) sub isSub
      obtain ⟨later, there, keeps⟩ := continues sub subType subFound
      exact ⟨later, there, (congrArg Declaration.isClass keeps.declaration).trans subClass⟩
    · cases isSub

theorem Standing.call {session : Session} (standing : Standing session) (call : Call) :
    Standing (session.call call) ∧ Continues session (session.call call) := by
  cases call with
  | register declaration =>
    cases registers : session.register declaration with
    | error failure =>
      have same : session.call (.register declaration) = session := by
        simp [Session.call, registers]
      rw [same]
      exact ⟨standing, Continues.refl session⟩
    | ok answer =>
      have same : session.call (.register declaration) = answer.2 := by
        simp [Session.call, registers]
      rw [same]
      exact standing.register registers
  | analyze =>
    rcases standing.analyze with ⟨_, furthers, _⟩ | ⟨_, _, fails⟩
    · exact ⟨furthers.standing standing, furthers.continues⟩
    · exact ⟨fails.furthers.standing standing, fails.furthers.continues⟩

theorem Standing.calls (standing : Standing session) (calls : List Call) :
    Standing (calls.foldl Session.call session) ∧
      Continues session (calls.foldl Session.call session) := by
  induction calls generalizing session with
  | nil => exact ⟨standing, Continues.refl session⟩
  | cons first later ih =>
    obtain ⟨next, continues⟩ := standing.call first
    obtain ⟨final, after⟩ := ih next
    exact ⟨final, continues.trans after⟩

theorem Lasting.part_recorded (lasting : Lasting session) {type : UserType} {layout : Layout}
    (found : session.types[index]? = some type) (recorded : type.layout = some layout) {inner : Nat}
    (part : session.PartOf inner index) :
    ∃ known, session.layoutAt inner = some known := by
  obtain ⟨start, filled, begins, fills, _, _⟩ :=
    lasting.consistent index type layout found recorded
  rcases part with derived | ⟨_, same, member⟩
  · have isBase : type.base? = some inner := by simpa [Extends, baseAt, found] using derived
    rw [startOf, isBase] at begins
    exact ⟨start, begins⟩
  · rw [found] at same
    cases same
    obtain ⟨field, typed, plain, kind⟩ := mem_embedded.1 member
    exact fills.recorded typed plain kind

end Session

/-- A recorded layout is the one that the declarations ask for, the base and the structs that the
type holds are laid out too, and no later call changes it. -/
theorem recorded_layout_lasts (calls : List Call) {index : Nat} {type : UserType} {layout : Layout}
    (found : (Session.after calls).types[index]? = some type)
    (recorded : type.layout = some layout) :
    (∀ plan, (Session.after calls).scope.Plans type.declaration plan ↔
      plan = (Session.after calls).plan layout) ∧
    (∀ part, (Session.after calls).scope.PartOf part type.declaration →
      ∃ (place : Nat) (other : UserType), (Session.after calls).types[place]? = some other ∧
        other.declaration = part ∧ other.layout.isSome = true) ∧
    ∀ later, ∃ other, (Session.after (calls ++ later)).types[index]? = some other ∧
      other.declaration = type.declaration ∧ other.layout = some layout := by
  have standing : (Session.after calls).Standing := (Session.Standing.empty.calls calls).1
  have lasting := standing.toLasting
  have firm := lasting.laid index layout ((Session.layoutAt_eq found).trans recorded)
  have resolved := firm.resolvedType found
  refine ⟨?_, ?_, ?_⟩
  · intro plan
    have plans := lasting.consistent.plans lasting.named
      (fun place other known there isKnown =>
        (lasting.laid place known ((Session.layoutAt_eq there).trans isKnown)).resolvedType there)
      firm.acc type layout found recorded
    exact ⟨fun asked => asked.unique plans, fun same => same ▸ plans⟩
  · intro part isPart
    obtain ⟨inner, other, there, same, isInner⟩ :=
      resolved.exists_partOf found lasting.named isPart
    obtain ⟨known, isKnown⟩ := lasting.part_recorded found recorded isInner
    rw [Session.layoutAt_eq there] at isKnown
    exact ⟨inner, other, there, same, by simp [isKnown]⟩
  · intro later
    obtain ⟨other, there, keeps⟩ := (standing.calls later).2 index type found
    refine ⟨other, ?_, keeps.declaration, keeps.layout layout recorded⟩
    rw [Session.after, List.foldl_append]
    exact there

def sampleHistory : Text := "@flatjs struct I\x7ba:int8;\x7d@end
@flatjs struct S\x7bb:int8;i:I;c:int32;\x7d@end
@flatjs class B\x7bx:int8;\x7d@end
@flatjs class D extends B\x7bx:int8;\x7d@end".toList

/-- The analysis fails at the last class, when the structs are laid out. -/
theorem recorded_layout_lasts_sample : ∃ (calls : List Call) (type : UserType) (layout : Layout),
    (Session.after calls).analyze.1.toBool = false ∧
    (Session.after calls).types[1]? = some type ∧ type.layout = some layout ∧ layout.size = 8 ∧
    (Session.after calls).scope.Plans type.declaration ((Session.after calls).plan layout) ∧
    ∀ later, ∃ other, (Session.after (calls ++ later)).types[1]? = some other ∧
      other.declaration = type.declaration ∧ other.layout = some layout := by
  have ran : ((Document.read "sample" sampleHistory).map fun document =>
      let session := Session.after (document.declarations.map Call.register ++ [Call.analyze])
      (session.analyze.1.toBool, (session.layoutAt 1).map Layout.size)) =
        Except.ok (false, some 8) := by
    decide +kernel
  obtain ⟨document, _, answers⟩ := exists_of_map_eq_ok ran
  obtain ⟨fails, sized⟩ := Prod.mk.inj answers
  obtain ⟨layout, known, size⟩ := Option.map_eq_some_iff.1 sized
  obtain ⟨type, found, recorded⟩ := Option.bind_eq_some_iff.1 known
  obtain ⟨plans, _, lasts⟩ := recorded_layout_lasts _ found recorded
  exact ⟨_, type, layout, fails, found, recorded, size, (plans _).2 rfl, lasts⟩

end FlatMemory
