import FlatMemory.Batch
import FlatMemory.Proofs.Session.Lasting

/-! # Analysed sessions

What the stages establish together, and why they fail.  Each stage changes its own part of the
types, so what an earlier one has established is carried over by agreement on the rest.

An analysis of a session that has been analysed before finds out the same, with one exception: each
time the classes are resolved they are added once more to the lists of their bases. -/

namespace FlatMemory

open List

variable {registered : Session}

namespace Session

variable {declarations : List Declaration} {session : Session} {declaration : Declaration}
  {type : TypeRef}

def Fresh (session : Session) : Prop :=
  ∀ type ∈ session.types, ∃ declaration, type = UserType.ofDeclaration declaration

/-- What an accepted program is known to satisfy. -/
structure Analysed (session : Session) : Prop where
  wellformed : Wellformed session
  linked : Linked session
  consistent : Consistent session
  laidOut : ∀ index < session.types.length, ∃ layout, session.layoutAt index = some layout
  unhidden : ∀ index < session.types.length, session.Unhidden index
  tagged : Tagged session
  unshadowed : ∀ (index : Nat) (type : UserType), session.types[index]? = some type →
    type.isClass = true → session.Unshadowed type
  dispatched : ∀ (index : Nat) (type : UserType), session.types[index]? = some type →
    type.isClass = true → type.dispatchers = session.dispatchers index type
  structs : ∀ (index : Nat) (type : UserType), session.types[index]? = some type →
    type.isClass = false → type.tag = none ∧ type.dispatchers = []

structure Reanalysed (session : Session) : Prop where
  wellformed : Wellformed session
  consistent : Consistent session
  laidOut : ∀ index < session.types.length, ∃ layout, session.layoutAt index = some layout
  clear : LaidClear session
  tagged : Tagged session
  unshadowed : ∀ (index : Nat) (type : UserType), session.types[index]? = some type →
    type.isClass = true → session.Unshadowed type
  dispatched : ∀ (index : Nat) (type : UserType), session.types[index]? = some type →
    type.isClass = true → type.dispatchers = session.dispatchers index type
  bare : BareStructs session
  unmarked : ∀ type ∈ session.types, type.mark = .unvisited

theorem Reanalysed.analysed (accepted : Reanalysed session) (linked : Linked session) :
    Analysed session := by
  refine ⟨accepted.wellformed, linked, accepted.consistent, accepted.laidOut, ?_, accepted.tagged,
    accepted.unshadowed, accepted.dispatched,
    fun index type found => accepted.bare type (mem_of_getElem? found)⟩
  intro index inside
  obtain ⟨layout, recorded⟩ := accepted.laidOut index inside
  exact (accepted.wellformed.unhidden_iff index).2 (accepted.clear index layout recorded)

def RightTags (session : Session) : Prop :=
  ∀ (index : Nat) (type : UserType) (tag : ClassTag), session.types[index]? = some type →
    type.isClass = true → type.tag = some tag →
    ClassTag.hash? (session.qualifiedName index) = some tag.id

structure Unspoilt (start : Session) : Prop where
  unmarked : ∀ index, start.markAt index ≠ some .live
  tags : ∀ session, Agree UserType.declaration session start → Resolved session →
    Agree UserType.tag session start → RightTags session

/-- Why an analysis fails, each time with what the stages before have established. -/
inductive Refused (start : Session) : Prop
  | unresolved {index : Nat} {type : UserType} {failure : Failure}
    (found : start.types[index]? = some type) (failed : start.resolution type = .error failure) :
    Refused start
  | cyclic {session : Session} (declared : Agree UserType.declaration session start)
    (resolved : Resolved session) (cycle : ¬ Grounded session) : Refused start
  | blocked {session : Session} {failure : Failure}
    (declared : Agree UserType.declaration session start) (wellformed : Wellformed session)
    (consistent : Consistent session) (blocked : Blocked session failure) : Refused start
  | untagged {session reached : Session} {failure : Failure}
    (declared : Agree UserType.declaration session start) (wellformed : Wellformed session)
    (right : RightTags session) (stops : Analysis.RetaggingStops session failure reached) :
    Refused start
  | shadowed {session : Session} {index : Nat} {type : UserType}
    (declared : Agree UserType.declaration session start) (wellformed : Wellformed session)
    (found : session.types[index]? = some type) (isClass : type.isClass = true)
    (shadowed : ¬ session.Unshadowed type) : Refused start

/-! ### Registration -/

theorem register_ok (registers : session.register declaration = .ok (type, registered)) :
    session.lookup declaration.name = none ∧
      registered.types = session.types ++ [UserType.ofDeclaration declaration] := by
  unfold register at registers
  split at registers
  · next unknown =>
    cases registers
    exact ⟨unknown, rfl⟩
  · cases registers

structure Registers (declarations : List Declaration) (session : Session) : Prop where
  types : session.types = declarations.map UserType.ofDeclaration
  distinct : (declarations.map Declaration.name).Nodup
  notPrimitive : ∀ declaration ∈ declarations, Primitive.ofName? declaration.name = none

theorem Registers.register (known : Registers declarations session)
    (registers : session.register declaration = .ok (type, registered)) :
    Registers (declarations ++ [declaration]) registered := by
  obtain ⟨unknown, types⟩ := register_ok registers
  obtain ⟨notPrimitive, unused⟩ := lookup_eq_none_iff.1 unknown
  rw [known.types] at types unused
  refine ⟨by rw [types, map_append, map_singleton], ?_, ?_⟩
  · rw [map_append, nodup_append]
    refine ⟨known.distinct, nodup_singleton _, ?_⟩
    rintro name member _ new rfl
    obtain ⟨earlier, isEarlier, named⟩ := mem_map.1 member
    rw [map_singleton, mem_singleton] at new
    exact unused _ (mem_map_of_mem isEarlier) (by rw [← new, ← named]; rfl)
  · intro other member
    rcases mem_append.1 member with member | new
    · exact known.notPrimitive other member
    · rw [mem_singleton] at new
      exact new ▸ notPrimitive

theorem registerAll_ok (registers : empty.registerAll declarations = .ok session) :
    Registers declarations session := by
  have walk : ∀ (later earlier : List Declaration) (before : Session),
      Registers earlier before → before.registerAll later = .ok session →
      Registers (earlier ++ later) session := by
    intro later
    induction later with
    | nil =>
      intro earlier before known registers
      cases registers
      rwa [append_nil]
    | cons declaration later ih =>
      intro earlier before known registers
      unfold registerAll at registers
      rw [foldlM_cons] at registers
      obtain ⟨next, stepped, registers⟩ := exists_of_bind_eq_ok registers
      obtain ⟨⟨type, registered⟩, registersOne, rfl⟩ := exists_of_map_eq_ok stepped
      rw [← singleton_append, ← append_assoc]
      exact ih _ registered (known.register registersOne) registers
  exact walk declarations [] empty ⟨rfl, by simp, by simp⟩ registers

theorem Registers.fresh (known : Registers declarations session) : Fresh session := by
  intro type member
  rw [known.types] at member
  obtain ⟨declaration, _, rfl⟩ := mem_map.1 member
  exact ⟨declaration, rfl⟩

theorem Registers.named (registers : Registers declarations session) : WellNamed session := by
  have names : session.types.map UserType.name = declarations.map Declaration.name := by
    rw [registers.types, map_map]
    rfl
  refine ⟨names ▸ registers.distinct, ?_⟩
  intro type member
  rw [registers.types] at member
  obtain ⟨declaration, isDeclaration, rfl⟩ := mem_map.1 member
  exact registers.notPrimitive declaration isDeclaration

theorem Registers.standing (registers : Registers declarations session) :
    Standing session ∧ Unspoilt session := by
  have blank : ∀ (index : Nat) (type : UserType), session.types[index]? = some type →
      ∃ declaration, type = UserType.ofDeclaration declaration :=
    fun index type found => registers.fresh type (mem_of_getElem? found)
  have unplaced : ∀ index layout, session.layoutAt index ≠ some layout := by
    intro index layout recorded
    obtain ⟨type, found, known⟩ := Option.bind_eq_some_iff.1 recorded
    obtain ⟨_, rfl⟩ := blank index type found
    cases known
  have unmarked : ∀ index mark, session.markAt index = some mark → mark = .unvisited := by
    intro index mark marked
    obtain ⟨type, found, isMarked⟩ := Option.map_eq_some_iff.1 marked
    obtain ⟨_, rfl⟩ := blank index type found
    exact isMarked.symm
  refine ⟨⟨⟨registers.named, ?_, ?_, ?_, ?_⟩, ?_, ?_, ?_⟩, ?_, ?_⟩
  · intro index type found known
    obtain ⟨_, rfl⟩ := blank index type found
    cases known
  · intro index type layout found recorded
    exact absurd ((layoutAt_eq found).trans recorded) (unplaced index layout)
  · intro index layout recorded
    exact absurd recorded (unplaced index layout)
  · intro index checked
    cases unmarked index _ checked
  · intro index layout recorded
    exact absurd recorded (unplaced index layout)
  · intro type member _
    obtain ⟨_, rfl⟩ := registers.fresh type member
    exact ⟨rfl, rfl⟩
  · intro type member sub isSub
    obtain ⟨_, rfl⟩ := registers.fresh type member
    cases isSub
  · intro index live
    cases unmarked index _ live
  · intro other _ _ tags index type tag found _ isTag
    obtain ⟨before, inStart, same⟩ := tags.counterpart found
    obtain ⟨_, rfl⟩ := blank index before inStart
    rw [← same] at isTag
    cases isTag

end Session

namespace Analysis

open Session

variable {start reached session : Session} {count : Nat}

theorem RetaggingStops.isFault {failure : Failure} (stops : RetaggingStops start failure reached) :
    failure.IsFault := by
  obtain ⟨_, _, _, _, _, failed⟩ := stops
  exact tagFor_isFault failed

theorem RetaggedUpTo.all (kept : RetaggedUpTo start start.types.length reached) :
    Tagged reached := by
  have inside : ∀ (index : Nat) (type : UserType), reached.types[index]? = some type →
      index < start.types.length := by
    intro index type found
    rw [← kept.rest.length]
    exact lt_of_getElem? found
  refine ⟨?_, kept.distinct_all ?_⟩
  · intro index type found isClass
    simpa only [kept.shape.qualifiedName] using
      kept.tagged index type (inside index type found) found isClass
  · intro index tag isTag
    obtain ⟨type, found, _⟩ := Option.bind_eq_some_iff.1 isTag
    exact inside index type found

structure Furthers (start after : Session) : Prop where
  lasting : Lasting after
  continues : Continues start after
  declared : Agree UserType.declaration after start
  clear : LaidClear after
  bare : BareStructs after
  grown : Grown start after

theorem ResolvedUpTo.furthers (kept : ResolvedUpTo start count reached) (standing : Standing start)
    (grown : Grown start reached) : Furthers start reached :=
  ⟨kept.lasting standing.toLasting, kept.continues standing.toLasting, kept.declaration,
    kept.clear standing.toLasting standing.clear,
    standing.bare.agree (kept.rest.coarsen _ fun _ => rfl), grown⟩

namespace Furthers

variable {middle after : Session} {view : UserType → UserType}

section

variable (furthers : Furthers start middle)

include furthers

theorem agree (same : Agree view after middle) (shape : ∀ type, (view type).shape = type.shape)
    (layout : ∀ type, (view type).layout = type.layout)
    (subclasses : ∀ type, (view type).subclasses = type.subclasses)
    (marks : ∀ index, after.markAt index = some .checked → middle.Firm middle.Holds index)
    (bare : BareStructs after) : Furthers start after := by
  obtain ⟨lasting, continues⟩ := furthers.lasting.agree same shape layout marks
  have shapes : Agree UserType.shape after middle := same.coarsen _ shape
  exact ⟨lasting, furthers.continues.trans continues, shapes.declaration.trans furthers.declared,
    furthers.clear.agree shapes (same.coarsen _ layout), bare,
    furthers.grown.agree (same.coarsen _ subclasses)⟩

theorem checked (marks : Agree UserType.mark after middle) :
    ∀ index, after.markAt index = some .checked → middle.Firm middle.Holds index :=
  fun index checked => furthers.lasting.checked index (marks.markAt index ▸ checked)

theorem placed (wellformed : Wellformed middle) (placed : Placed middle after) :
    Furthers start after :=
  ⟨placed.lasting furthers.lasting wellformed, furthers.continues.trans placed.grows.continues,
    placed.grows.shape.declaration.trans furthers.declared,
    furthers.clear.placed wellformed placed,
    furthers.bare.agree (placed.rest.coarsen _ fun _ => rfl),
    furthers.grown.agree (placed.rest.coarsen _ fun _ => rfl)⟩

theorem isClass_of_tag (index : Nat) (type : UserType) (found : middle.types[index]? = some type)
    (isTagged : type.tag.isSome = true) : type.isClass = true := by
  by_contra notClass
  rw [(furthers.bare type (mem_of_getElem? found) (by simpa using notClass)).1] at isTagged
  cases isTagged

theorem retagged (kept : RetaggedUpTo middle count after) : Furthers start after := by
  refine furthers.agree kept.rest (fun _ => rfl) (fun _ => rfl) (fun _ => rfl)
    (furthers.checked (kept.rest.coarsen _ fun _ => rfl)) ?_
  intro type member notClass
  obtain ⟨index, found⟩ := mem_iff_getElem?.1 member
  obtain ⟨before, inMiddle, same⟩ := kept.rest.counterpart found
  have dispatchers : before.dispatchers = type.dispatchers :=
    (congrArg UserType.dispatchers same :)
  have kind : before.isClass = type.isClass := (congrArg UserType.isClass same :)
  have bare := furthers.bare before (mem_of_getElem? inMiddle) (kind ▸ notClass)
  refine ⟨?_, dispatchers ▸ bare.2⟩
  rw [← Option.not_isSome_iff_eq_none]
  intro isTagged
  exact absurd (kept.classes index type found isTagged) (by simp [notClass])

theorem dispatched (kept : DispatchedUpTo middle count after) : Furthers start after := by
  refine furthers.agree kept.rest (fun _ => rfl) (fun _ => rfl) (fun _ => rfl)
    (furthers.checked (kept.rest.coarsen _ fun _ => rfl)) ?_
  intro type member notClass
  obtain ⟨index, found⟩ := mem_iff_getElem?.1 member
  exact furthers.bare type (mem_of_getElem? (kept.structs index type found notClass)) notClass

end

theorem standing (furthers : Furthers start after) (before : Standing start) : Standing after := by
  refine ⟨furthers.lasting, furthers.clear, furthers.bare, ?_⟩
  intro type member sub isSub
  obtain ⟨index, found⟩ := mem_iff_getElem?.1 member
  obtain ⟨earlier, inStart, _⟩ := furthers.declared.counterpart found
  rw [furthers.grown index earlier type inStart found, mem_append] at isSub
  have known : ∃ subType, start.types[sub]? = some subType ∧ subType.isClass = true := by
    rcases isSub with old | new
    · exact before.classes earlier (mem_of_getElem? inStart) sub old
    · exact isClass_of_declaredBase (of_decide_eq_true (mem_filter.1 new).2)
  obtain ⟨subType, subFound, subClass⟩ := known
  obtain ⟨subAfter, subThere, same⟩ := furthers.declared.symm.counterpart subFound
  exact ⟨subAfter, subThere, (congrArg Declaration.isClass same).trans subClass⟩

end Furthers

/-- An analysis that fails.  If no earlier one has spoilt the session, then for a fault in its
declarations. -/
structure Fails (start : Session) (failure : Failure) (after : Session) : Prop where
  furthers : Furthers start after
  fault : failure.IsFault
  refused : Unspoilt start → Refused start

/-! ### Stages -/

theorem ends_resolveTypes_furthers (standing : Standing start) :
    Ends resolveTypes start
      (fun _ resolved => ResolvedUpTo start start.types.length resolved ∧
        Furthers start resolved ∧ start.reach = start.types.length) (Fails start) := by
  refine (ends_resolveTypes start).mono ?_ ?_
  · intro _ resolved linking
    obtain ⟨isReach, grown⟩ := linking.grown (Nat.le_refl _) fun type found => by
      have := lt_of_getElem? found
      rw [linking.rest.length] at this
      omega
    exact ⟨linking, linking.furthers standing grown, isReach⟩
  · intro failure reached stops
    obtain ⟨count, type, kept, found, failed⟩ := id stops
    obtain ⟨before, inStart, declared⟩ := kept.declaration.counterpart found
    have grown := kept.grown (Nat.le_of_lt (lt_of_getElem? inStart)) fun other there => by
      rw [found] at there
      cases there
      exact ⟨failure, failed⟩
    rw [kept.declaration.resolution declared] at failed
    exact ⟨kept.furthers standing grown.2, stops.isFault, fun _ => .unresolved inStart failed⟩

structure Underway (start session : Session) : Prop where
  furthers : Furthers start session
  wellformed : Wellformed session
  unmarked : ∀ type ∈ session.types, type.mark = .unvisited

theorem Underway.unmarked_agree (underway : Underway start session)
    (marks : Agree UserType.mark reached session) :
    ∀ type ∈ reached.types, type.mark = .unvisited := by
  intro type member
  obtain ⟨index, found⟩ := mem_iff_getElem?.1 member
  obtain ⟨before, inSession, same⟩ := marks.counterpart found
  rw [← same]
  exact underway.unmarked before (mem_of_getElem? inSession)

theorem ends_checkCycles_furthers (linking : ResolvedUpTo start start.types.length session)
    (furthers : Furthers start session) :
    Ends checkCycles session
      (fun _ checked => Underway start checked ∧ Agree UserType.tag checked start)
      (Fails start) := by
  have bare : ∀ after, Agree UserType.unmarked after session → BareStructs after :=
    fun after marks => furthers.bare.agree (marks.coarsen _ fun _ => rfl)
  refine (ends_checkCycles session linking.all fun index checked =>
    (furthers.lasting.checked index checked).acc).mono ?_ ?_
  · rintro _ checked ⟨marks, grounded, unmarked⟩
    have shape : Agree UserType.shape checked session := marks.coarsen _ fun _ => rfl
    have tags : Agree UserType.tag checked session := marks.coarsen _ fun _ => rfl
    refine ⟨⟨furthers.agree marks (fun _ => rfl) (fun _ => rfl) (fun _ => rfl) ?_ (bare checked marks),
      (Wellformed.mk linking.all grounded).agree shape.symm, unmarked⟩,
      tags.trans (linking.rest.coarsen _ fun _ => rfl)⟩
    intro index isChecked
    obtain ⟨type, found, mark⟩ := Option.map_eq_some_iff.1 isChecked
    rw [unmarked type (mem_of_getElem? found)] at mark
    cases mark
  · intro failure reached found
    refine ⟨furthers.agree found.rest (fun _ => rfl) (fun _ => rfl) (fun _ => rfl) ?_
      (bare reached found.rest), found.fault, fun unspoilt => .cyclic linking.declaration linking.all
      (found.cyclic fun index live => ?_)⟩
    · intro index checked
      exact linking.all.firm (fun _ _ held => .inr held) (found.rest.length ▸ markAt_lt checked)
        (found.checked index checked)
    · have marks : Agree UserType.mark session start := linking.rest.coarsen _ fun _ => rfl
      exact unspoilt.unmarked index (marks.markAt index ▸ live)

theorem ends_layoutTypes_furthers (underway : Underway start session)
    (tags : Agree UserType.tag session start) :
    Ends layoutTypes session
      (fun _ placed => Underway start placed ∧ Agree UserType.tag placed start ∧
        ∀ index < placed.types.length, ∃ layout, placed.layoutAt index = some layout)
      (Fails start) := by
  refine (ends_layoutTypes underway.wellformed underway.furthers.lasting.consistent).mono ?_ ?_
  · rintro _ placed ⟨placing, complete⟩
    have sameTags : Agree UserType.tag placed session := placing.rest.coarsen _ fun _ => rfl
    refine ⟨⟨underway.furthers.placed underway.wellformed placing,
      underway.wellformed.agree placing.grows.shape.symm,
      underway.unmarked_agree (placing.rest.coarsen _ fun _ => rfl)⟩, sameTags.trans tags, ?_⟩
    intro index inside
    rw [placing.rest.length] at inside
    exact complete index inside
  · rintro failure reached ⟨placed, blocked⟩
    have furthers := underway.furthers.placed underway.wellformed placed
    exact ⟨furthers, blocked.isFault, fun _ => .blocked furthers.declared
      (underway.wellformed.agree placed.grows.shape.symm) placed.consistent blocked⟩

/-- Right tags are given again, so none of them is in the way. -/
theorem ends_assignTags_furthers (underway : Underway start session)
    (tags : Agree UserType.tag session start)
    (laidOut : ∀ index < session.types.length, ∃ layout, session.layoutAt index = some layout) :
    Ends assignTags session
      (fun _ labelled => Underway start labelled ∧ Tagged labelled ∧
        ∀ index < labelled.types.length, ∃ layout, labelled.layoutAt index = some layout)
      (Fails start) := by
  refine (ends_assignTags_again underway.furthers.isClass_of_tag).mono ?_ ?_
  · intro _ labelled tagging
    have layouts : Agree UserType.layout labelled session := tagging.rest.coarsen _ fun _ => rfl
    refine ⟨⟨underway.furthers.retagged tagging, underway.wellformed.agree tagging.shape.symm,
      underway.unmarked_agree (tagging.rest.coarsen _ fun _ => rfl)⟩, tagging.all, ?_⟩
    intro index inside
    rw [layouts.length] at inside
    rw [layouts.layoutAt]
    exact laidOut index inside
  · intro failure reached stops
    obtain ⟨_, _, kept, _⟩ := id stops
    have declared := underway.furthers.declared
    exact ⟨underway.furthers.retagged kept, stops.isFault, fun unspoilt =>
      .untagged declared underway.wellformed
        (unspoilt.tags session declared underway.wellformed.resolved tags) stops⟩

theorem ends_buildDispatchers_furthers (standing : Standing start)
    (underway : Underway start session) (tagged : Tagged session)
    (laidOut : ∀ index < session.types.length, ∃ layout, session.layoutAt index = some layout) :
    Ends buildDispatchers session (fun _ after => Furthers start after ∧ Reanalysed after)
      (Fails start) := by
  refine (ends_buildDispatchers_of ?_ ?_).mono ?_ fun _ _ fails => fails
  · intro index type reached failure kept found isClass failed
    have shape : Agree UserType.shape reached session := kept.rest.coarsen _ fun _ => rfl
    have furthers := underway.furthers.dispatched kept
    refine ⟨furthers, checkShadowing_isFault failed, fun _ => .shadowed furthers.declared
      (underway.wellformed.agree shape.symm) found isClass fun unshadowed => ?_⟩
    rw [checkShadowing_ok_iff.2 unshadowed] at failed
    cases failed
  · intro index type reached failure kept found isClass failed
    have later := (underway.furthers.dispatched kept).standing standing
    exact absurd failed (later.classes.checkSubtree found isClass failure)
  · intro _ after dispatching
    have furthers := underway.furthers.dispatched dispatching
    have late : Agree UserType.shape after session := dispatching.rest.coarsen _ fun _ => rfl
    have layouts : Agree UserType.layout after session := dispatching.rest.coarsen _ fun _ => rfl
    refine ⟨furthers, underway.wellformed.agree late.symm, furthers.lasting.consistent,
      ?_, furthers.clear, tagged.agree late.symm (dispatching.rest.symm.coarsen _ fun _ => rfl), ?_,
      ?_, furthers.bare, underway.unmarked_agree (dispatching.rest.coarsen _ fun _ => rfl)⟩
    · intro index inside
      rw [layouts.length] at inside
      rw [layouts.layoutAt]
      exact laidOut index inside
    · intro index type found isClass
      obtain ⟨before, inSession, shaped⟩ := late.counterpart found
      have beforeClass : before.isClass = true := by
        rw [UserType.isClass, (Prod.mk.inj shaped).1]
        exact isClass
      exact (dispatching.unshadowed index before (lt_of_getElem? inSession) inSession
        beforeClass).agree late.symm shaped
    · intro index type found isClass
      have inside : index < session.types.length := by
        rw [← dispatching.rest.length]
        exact lt_of_getElem? found
      rw [dispatching.dispatched index type inside found isClass]
      exact dispatching.rest.symm.dispatchers rfl index

/-- A session that is accepted has been accepted for its declarations: what it was before leaves no
trace but repetitions. -/
theorem ends_all (standing : Standing start) :
    Ends all start
      (fun _ after => Furthers start after ∧ Reanalysed after ∧ start.reach = start.types.length)
      (Fails start) := by
  unfold all
  simp only [ends_bind]
  refine (ends_resolveTypes_furthers standing).mono ?_ fun _ _ fails => fails
  rintro _ resolved ⟨linking, furthers, isReach⟩
  refine (ends_checkCycles_furthers linking furthers).mono ?_ fun _ _ fails => fails
  rintro _ checked ⟨underway, tags⟩
  refine (ends_layoutTypes_furthers underway tags).mono ?_ fun _ _ fails => fails
  rintro _ placed ⟨underway, tags, laidOut⟩
  refine (ends_assignTags_furthers underway tags laidOut).mono ?_ fun _ _ fails => fails
  rintro _ labelled ⟨underway, tagged, laidOut⟩
  refine (ends_buildDispatchers_furthers standing underway tagged laidOut).mono ?_
    fun _ _ fails => fails
  rintro _ after ⟨furthers, reanalysed⟩
  exact ⟨furthers, reanalysed, isReach⟩

end Analysis

namespace Session

variable {declarations : List Declaration}

theorem Standing.analyze {session : Session} (standing : Standing session) :
    (session.analyze.1 = .ok () ∧ Analysis.Furthers session session.analyze.2 ∧
      Reanalysed session.analyze.2 ∧ session.reach = session.types.length) ∨
    ∃ failure, session.analyze.1 = .error failure ∧
      Analysis.Fails session failure session.analyze.2 := by
  have ends := Analysis.ends_all standing
  unfold Analysis.Ends at ends
  unfold Session.analyze
  cases run : Analysis.all.run session with
  | ok answer reached =>
    rw [run] at ends
    exact .inl ⟨rfl, ends⟩
  | error failure reached =>
    rw [run] at ends
    exact .inr ⟨failure, rfl, ends⟩

variable (known : Registers declarations registered)

include known

theorem analyze_ok {analysed : Session} (accepted : registered.analyze = (.ok (), analysed)) :
    Reanalysed analysed ∧ Analysed analysed ∧ Agree UserType.declaration analysed registered := by
  rcases known.standing.1.analyze with ⟨_, furthers, sound, all⟩ | ⟨_, failed, _⟩
  swap
  · rw [accepted] at failed
    cases failed
  rw [accepted] at furthers sound
  refine ⟨sound, sound.analysed ?_, furthers.declared⟩
  -- Every class has been added once to the list of its base, which was empty.
  intro index type found
  obtain ⟨before, inStart, _⟩ := furthers.declared.counterpart found
  obtain ⟨_, rfl⟩ := known.fresh before (mem_of_getElem? inStart)
  rw [furthers.grown index _ type inStart found, all, ← furthers.declared.length]
  simp only [sound.wellformed.resolved.baseAt_eq furthers.declared]
  rfl

theorem analyze_error {reached : Session} {failure : Failure}
    (refused : registered.analyze = (.error failure, reached)) :
    failure.IsFault ∧ Refused registered := by
  rcases known.standing.1.analyze with ⟨isOk, _⟩ | ⟨_, failed, fails⟩
  · rw [refused] at isOk
    cases isOk
  · rw [refused] at failed
    cases failed
    exact ⟨fails.fault, fails.refused known.standing.2⟩

end Session

end FlatMemory
