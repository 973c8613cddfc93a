import FlatMemory.Proofs.Session.Determined
import FlatMemory.Proofs.Session.History
import FlatMemory.Proofs.Session.Repetition

/-! # Rounds of analysis

A session that is accepted, after any calls, is the session that its declarations give if they are
registered in the same order and analysed once, up to repetitions.  A class is listed below its base
once for every analysis that has resolved it, so the lists grow with every analysis, and with them
the tables of the classes above. -/

namespace FlatMemory

open List

variable {session : Session} {declarations : List Declaration}

theorem filter_lt_range {count length : Nat} (bounded : count ≤ length) :
    (List.range length).filter (· < count) = List.range count := by
  obtain ⟨rest, rfl⟩ := Nat.exists_eq_add_of_le bounded
  rw [range_add, filter_append, filter_eq_self.2 (by simp),
    filter_eq_nil_iff.2 (by simp), append_nil]

theorem count_flatMap_of_beginnings {f : Nat → List Nat} {item : Nat}
    (once : ∀ bound, (f bound).count item = if item < bound then 1 else 0) (bounds : List Nat) :
    (bounds.flatMap f).count item = bounds.countP (item < ·) := by
  induction bounds with
  | nil => rfl
  | cons bound bounds ih =>
    rw [flatMap_cons, count_append, once, ih, countP_cons, Nat.add_comm]
    simp

namespace Session

variable {sub : Nat} {type : UserType} {registered : Session}

/-! ### What the rounds leave -/

/-- How many types each analysis among some calls resolves. -/
def rounds (session : Session) : List Call → List Nat
  | [] => []
  | .register declaration :: later => (session.call (.register declaration)).rounds later
  | .analyze :: later => session.reach :: (session.call .analyze).rounds later

theorem rounds_append (session : Session) (first later : List Call) :
    session.rounds (first ++ later) =
      session.rounds first ++ (first.foldl call session).rounds later := by
  induction first generalizing session with
  | nil => rfl
  | cons next first ih =>
    cases next with
    | register declaration => exact ih _
    | analyze => exact congrArg (session.reach :: ·) (ih _)

/-- How many of the rounds a type has been resolved in. -/
def timesResolved (rounds : List Nat) (index : Nat) : Nat := rounds.countP (index < ·)

structure Kept (session : Session) (rounds : List Nat) : Prop where
  standing : Standing session
  known : ∀ count ∈ rounds, ∀ sub < count, ∃ type resolution, session.types[sub]? = some type ∧
    session.resolution type = .ok resolution
  subclasses : ∀ (index : Nat) (type : UserType), session.types[index]? = some type →
    type.subclasses = rounds.flatMap fun count =>
      (List.range count).filter fun sub => session.declaredBase sub = some index

theorem Kept.empty : Kept empty [] := by
  refine ⟨Standing.empty, ?_, ?_⟩
  · intro count member
    cases member
  · intro index type found
    cases found

theorem Continues.declaredBase {before after : Session} (continues : Continues before after)
    {resolution : Resolution} (found : before.types[sub]? = some type)
    (asked : before.resolution type = .ok resolution) :
    after.declaredBase sub = before.declaredBase sub := by
  obtain ⟨other, there, keeps⟩ := continues sub type found
  have again := continues.resolution keeps.declaration asked
  simp [Session.declaredBase, found, there, asked, again]

section Later

variable {before after : Session} {rounds : List Nat} (kept : Kept before rounds)
  (continues : Continues before after)

include kept continues

theorem Kept.known_later : ∀ count ∈ rounds, ∀ sub < count, ∃ type resolution,
    after.types[sub]? = some type ∧ after.resolution type = .ok resolution := by
  intro count member sub early
  obtain ⟨type, resolution, found, asked⟩ := kept.known count member sub early
  obtain ⟨other, there, keeps⟩ := continues sub type found
  exact ⟨other, resolution, there, continues.resolution keeps.declaration asked⟩

theorem Kept.listed_later (index : Nat) :
    (rounds.flatMap fun count =>
      (List.range count).filter fun sub => after.declaredBase sub = some index) =
    rounds.flatMap fun count =>
      (List.range count).filter fun sub => before.declaredBase sub = some index := by
  refine flatMap_congr fun count member => filter_congr fun sub early => ?_
  obtain ⟨type, resolution, found, asked⟩ := kept.known count member sub (mem_range.1 early)
  rw [continues.declaredBase found asked]

end Later

theorem declaredBase_lt {base : Nat} (derived : session.declaredBase sub = some base) :
    base < session.types.length := by
  unfold declaredBase at derived
  split at derived
  · next resolution asked =>
    obtain ⟨type, found, resolved⟩ := Option.map_eq_some_iff.1 asked
    obtain ⟨name, _, isBase⟩ := resolution_base resolved derived
    obtain ⟨_, there, _⟩ := lookup_user (resolveBase_ok isBase).1
    exact lt_of_getElem? there
  · cases derived

theorem Kept.register {rounds : List Nat} {declaration : Declaration} {type : TypeRef}
    (kept : Kept session rounds)
    (registers : session.register declaration = .ok (type, registered)) :
    Kept registered rounds := by
  obtain ⟨standing, continues⟩ := kept.standing.register registers
  refine ⟨standing, kept.known_later continues, ?_⟩
  · intro index other found
    rw [kept.listed_later continues]
    rcases register_cases registers index other found with earlier | ⟨new, rfl⟩
    · exact kept.subclasses index other earlier
    · refine (flatMap_eq_nil_iff.2 fun count _ => filter_eq_nil_iff.2 ?_).symm
      intro sub _ derived
      have := declaredBase_lt (of_decide_eq_true derived)
      omega

/-- What is resolved on the way makes one more round, also if the analysis fails. -/
theorem Kept.further {after : Session} {rounds : List Nat} (kept : Kept session rounds)
    (furthers : Analysis.Furthers session after) : Kept after (rounds ++ [session.reach]) := by
  have standing := furthers.standing kept.standing
  obtain ⟨_, continues, declared, _, _, grown⟩ := furthers
  refine ⟨standing, ?_, ?_⟩
  · intro count member
    rcases mem_append.1 member with earlier | last
    · exact kept.known_later continues count earlier
    · intro sub early
      rw [mem_singleton.1 last] at early
      obtain ⟨type, resolution, found, asked⟩ := resolution_of_reach early
      obtain ⟨other, there, same⟩ := declared.symm.counterpart found
      exact ⟨other, resolution, there, (declared.resolution same.symm).trans asked⟩
  · intro index type found
    obtain ⟨before, inSession, _⟩ := declared.counterpart found
    rw [grown index before type inSession found, kept.subclasses index before inSession,
      flatMap_append, flatMap_singleton, kept.listed_later continues]
    congr 1
    refine filter_congr fun sub early => ?_
    obtain ⟨_, _, found, asked⟩ := resolution_of_reach (mem_range.1 early)
    rw [continues.declaredBase found asked]

theorem Reanalysed.unspoilt (accepted : Reanalysed session) : Unspoilt session := by
  refine ⟨fun index live => ?_, fun other declared resolved same index type tag found isClass isTag => ?_⟩
  · obtain ⟨type, found, mark⟩ := Option.map_eq_some_iff.1 live
    rw [accepted.unmarked type (mem_of_getElem? found)] at mark
    cases mark
  · have shape : Agree UserType.shape session other :=
      accepted.wellformed.resolved.unique resolved declared.symm
    obtain ⟨_, known, name, hash⟩ :=
      (accepted.tagged.agree shape same.symm).tags index type found isClass
    rw [isTag] at known
    cases known
    rwa [name] at hash

section

variable {rounds : List Nat} (kept : Kept session rounds)

include kept

theorem Kept.analyze :
    Kept session.analyze.2 (rounds ++ [session.reach]) ∧
      Agree UserType.declaration session.analyze.2 session ∧
      (session.analyze.1 = .ok () →
        Reanalysed session.analyze.2 ∧ session.reach = session.types.length) ∧
      (Reanalysed session → session.scope.Admissible → session.analyze.1 = .ok ()) := by
  rcases kept.standing.analyze with ⟨isOk, furthers, accepted⟩ | ⟨failure, failed, fails⟩
  · exact ⟨kept.further furthers, furthers.declared, fun _ => accepted, fun _ _ => isOk⟩
  · refine ⟨kept.further fails.furthers, fails.furthers.declared, fun isOk => ?_,
      fun accepted admissible => absurd admissible ?_⟩
    · rw [failed] at isOk
      cases isOk
    · exact (fails.refused accepted.unspoilt).not_admissible kept.standing.named

theorem Kept.calls (calls : List Call) :
    Kept (calls.foldl call session) (rounds ++ session.rounds calls) := by
  induction calls generalizing session rounds with
  | nil =>
    rw [Session.rounds, append_nil]
    exact kept
  | cons next later ih =>
    cases next with
    | register declaration =>
      rw [foldl_cons, Session.rounds]
      refine ih ?_
      cases registers : session.register declaration with
      | error failure => simpa [call, registers] using kept
      | ok answer => simpa [call, registers] using kept.register registers
    | analyze =>
      rw [foldl_cons, Session.rounds, ← singleton_append, ← append_assoc]
      exact ih kept.analyze.1

/-! ### Accepted sessions -/

theorem Kept.subclasses_eq (resolved : Resolved session) {index : Nat}
    (found : session.types[index]? = some type) :
    type.subclasses = rounds.flatMap fun count =>
      (List.range count).filter fun sub => session.baseAt sub = some index := by
  simp only [kept.subclasses index type found, resolved.baseAt_eq (Agree.refl _ _)]

/-- After a round with all types every class is listed, and as often as there were rounds. -/
theorem Kept.listed (resolved : Resolved session) (complete : session.types.length ∈ rounds) :
    Listed session (timesResolved rounds) := by
  have bounded : ∀ count ∈ rounds, count ≤ session.types.length := by
    intro count member
    by_contra more
    obtain ⟨type, _, found, _⟩ := kept.known count member session.types.length (by omega)
    exact absurd (lt_of_getElem? found) (by omega)
  refine ⟨?_, ?_⟩
  · intro index type found
    have parts : type.subclasses = rounds.flatMap fun count =>
        ((List.range session.types.length).filter fun sub =>
          session.baseAt sub = some index).filter (· < count) := by
      rw [kept.subclasses_eq resolved found]
      refine flatMap_congr fun count member => ?_
      have front : (List.range session.types.length).filter (· < count) = List.range count :=
        filter_lt_range (bounded count member)
      rw [filter_comm, front]
    rw [parts, eraseDups_beginnings (pairwise_lt_range.filter _), filter_filter]
    refine filter_congr fun sub inside => ?_
    have last : rounds.any (sub < ·) = true :=
      any_eq_true.2 ⟨_, complete, decide_eq_true (mem_range.1 inside)⟩
    rw [last, Bool.true_and]
  · intro index type sub found derived
    have inRound : ∀ count, ((List.range count).filter fun sub =>
        session.baseAt sub = some index).count sub = if sub < count then 1 else 0 := by
      intro count
      rw [count_filter (by simpa using derived), count_range]
    rw [kept.subclasses_eq resolved found, timesResolved]
    exact count_flatMap_of_beginnings inRound rounds

end

namespace Reanalysed

theorem once {times : Nat → Nat} (accepted : Reanalysed session) (listed : Listed session times) :
    Reanalysed session.once := by
  have shape : Agree UserType.shape session.once session := session.once_agree _ fun _ => rfl
  have layouts : Agree UserType.layout session.once session := session.once_agree _ fun _ => rfl
  have tags : Agree UserType.tag session.once session := session.once_agree _ fun _ => rfl
  have counterpart : ∀ {index : Nat} {type : UserType}, session.once.types[index]? = some type →
      ∃ before, session.types[index]? = some before ∧ before.once = type := by
    intro index type found
    rw [once_getElem?] at found
    exact Option.map_eq_some_iff.1 found
  refine ⟨accepted.wellformed.agree shape.symm, accepted.consistent.agree shape layouts, ?_,
    accepted.clear.agree shape layouts, accepted.tagged.agree shape.symm tags.symm, ?_, ?_, ?_, ?_⟩
  · intro index inside
    rw [layouts.layoutAt]
    exact accepted.laidOut index (shape.length ▸ inside)
  · intro index type found isClass
    obtain ⟨before, there, rfl⟩ := counterpart found
    exact (accepted.unshadowed index before there isClass).agree shape.symm rfl
  · intro index type found isClass
    obtain ⟨before, there, rfl⟩ := counterpart found
    rw [← once_dispatchers accepted.wellformed listed accepted.tagged there isClass,
      ← accepted.dispatched index before there isClass]
    rfl
  · intro type member notClass
    obtain ⟨before, isBefore, rfl⟩ := mem_map.1 member
    obtain ⟨untagged, undispatched⟩ := accepted.bare before isBefore notClass
    exact ⟨untagged, by simp [UserType.once, undispatched]⟩
  · intro type member
    obtain ⟨before, isBefore, rfl⟩ := mem_map.1 member
    exact accepted.unmarked before isBefore

end Reanalysed

/-- There are no repetitions exactly if every class is listed once. -/
theorem Listed.linked_iff {times : Nat → Nat} (listed : Listed session times)
    (resolved : Resolved session) :
    Linked session ↔ ∀ sub base, session.baseAt sub = some base → times sub = 1 := by
  constructor
  · intro linked sub base derived
    have found := getElem?_eq_getElem (resolved.baseAt_lt derived)
    rw [← listed.count base _ sub found derived, linked base _ found,
      count_filter (by simpa using derived), count_range, if_pos (baseAt_lt derived)]
  · intro single index type found
    have nodup : type.subclasses.Nodup := by
      refine nodup_iff_count_le_one.2 fun sub => ?_
      by_cases derived : session.baseAt sub = some index
      · rw [listed.count index type sub found derived, single sub index derived]
      · rw [count_eq_zero_of_not_mem fun member => derived ((listed.mem found sub).1 member)]
        omega
    rw [← listed.order index type found, eraseDups_of_nodup nodup]

end Session

theorem Loaded.deterministic {first second : Session} (one : Loaded declarations first)
    (two : Loaded declarations second) : first = second := by
  obtain ⟨registered, registering, analysing⟩ := one
  obtain ⟨_, again, analysingAgain⟩ := two
  rw [registering] at again
  cases again
  rw [analysing] at analysingAgain
  exact (Prod.mk.inj analysingAgain).2

theorem Loaded.reanalysed {fresh : Session} (loaded : Loaded declarations fresh) :
    fresh.Reanalysed := by
  obtain ⟨registered, registering, analysing⟩ := loaded
  exact (Session.analyze_ok (Session.registerAll_ok registering) analysing).1

namespace Session

/-- An accepted session is that of its declarations, up to repetitions. -/
theorem Kept.fresh {rounds : List Nat} (kept : Kept session rounds) (accepted : Reanalysed session)
    (complete : session.types.length ∈ rounds) :
    session.scope.Admissible ∧
      Loaded (session.types.map UserType.declaration) session.once ∧
      (session = session.once ↔
        ∀ sub base, session.baseAt sub = some base → timesResolved rounds sub = 1) := by
  have listed := kept.listed accepted.wellformed.resolved complete
  have declared : Agree UserType.declaration session.once session :=
    session.once_agree _ fun _ => rfl
  have once := accepted.once listed
  have analysed := once.analysed listed.linked_once
  have named := kept.standing.named.agree declared.symm
  have admissible := analysed.admissible named
  rw [declared.scope] at admissible
  obtain ⟨fresh, loaded⟩ := Loaded.exists_iff.2 ⟨by
    rw [map_map]
    exact kept.standing.named.distinct, fun declaration member => by
    obtain ⟨type, isType, rfl⟩ := mem_map.1 member
    exact kept.standing.named.notPrimitive type isType, admissible⟩
  have same : session.once = fresh :=
    analysed.unique loaded.analysed named (declared.trans loaded.declared.symm) once.unmarked
      loaded.reanalysed.unmarked
  refine ⟨admissible, same ▸ loaded, ?_⟩
  rw [← listed.linked_iff accepted.wellformed.resolved]
  constructor
  · intro unchanged
    rw [unchanged]
    exact listed.linked_once
  · intro linked
    exact (accepted.analysed linked).unique analysed kept.standing.named declared.symm
      accepted.unmarked once.unmarked

/-- An accepted session is accepted again, with one more round. -/
theorem Kept.again {rounds : List Nat} (kept : Kept session rounds) (accepted : Reanalysed session)
    (complete : session.types.length ∈ rounds) :
    ∃ again, session.analyze = (.ok (), again) ∧ again.once = session.once ∧
      (again = session ↔ ∀ sub, session.baseAt sub = none) := by
  obtain ⟨admissible, loaded, unrepeated⟩ := kept.fresh accepted complete
  obtain ⟨next, declared, accepts, acceptsAgain⟩ := kept.analyze
  have isOk := acceptsAgain accepted admissible
  obtain ⟨acceptedNext, all⟩ := accepts isOk
  have completeNext : session.analyze.2.types.length ∈ rounds ++ [session.reach] := by
    rw [declared.length, all]
    exact mem_append_right _ (mem_singleton_self _)
  obtain ⟨_, loadedNext, unrepeatedNext⟩ := next.fresh acceptedNext completeNext
  have same : session.analyze.2.once = session.once := by
    rw [show session.analyze.2.types.map UserType.declaration = _ from declared] at loadedNext
    exact loadedNext.deterministic loaded
  have shape : Agree UserType.shape session.analyze.2 session :=
    acceptedNext.wellformed.resolved.unique accepted.wellformed.resolved declared
  refine ⟨session.analyze.2, Prod.ext isOk rfl, same, ?_, ?_⟩
  · intro unchanged sub
    by_contra derives
    obtain ⟨base, derived⟩ := Option.ne_none_iff_exists'.1 derives
    have found := getElem?_eq_getElem (accepted.wellformed.resolved.baseAt_lt derived)
    have listed := kept.listed accepted.wellformed.resolved complete
    have listedNext := next.listed acceptedNext.wellformed.resolved completeNext
    rw [unchanged] at listedNext
    have counted := (listed.count base _ sub found derived).symm.trans
      (listedNext.count base _ sub found derived)
    have once : timesResolved [session.reach] sub = 1 := by
      have := baseAt_lt derived
      simp [timesResolved, all, this]
    rw [timesResolved, timesResolved, countP_append] at counted
    rw [timesResolved] at once
    omega
  · intro underived
    have single : session = session.once := unrepeated.2 fun sub base derived => by
      rw [underived sub] at derived
      cases derived
    have singleNext : session.analyze.2 = session.analyze.2.once :=
      unrepeatedNext.2 fun sub base derived => by
        rw [shape.baseAt, underived sub] at derived
        cases derived
    rw [singleNext, same, ← single]

end Session

/-- Whatever was called before, an accepted session has what its declarations give if they are
registered in its order and analysed once, up to repetitions: a class is listed below its base, in
the order of registration, in one run for each analysis that has resolved it, and a table names a
class as often as these runs lead down to it.  So a further analysis is accepted, and it changes
nothing exactly if no class extends another. -/
theorem analyses_repeat {calls : List Call} {session : Session}
    (accepted : (Session.after calls).analyze = (.ok (), session)) :
    ∃ fresh, Loaded (session.types.map UserType.declaration) fresh ∧ fresh.Linked ∧
      session.once = fresh ∧
      (∀ (index : Nat) (type : UserType), session.types[index]? = some type →
        type.subclasses = (Session.empty.rounds (calls ++ [.analyze])).flatMap fun count =>
          (List.range count).filter fun sub => session.baseAt sub = some index) ∧
      (∀ (index sub : Nat) (type subType : UserType) (dispatcher : Dispatcher),
        session.types[index]? = some type → type.isClass = true →
        dispatcher ∈ type.dispatchers → session.types[sub]? = some subType →
        session.Inherits sub index →
        subType.classId ∈ dispatcher.cases.flatMap DispatchCase.ids →
        (dispatcher.cases.flatMap DispatchCase.ids).count subType.classId =
          ((session.pathBelow sub index).map
            (Session.timesResolved (Session.empty.rounds (calls ++ [.analyze])))).prod) ∧
      (session = fresh ↔ ∀ sub base, session.baseAt sub = some base →
        Session.timesResolved (Session.empty.rounds (calls ++ [.analyze])) sub = 1) ∧
      ∃ again, session.analyze = (.ok (), again) ∧ again.once = fresh ∧
        (again = session ↔ ∀ sub, session.baseAt sub = none) := by
  obtain ⟨kept, declared, accepts, _⟩ := (Session.Kept.empty.calls calls).analyze
  have answers : (calls.foldl Session.call Session.empty).analyze = _ := accepted
  rw [answers] at kept declared accepts
  obtain ⟨sound, all⟩ := accepts rfl
  have resolved := sound.wellformed.resolved
  have isRounds : [] ++ Session.empty.rounds calls ++
      [(calls.foldl Session.call Session.empty).reach] =
        Session.empty.rounds (calls ++ [.analyze]) := by
    rw [Session.rounds_append, List.nil_append]
    rfl
  have complete : session.types.length ∈ [] ++ Session.empty.rounds calls ++
      [(calls.foldl Session.call Session.empty).reach] := by
    rw [all, ← declared.length]
    exact List.mem_append_right _ (List.mem_singleton_self _)
  rw [isRounds] at kept complete
  have listed := kept.listed resolved complete
  obtain ⟨_, loaded, unrepeated⟩ := kept.fresh sound complete
  refine ⟨session.once, loaded, listed.linked_once, rfl, ?_, ?_, unrepeated,
    kept.again sound complete⟩
  · intro index type found
    exact kept.subclasses_eq resolved found
  · intro index sub type subType dispatcher found isClass member subFound inherits named
    rw [sound.dispatched index type found isClass] at member
    exact Session.count_ids sound.wellformed listed sound.tagged found isClass member subFound
      inherits named

def sampleRounds : Text := "@flatjs class B\x7b@virtual m(SELF)\x7b\x7d\x7d@end
@flatjs class D extends B\x7b@virtual m(SELF)\x7b\x7d\x7d@end
@flatjs struct E\x7bf:F;\x7d@end
@flatjs struct F\x7bx:int8;\x7d@end".toList

def sampleCalls (declarations : List Declaration) : List Call :=
  (declarations.take 3).map .register ++ [.analyze] ++ (declarations.drop 3).map .register

theorem analyses_repeat_sample : ∃ (calls : List Call) (session : Session) (again : Session),
    (Session.after calls).analyze = (.ok (), session) ∧
    Session.empty.rounds (calls ++ [.analyze]) = [2, 4] ∧
    Loaded (session.types.map UserType.declaration) session.once ∧
    session.analyze = (.ok (), again) ∧ again.once = session.once := by
  have ran : ((Document.read "sample" sampleRounds).map fun document =>
      let calls := sampleCalls document.declarations
      ((Session.after calls).analyze.1.toBool, Session.empty.rounds (calls ++ [.analyze]))) =
        Except.ok (true, [2, 4]) := by
    decide +kernel
  obtain ⟨document, _, answers⟩ := exists_of_map_eq_ok ran
  obtain ⟨isOk, isRounds⟩ := Prod.mk.inj answers
  rcases answer : (Session.after (sampleCalls document.declarations)).analyze with
    ⟨failure | _, session⟩
  · rw [answer] at isOk
    cases isOk
  · obtain ⟨_, loaded, _, rfl, _, _, _, again, analysing, same, _⟩ := analyses_repeat answer
    exact ⟨_, session, again, answer, isRounds, loaded, analysing, same⟩

/-- The analysis that failed has listed the class below its base already. -/
theorem class_listed_twice : ∃ (calls : List Call) (session : Session) (base : UserType),
    (Session.after calls).analyze = (.ok (), session) ∧ session.types[0]? = some base ∧
    (List.range session.types.length).filter (fun sub => session.baseAt sub = some 0) = [1] ∧
    base.subclasses = [1, 1] ∧
    (base.dispatchers.flatMap Dispatcher.cases).flatMap DispatchCase.ids = [9, 1979, 1979] := by
  have ran : ((Document.read "sample" sampleRounds).map fun document =>
      let answer := (Session.after (sampleCalls document.declarations)).analyze
      (answer.1.toBool,
        (List.range answer.2.types.length).filter fun sub => answer.2.baseAt sub = some 0,
        (answer.2.types[0]?).map fun base => (base.subclasses,
          (base.dispatchers.flatMap Dispatcher.cases).flatMap DispatchCase.ids))) =
        Except.ok (true, [1], some ([1, 1], [9, 1979, 1979])) := by
    decide +kernel
  obtain ⟨document, _, answers⟩ := exists_of_map_eq_ok ran
  simp only [Prod.mk.injEq] at answers
  obtain ⟨isOk, derived, listed⟩ := answers
  obtain ⟨base, found, shown⟩ := Option.map_eq_some_iff.1 listed
  obtain ⟨subclasses, ids⟩ := Prod.mk.inj shown
  rcases answer : (Session.after (sampleCalls document.declarations)).analyze with
    ⟨failure | _, session⟩
  · rw [answer] at isOk
    cases isOk
  · rw [answer] at derived found
    exact ⟨_, session, base, answer, found, derived, subclasses, ids⟩

end FlatMemory
