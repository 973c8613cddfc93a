import FlatMemory.Proofs.Session.Analysis

/-! # The search for cycles is exact

On a resolved session without marks the search refuses a struct that contains itself before it looks
at base classes, refuses a class that inherits from itself only if there is no such struct, and
names a cycle that is there.  A session that it lets pass is left as it was, and no walk through it
goes on for ever: neither to embedded structs and bases, which layout takes, nor up to bases, nor
down to derived classes. -/

namespace FlatMemory

open List Relation

def Cyclic (below : Nat → Nat → Prop) : Prop := ∃ index, TransGen below index index

namespace Session

variable {failure : Failure} {below : Nat → Nat → Prop}

def Unmarked (session : Session) : Prop := ∀ type ∈ session.types, type.mark = .unvisited

/-- The search for cycles fails, and the error that it ends a run with has this code. -/
def RefusedWith (session : Session) (code : Code) : Prop :=
  ∃ failure reached, Analysis.checkCycles.run session = .error failure reached ∧
    failure.toError.code? = some code

/-- No walk through the types of a session goes on for ever. -/
structure WalksEnd (session : Session) : Prop where
  embedded : WellFounded session.Holds
  bases : WellFounded session.Extends
  parts : WellFounded session.PartOf
  derived : WellFounded fun derived base => session.Extends base derived

variable {session : Session}

theorem Unmarked.markAt (unmarked : Unmarked session) {index : Nat} {mark : Mark}
    (marked : session.markAt index = some mark) : mark = .unvisited := by
  obtain ⟨type, found, rfl⟩ := Option.map_eq_some_iff.1 marked
  exact unmarked type (mem_of_getElem? found)

theorem Unmarked.eq {other : Session} (unmarked : Unmarked session) (otherUnmarked : Unmarked other)
    (rest : Agree UserType.unmarked session other) : session = other := by
  have bare : ∀ bare : Session, Unmarked bare → bare.types.map UserType.unmarked = bare.types := by
    intro bare clean
    refine (map_congr_left fun type member => ?_).trans (map_id _)
    have mark := clean type member
    rw [UserType.unmarked, ← mark]
    rfl
  have same : session.types = other.types := by
    rw [← bare session unmarked, ← bare other otherUnmarked]
    exact rest
  cases session
  cases other
  exact congrArg Session.mk same

theorem Grounded.walksEnd (resolved : Resolved session) (grounded : Grounded session) :
    session.WalksEnd := by
  have outside : ∀ {inner outer : Nat}, session.PartOf inner outer →
      outer < session.types.length := by
    rintro inner outer (derived | ⟨type, found, _⟩)
    · obtain ⟨type, found, _⟩ := Option.bind_eq_some_iff.1 derived
      exact lt_of_getElem? found
    · exact lt_of_getElem? found
  have parts : WellFounded session.PartOf := by
    refine ⟨fun index => ⟨index, fun inner part => ?_⟩⟩
    exact grounded inner (partOf_lt resolved part)
  obtain ⟨rank, ranked, bounded⟩ := Wellformed.exists_rank ⟨resolved, grounded⟩
  refine ⟨Subrelation.wf (fun held => .inr held) parts, Subrelation.wf (fun base => .inl base) parts,
    parts, ?_⟩
  -- Ranks grow on the way down and stay below the number of types.
  refine Subrelation.wf (fun {derived base} extends_ => ?_)
    (measure fun index => session.types.length - rank index).wf
  have grows := ranked base derived (.inl extends_)
  have below := bounded derived (outside (.inl extends_))
  change session.types.length - rank derived < session.types.length - rank base
  omega

theorem unmarked_resolveTypes {registered : Session} (fresh : Fresh registered)
    (resolves : Analysis.resolveTypes.run registered = .ok () session) :
    Resolved session ∧ Unmarked session := by
  have linking := Analysis.ends_resolveTypes registered
  unfold Analysis.Ends at linking
  rw [resolves] at linking
  refine ⟨linking.all, fun type member => ?_⟩
  obtain ⟨index, found⟩ := mem_iff_getElem?.1 member
  have marks : Agree UserType.mark session registered := linking.rest.coarsen _ fun _ => rfl
  obtain ⟨before, inStart, same⟩ := marks.counterpart found
  obtain ⟨declaration, rfl⟩ := fresh before (mem_of_getElem? inStart)
  exact same.symm

theorem NamesCycle.code_embedded
    (named : session.NamesCycle session.Holds .recursiveStruct failure) :
    failure.toError.code? = some .recursiveStruct := by
  obtain ⟨_, _, _, _, _, _, _, rfl⟩ := named
  rfl

theorem NamesCycle.code_bases
    (named : session.NamesCycle session.Extends .inheritanceCycle failure) :
    failure.toError.code? = some .inheritanceCycle := by
  obtain ⟨_, _, _, _, _, _, _, rfl⟩ := named
  rfl

theorem not_cyclic_of_acc (grounded : ∀ index, Acc below index) : ¬ Cyclic below := by
  rintro ⟨index, cycle⟩
  exact Analysis.not_self_of_acc (grounded index) cycle

theorem Grounded.not_cyclic (resolved : Resolved session) (grounded : Grounded session)
    (parts : ∀ inner outer, below inner outer → session.PartOf inner outer) : ¬ Cyclic below := by
  rintro ⟨index, cycle⟩
  exact Analysis.not_grounded_of_cycle resolved parts cycle grounded

/-- How the search ends on a session that is resolved and has no marks. -/
theorem checkCycles_cases (resolved : Resolved session) (unmarked : Unmarked session) :
    (Analysis.checkCycles.run session = .ok () session ∧ Grounded session) ∨
    ∃ failure reached, Analysis.checkCycles.run session = .error failure reached ∧
      (session.NamesCycle session.Holds .recursiveStruct failure ∨
        ¬ Cyclic session.Holds ∧ session.NamesCycle session.Extends .inheritanceCycle failure) := by
  have ends := Analysis.ends_checkCycles session resolved
    fun index checked => by cases unmarked.markAt checked
  unfold Analysis.Ends at ends
  cases run : Analysis.checkCycles.run session with
  | ok answer reached =>
    rw [run] at ends
    obtain ⟨rest, grounded, clear⟩ := ends
    exact .inl ⟨by rw [Unmarked.eq clear unmarked rest], grounded⟩
  | error failure reached =>
    rw [run] at ends
    refine .inr ⟨failure, reached, rfl, ?_⟩
    have clean : ∀ index, session.markAt index ≠ some .live :=
      fun index live => by cases unmarked.markAt live
    rcases ends.named clean with held | ⟨grounded, bases⟩
    · exact .inl held
    · exact .inr ⟨not_cyclic_of_acc grounded, bases⟩

end Session

open Session

/-- The search refuses exactly what has a cycle, structs before bases, and names a cycle. -/
theorem cycle_check_exact {session : Session} (resolved : Resolved session)
    (unmarked : Unmarked session) :
    (session.RefusedWith .recursiveStruct ↔ Cyclic session.Holds) ∧
    (session.RefusedWith .inheritanceCycle ↔ ¬ Cyclic session.Holds ∧ Cyclic session.Extends) ∧
    (¬ Cyclic session.Holds → ¬ Cyclic session.Extends →
      Analysis.checkCycles.run session = .ok () session ∧ session.WalksEnd) ∧
    ∀ failure reached, Analysis.checkCycles.run session = .error failure reached →
      session.NamesCycle session.Holds .recursiveStruct failure ∨
        session.NamesCycle session.Extends .inheritanceCycle failure := by
  rcases checkCycles_cases resolved unmarked with
    ⟨run, grounded⟩ | ⟨failure, reached, run, held | ⟨acyclic, bases⟩⟩
  · have noStruct : ¬ Cyclic session.Holds := grounded.not_cyclic resolved fun _ _ held => .inr held
    have noBase : ¬ Cyclic session.Extends := grounded.not_cyclic resolved fun _ _ base => .inl base
    have passes : ∀ code, ¬ session.RefusedWith code := by
      rintro code ⟨failure, reached, failed, _⟩
      rw [run] at failed
      cases failed
    refine ⟨⟨fun refused => absurd refused (passes _), fun cyclic => absurd cyclic noStruct⟩,
      ⟨fun refused => absurd refused (passes _), fun cyclic => absurd cyclic.2 noBase⟩,
      fun _ _ => ⟨run, grounded.walksEnd resolved⟩, ?_⟩
    intro failure reached failed
    rw [run] at failed
    cases failed
  · have cyclic : Cyclic session.Holds := held.transGen
    refine ⟨⟨fun _ => cyclic, fun _ => ⟨failure, reached, run, held.code_embedded⟩⟩, ⟨?_, ?_⟩,
      fun acyclic => absurd cyclic acyclic, ?_⟩
    · rintro ⟨other, _, failed, code⟩
      rw [run] at failed
      cases failed
      rw [held.code_embedded] at code
      cases code
    · exact fun both => absurd cyclic both.1
    · intro other _ failed
      rw [run] at failed
      cases failed
      exact .inl held
  · have cyclic : Cyclic session.Extends := bases.transGen
    refine ⟨⟨?_, fun other => absurd other acyclic⟩,
      ⟨fun _ => ⟨acyclic, cyclic⟩, fun _ => ⟨failure, reached, run, bases.code_bases⟩⟩,
      fun _ noBase => absurd cyclic noBase, ?_⟩
    · rintro ⟨other, _, failed, code⟩
      rw [run] at failed
      cases failed
      rw [bases.code_bases] at code
      cases code
    · intro other _ failed
      rw [run] at failed
      cases failed
      exact .inr bases

def sampleCycle : Text := "@flatjs struct A\x7bb:B;\x7d@end
@flatjs struct B\x7ba:A.Array;c:C;\x7d@end
@flatjs struct C\x7bb:B;\x7d@end
@flatjs class D extends E\x7ba:A;\x7d@end
@flatjs class E extends D\x7b\x7d@end".toList

def sampleCycleError : Except Failure (Option Code × String) := do
  let document ← Document.read "sample" sampleCycle
  let registered ← Session.empty.registerAll document.declarations
  match Analysis.resolveTypes.run registered with
  | .ok () session =>
    match Analysis.checkCycles.run session with
    | .ok () _ => return (none, "")
    | .error failure _ => return (failure.toError.code?, failure.toError.render)
  | .error failure _ => throw failure

theorem cycle_check_exact_sample : ∃ session failure reached, Resolved session ∧
    Unmarked session ∧ Analysis.checkCycles.run session = .error failure reached ∧
    failure.toError.render = "sample:2: recursive type definition: B contains C contains B" ∧
    Cyclic session.Holds ∧
    (session.NamesCycle session.Holds .recursiveStruct failure ∨
      session.NamesCycle session.Extends .inheritanceCycle failure) := by
  have refused : sampleCycleError = .ok (some .recursiveStruct,
      "sample:2: recursive type definition: B contains C contains B") := by
    decide +kernel
  obtain ⟨document, _, refused⟩ := exists_of_bind_eq_ok refused
  obtain ⟨registered, registering, refused⟩ := exists_of_bind_eq_ok refused
  split at refused
  · next session resolves =>
    obtain ⟨resolved, unmarked⟩ :=
      unmarked_resolveTypes (Session.registerAll_ok registering).fresh resolves
    obtain ⟨embedded, _, _, named⟩ := cycle_check_exact resolved unmarked
    split at refused
    · cases refused
    · next failure reached run =>
      obtain ⟨code, rendered⟩ := Prod.mk.inj (Except.ok.inj refused)
      exact ⟨session, failure, reached, resolved, unmarked, run, rendered,
        embedded.1 ⟨failure, reached, run, code⟩, named failure reached run⟩
  · cases refused

end FlatMemory
