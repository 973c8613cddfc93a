import FlatMemory.Proofs.Document.Capture
import FlatMemory.Proofs.Session.LayoutSound

/-! # Accepted programs

A program is a list of declarations that stand in sources.  Once registration and analysis accept
it, its types are laid out soundly and its virtual methods are dispatched to the nearest
implementation. -/

namespace FlatMemory

open List Session

namespace Session

variable {declarations : List Declaration} {session : Session}

theorem Registers.scope (registers : Registers declarations session) :
    session.scope = Scope.ofList declarations := by
  unfold Session.scope
  rw [registers.types, map_map]
  exact congrArg Scope.ofList (map_id _)

end Session

/-- The session that registering and analysing some declarations ends in. -/
def Loaded (declarations : List Declaration) (session : Session) : Prop :=
  ∃ registered, Session.empty.registerAll declarations = .ok registered ∧
    registered.analyze = (.ok (), session)

namespace Loaded

variable {declarations : List Declaration} {session : Session} {type : UserType}

section

variable (loaded : Loaded declarations session)

include loaded

theorem declared : session.types.map UserType.declaration = declarations := by
  obtain ⟨registered, registering, analysing⟩ := loaded
  have known := registerAll_ok registering
  obtain ⟨_, _, same⟩ := analyze_ok known analysing
  rw [show session.types.map UserType.declaration = _ from same, known.types, map_map]
  exact map_id _

theorem mem_declarations (member : type ∈ session.types) : type.declaration ∈ declarations := by
  rw [← loaded.declared]
  exact mem_map_of_mem member

theorem analysed : session.Analysed := by
  obtain ⟨registered, registering, analysing⟩ := loaded
  exact (analyze_ok (registerAll_ok registering) analysing).2.1

theorem distinct : (declarations.map Declaration.name).Nodup := by
  obtain ⟨_, registering, _⟩ := loaded
  exact (registerAll_ok registering).distinct

theorem named : session.WellNamed := by
  obtain ⟨registered, registering, analysing⟩ := loaded
  have known := registerAll_ok registering
  exact known.named.agree (analyze_ok known analysing).2.2.symm

theorem scope : session.scope = Scope.ofList declarations := by
  unfold Session.scope
  rw [loaded.declared]

theorem lookup {index : Nat} (found : session.types[index]? = some type) :
    session.lookup type.name = some (.user index) :=
  loaded.named.lookup found

theorem unique {first second : Nat} {one other : UserType}
    (isFirst : session.types[first]? = some one) (isSecond : session.types[second]? = some other)
    (sameName : one.name = other.name) : one = other := by
  have known := loaded.lookup isFirst
  rw [sameName, loaded.lookup isSecond] at known
  obtain rfl : second = first := by simpa using known
  exact Option.some.inj (isFirst.symm.trans isSecond)

theorem exists_type {declaration : Declaration} (member : declaration ∈ declarations) :
    ∃ (index : Nat) (type : UserType), session.types[index]? = some type ∧
      type.declaration = declaration := by
  rw [← loaded.declared] at member
  obtain ⟨type, isType, same⟩ := mem_map.1 member
  obtain ⟨index, found⟩ := mem_iff_getElem?.1 isType
  exact ⟨index, type, found, same⟩

end

end Loaded

/-- The declarations of a program that is accepted, and the session it ends in. -/
structure Accepts (declarations : List Declaration) (session : Session) : Prop where
  parsed : ∀ declaration ∈ declarations, declaration.Parsed
  loaded : Loaded declarations session

namespace Accepts

variable {declarations : List Declaration} {session : Session} {source : Text}

theorem sound (accepts : Accepts declarations session) : session.Analysed :=
  accepts.loaded.analysed

theorem readable (accepts : Accepts declarations session) : session.Readable := by
  intro type member
  exact (accepts.parsed _ (accepts.loaded.mem_declarations member)).wellFormed

theorem ofDocuments {documents : List Document}
    (read : ∀ document ∈ documents, ∃ file source, Document.read file source = .ok document)
    (accepted : Session.ofDocuments documents = .ok session) :
    Accepts (documents.flatMap Document.declarations) session := by
  unfold Session.ofDocuments at accepted
  obtain ⟨registered, registering, accepted⟩ := exists_of_bind_eq_ok accepted
  refine ⟨?_, registered, registering, ?_⟩
  · intro declaration member
    obtain ⟨document, isDocument, member⟩ := mem_flatMap.1 member
    obtain ⟨file, source, isRead⟩ := read document isDocument
    exact ⟨file, source, document, isRead, member⟩
  · split at accepted
    · next analysed analysing =>
      cases accepted
      exact analysing
    · cases accepted

theorem ofDocument {file : String} {document : Document}
    (read : Document.read file source = .ok document)
    (accepted : Session.ofDocuments [document] = .ok session) :
    Accepts document.declarations session := by
  have accepts : Accepts ([document].flatMap Document.declarations) session := by
    refine ofDocuments (fun other member => ?_) accepted
    rw [mem_singleton] at member
    exact ⟨file, source, member ▸ read⟩
  rwa [flatMap_singleton] at accepts

theorem exists_of_sample {α : Type} {answer : α} {next : Document → Session → Except Failure α}
    (ran : (do
      let document ← Document.read "sample" source
      let session ← Session.ofDocuments [document]
      next document session) = .ok answer) :
    ∃ document session, Document.read "sample" source = .ok document ∧
      Accepts document.declarations session ∧ next document session = .ok answer := by
  obtain ⟨document, read, ran⟩ := exists_of_bind_eq_ok ran
  obtain ⟨session, analysed, ran⟩ := exists_of_bind_eq_ok ran
  exact ⟨document, session, read, ofDocument read analysed, ran⟩

theorem ofSource {α : Type} {answer : α} {question : Session → α}
    (accepted : (do
      let document ← Document.read "sample" source
      let session ← Session.ofDocuments [document]
      return question session) = Except.ok answer) :
    ∃ declarations session, Accepts declarations session ∧ question session = answer := by
  obtain ⟨_, session, _, accepts, same⟩ := exists_of_sample accepted
  exact ⟨_, session, accepts, Except.ok.inj same⟩

end Accepts

/-! ### Layout -/

theorem layout_sound {declarations : List Declaration} {session : Session}
    (accepts : Accepts declarations session) {index : Nat} {type : UserType}
    (found : session.types[index]? = some type) : type.Sound session :=
  accepts.sound.sound accepts.readable found

def sampleLayout : Text := "@flatjs struct I\x7ba:float64;b:int8;\x7d@end
@flatjs class B\x7bc:int8;\x7d@end
@flatjs class S extends B\x7bi:I;s:int16.synchronic;\x7d@end".toList

theorem layout_sound_sample : ∃ declarations session type, Accepts declarations session ∧
    session.types[2]? = some type ∧ type.slots.length = 5 ∧ type.Sound session := by
  have accepted : (do
      let document ← Document.read "sample" sampleLayout
      let session ← Session.ofDocuments [document]
      return (session.types[2]?).map fun type => type.slots.length) = Except.ok (some 5) := by
    decide +kernel
  obtain ⟨declarations, session, accepts, slots⟩ := Accepts.ofSource accepted
  obtain ⟨type, found, count⟩ := Option.map_eq_some_iff.1 slots
  exact ⟨declarations, session, type, accepts, found, count, layout_sound accepts found⟩

/-! ### Virtual methods -/

/-- Class ids tell classes apart, a class has one dispatcher for each virtual name it or an ancestor
declares, and the dispatcher sends each class below to the nearest declaration above it. -/
theorem dispatch_nearest {declarations : List Declaration} {session : Session}
    (accepts : Accepts declarations session) :
    (∀ (first second : Nat) (one other : UserType), session.types[first]? = some one →
      session.types[second]? = some other → one.isClass = true → other.isClass = true →
      one.classId = other.classId → first = second) ∧
    ∀ (index : Nat) (type : UserType), session.types[index]? = some type →
      type.isClass = true →
      (type.dispatchers.map Dispatcher.name).Nodup ∧
      (∀ name, name ∈ type.dispatchers.map Dispatcher.name ↔
        ∃ owner, session.Inherits index owner ∧ session.DeclaresVirtual owner name) ∧
      ∀ dispatcher ∈ type.dispatchers, session.Dispatches index dispatcher := by
  have analysed := accepts.sound
  constructor
  · intro first second one other isOne isOther oneClass otherClass same
    exact analysed.tagged.classId_injective isOne isOther oneClass otherClass same
  · intro index type found isClass
    have named := analysed.wellformed.visibleVirtuals_names (Session.lt_of_getElem? found)
    have built := analysed.dispatched index type found isClass
    have names : type.dispatchers.map Dispatcher.name =
        (session.visibleVirtuals index).map Method.name := by
      rw [built, Session.dispatchers, List.map_map]
      rfl
    rw [names]
    refine ⟨named.1, named.2, fun dispatcher member => ?_⟩
    rw [built] at member
    exact analysed.wellformed.dispatchers_dispatch analysed.linked analysed.tagged
      accepts.readable found isClass member

def sampleDispatch : Text := "@flatjs class A\x7b@virtual m(SELF)\x7b\x7d\x7d@end
@flatjs class B extends A\x7b\x7d@end
@flatjs class C extends B\x7b@virtual m(SELF)\x7b\x7d\x7d@end".toList

theorem dispatch_nearest_sample : ∃ declarations session type dispatcher,
    Accepts declarations session ∧ session.types[0]? = some type ∧ type.isClass = true ∧
    type.dispatchers = [dispatcher] ∧
    session.types.map (fun sub => (sub.name, dispatcher.target sub.classId)) =
      [("A", some "A.m_impl"), ("B", some "A.m_impl"), ("C", some "C.m_impl")] ∧
    session.Dispatches 0 dispatcher := by
  have accepted : (do
      let document ← Document.read "sample" sampleDispatch
      let session ← Session.ofDocuments [document]
      return (session.types[0]?).map fun type => decide (type.isClass = true ∧
        type.dispatchers.map (fun dispatcher => session.types.map fun sub =>
          (sub.name, dispatcher.target sub.classId)) =
            [[("A", some "A.m_impl"), ("B", some "A.m_impl"), ("C", some "C.m_impl")]])) =
        Except.ok (some true) := by
    decide +kernel
  obtain ⟨declarations, session, accepts, answer⟩ := Accepts.ofSource accepted
  obtain ⟨type, found, same⟩ := Option.map_eq_some_iff.1 answer
  obtain ⟨isClass, sent⟩ := of_decide_eq_true same
  obtain ⟨dispatcher, isOnly, targets⟩ := List.map_eq_singleton_iff.1 sent
  obtain ⟨_, _, dispatches⟩ := (dispatch_nearest accepts).2 0 type found isClass
  exact ⟨declarations, session, type, dispatcher, accepts, found, isClass, isOnly, targets,
    dispatches dispatcher (isOnly ▸ List.mem_singleton_self _)⟩

end FlatMemory
