import FlatMemory.Proofs.Session.Resolution
import Mathlib.Data.Finset.Card
import Mathlib.Data.List.Chain
import Mathlib.Data.List.NodupEquivFin
import Mathlib.Data.List.TakeWhile
import Mathlib.Logic.Relation

/-! # Sessions without cycles

A search that ends well has found every type it visited to be grounded: there is no endless descent
from it through embedded structs, or through base classes.  The types on the path of a search are
live and distinct, so a search that is given one step more than there are types never runs out.  A
search that fails has come back to a type on its path and names the types from there on, or it met a
mark that an earlier search left. -/

namespace FlatMemory

open List Option

variable {path : List Nat} {session first second : Session} {index : Nat}

open Relation

namespace UserType

def unmarked (type : UserType) : UserType := { type with mark := .unvisited }

end UserType

namespace Session

variable {below : Nat → Nat → Prop} {inner outer : Nat} {report : List String → TypeCause}

def Holds (session : Session) (inner outer : Nat) : Prop :=
  ∃ type, session.types[outer]? = some type ∧ inner ∈ session.embedded type

def Extends (session : Session) (base derived : Nat) : Prop := session.baseAt derived = some base

/-- What has to be laid out before a type: its base and the structs it holds. -/
def PartOf (session : Session) (inner outer : Nat) : Prop :=
  session.Extends inner outer ∨ session.Holds inner outer

def Grounded (session : Session) : Prop :=
  ∀ index < session.types.length, Acc session.PartOf index

def Descends (below : Nat → Nat → Prop) (places : List Nat) : Prop :=
  places.IsChain fun outer inner => below inner outer

/-- A failure that names a cycle: each type listed stands above the next and the last is the first.
It is reported where that type is declared. -/
def NamesCycle (session : Session) (below : Nat → Nat → Prop) (report : List String → TypeCause)
    (failure : Failure) : Prop :=
  ∃ back type route names, session.types[back]? = some type ∧
    Descends below (back :: (route ++ [back])) ∧
    List.Forall₂ (fun place name => (session.types[place]?).map UserType.name = some name)
      (back :: (route ++ [back])) names ∧
    failure = type.fault type.declaration.line (report names)

def markAt (session : Session) (index : Nat) : Option Mark :=
  (session.types[index]?).map UserType.mark

theorem Agree.markAt (same : Agree UserType.mark first second) (index : Nat) :
    first.markAt index = second.markAt index :=
  same.getElem? index

theorem markAt_lt {mark : Mark} (marked : session.markAt index = some mark) :
    index < session.types.length := by
  obtain ⟨type, found, _⟩ := map_eq_some_iff.1 marked
  exact lt_of_getElem? found

theorem markAt_setMark (session : Session) (index place : Nat) (mark : Mark)
    (inside : index < session.types.length) :
    (session.modifyAt index fun type => { type with mark := mark }).markAt place =
      if index = place then some mark else session.markAt place := by
  unfold markAt
  rw [modifyAt_getElem?]
  by_cases here : index = place
  · subst here
    simp [getElem?_eq_getElem inside]
  · simp [here]

theorem Descends.transGen (descends : Descends below (path ++ [index])) :
    ∀ place ∈ path, TransGen below index place := by
  induction path with
  | nil => simp
  | cons first rest ih =>
    have later := ih (List.IsChain.tail descends)
    intro place member
    rcases mem_cons.1 member with rfl | member
    · cases rest with
      | nil => exact .single (isChain_cons_cons.1 descends).1
      | cons second rest =>
        exact .tail (later second mem_cons_self) (isChain_cons_cons.1 descends).1
    · exact later place member

theorem Descends.push (descends : Descends below (path ++ [index])) (step : below inner index) :
    Descends below (path ++ [index] ++ [inner]) := by
  refine isChain_append.2 ⟨descends, isChain_singleton _, ?_⟩
  simpa using step

theorem NamesCycle.transGen {failure : Failure} (named : session.NamesCycle below report failure) :
    ∃ index, TransGen below index index := by
  obtain ⟨back, _, route, _, _, descends, _⟩ := named
  have descends : Descends below ((back :: route) ++ [back]) := descends
  exact ⟨back, descends.transGen back mem_cons_self⟩

theorem forall₂_typesAt {places : List Nat}
    (inside : ∀ place ∈ places, place < session.types.length) :
    List.Forall₂ (fun place name => (session.types[place]?).map UserType.name = some name)
      places ((session.typesAt places).map UserType.name) := by
  induction places with
  | nil => exact .nil
  | cons place places ih =>
    have present := getElem?_eq_getElem (inside place mem_cons_self)
    have later := ih fun other member => inside other (mem_cons_of_mem _ member)
    unfold typesAt at later ⊢
    rw [filterMap_cons_some present]
    exact .cons (by rw [present]; rfl) later

theorem namesCycle_of_path {reached : Session} {back : Nat} {type : UserType}
    (same : Agree UserType.declaration reached session) (found : reached.types[back]? = some type)
    (inside : ∀ place ∈ path, place < reached.types.length) (onPath : back ∈ path)
    (descends : Descends below (path ++ [back])) :
    session.NamesCycle below report
      (type.fault type.declaration.line (report (reached.cycleNames path back))) := by
  obtain ⟨original, inSession, declared⟩ := same.counterpart found
  obtain ⟨route, cut⟩ : ∃ route, path.dropWhile (fun index => index ≠ back) = back :: route := by
    cases cut : path.dropWhile (fun index => index ≠ back) with
    | nil => exact absurd (dropWhile_eq_nil_iff.1 cut back onPath) (by simp)
    | cons first route =>
      have stops := head?_dropWhile_not (fun index => index ≠ back) path
      rw [cut] at stops
      exact ⟨route, by simpa using stops⟩
  have suffix : (back :: route) <:+ path := cut ▸ dropWhile_suffix _
  have within : ∀ place ∈ back :: (route ++ [back]), place < session.types.length := by
    intro place member
    rw [← same.length]
    rcases mem_append.1 (show place ∈ back :: route ++ [back] from member) with member | last
    · exact inside place (suffix.subset member)
    · exact mem_singleton.1 last ▸ inside back onPath
  have names : reached.cycleNames path back =
      (session.typesAt (back :: (route ++ [back]))).map UserType.name := by
    have seen := congrArg (List.map Declaration.name)
      (same.typesAt (back :: (route ++ [back])))
    rw [List.map_map, List.map_map] at seen
    unfold cycleNames
    rw [if_pos onPath, cut]
    exact seen
  refine ⟨back, original, route, _, inSession, ?_, forall₂_typesAt within, ?_⟩
  · obtain ⟨front, whole⟩ := suffix
    rw [← whole, append_assoc] at descends
    exact (isChain_append.1 descends).2.1
  · rw [names, UserType.fault, UserType.fault, declared]

theorem holds_agree (same : Agree UserType.shape first second) (holds : first.Holds inner outer) :
    second.Holds inner outer := by
  obtain ⟨type, found, member⟩ := holds
  obtain ⟨other, there, shaped⟩ := same.counterpart found
  exact ⟨other, there, same.embedded shaped ▸ member⟩

theorem partOf_agree (same : Agree UserType.shape first second) (part : first.PartOf inner outer) :
    second.PartOf inner outer := by
  rcases part with derived | held
  · exact .inl ((same.baseAt outer).symm.trans derived)
  · exact .inr (holds_agree same held)

theorem partOf_lt (resolved : Resolved session) (part : session.PartOf inner outer) :
    inner < session.types.length := by
  rcases part with derived | ⟨type, found, member⟩
  · exact resolved.baseAt_lt derived
  · obtain ⟨struct, there, _⟩ := resolved.embedded found member
    exact lt_of_getElem? there

theorem Grounded.agree (grounded : Grounded first) (same : Agree UserType.shape first second) :
    Grounded second := by
  intro index inside
  have before := grounded index (by rwa [same.length])
  refine Subrelation.accessible (fun part => ?_) before
  exact partOf_agree same.symm part

end Session

namespace Analysis

variable {before : Session} {third after : Session} {place : Nat} {failure : Failure}

open Session

/-! ### What a search keeps -/

/-- A state of a search through `below`: only marks have changed, and what is checked is
grounded. -/
structure Settled (start : Session) (below : Nat → Nat → Prop) (reached : Session) : Prop where
  rest : Agree UserType.unmarked reached start
  checked : ∀ index, reached.markAt index = some .checked → Acc below index

def KeepsMarks (before after : Session) : Prop :=
  ∀ index mark, mark ≠ .unvisited → before.markAt index = some mark →
    after.markAt index = some mark

def AddsNoLive (before after : Session) : Prop :=
  ∀ index, after.markAt index = some .live → before.markAt index = some .live

structure OnPath (path : List Nat) (session : Session) : Prop where
  nodup : path.Nodup
  live : ∀ index ∈ path, session.markAt index = some .live

/-- How a search through `below` fails at the end of a path: unless types elsewhere were live, one
on the path comes back to itself. -/
structure SearchFails (start : Session) (below : Nat → Nat → Prop)
    (report : List String → TypeCause) (path : List Nat) (before : Session) (failure : Failure)
    (reached : Session) : Prop where
  fault : failure.IsFault
  settled : Settled start below reached
  named : (∀ index, before.markAt index = some .live → index ∈ path) →
    start.NamesCycle below report failure

variable {start reached : Session} {below : Nat → Nat → Prop} {report : List String → TypeCause}

theorem Settled.shape (settled : Settled start below reached) :
    Agree UserType.shape reached start :=
  settled.rest.coarsen _ fun _ => rfl

theorem Settled.setLive (settled : Settled start below reached)
    (inside : index < reached.types.length) :
    Settled start below (reached.modifyAt index fun type => { type with mark := .live }) := by
  refine ⟨(Agree.modifyAt _ _ fun _ => by rfl).trans settled.rest, ?_⟩
  intro place checked
  rw [markAt_setMark _ _ _ _ inside] at checked
  split at checked
  · cases checked
  · exact settled.checked place checked

theorem Settled.setChecked (settled : Settled start below reached)
    (inside : index < reached.types.length) (grounded : Acc below index) :
    Settled start below (reached.modifyAt index fun type => { type with mark := .checked }) := by
  refine ⟨(Agree.modifyAt _ _ fun _ => by rfl).trans settled.rest, ?_⟩
  intro place checked
  rw [markAt_setMark _ _ _ _ inside] at checked
  split at checked
  · next here => exact here ▸ grounded
  · exact settled.checked place checked

theorem KeepsMarks.trans (keeps : KeepsMarks first second) (later : KeepsMarks second third) :
    KeepsMarks first third := by
  intro index mark visited marked
  exact later index mark visited (keeps index mark visited marked)

theorem AddsNoLive.trans (adds : AddsNoLive first second) (later : AddsNoLive second third) :
    AddsNoLive first third :=
  fun index live => adds index (later index live)

theorem live_of_setChecked
    (live : (session.modifyAt index fun type => { type with mark := .checked }).markAt place =
      some .live) :
    place ≠ index ∧ session.markAt place = some .live := by
  by_cases here : index = place
  · subst here
    obtain ⟨type, found, isLive⟩ := map_eq_some_iff.1 live
    rw [modifyAt_getElem?] at found
    obtain ⟨before, _, rfl⟩ := map_eq_some_iff.1 found
    simp at isLive
  · exact ⟨fun same => here same.symm, by simpa [markAt, here] using live⟩

theorem live_of_setLive {session : Session} {index place : Nat}
    (inside : index < session.types.length)
    (live : (session.modifyAt index fun type => { type with mark := .live }).markAt place =
      some .live) : place = index ∨ session.markAt place = some .live := by
  rw [markAt_setMark _ _ _ _ inside] at live
  split at live
  · next here => exact .inl here.symm
  · exact .inr live

theorem SearchFails.earlier (fails : SearchFails start below report path after failure reached)
    (adds : AddsNoLive before after) : SearchFails start below report path before failure reached :=
  ⟨fails.fault, fails.settled,
    fun only => fails.named fun place live => only place (adds place live)⟩

/-- A search that goes on from the end of a path fails as the search up to it does. -/
theorem SearchFails.shorten {live : Session}
    (fails : SearchFails start below report (path ++ [index]) after failure reached)
    (adds : AddsNoLive live after)
    (set : ∀ place, live.markAt place = some .live →
      place = index ∨ before.markAt place = some .live) :
    SearchFails start below report path before failure reached := by
  refine ⟨fails.fault, fails.settled, fun only => fails.named fun place isLive => ?_⟩
  rcases set place (adds place isLive) with here | earlier
  · exact here ▸ mem_append_right _ mem_cons_self
  · exact mem_append_left _ (only place earlier)

theorem searchFails_live {type : UserType} (settled : Settled start below before)
    (onPath : OnPath path before) (found : before.types[index]? = some type)
    (live : type.mark = .live) (descends : Descends below (path ++ [index])) :
    SearchFails start below report path before
      (type.fault type.declaration.line (report (before.cycleNames path index))) before := by
  have marked : before.markAt index = some .live := by simp [markAt, found, live]
  refine ⟨trivial, settled, fun only => ?_⟩
  exact namesCycle_of_path settled.shape.declaration found
    (fun place member => markAt_lt (onPath.live place member)) (only index marked) descends

theorem keepsMarks_setMark (mark : Mark) (unvisited : session.markAt index = some .unvisited) :
    KeepsMarks session (session.modifyAt index fun type => { type with mark := mark }) := by
  intro place old visited marked
  rw [markAt_setMark _ _ _ _ (markAt_lt unvisited)]
  split
  · next here =>
    rw [← here, unvisited] at marked
    cases marked
    exact absurd rfl visited
  · exact marked

theorem OnPath.push (onPath : OnPath path session)
    (unvisited : session.markAt index = some .unvisited) :
    OnPath (path ++ [index]) (session.modifyAt index fun type => { type with mark := .live }) := by
  have fresh : index ∉ path := by
    intro member
    rw [onPath.live index member] at unvisited
    cases unvisited
  refine ⟨?_, ?_⟩
  · rw [nodup_append]
    refine ⟨onPath.nodup, nodup_singleton index, ?_⟩
    intro first inPath second alone same
    rw [mem_singleton] at alone
    exact fresh (alone ▸ same ▸ inPath)
  · intro place member
    rw [markAt_setMark _ _ _ _ (markAt_lt unvisited)]
    split
    · rfl
    · next elsewhere =>
      rcases mem_append.1 member with member | alone
      · exact onPath.live place member
      · exact absurd (mem_singleton.1 alone).symm elsewhere

theorem OnPath.keep (onPath : OnPath path before) (keeps : KeepsMarks before after) :
    OnPath path after :=
  ⟨onPath.nodup, fun index member =>
    keeps index .live (by decide) (onPath.live index member)⟩

theorem OnPath.length_le (onPath : OnPath path session) :
    path.length ≤ session.types.length := by
  have within : path ⊆ List.range session.types.length := by
    intro index member
    exact mem_range.2 (markAt_lt (onPath.live index member))
  simpa using (List.Nodup.subperm onPath.nodup within).length_le

/-! ### Embedded structs -/

structure Visited (start : Session) (index : Nat) (before after : Session) : Prop where
  settled : Settled start start.Holds after
  keeps : KeepsMarks before after
  adds : AddsNoLive before after
  checked : after.markAt index = some .checked

theorem ends_visitStruct (start : Session) (resolved : Resolved start) :
    ∀ (depth : Nat) (path : List Nat) (index : Nat) (before : Session),
      Settled start start.Holds before → OnPath path before →
      start.types.length < depth + path.length → index < start.types.length →
      Descends start.Holds (path ++ [index]) →
      Ends (visitStruct depth path index) before (fun _ => Visited start index before)
        (SearchFails start start.Holds .recursiveStruct path before) := by
  intro depth
  induction depth with
  | zero =>
    intro path index before settled onPath enough _ _
    have := onPath.length_le
    have := settled.rest.length
    omega
  | succ depth ih =>
    intro path index before settled onPath enough inside descends
    have sized := settled.rest.length
    unfold visitStruct
    rw [ends_bind]
    refine ends_userAt (by omega) ?_
    intro type found
    have marked : before.markAt index = some type.mark := by simp [markAt, found]
    cases mark : type.mark with
    | checked =>
      exact ⟨settled, fun _ _ _ same => same, fun _ live => live, by rw [marked, mark]⟩
    | live => exact searchFails_live settled onPath found mark descends
    | unvisited =>
      rw [mark] at marked
      have insideBefore := markAt_lt marked
      obtain ⟨original, inStart, shaped⟩ := settled.shape.counterpart found
      have same : before.embedded type = start.embedded original := settled.shape.embedded shaped
      simp only [ends_bind, ends_get, setMark, ends_modifyAt]
      have liveSettled := settled.setLive insideBefore
      have livePath := onPath.push marked
      have liveKeeps : KeepsMarks before _ := keepsMarks_setMark .live marked
      have liveHere : (before.modifyAt index fun type => { type with mark := .live }).markAt index
          = some .live := by
        rw [markAt_setMark _ _ _ _ insideBefore, if_pos rfl]
      have liveOnly := fun place => @live_of_setLive before index place insideBefore
      generalize before.modifyAt index (fun type => { type with mark := .live }) = live at *
      refine (ends_forM (fun done after => Settled start start.Holds after ∧
          KeepsMarks live after ∧ AddsNoLive live after ∧
          ∀ inner ∈ done, after.markAt inner = some .checked)
        ⟨liveSettled, fun _ _ _ same => same, fun _ isLive => isLive, by simp⟩ ?_).mono ?_
          (fun _ _ fails => fails)
      · rintro done inner rest after whole ⟨settledThere, keeps, adds, allChecked⟩
        have held : inner ∈ start.embedded original := by
          rw [← same, whole]
          simp
        obtain ⟨struct, there, _⟩ := resolved.embedded inStart held
        refine (ih (path ++ [index]) inner after settledThere (livePath.keep keeps)
          (by simp only [length_append, length_singleton]; omega)
          (lt_of_getElem? there) (descends.push ⟨original, inStart, held⟩)).mono ?_
            (fun _ _ fails => fails.shorten adds liveOnly)
        intro _ next visited
        refine ⟨visited.settled, keeps.trans visited.keeps, adds.trans visited.adds, ?_⟩
        intro place member
        rcases mem_append.1 member with member | alone
        · exact visited.keeps place .checked (by decide) (allChecked place member)
        · exact mem_singleton.1 alone ▸ visited.checked
      · rintro _ after ⟨settledThere, keeps, adds, allChecked⟩
        have insideAfter : index < after.types.length := by
          rw [settledThere.rest.length]
          exact inside
        have grounded : Acc start.Holds index := by
          constructor
          rintro inner ⟨outer, outerFound, held⟩
          rw [inStart] at outerFound
          cases outerFound
          exact settledThere.checked inner (allChecked inner (same ▸ held))
        refine ⟨settledThere.setChecked insideAfter grounded, ?_, ?_, ?_⟩
        · intro place old visited oldMark
          rw [markAt_setMark _ _ _ _ insideAfter]
          split
          · next here =>
            rw [← here, marked] at oldMark
            cases oldMark
            exact absurd rfl visited
          · exact keeps place old visited (liveKeeps place old visited oldMark)
        · intro place isLive
          obtain ⟨elsewhere, isLive⟩ := live_of_setChecked isLive
          exact (liveOnly place (adds place isLive)).resolve_left elsewhere
        · rw [markAt_setMark _ _ _ _ insideAfter, if_pos rfl]

theorem ends_checkStructs (start before : Session) (resolved : Resolved start)
    (settled : Settled start start.Holds before) :
    Ends checkStructs before
      (fun _ after => Settled start start.Holds after ∧
        ∀ index type, start.types[index]? = some type → type.isClass = false →
          Acc start.Holds index)
      (SearchFails start start.Holds .recursiveStruct [] before) := by
  refine (ends_forTypes (fun count after =>
      Settled start start.Holds after ∧ AddsNoLive before after ∧
        ∀ index type, index < count → start.types[index]? = some type → type.isClass = false →
          Acc start.Holds index) ⟨settled, fun _ live => live, by omega⟩ rfl ?_ ?_).mono ?_
            (fun _ _ fails => fails)
  · rintro count reached ⟨settledThere, _, _⟩
    rw [settledThere.rest.length, settled.rest.length]
  · rintro index type reached inside ⟨settledThere, adds, earlier⟩ found
    obtain ⟨original, inStart, shaped⟩ := settledThere.shape.counterpart found
    have declared : original.isClass = type.isClass :=
      congrArg Declaration.isClass (congrArg Prod.fst shaped)
    split
    · next isClass =>
      refine ⟨settledThere, adds, ?_⟩
      intro place other bound there struct
      by_cases here : place = index
      · subst here
        rw [inStart] at there
        cases there
        rw [declared, isClass] at struct
        cases struct
      · exact earlier place other (by omega) there struct
    · rw [ends_bind]
      simp only [searchDepth, ends_bind, ends_get, ends_pure]
      refine (ends_visitStruct start resolved _ [] index reached settledThere
        ⟨nodup_nil, by simp⟩ ?_ (lt_of_getElem? inStart) (isChain_singleton _)).mono ?_
          (fun _ _ fails => fails.earlier adds)
      · rw [settledThere.rest.length]
        simp
      · intro _ after visited
        refine ⟨visited.settled, adds.trans visited.adds, ?_⟩
        intro place other bound there struct
        by_cases here : place = index
        · exact here ▸ visited.settled.checked index visited.checked
        · exact earlier place other (by omega) there struct
  · rintro _ after ⟨settledAfter, _, all⟩
    refine ⟨settledAfter, ?_⟩
    intro index type there struct
    refine all index type ?_ there struct
    rw [settled.rest.length]
    exact lt_of_getElem? there

/-! ### Base classes -/

theorem acc_extends_of_base {base : Nat} (derived : start.baseAt index = some base)
    (grounded : Acc start.Extends base) :
    Acc start.Extends index := by
  constructor
  intro place above
  rw [Session.Extends, derived] at above
  cases above
  exact grounded

theorem acc_extends_of_root (root : start.baseAt index = none) :
    Acc start.Extends index := by
  constructor
  intro place above
  rw [Session.Extends, root] at above
  cases above

theorem acc_extends_of_transGen (above : TransGen start.Extends index place)
    (grounded : Acc start.Extends index) : Acc start.Extends place := by
  induction above with
  | single derived => exact acc_extends_of_base derived grounded
  | tail _ derived ih => exact acc_extends_of_base derived ih

structure Climbed (start : Session) (path : List Nat) (index : Nat) (before : Session)
    (chain : List Nat) (after : Session) : Prop where
  settled : Settled start start.Extends after
  grounded : Acc start.Extends index
  chained : ∀ place ∈ chain, Acc start.Extends place
  longer : path ⊆ chain
  live : ∀ place, after.markAt place = some .live →
    before.markAt place = some .live ∨ place ∈ chain

theorem ends_visitBases (start : Session) (resolved : Resolved start) :
    ∀ (depth : Nat) (path : List Nat) (index : Nat) (before : Session),
      Settled start start.Extends before → OnPath path before →
      start.types.length < depth + path.length → index < start.types.length →
      Descends start.Extends (path ++ [index]) →
      Ends (visitBases depth path index) before (Climbed start path index before)
        (SearchFails start start.Extends .inheritanceCycle path before) := by
  intro depth
  induction depth with
  | zero =>
    intro path index before settled onPath enough _ _
    have := onPath.length_le
    have := settled.rest.length
    omega
  | succ depth ih =>
    intro path index before settled onPath enough inside descends
    have leads : Acc start.Extends index → ∀ place ∈ path, Acc start.Extends place :=
      fun grounded place member => acc_extends_of_transGen (descends.transGen place member) grounded
    have sized := settled.rest.length
    unfold visitBases
    rw [ends_bind]
    refine ends_userAt (by omega) ?_
    intro type found
    have marked : before.markAt index = some type.mark := by simp [markAt, found]
    have derived : type.base? = start.baseAt index := by
      rw [← settled.shape.baseAt index]
      simp [Session.baseAt, found]
    cases mark : type.mark with
    | checked =>
      rw [mark] at marked
      have grounded := settled.checked index marked
      exact ⟨settled, grounded, leads grounded, fun _ member => member, fun _ live => .inl live⟩
    | live => exact searchFails_live settled onPath found mark descends
    | unvisited =>
      rw [mark] at marked
      have insideBefore := markAt_lt marked
      have liveSettled := settled.setLive insideBefore
      have livePath := onPath.push marked
      have liveOnly := fun place => @live_of_setLive before index place insideBefore
      simp only [ends_bind, setMark, ends_modifyAt]
      cases next : type.base? with
      | none =>
        have grounded := acc_extends_of_root (derived.symm.trans next)
        refine ⟨liveSettled, grounded, ?_, subset_append_left _ _, ?_⟩
        · intro place member
          rcases mem_append.1 member with member | alone
          · exact leads grounded place member
          · exact mem_singleton.1 alone ▸ grounded
        · intro place live
          rcases liveOnly place live with here | earlier
          · exact .inr (here ▸ mem_append_right _ mem_cons_self)
          · exact .inl earlier
      | some base =>
        rw [derived] at next
        refine (ih (path ++ [index]) base _ liveSettled livePath
          (by simp only [length_append, length_singleton]; omega)
          (resolved.baseAt_lt next) (descends.push next)).mono ?_
            (fun _ _ fails => fails.shorten (fun _ live => live) liveOnly)
        intro chain after climbed
        refine ⟨climbed.settled, acc_extends_of_base next climbed.grounded, climbed.chained,
          fun _ member => climbed.longer (mem_append_left _ member), ?_⟩
        intro place live
        rcases climbed.live place live with live | member
        · rcases liveOnly place live with here | earlier
          · exact .inr (climbed.longer (here ▸ mem_append_right _ mem_cons_self))
          · exact .inl earlier
        · exact .inr member

theorem ends_setChecked {badly : Failure → Session → Prop} (start : Session) (chain : List Nat)
    (before : Session) (settled : Settled start start.Extends before)
    (grounded : ∀ place ∈ chain, Acc start.Extends place) :
    Ends (chain.forM fun visited => setMark visited .checked) before
      (fun _ after => Settled start start.Extends after ∧ ∀ place,
        after.markAt place = some .live → before.markAt place = some .live ∧ place ∉ chain)
      badly := by
  refine ends_forM (fun done after => Settled start start.Extends after ∧ ∀ place,
    after.markAt place = some .live → before.markAt place = some .live ∧ place ∉ done)
    ⟨settled, fun _ live => ⟨live, by simp⟩⟩ ?_
  rintro done index rest reached whole ⟨settledThere, adds⟩
  have member : index ∈ chain := whole ▸ by simp
  simp only [setMark, ends_modifyAt]
  refine ⟨⟨(Agree.modifyAt _ _ fun _ => by rfl).trans settledThere.rest, ?_⟩, ?_⟩
  · intro place checked
    by_cases here : index = place
    · exact here ▸ grounded index member
    · refine settledThere.checked place ?_
      simpa [markAt, here] using checked
  · intro place live
    obtain ⟨elsewhere, live⟩ := live_of_setChecked live
    obtain ⟨earlier, notDone⟩ := adds place live
    exact ⟨earlier, by simpa [elsewhere] using notDone⟩

theorem ends_checkBases (start before : Session) (resolved : Resolved start)
    (settled : Settled start start.Extends before) :
    Ends checkBases before
      (fun _ after => Settled start start.Extends after ∧
        ∀ index < start.types.length, Acc start.Extends index)
      (SearchFails start start.Extends .inheritanceCycle [] before) := by
  refine (ends_forTypes (fun count after =>
      Settled start start.Extends after ∧ AddsNoLive before after ∧
        ∀ index < count, Acc start.Extends index)
    ⟨settled, fun _ live => live, by omega⟩ rfl ?_ ?_).mono ?_ (fun _ _ fails => fails)
  · rintro count reached ⟨settledThere, _, _⟩
    rw [settledThere.rest.length, settled.rest.length]
  · rintro index type reached inside ⟨settledThere, adds, earlier⟩ found
    obtain ⟨original, inStart, shaped⟩ := settledThere.shape.counterpart found
    have declared : original.isClass = type.isClass :=
      congrArg Declaration.isClass (congrArg Prod.fst shaped)
    have upTo : Acc start.Extends index → ∀ place < index + 1, Acc start.Extends place := by
      intro grounded place bound
      by_cases here : place = index
      · exact here ▸ grounded
      · exact earlier place (by omega)
    split
    · next struct =>
      -- A struct has no base, so there is nothing above it.
      refine ⟨settledThere, adds, upTo (acc_extends_of_root ?_)⟩
      cases derived : start.baseAt index with
      | none => rfl
      | some base =>
        have above : original.base? = some base := by
          simpa [Session.baseAt, inStart] using derived
        have isClass := (resolved.base inStart above).1
        rw [declared] at isClass
        simp [isClass] at struct
    · simp only [searchDepth, ends_bind, ends_get, ends_pure]
      refine (ends_visitBases start resolved _ [] index reached settledThere
        ⟨nodup_nil, by simp⟩ ?_ (lt_of_getElem? inStart) (isChain_singleton _)).mono ?_
          (fun _ _ fails => fails.earlier adds)
      · rw [settledThere.rest.length]
        simp
      · intro chain after climbed
        refine (ends_setChecked start chain after climbed.settled climbed.chained).mono ?_
          (fun _ _ fails => fails)
        rintro _ final ⟨settledFinal, unlive⟩
        refine ⟨settledFinal, fun place live => ?_, upTo climbed.grounded⟩
        obtain ⟨live, notChained⟩ := unlive place live
        exact adds place ((climbed.live place live).resolve_right notChained)
  · rintro _ after ⟨settledAfter, _, all⟩
    rw [settled.rest.length] at all
    exact ⟨settledAfter, all⟩

/-! ### The stage -/

theorem not_self_of_acc {α : Type} {below : α → α → Prop} {place : α} (grounded : Acc below place) :
    ¬ TransGen below place place := by
  have descent : Acc (TransGen below) place := grounded.transGen
  induction descent with
  | intro place _ ih =>
    intro cycle
    exact ih place cycle (grounded.inv_of_transGen cycle) cycle

theorem not_grounded_of_cycle (resolved : Resolved start)
    (parts : ∀ inner outer, below inner outer → start.PartOf inner outer)
    (cycle : TransGen below index index) : ¬ Grounded start := by
  intro grounded
  have partCycle : TransGen start.PartOf index index := TransGen.mono parts _ _ cycle
  obtain ⟨outer, part, _⟩ := TransGen.head'_iff.1 partCycle
  exact not_self_of_acc (grounded index (partOf_lt resolved part)) partCycle

theorem acc_holds_of_structs (resolved : Resolved start)
    (structs : ∀ (index : Nat) (type : UserType), start.types[index]? = some type →
      type.isClass = false → Acc start.Holds index) (index : Nat) : Acc start.Holds index := by
  constructor
  rintro inner ⟨outer, found, member⟩
  obtain ⟨struct, there, isStruct⟩ := resolved.embedded found member
  exact structs inner struct there isStruct

/-- Structs hold structs only and classes extend classes only, so that a descent is one through
bases followed by one through embedded structs. -/
theorem grounded_of_acc (resolved : Resolved start)
    (structs : ∀ (index : Nat) (type : UserType), start.types[index]? = some type →
      type.isClass = false → Acc start.Holds index)
    (classes : ∀ index < start.types.length, Acc start.Extends index) : Grounded start := by
  have ofStruct : ∀ index, Acc start.Holds index →
      ∀ type, start.types[index]? = some type → type.isClass = false →
        Acc start.PartOf index := by
    intro index grounded
    induction grounded with
    | intro index _ ih =>
      intro type found struct
      constructor
      rintro place (derived | held)
      · have above : type.base? = some place := by
          simpa [Session.Extends, Session.baseAt, found] using derived
        have isClass := (resolved.base found above).1
        rw [struct] at isClass
        cases isClass
      · obtain ⟨outer, outerFound, member⟩ := held
        obtain ⟨inner, innerFound, innerStruct⟩ := resolved.embedded outerFound member
        exact ih place ⟨outer, outerFound, member⟩ inner innerFound innerStruct
  intro index inside
  have grounded := classes index inside
  clear inside
  induction grounded with
  | intro index _ ih =>
    constructor
    rintro place (derived | held)
    · exact ih place derived
    · obtain ⟨outer, outerFound, member⟩ := held
      obtain ⟨inner, innerFound, innerStruct⟩ := resolved.embedded outerFound member
      exact ofStruct place (structs place inner innerFound innerStruct) inner innerFound innerStruct

theorem settled_clear {start reached : Session} {below : Nat → Nat → Prop}
    (rest : Agree UserType.unmarked reached start) :
    Settled start below
      ⟨reached.types.map fun type => { type with mark := .unvisited }⟩ := by
  refine ⟨?_, ?_⟩
  · refine Eq.trans ?_ rest
    simp [UserType.unmarked]
  · intro index checked
    obtain ⟨type, found, mark⟩ := map_eq_some_iff.1 checked
    rw [getElem?_map] at found
    obtain ⟨before, _, rfl⟩ := map_eq_some_iff.1 found
    cases mark

theorem not_live_clear (session : Session) (index : Nat) :
    (⟨session.types.map fun type => { type with mark := .unvisited }⟩ : Session).markAt index ≠
      some .live := by
  intro live
  obtain ⟨type, found, isLive⟩ := map_eq_some_iff.1 live
  rw [getElem?_map] at found
  obtain ⟨before, _, rfl⟩ := map_eq_some_iff.1 found
  cases isLive

structure CycleFound (start : Session) (failure : Failure) (reached : Session) : Prop where
  fault : failure.IsFault
  rest : Agree UserType.unmarked reached start
  checked : ∀ index, reached.markAt index = some .checked → Acc start.Holds index
  cyclic : (∀ index, start.markAt index ≠ some .live) → ¬ Grounded start
  /-- Bases are looked at only once no struct contains itself. -/
  named : (∀ index, start.markAt index ≠ some .live) →
    start.NamesCycle start.Holds .recursiveStruct failure ∨
      (∀ index, Acc start.Holds index) ∧
        start.NamesCycle start.Extends .inheritanceCycle failure

/-- When the search for cycles ends well there are none, and no mark is left. -/
theorem ends_checkCycles (start : Session) (resolved : Resolved start)
    (stale : ∀ index, start.markAt index = some .checked → Acc start.Holds index) :
    Ends checkCycles start
      (fun _ after => Agree UserType.unmarked after start ∧ Grounded start ∧
        ∀ type ∈ after.types, type.mark = .unvisited)
      (CycleFound start) := by
  unfold checkCycles
  rw [ends_bind]
  refine (ends_checkStructs start start resolved ⟨Agree.refl _ _, stale⟩).mono ?_ ?_
  swap
  · intro failure reached fails
    have named := fun clean : ∀ index, start.markAt index ≠ some .live =>
      fails.named fun index live => absurd live (clean index)
    refine ⟨fails.fault, fails.settled.rest, fails.settled.checked, fun clean => ?_,
      fun clean => .inl (named clean)⟩
    obtain ⟨index, cycle⟩ := (named clean).transGen
    exact not_grounded_of_cycle resolved (fun _ _ held => .inr held) cycle
  rintro _ afterStructs ⟨settledStructs, structs⟩
  simp only [ends_bind, clearMarks, ends_modify]
  refine (ends_checkBases start _ resolved (settled_clear settledStructs.rest)).mono ?_ ?_
  swap
  · intro failure reached fails
    have named := fails.named fun index live => absurd live (not_live_clear afterStructs index)
    have held := acc_holds_of_structs resolved structs
    refine ⟨fails.fault, fails.settled.rest, fun index _ => held index, fun _ => ?_,
      fun _ => .inr ⟨held, named⟩⟩
    obtain ⟨index, cycle⟩ := named.transGen
    exact not_grounded_of_cycle resolved (fun _ _ derived => .inl derived) cycle
  rintro _ afterBases ⟨settledBases, classes⟩
  refine ⟨(@settled_clear start afterBases start.Extends settledBases.rest).rest,
    grounded_of_acc resolved structs classes, ?_⟩
  intro type member
  obtain ⟨before, _, rfl⟩ := mem_map.1 member
  rfl

end Analysis

end FlatMemory
