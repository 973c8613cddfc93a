import FlatMemory.Proofs.Session.Dispatch
import Mathlib.Algebra.BigOperators.Group.List.Basic
import Mathlib.Algebra.Ring.Nat

/-! # Hierarchies with repetitions

A class may be listed below its base more than once.  Taking the repetitions out of the lists gives
the hierarchy back, and with it the dispatch tables: a table built on lists with repetitions has the
cases it should have, in their order, but names the id of a class once for every way that leads down
to it. -/

namespace FlatMemory

open List Relation

/-! ### Lists -/

section Lists

variable {α β : Type} [BEq α] [LawfulBEq α] [BEq β] [LawfulBEq β] {items : List α} {f : α → List β}

theorem eraseDups_of_nodup (nodup : items.Nodup) : items.eraseDups = items := by
  induction items with
  | nil => rfl
  | cons a items ih =>
    obtain ⟨absent, nodup⟩ := nodup_cons.1 nodup
    have others : (items.filter fun b => !b == a) = items := by
      apply filter_eq_self.2
      intro b member
      have : b ≠ a := fun same => absent (same ▸ member)
      simpa using this
    rw [eraseDups_cons, others, ih nodup]

theorem eraseDups_concat (items : List α) (a : α) :
    (items ++ [a]).eraseDups = if a ∈ items then items.eraseDups else items.eraseDups ++ [a] := by
  rw [eraseDups_append]
  by_cases member : a ∈ items
  · simp [List.removeAll, member]
  · simp [List.removeAll, member, eraseDups_cons]

theorem removeAll_flatMap (f : α → List β) (a : α) (items : List α)
    (apart : ∀ b ∈ items, ∀ x ∈ f b, x ∈ f a → b = a) :
    (items.flatMap f).removeAll (f a) = (items.filter fun b => !b == a).flatMap f := by
  unfold List.removeAll
  induction items with
  | nil => rfl
  | cons b items ih =>
    have later := ih fun b member => apart b (mem_cons_of_mem _ member)
    rw [flatMap_cons, filter_append, later]
    by_cases same : b = a
    · have gone : ((f b).filter fun x => !(f a).elem x) = [] := by simp [same]
      rw [gone, nil_append, filter_cons_of_neg (by simp [same])]
    · have free : ((f b).filter fun x => !(f a).elem x) = f b := by
        apply filter_eq_self.2
        intro x inOther
        have : x ∉ f a := fun inFirst => same (apart b mem_cons_self x inOther inFirst)
        simpa using this
      rw [free, filter_cons_of_pos (by simpa using same), flatMap_cons]

theorem eraseDups_flatMap (items : List α)
    (apart : ∀ a ∈ items, ∀ b ∈ items, ∀ x ∈ f a, x ∈ f b → a = b) :
    (items.flatMap f).eraseDups = items.eraseDups.flatMap fun a => (f a).eraseDups := by
  match items with
  | [] => rfl
  | a :: items =>
    have others := removeAll_flatMap f a items fun b member x inOther =>
      apart b (mem_cons_of_mem _ member) a mem_cons_self x inOther
    have shorter : (items.filter fun b => !b == a).length < (a :: items).length :=
      Nat.lt_succ_of_le (length_filter_le _ _)
    rw [flatMap_cons, eraseDups_append, others, eraseDups_cons, flatMap_cons,
      eraseDups_flatMap (items.filter fun b => !b == a)]
    intro first isFirst second isSecond
    exact apart first (mem_cons_of_mem _ (mem_filter.1 isFirst).1) second
      (mem_cons_of_mem _ (mem_filter.1 isSecond).1)
termination_by items.length
decreasing_by exact shorter

theorem eraseDups_filterMap {f : α → Option β} (items : List α)
    (apart : ∀ a ∈ items, ∀ b ∈ items, ∀ x, f a = some x → f b = some x → a = b) :
    (items.filterMap f).eraseDups = items.eraseDups.filterMap f := by
  have single : ∀ a, (f a).toList.eraseDups = (f a).toList := by
    intro a
    apply eraseDups_of_nodup
    cases f a <;> simp
  rw [filterMap_eq_flatMap_toList, filterMap_eq_flatMap_toList, eraseDups_flatMap]
  · simp only [single]
  · intro a isFirst b isSecond x inFirst inSecond
    exact apart a isFirst b isSecond x (by simpa using inFirst) (by simpa using inSecond)

theorem count_flatMap_of_only {x : β} {a : α} (only : ∀ b ∈ items, x ∈ f b → b = a) :
    (items.flatMap f).count x = items.count a * (f a).count x := by
  induction items with
  | nil => simp
  | cons b items ih =>
    have later := ih fun b member => only b (mem_cons_of_mem _ member)
    rw [flatMap_cons, count_append, later, count_cons]
    by_cases same : b = a
    · subst same
      simp [Nat.add_mul, Nat.add_comm]
    · have absent : (f b).count x = 0 :=
        count_eq_zero_of_not_mem fun member => same (only b mem_cons_self member)
      simp [absent, same]

omit [BEq α] [LawfulBEq α] in
/-- A part that is closed downwards comes first, then the rest. -/
theorem filter_append_filter {early wanted : α → Bool}
    (closed : items.Pairwise fun a b => early b = true → early a = true) :
    items.filter early ++ (items.filter fun a => wanted a && !early a) =
      items.filter fun a => early a || wanted a := by
  induction items with
  | nil => rfl
  | cons a items ih =>
    obtain ⟨above, closed⟩ := pairwise_cons.1 closed
    cases isEarly : early a with
    | true => simp [isEarly, ih closed]
    | false =>
      have none : items.filter early = [] := by
        apply filter_eq_nil_iff.2
        intro b member isLater
        rw [above b member isLater] at isEarly
        cases isEarly
      have rest := ih closed
      rw [none, nil_append] at rest
      cases isWanted : wanted a <;> simp [isEarly, isWanted, none, rest]

end Lists

/-- Beginnings of an ascending list one after another: what is new comes in order. -/
theorem eraseDups_beginnings {items : List Nat} (ascending : items.Pairwise (· < ·))
    (bounds : List Nat) :
    (bounds.flatMap fun bound => items.filter (· < bound)).eraseDups =
      items.filter fun item => bounds.any (item < ·) := by
  induction bounds using List.reverseRecOn with
  | nil => simp
  | append_singleton bounds bound ih =>
    have nodup : items.Nodup := ascending.imp Nat.ne_of_lt
    have new : ((items.filter (· < bound)).removeAll
        (bounds.flatMap fun bound => items.filter (· < bound))) =
        items.filter fun item => decide (item < bound) && !bounds.any (item < ·) := by
      rw [List.removeAll, filter_filter]
      apply filter_congr
      intro item member
      rw [Bool.and_comm]
      congr 2
      rw [Bool.eq_iff_iff]
      simp [member]
    have closed : items.Pairwise fun a b => bounds.any (b < ·) = true →
        bounds.any (a < ·) = true := by
      apply ascending.imp
      intro a b before isLater
      simp only [any_eq_true, decide_eq_true_eq] at isLater ⊢
      obtain ⟨bound, member, below⟩ := isLater
      exact ⟨bound, member, by omega⟩
    rw [flatMap_append, flatMap_singleton, eraseDups_append, ih, new,
      eraseDups_of_nodup (nodup.filter _), filter_append_filter closed]
    simp

/-! ### Cases -/

def DispatchCase.once (entry : DispatchCase) : DispatchCase :=
  { entry with ids := entry.ids.eraseDups }

def Dispatcher.once (dispatcher : Dispatcher) : Dispatcher :=
  { dispatcher with cases := dispatcher.cases.map DispatchCase.once }

/-- A type with every repetition taken out. -/
def UserType.once (type : UserType) : UserType :=
  { type with
    subclasses := type.subclasses.eraseDups
    dispatchers := type.dispatchers.map Dispatcher.once }

namespace Session

variable {session : Session} {index : Nat} {times : Nat → Nat} {first second : Session}
  {lower sub : Nat}

def once (session : Session) : Session := ⟨session.types.map UserType.once⟩

theorem implementations_addCase (cases : List DispatchCase) (implementation : String) (id : Nat) :
    (addCase cases implementation id).map DispatchCase.implementation =
      if implementation ∈ cases.map DispatchCase.implementation then
        cases.map DispatchCase.implementation
      else cases.map DispatchCase.implementation ++ [implementation] := by
  induction cases with
  | nil => simp [addCase]
  | cons first later ih =>
    unfold addCase
    by_cases same : first.implementation = implementation
    · simp [same]
    · rw [if_neg same, map_cons, ih, map_cons]
      by_cases member : implementation ∈ later.map DispatchCase.implementation
      · rw [if_pos member, if_pos (mem_cons_of_mem _ member)]
      · rw [if_neg member, if_neg fun isMember =>
          (mem_cons.1 isMember).elim (fun here => same here.symm) member, cons_append]

theorem nodup_implementations (entries : List (String × Nat)) :
    ((entries.foldl (fun cases entry => addCase cases entry.1 entry.2) []).map
      DispatchCase.implementation).Nodup := by
  induction entries using List.reverseRecOn with
  | nil => exact nodup_nil
  | append_singleton entries entry ih =>
    rw [foldl_append, foldl_cons, foldl_nil, implementations_addCase]
    split
    · exact ih
    · next absent =>
      refine nodup_append.2 ⟨ih, nodup_singleton _, ?_⟩
      rintro old isOld new isNew rfl
      exact absent (mem_singleton.1 isNew ▸ isOld)

theorem once_addCase {cases : List DispatchCase} (implementation : String) (id : Nat)
    (nodup : (cases.map DispatchCase.implementation).Nodup) :
    (Sends cases implementation id →
      (addCase cases implementation id).map DispatchCase.once = cases.map DispatchCase.once) ∧
    (¬ Sends cases implementation id →
      (addCase cases implementation id).map DispatchCase.once =
        addCase (cases.map DispatchCase.once) implementation id) := by
  induction cases with
  | nil =>
    refine ⟨fun sends => by simp [Sends] at sends, fun _ => ?_⟩
    simp [addCase, DispatchCase.once, eraseDups_cons]
  | cons first later ih =>
    obtain ⟨absent, nodup⟩ := nodup_cons.1 nodup
    obtain ⟨known, unknown⟩ := ih nodup
    rw [sends_cons, map_cons]
    unfold addCase
    by_cases same : first.implementation = implementation
    · have notLater : ¬ Sends later implementation id := by
        rintro ⟨entry, member, named, _⟩
        exact absent (mem_map.2 ⟨entry, member, named.trans same.symm⟩)
      have concat := eraseDups_concat first.ids id
      simp only [same, true_and, notLater, or_false, if_true, map_cons, DispatchCase.once]
      refine ⟨fun member => ?_, fun absent => ?_⟩
      · rw [concat, if_pos member]
      · rw [concat, if_neg absent]
    · have sameOnce : first.once.implementation ≠ implementation := same
      simp only [same, false_and, false_or, if_false, sameOnce, map_cons]
      exact ⟨fun sends => by rw [known sends], fun silent => by rw [unknown silent]⟩

theorem once_collected (entries : List (String × Nat)) :
    (entries.foldl (fun cases entry => addCase cases entry.1 entry.2) []).map DispatchCase.once =
      entries.eraseDups.foldl (fun cases entry => addCase cases entry.1 entry.2) [] := by
  induction entries using List.reverseRecOn with
  | nil => rfl
  | append_singleton entries entry ih =>
    obtain ⟨known, unknown⟩ :=
      once_addCase entry.1 entry.2 (nodup_implementations entries)
    rw [sends_collected] at known unknown
    rw [foldl_append, foldl_cons, foldl_nil, eraseDups_concat]
    by_cases member : entry ∈ entries
    · rw [known member, if_pos member, ih]
    · rw [unknown member, if_neg member, ih, foldl_append, foldl_cons, foldl_nil]

/-! ### Hierarchies -/

/-- Every class is listed below its base, in the order of registration if repetitions are taken out.
A class is listed as many times as `times` says. -/
structure Listed (session : Session) (times : Nat → Nat) : Prop where
  order : ∀ (index : Nat) (type : UserType), session.types[index]? = some type →
    type.subclasses.eraseDups =
      (List.range session.types.length).filter fun sub => session.baseAt sub = some index
  count : ∀ (index : Nat) (type : UserType) (sub : Nat), session.types[index]? = some type →
    session.baseAt sub = some index → type.subclasses.count sub = times sub

theorem Listed.mem (listed : Listed session times) {type : UserType}
    (found : session.types[index]? = some type) (sub : Nat) :
    sub ∈ type.subclasses ↔ session.baseAt sub = some index := by
  rw [← mem_eraseDups, listed.order index type found, mem_filter, mem_range,
    decide_eq_true_eq, and_iff_right_iff_imp]
  exact baseAt_lt

@[simp] theorem once_getElem? (session : Session) (index : Nat) :
    session.once.types[index]? = (session.types[index]?).map UserType.once := by
  simp [once]

theorem Agree.inherits (same : Agree UserType.shape first second) (derived base : Nat) :
    first.Inherits derived base ↔ second.Inherits derived base := by
  unfold Inherits
  simp only [same.baseAt]

/-- Repetitions are all that is taken out. -/
theorem once_agree {α : Type} (session : Session) (view : UserType → α)
    (unseen : ∀ type, view type.once = view type) : Agree view session.once session := by
  simp [Agree, once, unseen]

theorem once_shape (session : Session) : Agree UserType.shape session session.once :=
  (session.once_agree UserType.shape fun _ => rfl).symm

theorem Listed.linked_once (listed : Listed session times) : Linked session.once := by
  have shape := session.once_shape.symm
  intro index type found
  rw [once_getElem?] at found
  obtain ⟨before, there, rfl⟩ := Option.map_eq_some_iff.1 found
  change before.subclasses.eraseDups = _
  rw [listed.order index before there, shape.length]
  simp only [shape.baseAt]

theorem Wellformed.not_inherits_derived (wellformed : Wellformed session)
    (derived : session.baseAt lower = some index) : ¬ session.Inherits index lower := by
  intro inherits
  have climbed := wellformed.level_base (baseAt_lt derived) derived
  rcases wellformed.level_inherits (wellformed.resolved.baseAt_lt derived) inherits with
    same | higher
  · subst same
    omega
  · omega

theorem Wellformed.branch_unique (wellformed : Wellformed session) {first second place : Nat}
    (isFirst : session.baseAt first = some index) (isSecond : session.baseAt second = some index)
    (inside : place < session.types.length) (toFirst : session.Inherits place first)
    (toSecond : session.Inherits place second) :
    first = second := by
  have firstLevel := wellformed.level_base (baseAt_lt isFirst) isFirst
  have secondLevel := wellformed.level_base (baseAt_lt isSecond) isSecond
  exact wellformed.ancestor_unique inside toFirst toSecond (by omega)

theorem Wellformed.enough_below (wellformed : Wellformed session) {depth : Nat}
    (derived : session.baseAt sub = some index)
    (enough : session.types.length < depth + 1 + session.level index) :
    session.types.length < depth + session.level sub := by
  have climbed := wellformed.level_base (baseAt_lt derived) derived
  omega

section Subtree

variable (wellformed : Wellformed session) (listed : Listed session times)

include wellformed listed

theorem mem_of_eraseDups_subtreeUpTo {depth place : Nat} (inside : index < session.types.length)
    (enough : session.types.length < depth + session.level index)
    (same : (session.subtreeUpTo depth index).eraseDups = session.once.subtreeUpTo depth index)
    (member : place ∈ session.subtreeUpTo depth index) :
    place < session.types.length ∧ session.Inherits place index := by
  have shape := session.once_shape
  have level : session.once.level index = session.level index := by
    rw [Session.level, Session.level, shape.ancestry]
  rw [← mem_eraseDups, same,
    (wellformed.agree shape).mem_subtreeUpTo listed.linked_once place depth index
      (shape.length ▸ inside) (by rw [level, ← shape.length]; exact enough),
    ← shape.length] at member
  exact ⟨member.1, (shape.inherits place index).2 member.2⟩

/-- The subtree without repetitions, as far down as the walk goes. -/
theorem eraseDups_subtreeUpTo : ∀ (depth index : Nat), index < session.types.length →
    session.types.length < depth + session.level index →
    (session.subtreeUpTo depth index).eraseDups = session.once.subtreeUpTo depth index := by
  intro depth
  induction depth with
  | zero => intro index _ _; rfl
  | succ depth ih =>
    intro index inside enough
    have found := getElem?_eq_getElem inside
    have subs : ∀ sub ∈ session.types[index].subclasses, session.baseAt sub = some index :=
      fun sub => (listed.mem found sub).1
    have again : ∀ sub, session.baseAt sub = some index →
        (session.subtreeUpTo depth sub).eraseDups = session.once.subtreeUpTo depth sub :=
      fun sub derived => ih sub (baseAt_lt derived) (wellformed.enough_below derived enough)
    have members : ∀ sub, session.baseAt sub = some index → ∀ place ∈
        session.subtreeUpTo depth sub, place < session.types.length ∧ session.Inherits place sub :=
      fun sub derived place => mem_of_eraseDups_subtreeUpTo wellformed listed (baseAt_lt derived)
        (wellformed.enough_below derived enough) (again sub derived)
    -- No walk below a direct subclass meets the class itself or a walk below another one.
    have apart : ∀ first ∈ session.types[index].subclasses,
        ∀ second ∈ session.types[index].subclasses, ∀ place ∈ session.subtreeUpTo depth first,
          place ∈ session.subtreeUpTo depth second → first = second := by
      intro first isFirst second isSecond place inFirst inSecond
      obtain ⟨placeInside, toFirst⟩ := members first (subs first isFirst) place inFirst
      obtain ⟨_, toSecond⟩ := members second (subs second isSecond) place inSecond
      exact wellformed.branch_unique (subs first isFirst) (subs second isSecond) placeInside toFirst
        toSecond
    have fresh : ∀ place ∈ session.types[index].subclasses.flatMap (session.subtreeUpTo depth),
        place ≠ index := by
      rintro place member rfl
      obtain ⟨sub, isSub, member⟩ := mem_flatMap.1 member
      obtain ⟨_, inherits⟩ := members sub (subs sub isSub) place member
      exact wellformed.not_inherits_derived (subs sub isSub) inherits
    rw [subtreeUpTo, subtreeUpTo, once_getElem?, found, Option.map_some, Option.getD_some,
      Option.map_some, Option.map_some, Option.getD_some, eraseDups_cons,
      filter_eq_self.2 fun place member => by simpa using fresh place member,
      eraseDups_flatMap _ apart]
    congr 1
    exact flatMap_congr fun sub isSub => again sub (subs sub (mem_eraseDups.1 isSub))

theorem eraseDups_subtree (inside : index < session.types.length) :
    (session.subtree index).eraseDups = session.once.subtree index := by
  have := wellformed.level_pos inside
  have length : session.once.types.length = session.types.length := by simp [once]
  rw [subtree, subtree, length]
  exact eraseDups_subtreeUpTo wellformed listed _ index inside (by omega)

theorem mem_subtree_listed (inside : index < session.types.length) (place : Nat) :
    place ∈ session.subtree index ↔
      place < session.types.length ∧ session.Inherits place index := by
  have shape := session.once_shape
  rw [← mem_eraseDups, eraseDups_subtree wellformed listed inside,
    (wellformed.agree shape).mem_subtree listed.linked_once (shape.length ▸ inside),
    ← shape.length, shape.inherits]

end Subtree

/-- The classes from one up to, and without, a class above it. -/
def pathBelow (session : Session) (sub index : Nat) : List Nat :=
  (session.ancestry sub).takeWhile fun place => place ≠ index

theorem Wellformed.pathBelow_self (wellformed : Wellformed session)
    (inside : index < session.types.length) : session.pathBelow index index = [] := by
  simp [pathBelow, wellformed.ancestry_eq inside]

theorem Wellformed.pathBelow_step (wellformed : Wellformed session)
    (derived : session.baseAt lower = some index) (inside : sub < session.types.length)
    (inherits : session.Inherits sub lower) :
    session.pathBelow sub index = session.pathBelow sub lower ++ [lower] := by
  have aboveInside := wellformed.resolved.baseAt_lt derived
  induction inherits using ReflTransGen.head_induction_on with
  | refl =>
    have apart : lower ≠ index := by
      rintro rfl
      exact wellformed.not_inherits_derived derived .refl
    rw [wellformed.pathBelow_self inside]
    simp [pathBelow, wellformed.ancestry_eq inside, derived, wellformed.ancestry_eq aboveInside,
      apart]
  | @head first second step inherits ih =>
    have secondInside := wellformed.resolved.baseAt_lt step
    have notLower : first ≠ lower := by
      rintro rfl
      exact wellformed.not_inherits_derived step inherits
    have notIndex : first ≠ index := by
      rintro rfl
      exact wellformed.not_inherits_derived step (inherits.tail derived)
    have here : ∀ place, first ≠ place →
        session.pathBelow first place = first :: session.pathBelow second place := by
      intro place apart
      simp [pathBelow, wellformed.ancestry_eq inside, step, apart]
    rw [here index notIndex, here lower notLower, ih secondInside, cons_append]

section Count

variable (wellformed : Wellformed session) (listed : Listed session times)

include wellformed listed

theorem count_subtreeUpTo (subInside : sub < session.types.length) :
    ∀ (depth index : Nat), index < session.types.length →
      session.types.length < depth + session.level index → session.Inherits sub index →
      (session.subtreeUpTo depth index).count sub =
        ((session.pathBelow sub index).map times).prod := by
  intro depth
  induction depth with
  | zero =>
    intro index inside enough
    have := wellformed.level_le inside
    omega
  | succ depth ih =>
    intro index inside enough inherits
    have found := getElem?_eq_getElem inside
    have member : ∀ lower, session.baseAt lower = some index →
        sub ∈ session.subtreeUpTo depth lower → session.Inherits sub lower := by
      intro lower derived isMember
      have lowerEnough := wellformed.enough_below derived enough
      exact (mem_of_eraseDups_subtreeUpTo wellformed listed (baseAt_lt derived) lowerEnough
        (eraseDups_subtreeUpTo wellformed listed depth lower (baseAt_lt derived) lowerEnough)
        isMember).2
    rw [subtreeUpTo, found, Option.map_some, Option.getD_some, count_cons]
    rcases ReflTransGen.cases_tail inherits with same | ⟨lower, inherits, derived⟩
    · subst same
      have absent : (session.types[index].subclasses.flatMap
          (session.subtreeUpTo depth)).count index = 0 := by
        apply count_eq_zero_of_not_mem
        intro isMember
        obtain ⟨lower, isLower, isMember⟩ := mem_flatMap.1 isMember
        have derived := (listed.mem found lower).1 isLower
        exact wellformed.not_inherits_derived derived (member lower derived isMember)
      rw [absent, wellformed.pathBelow_self subInside]
      simp
    · have apart : index ≠ sub := by
        rintro rfl
        exact wellformed.not_inherits_derived derived inherits
      have only : ∀ other ∈ session.types[index].subclasses,
          sub ∈ session.subtreeUpTo depth other → other = lower := by
        intro other isOther isMember
        have otherDerived := (listed.mem found other).1 isOther
        exact wellformed.branch_unique otherDerived derived subInside
          (member other otherDerived isMember) inherits
      rw [count_flatMap_of_only only, listed.count index _ lower found derived,
        ih lower (baseAt_lt derived) (wellformed.enough_below derived enough) inherits,
        wellformed.pathBelow_step derived subInside inherits]
      simp [apart, Nat.mul_comm]

/-- A class stands in the subtree of another once for each way down to it. -/
theorem count_subtree (inside : index < session.types.length)
    (subInside : sub < session.types.length) (inherits : session.Inherits sub index) :
    (session.subtree index).count sub = ((session.pathBelow sub index).map times).prod := by
  have := wellformed.level_pos inside
  exact count_subtreeUpTo wellformed listed subInside _ index inside (by omega) inherits

end Count

/-! ### Dispatchers -/

section Tables

variable (wellformed : Wellformed session) (listed : Listed session times) (tagged : Tagged session)
  {type : UserType} (found : session.types[index]? = some type) (isClass : type.isClass = true)

include wellformed listed tagged found isClass

omit tagged in
theorem caseFor_origin {name : String} {entry : String × Nat} (member : sub ∈ session.subtree index)
    (adds : session.caseFor name type.base? sub = some entry) :
    ∃ subType, session.types[sub]? = some subType ∧ subType.isClass = true ∧
      subType.classId = entry.2 := by
  obtain ⟨_, inherits⟩ :=
    (mem_subtree_listed wellformed listed (lt_of_getElem? found) sub).1 member
  obtain ⟨_, subType, _, subFound, rfl⟩ := caseFor_eq_some adds
  exact ⟨subType, subFound,
    wellformed.resolved.isClass_of_inherits found isClass inherits subFound, rfl⟩

theorem caseFor_injective (name : String) : ∀ first ∈ session.subtree index,
    ∀ second ∈ session.subtree index, ∀ entry,
      session.caseFor name type.base? first = some entry →
      session.caseFor name type.base? second = some entry → first = second := by
  intro first isFirst second isSecond entry firstAdds secondAdds
  obtain ⟨one, oneFound, oneClass, oneId⟩ :=
    caseFor_origin wellformed listed found isClass isFirst firstAdds
  obtain ⟨other, otherFound, otherClass, otherId⟩ :=
    caseFor_origin wellformed listed found isClass isSecond secondAdds
  exact tagged.classId_injective oneFound otherFound oneClass otherClass (oneId.trans otherId.symm)

/-- A table without repetitions is the table of the hierarchy without repetitions. -/
theorem once_dispatchers :
    (session.dispatchers index type).map Dispatcher.once =
      session.once.dispatchers index type.once := by
  have shape := session.once_shape
  have tags := (session.once_agree UserType.tag fun _ => rfl).symm
  have base : type.once.base? = type.base? := rfl
  unfold dispatchers
  rw [List.map_map, ← shape.visibleVirtuals]
  refine map_congr_left fun method _ => ?_
  have cases : (session.dispatchCases (session.subtree index) method.name type.base?).map
      DispatchCase.once =
        session.once.dispatchCases (session.once.subtree index) method.name type.base? := by
    rw [dispatchCases_eq, dispatchCases_eq, once_collected,
      eraseDups_filterMap _ (caseFor_injective wellformed listed tagged found isClass method.name),
      eraseDups_subtree wellformed listed (lt_of_getElem? found), shape.caseFor tags]
  have falls : session.fallback type method.name =
      session.once.fallback type.once method.name := shape.fallback rfl method.name
  simp only [Function.comp_apply, Dispatcher.once, cases, falls, base]

/-- How often a table names a class that it names: once for each way down to it. -/
theorem count_ids {dispatcher : Dispatcher} (member : dispatcher ∈ session.dispatchers index type)
    {subType : UserType} (subFound : session.types[sub]? = some subType)
    (inherits : session.Inherits sub index)
    (named : subType.classId ∈ dispatcher.cases.flatMap DispatchCase.ids) :
    (dispatcher.cases.flatMap DispatchCase.ids).count subType.classId =
      ((session.pathBelow sub index).map times).prod := by
  obtain ⟨method, _, rfl⟩ := mem_map.1 member
  have inside := lt_of_getElem? found
  have subInside := lt_of_getElem? subFound
  have collected := ids_collected
    ((session.subtree index).filterMap (session.caseFor method.name type.base?))
  rw [← dispatchCases_eq] at collected
  -- The class that adds the id is the class itself.
  have adder : ∀ place ∈ session.subtree index, ∀ entry,
      session.caseFor method.name type.base? place = some entry →
      (entry.2 = subType.classId ↔ place = sub) := by
    intro place isPlace entry adds
    obtain ⟨placeType, placeFound, placeClass, isId⟩ :=
      caseFor_origin wellformed listed found isClass isPlace adds
    constructor
    · intro same
      exact tagged.classId_injective placeFound subFound placeClass
        (wellformed.resolved.isClass_of_inherits found isClass inherits subFound)
        (isId.trans same)
    · rintro rfl
      rw [subFound] at placeFound
      cases placeFound
      exact isId.symm
  obtain ⟨entry, isEntry, same⟩ := mem_map.1 (collected.mem_iff.1 named)
  obtain ⟨place, isPlace, adds⟩ := mem_filterMap.1 isEntry
  obtain rfl := (adder place isPlace entry adds).1 same
  rw [collected.count_eq, map_filterMap, count_filterMap,
    ← count_subtree wellformed listed inside subInside inherits, List.count]
  apply countP_congr
  intro other isOther
  cases otherAdds : session.caseFor method.name type.base? other with
  | none =>
    have apart : other ≠ place := by
      rintro rfl
      rw [adds] at otherAdds
      cases otherAdds
    simpa using apart
  | some otherEntry => simpa using adder other isOther otherEntry otherAdds

end Tables

end Session

end FlatMemory
